import ValueCore.Proofs.World.Leads

/-!
# Worlds without values of the host

In a world in which no value is the host's (`Plain`), the host is not asked anything when values are hashed,
compared or written. The same goes for the values of any part of a world that has none of the host's and is
closed under what containers contain (`Region`). All that changes meanwhile is which tables are held: such
computations run in worlds of the same stores (`SameStores`).

A relation between worlds is a `Drift` if nothing outside of tables, structs and the host's part matters to it
and it goes on from world to world. What a computation does is then told by how far it drifts, whether it
returns or fails.
-/

namespace ValueCore

open World

variable {ε α β : Type} {w w' v u : World ε} {kind : KeyKind} {t : TableId kind}

/-- A value that is not the host's. -/
def Value.Plain : Value → Prop
  | .host _ => False
  | _ => True

instance : DecidablePred Value.Plain
  | .host _ => .isFalse id
  | .none | .bool _ | .int _ | .float _ | .str _ | .dict _ | .struct _ => .isTrue trivial

/-- A key that is not the host's. -/
def PlainKey : {kind : KeyKind} → kind.Key → Prop
  | .any, key => Value.Plain key
  | .text, _ => True

instance : {kind : KeyKind} → (key : kind.Key) → Decidable (PlainKey key)
  | .any, key => inferInstanceAs (Decidable (Value.Plain key))
  | .text, _ => .isTrue trivial

/-- Neither the key nor the value is the host's. -/
def PlainItem (item : kind.Key × Value) : Prop := PlainKey item.1 ∧ item.2.Plain

namespace World

/-- No value is the host's. -/
structure Plain (w : World ε) : Prop where
  tables : ∀ {kind : KeyKind} (t : TableId kind), (w.table t).Sound
  items : ∀ {kind : KeyKind} (t : TableId kind), ∀ item ∈ (w.table t).items, PlainItem item
  ctors : ∀ s : StructId, (w.struct s).ctor.Plain

/-- The same structs, and the same tables but for who holds them and whether they are frozen. -/
structure SameStores (w w' : World ε) : Prop where
  tables : ∀ {kind : KeyKind} (t : TableId kind), Table.SameStore (w.table t) (w'.table t)
  structs : w'.structs = w.structs

theorem table_modifyTable_of_not_has {kind' : KeyKind} {t : TableId kind} (f : Table kind.Key → Table kind.Key)
    (ht : ¬ w.Has t) (t' : TableId kind') : (w.modifyTable t f).table t' = w.table t' := by
  by_cases h : (⟨kind', t'⟩ : TableRef) = ⟨kind, t⟩
  · cases h
    rw [table_of_not_has t ht, table_of_not_has t (by rwa [has_modifyTable])]
  · exact table_modifyTable_of_ne f h

namespace SameStores

theorem refl (w : World ε) : SameStores w w := ⟨fun _ => .refl _, rfl⟩

theorem trans (h : SameStores w v) (h' : SameStores v u) : SameStores w u :=
  ⟨fun t => (h.tables t).trans (h'.tables t), h'.structs.trans h.structs⟩

theorem of_alike (h : Alike w v) : SameStores w v := ⟨fun t => h.table t ▸ .refl _, h.structs⟩

theorem alike (h : SameStores w v) (ha : Alike v u) : SameStores w u := h.trans (.of_alike ha)

/-- Holding, letting go and freezing leave the stores as they are. -/
theorem flags (t : TableId kind) (f : Table kind.Key → Table kind.Key)
    (hf : ∀ T, Table.SameStore T (f T)) : SameStores w (w.modifyTable t f) := by
  refine ⟨?_, structs_modifyTable t f⟩
  intro k t'
  by_cases ht : w.Has t
  · exact table_modifyTable_cases t f ht (P := fun u T => Table.SameStore (w.table u) T) (hf _) (fun u _ => .refl _) t'
  · rw [table_modifyTable_of_not_has f ht]
    exact .refl _

theorem held (h : SameStores w v) (t : TableId kind) : SameStores w (v.held t) := h.trans (.flags t _ fun _ => .flags _ _ _)

theorem struct (h : SameStores w v) (s : StructId) : v.struct s = w.struct s := by simp only [World.struct, h.structs]

theorem items (h : SameStores w v) (t : TableId kind) : (v.table t).items = (w.table t).items := (h.tables t).kept.items_eq

theorem length (h : SameStores w v) (t : TableId kind) : (v.table t).length = (w.table t).length := by rw [h.tables t]

theorem candidates (h : SameStores w v) (t : TableId kind) (hash : UInt32) :
    (v.table t).candidates hash = (w.table t).candidates hash := by rw [h.tables t]; rfl

theorem slot (h : SameStores w v) (t : TableId kind) (i : Nat) : (v.table t).slot i = (w.table t).slot i := by
  rw [h.tables t]; rfl

end SameStores

theorem Plain.same (h : w.Plain) (hs : SameStores w v) : v.Plain := by
  refine ⟨fun t => ?_, fun t => ?_, fun s => ?_⟩
  · rw [hs.tables t]
    exact (h.tables t).flags _ _
  · rw [hs.items t]
    exact h.items t
  · rw [hs.struct s]
    exact h.ctors s

theorem Plain.alike (h : w.Plain) (ha : Alike w v) : v.Plain := h.same (.of_alike ha)

/-- A set of values, none of them the host's, that has with a container everything in it. -/
structure Region (w : World ε) (C : Value → Prop) : Prop where
  tables : ∀ {kind : KeyKind} (t : TableId kind), (w.table t).Sound
  plain : ∀ {x : Value}, C x → x.Plain
  item : ∀ {t : TableId .any}, C (.dict t) → ∀ item ∈ (w.table t).items, C item.1 ∧ C item.2
  ctor : ∀ {s : StructId}, C (.struct s) → C (w.struct s).ctor
  field : ∀ {s : StructId}, C (.struct s) → ∀ item ∈ (w.table (w.struct s).fields).items, C item.2

/-- The values of a plain world. -/
theorem Plain.region (h : w.Plain) : w.Region Value.Plain :=
  ⟨h.tables, id, fun _ item hm => h.items _ item hm, fun _ => h.ctors _, fun _ item hm => (h.items _ item hm).2⟩

/-- The candidates for a key are keys of the table. -/
theorem Region.candidate {C : Value → Prop} (h : w.Region C) {t : TableId .any} (ht : C (.dict t)) {hash : UInt32}
    {c : Nat × Value} (hc : c ∈ (w.table t).candidates hash) : C c.2 := by
  obtain ⟨e, _, _, hk, hm⟩ := (h.tables t).item_of_candidate hc
  rw [← hk]
  exact (h.item ht _ hm).1

/-- Hashing the value comes to a value of the host. -/
inductive Hosted (w : World ε) : Value → Prop
  | host (i : HostId) : Hosted w (.host i)
  | field {s : StructId} {item : Bytes × Value} : item ∈ (w.table (w.struct s).fields).items → Hosted w item.2 →
    Hosted w (.struct s)

theorem Region.not_hosted {C : Value → Prop} (h : w.Region C) {x : Value} (hx : C x) : ¬ w.Hosted x := by
  intro hh
  induction hh with
  | host i => exact h.plain hx
  | field hm _ ih => exact ih (h.field hx _ hm)

/-- A world stays plain when one of its tables is changed and stays plain. -/
theorem Plain.beside {kind : KeyKind} {t : TableId kind} (h : w.Plain) (hb : Beside t w v) (hs : (v.table t).Sound)
    (hi : ∀ item ∈ (v.table t).items, PlainItem item) : v.Plain := by
  refine ⟨fun {k} u => ?_, fun {k} u => ?_, fun s => ?_⟩
  · by_cases hu : (⟨k, u⟩ : TableRef) = ⟨kind, t⟩
    · cases hu
      exact hs
    · rw [hb.table u hu]
      exact h.tables u
  · by_cases hu : (⟨k, u⟩ : TableRef) = ⟨kind, t⟩
    · cases hu
      exact hi
    · rw [hb.table u hu]
      exact h.items u
  · rw [show v.struct s = w.struct s by simp only [World.struct, hb.structs]]
    exact h.ctors s

end World

/-! ## Drifting -/

/-- A relation that goes on from world to world, and to which nothing outside of tables, structs and the
host's part matters. -/
structure Drift (R : World ε → World ε → Prop) : Prop where
  alike : ∀ {w v : World ε}, Alike w v → R w v
  trans : ∀ {w v u : World ε}, R w v → R v u → R w u

namespace Drift

variable {R : World ε → World ε → Prop}

theorem pure (hR : Drift R) (a : α) : R w ((pure a : Run ε α) w).2 := hR.alike (.refl w)

theorem throw (hR : Drift R) (e : Failure) : R w ((throw e : Run ε α) w).2 := hR.alike (.refl w)

theorem raise (hR : Drift R) (f : Fault) : R w ((raise f : Run ε α) w).2 := hR.alike ⟨rfl, rfl, rfl, rfl⟩

theorem asks (hR : Drift R) {act : Run ε α} (h : Asks w act) : R w (act w).2 := hR.alike h.alike

theorem bind (hR : Drift R) {x : Run ε α} {f : α → Run ε β} (hx : R w (x w).2)
    (hf : ∀ a v, x w = (.ok a, v) → R w v → R v (f a v).2) : R w ((x >>= f) w).2 := by
  cases hr : x w with
  | mk r v =>
    rw [hr] at hx
    cases r with
    | error e =>
      rw [run_bind_error hr]
      exact hx
    | ok a =>
      rw [run_bind_ok hr]
      exact hR.trans hx (hf a v hr hx)

theorem map (hR : Drift R) {x : Run ε α} (f : α → β) (hx : R w (x w).2) : R w ((f <$> x) w).2 := by
  rw [map_eq_pure_bind]
  exact hR.bind hx fun _ _ _ _ => hR.pure _

theorem afterwards (hR : Drift R) {act : Run ε α} {cleanUp : World ε → World ε} (h : R w (act w).2)
    (hc : ∀ v, Alike v (cleanUp v)) : R w (afterwards act cleanUp w).2 := hR.trans h (hR.alike (hc _))

theorem protect (hR : Drift R) {act : Run ε α} (h : R w (act w).2) : R w (protect act w).2 :=
  hR.trans h (hR.alike (alike_protect act))

theorem withScratch (hR : Drift R) {count size : Nat} {act : Run ε α} (h : ∀ v, Alike w v → R v (act v).2) :
    R w (withScratch count size act w).2 := by
  unfold ValueCore.withScratch
  refine hR.bind (hR.asks (asks_allocateElements count size)) fun b v hr _ => ?_
  have hv := (asks_allocateElements count size (w := w)).alike
  rw [hr] at hv
  exact hR.afterwards (h v hv) fun _ => alike_freed _ _

theorem onTrail (hR : Drift R) {act : Run ε α} (h : ∀ v, Alike w v → R v (act v).2) : R w (onTrail act w).2 := by
  rw [run_onTrail]
  exact hR.trans (hR.alike (alike_newTrail w)) (hR.trans (h _ (alike_newTrail w)) (hR.alike (alike_offTrail _ _)))

theorem newObject (hR : Drift R) {bytes : Nat} {make : Run ε α} (h : ∀ v, Alike w v → R v (make v).2) :
    R w (newObject bytes make w).2 := by
  unfold ValueCore.newObject
  refine hR.bind (hR.asks (asks_allocate bytes)) fun b v hr _ => ?_
  have hv := (asks_allocate bytes (w := w)).alike
  rw [hr] at hv
  have hm := h v hv
  unfold madeIn
  cases hmake : make v with
  | mk r u =>
    rw [hmake] at hm
    cases r with
    | error e => exact hR.trans hm (hR.alike (alike_freed _ _))
    | ok a => exact hR.trans hm (hR.alike ⟨rfl, rfl, rfl, rfl⟩)

theorem forM (hR : Drift R) {f : α → Run ε Unit} (l : List α) (hf : ∀ x ∈ l, ∀ v, R w v → R v (f x v).2) :
    R w (l.forM f w).2 :=
  forM_keeps (P := R w) l (hR.alike (.refl w)) fun x hx v hv => hR.trans hv (hf x hx v hv)

theorem mapM (hR : Drift R) {f : α → Run ε β} : ∀ (l : List α) {w : World ε},
    (∀ x ∈ l, ∀ v, R w v → R v (f x v).2) → R w (l.mapM f w).2
  | [], _, _ => by
    rw [List.mapM_nil]
    exact hR.pure _
  | x :: l, w, hf => by
    rw [List.mapM_cons]
    refine hR.bind (hf x List.mem_cons_self w (hR.alike (.refl w))) fun _ v _ hv => ?_
    refine hR.bind (mapM hR l fun y hy u hu => hf y (List.mem_cons_of_mem _ hy) u (hR.trans hv hu)) ?_
    exact fun _ _ _ _ => hR.pure _

end Drift

theorem same_drift : Drift (SameStores (ε := ε)) := ⟨.of_alike, .trans⟩

/-- The same world, if it is one with the stores of `w`. -/
def World.Undisturbed (w u v : World ε) : Prop := SameStores w u → Alike u v

theorem undisturbed_drift (w : World ε) : Drift w.Undisturbed := by
  refine ⟨fun ha _ => ha, fun h h' hu => ?_⟩
  have ha := h hu
  exact ha.trans (h' (hu.alike ha))

/-- What is undisturbed stays so while a table is held. -/
theorem undisturbed_holding {t : TableId kind} {act : Run ε α} (h : ∀ v, w.Undisturbed v (act v).2) :
    w.Undisturbed v (holding t act v).2 := by
  intro hv
  cases hf : (v.table t).frozen with
  | true =>
    rw [run_holding_of_frozen hf]
    exact h v hv
  | false =>
    rw [run_holding hf]
    exact letGo_held t (h _ (hv.held t))

/-- The same world, if there are no values of the host. -/
def Calm (w w' : World ε) : Prop := w.Plain → Alike w w'

theorem Calm.of_run {act : Run ε α} {r : Except Failure α} (h : Calm w (act w).2) (hr : act w = (r, v)) (hw : w.Plain) :
    Alike w v := by
  rw [hr] at h
  exact h hw

theorem calm_drift : Drift (Calm (ε := ε)) := by
  refine ⟨fun ha _ => ha, fun h h' hw => ?_⟩
  have ha := h hw
  exact ha.trans (h' (hw.alike ha))

/-- What is calm stays so while a table is held. -/
theorem calm_holding {t : TableId kind} {act : Run ε α} (h : ∀ v, SameStores w v → Calm v (act v).2) :
    Calm w (holding t act w).2 := by
  intro hw
  cases hf : (w.table t).frozen with
  | true =>
    rw [run_holding_of_frozen hf]
    exact h w (.refl w) hw
  | false =>
    have hheld := (SameStores.refl w).held t
    rw [run_holding hf]
    exact letGo_held t (h _ hheld (hw.same hheld))

end ValueCore
