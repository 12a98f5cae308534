import ValueCore.Proofs.Operations.Keys

/-!
# Operations that bring no key into a dict

All operations but insertions into tables of values take keys away at most, if there are no values of the host
(`Operation.prunes`). Most of them leave the stores as they are, or touch tables of byte strings only.
-/

namespace ValueCore

open World

variable {ε : Type} {w w' v u : World ε} {kind : KeyKind} {t : TableId kind} {host : Host ε}

/-! ## Reading and freezing -/

section
variable {keying : Keying ε kind.Key} {key : kind.Key}

theorem calm_findSlot (hq : keying.Quiet key) : Calm w (findSlot keying t key w).2 :=
  calm_drift.bind (hq.hash w) fun _ _ _ _ => calm_scan hq

theorem calm_lookup (hq : keying.Quiet key) : Calm w (lookup keying t key w).2 := by
  refine calm_drift.bind (calm_findSlot hq) fun found v _ _ => ?_
  cases found with
  | none => exact calm_drift.pure _
  | some i => exact calm_drift.bind (calm_drift.alike (.refl v)) fun _ _ _ _ => calm_drift.pure _

end

theorem calm_keyList (t : TableId kind) : Calm w (keyList t w).2 :=
  calm_drift.bind (calm_drift.alike (.refl w)) fun _ _ _ _ => calm_drift.withScratch fun _ _ => calm_drift.pure _

theorem calm_itemList (t : TableId kind) : Calm w (itemList t w).2 :=
  calm_drift.bind (calm_drift.alike (.refl w)) fun _ _ _ _ => calm_drift.withScratch fun _ _ => calm_drift.pure _

theorem calm_field? (s : StructId) (name : Bytes) : Calm w (field? s name w).2 :=
  calm_drift.bind (calm_drift.alike (.refl w)) fun _ _ _ _ => calm_lookup (textKeying_quiet name)

theorem calm_requireField (s : StructId) (name : Bytes) : Calm w (requireField host s name w).2 := by
  intro hw
  refine calm_drift.bind (calm_field? s name) (fun found v hr _ => ?_) hw
  cases found with
  | some x => exact calm_drift.pure _
  | none =>
    have hctor : (v.struct s).ctor.Plain := (hw.alike ((calm_field? s name).of_run hr hw)).ctors s
    refine calm_drift.bind (calm_drift.alike (.refl v)) fun _ u hu _ => ?_
    cases hu
    dsimp only
    split
    · exact calm_drift.bind (calm_drift.pure _) fun _ _ _ _ => calm_drift.raise _
    · exact calm_drift.bind (calm_drift.map some (calm_display hctor)) fun _ _ _ _ => calm_drift.raise _

theorem calm_hasField (s : StructId) (name : Bytes) : Calm w (hasField s name w).2 :=
  calm_drift.bind (calm_field? s name) fun _ _ _ _ => calm_drift.pure _

theorem calm_fieldNames (s : StructId) : Calm w (fieldNames s w).2 :=
  calm_drift.bind (calm_drift.alike (.refl w)) fun _ _ _ _ => calm_keyList _

theorem calm_hashValue {x : Value} (hx : x.Plain) : Calm w (hashValue host x w).2 :=
  fun hw => (yields_hashValue (hw.region.not_hosted hx)).alike w (.refl w)

theorem calm_equalWithin {x : Value} (hx : x.Plain) (depth : Int) (y : Value) :
    Calm w (equalWithin host depth x y w).2 := fun hw =>
  (yields_equalWithin hw.region hx id depth).alike w (.refl w)

theorem calm_dictsEqualWithin (depth : Int) (a b : TableId .any) : Calm w (dictsEqualWithin host depth a b w).2 := by
  intro hw
  have ha : (Value.dict a).Plain := trivial
  have hb : (Value.dict b).Plain := trivial
  exact (yields_dictsEqual hw.region ha hb (fun _ hk => yields_hashValue (hw.region.not_hosted hk))
    (yields_equalInside hw.region fullBudget) (yields_equalInside hw.region (depth - 1))).alike w (.refl w)

theorem calm_structsEqualWithin (depth : Int) (a b : StructId) : Calm w (structsEqualWithin host depth a b w).2 := by
  intro hw
  have ha : (Value.struct a).Plain := trivial
  have hb : (Value.struct b).Plain := trivial
  exact (yields_structsEqual hw.region ha hb (yields_equalInside hw.region fullBudget)
    (yields_equalInside hw.region (depth - 1))).alike w (.refl w)

theorem retains_freezeTable {freezeKey : kind.Key → Run ε Unit} {freezeValue : Value → Run ε Unit}
    (hkey : ∀ (key : kind.Key) (v : World ε), PlainKey key → Retains v (freezeKey key v).2)
    (hvalue : ∀ (x : Value) (v : World ε), x.Plain → Retains v (freezeValue x v).2) :
    Retains w (freezeTable freezeKey freezeValue t w).2 := by
  intro hw
  unfold freezeTable
  rw [run_bind_ok (run_readTable t w)]
  dsimp only
  split
  · exact .refl w
  · have hset : SameStores w (w.modifyTable t fun t => { t with frozen := true }) :=
      .flags t (fun t => { t with frozen := true }) fun _ => .flags _ _ _
    refine retains_drift.bind (fun _ => hset) (fun _ v _ _ => ?_) hw
    refine retains_drift.forM _ fun (key, x) hm u _ => ?_
    have hitem := hw.items t (key, x) hm
    exact retains_drift.bind (hkey key u hitem.1) fun _ u _ _ => hvalue x u hitem.2

theorem retains_freezeAt : ∀ (fuel : Nat) (x : Value) (w : World ε), x.Plain → Retains w (freezeAt host fuel x w).2
  | 0, _, _, _ => retains_drift.throw _
  | fuel + 1, x, w, hx => by
    unfold freezeAt
    cases x with
    | none | bool | int | float | str => exact retains_drift.pure _
    | host i => exact False.elim hx
    | dict t => exact retains_freezeTable (retains_freezeAt fuel) (retains_freezeAt fuel)
    | struct s =>
      refine retains_drift.bind (retains_drift.alike (.refl w)) fun _ v _ _ => ?_
      exact retains_freezeTable (fun _ _ _ => retains_drift.pure _) (retains_freezeAt fuel)

theorem retains_freeze (x : Value) (w : World ε) (hx : x.Plain) : Retains w (freeze host x w).2 :=
  retains_drift.bind (retains_drift.alike (.refl w)) fun _ v _ _ => retains_freezeAt _ x v hx

theorem retains_freezeDeep (t : TableId kind) : Retains w (freezeDeep host t w).2 := by
  unfold freezeDeep
  cases kind with
  | any => exact retains_freezeTable retains_freeze retains_freeze
  | text => exact retains_freezeTable (fun _ _ _ => retains_drift.pure _) retains_freeze

/-! ## Taking away -/

/-- The slot that is found is live. -/
theorem live_of_findSlot {keying : Keying ε kind.Key} {key : kind.Key} (hq : keying.Quiet key) (hw : w.Plain) {i : Nat}
    (hr : findSlot keying t key w = (.ok (some i), v)) : i ∈ (w.table t).order := by
  unfold findSlot at hr
  cases hh : keying.hash key w with
  | mk r u =>
    have hu : Alike w u := (hq.hash w).of_run hh hw
    cases r with
    | error e =>
      rw [run_bind_error hh] at hr
      cases hr
    | ok hash =>
      rw [run_bind_ok hh] at hr
      exact hu.table t ▸ live_of_scan ((hw.alike hu).tables t) hr

theorem prunes_erase {keying : Keying ε kind.Key} {key : kind.Key} (hq : keying.Quiet key) (ht : w.Has t) :
    Prunes w (erase keying t key w).2 := by
  refine prunes_bind (drift_checkMutable calm_drift .erase) fun _ v _ hwv hv => ?_
  refine prunes_bind (calm_findSlot hq) fun found u hfound hvu _ => ?_
  refine prunes_bind (drift_checkMutable calm_drift .erase) fun _ x _ hux _ => ?_
  have hvx : Alike v x := hvu.trans hux
  have htx : x.Has t := (hwv.trans hvx).has_iff.2 ht
  cases found with
  | none => exact prunes_drift.pure _
  | some i =>
    have hi : i ∈ (x.table t).order := hvx.table t ▸ live_of_findSlot hq hv hfound
    refine prunes_drift.bind (prunes_drift.alike (.refl x)) fun _ y hy _ => ?_
    cases hy
    refine prunes_drift.bind (prunes_modifyTable htx (·.remove i) fun hs => ?_) fun _ _ _ _ => prunes_drift.pure _
    obtain ⟨a, b, hab⟩ := List.append_of_mem hi
    exact ⟨(hs.remove hab).1, hs.records_remove_sublist hi⟩

theorem prunes_clear (ht : w.Has t) : Prunes w (clear t w).2 := by
  refine prunes_bind (drift_checkMutable calm_drift .clear) fun _ v _ hv _ => ?_
  refine prunes_modifyTable (hv.has_iff.2 ht) (·.cleared) fun hs => ⟨hs.cleared.1, ?_⟩
  rw [Table.records_of_order_nil hs.cleared.2]
  exact List.nil_sublist _

theorem prunes_resizeTable (hint : UInt32) (ht : w.Has t) (hlen : (w.table t).length = 0) :
    Prunes w (resizeTable t hint w).2 := by
  rcases run_resizeTable t hint w with ⟨v, hv, hr⟩ | ⟨v, heads, block, hv, hh, hr⟩
  · rw [hr]
    exact prunes_drift.alike hv
  · rw [hr]
    refine prunes_drift.trans (prunes_drift.alike hv) ?_
    refine prunes_modifyTable (hv.has_iff.2 ht) (·.resized heads block) fun hs => ?_
    have hp := Table.headsFor_pow hh
    rw [← hv.table t] at hlen
    refine ⟨(Table.sound_resized block hp hlen).1, ?_⟩
    rw [(hs.kept_resized block hp hlen).records_eq]

/-! ## Making tables, dicts and structs -/

theorem pruned_addTable (hw : w.Plain) (kind : KeyKind) {heads : Nat} (block : Option Block) (hp : ∃ k ≤ 24, heads = 2 ^ k) :
    w.Pruned (w.addTable kind (.withStorage heads heads block)).2 := by
  have hnew := Table.sound_withStorage (κ := kind.Key) block hp (Nat.le_refl heads)
  have hrec := Table.records_of_order_nil (hnew.order_eq_nil rfl)
  refine ⟨⟨fun {k} u => ?_, fun {k} u => ?_, fun s => ?_⟩, fun d => ?_⟩
  · by_cases hu : (⟨k, u⟩ : TableRef) = ⟨kind, (w.addTable kind (.withStorage heads heads block)).1⟩
    · cases hu
      rw [table_addTable_self]
      exact hnew
    · rw [table_addTable_of_ne kind _ u hu]
      exact hw.tables u
  · by_cases hu : (⟨k, u⟩ : TableRef) = ⟨kind, (w.addTable kind (.withStorage heads heads block)).1⟩
    · cases hu
      rw [table_addTable_self, Table.items_eq, hrec]
      intro item hm
      cases hm
    · rw [table_addTable_of_ne kind _ u hu]
      exact hw.items u
  · have := hw.ctors s
    rwa [World.struct, structs_addTable]
  · by_cases hd : (⟨.any, d⟩ : TableRef) = ⟨kind, (w.addTable kind (.withStorage heads heads block)).1⟩
    · cases hd
      rw [table_addTable_self, Table.storedKeys, hrec]
      exact List.nil_sublist _
    · rw [table_addTable_of_ne kind _ d hd]

theorem pruned_addStruct (hw : w.Plain) {ctor : Value} (hctor : ctor.Plain) {heads : Nat} (block : Option Block)
    (hp : ∃ k ≤ 24, heads = 2 ^ k) : w.Pruned (w.addStruct ctor (.withStorage heads heads block)) := by
  have hadd := pruned_addTable hw .text block hp
  have htable := fun {k : KeyKind} (u : TableId k) => table_addStruct (w := w) ctor (.withStorage heads heads block) u
  refine ⟨⟨fun u => htable u ▸ hadd.plain.tables u, fun u => htable u ▸ hadd.plain.items u, fun s => ?_⟩,
    fun d => htable d ▸ hadd.keys d⟩
  by_cases hs : s.index = w.structs.size
  · rw [show s = ⟨w.structs.size⟩ from congrArg StructId.mk hs, struct_addStruct_self]
    exact hctor
  · rw [struct_addStruct_of_ne _ _ hs]
    exact hw.ctors s

theorem prunes_newTable (kind : KeyKind) (hint : UInt32) : Prunes w (newTable kind hint w).2 := by
  rcases run_newTable kind hint w with ⟨v, hv, hr⟩ | ⟨v, heads, block, hv, hp, hr⟩
  · rw [hr]
    exact prunes_drift.alike hv
  · rw [hr]
    exact prunes_drift.trans (prunes_drift.alike hv) fun hw => pruned_addTable hw kind block hp

theorem prunes_newDict (hint : UInt32) : Prunes w (newDict hint w).2 :=
  prunes_drift.newObject fun _ _ => prunes_newTable .any hint

theorem World.PlainBeside.pruned {t : TableId .text} (h : PlainBeside t w w') : w.Pruned w' := by
  refine ⟨h.plain, fun d => ?_⟩
  rw [h.table d (by simp)]

/-- No value of the fields is the host's. -/
def PlainFields (fields : List Field) : Prop := ∀ field ∈ fields, field.2.Plain

instance (fields : List Field) : Decidable (PlainFields fields) :=
  inferInstanceAs (Decidable (∀ field ∈ fields, field.2.Plain))

theorem fillFields_beside {t : TableId .text} {fields : List Field} (hf : PlainFields fields) (hv : PlainBeside t w v) :
    PlainBeside t w (fillFields t fields v).2 := by
  refine forM_keeps (P := PlainBeside t w) fields hv fun (name, value) hm u hu => ?_
  have hone : PlainBeside t u (insert textKeying t name value u).2 :=
    (insert_inserted (textKeying_quiet name) ⟨trivial, hf (name, value) hm⟩ hu.plain hu.has).1
  exact ⟨hu.toBeside.trans hone.toBeside, hone.plain, hone.has⟩

theorem prunes_filledStruct {ctor : Value} (hctor : ctor.Plain) (hint : Nat) {fields : List Field}
    (hf : PlainFields fields) : Prunes w (filledStruct ctor hint fields w).2 := by
  intro hw
  unfold filledStruct
  rcases run_newStruct ctor hint w with ⟨v, hv, hr⟩ | ⟨v, u, heads, block, hv, hp, hu, hr⟩
  · rw [run_bind_error hr]
    exact prunes_drift.alike hv hw
  · rw [run_bind_ok hr]
    have hnew : Prunes w u := prunes_drift.trans (prunes_drift.alike hv)
      (prunes_drift.trans (fun hw => pruned_addStruct hw hctor block hp) (prunes_drift.alike hu))
    refine prunes_drift.trans hnew ?_ hw
    refine prunes_drift.bind (prunes_drift.alike (.refl u)) fun _ x hx _ => ?_
    cases hx
    have hhas : u.Has (u.struct ⟨v.structs.size⟩).fields := by
      rw [hu.struct, struct_addStruct_self]
      exact hu.has_iff.2 ((has_addStruct _ _ _).2 (has_addTable_self .text _))
    refine prunes_drift.bind (fun hu => ?_) fun _ _ _ _ => prunes_drift.pure _
    exact (fillFields_beside hf ⟨.refl _ u, hu, hhas⟩).pruned

theorem prunes_createStruct {ctor : Value} (hctor : ctor.Plain) {fields : List Field} (hf : PlainFields fields) :
    Prunes w (createStruct ctor fields w).2 :=
  prunes_drift.withScratch fun _ _ => prunes_filledStruct hctor _ fun field hm => hf field (mem_sortBy hm)

theorem prunes_makeStruct (positional : List Value) {fields : List Field} (hf : PlainFields fields) :
    Prunes w (makeStruct positional fields w).2 := by
  unfold makeStruct
  dsimp only
  split
  · exact prunes_drift.bind (prunes_drift.raise _) fun _ _ hr _ => by cases hr
  · have hctor : defaultConstructor.Plain := trivial
    exact prunes_createStruct hctor hf

theorem prunes_mergeStructs (x y : StructId) : Prunes w (mergeStructs host x y w).2 := by
  intro hw
  unfold mergeStructs
  rw [run_bind_ok (run_get w), run_bind_ok (run_get w)]
  have hx := hw.ctors x
  have hy := hw.ctors y
  have hcalm : Calm w (sameConstructor (equal host) host .merge (w.struct x).ctor (w.struct y).ctor w).2 := fun hw =>
    (yields_sameConstructor hw.region hx hy (yields_equalWithin hw.region hx id fullBudget) .merge).alike w (.refl w)
  refine prunes_bind hcalm (fun verdict v _ hv _ => ?_) hw
  replace hv := hw.alike hv
  split
  · refine prunes_drift.bind (prunes_drift.alike (.refl v)) fun xs u hxs _ => ?_
    cases hxs
    refine prunes_drift.bind (prunes_drift.alike (.refl v)) fun ys u hys _ => ?_
    cases hys
    refine prunes_filledStruct hx _ (mem_mergeFields _ _ (fun field hm => ?_) fun field hm => ?_)
    · exact (hv.items (v.struct x).fields field hm).2
    · exact (hv.items (v.struct y).fields field hm).2
  · refine prunes_drift.bind (calm_display hx).prunes fun _ _ _ _ => ?_
    exact prunes_drift.bind (calm_display hy).prunes fun _ _ _ _ => prunes_drift.raise _

/-! ## Operations -/

namespace Operation

/-- No argument of the operation is a value of the host. -/
def Plain : Operation → Prop
  | .insert _ key value => PlainKey key ∧ value.Plain
  | .lookup _ key | .erase _ key => PlainKey key
  | .createStruct ctor fields => ctor.Plain ∧ PlainFields fields
  | .makeStruct _ fields => PlainFields fields
  | .hash v | .display v | .freeze v => v.Plain
  | .equal _ x y => x.Plain ∧ y.Plain
  | _ => True

instance : DecidablePred Plain
  | .insert _ key value => inferInstanceAs (Decidable (PlainKey key ∧ value.Plain))
  | .lookup _ key | .erase _ key => inferInstanceAs (Decidable (PlainKey key))
  | .createStruct ctor fields => inferInstanceAs (Decidable (ctor.Plain ∧ PlainFields fields))
  | .makeStruct _ fields => inferInstanceAs (Decidable (PlainFields fields))
  | .hash v | .display v | .freeze v => inferInstanceAs (Decidable v.Plain)
  | .equal _ x y => inferInstanceAs (Decidable (x.Plain ∧ y.Plain))
  | .newTable .. | .resize .. | .clear .. | .keys .. | .items .. | .freezeTable .. | .newDict .. | .mergeStructs ..
  | .intoDict .. | .field .. | .hasField .. | .fieldNames .. | .equalDicts .. | .equalStructs .. | .displayStruct .. =>
    .isTrue trivial

/-- The operation looks something up, lists it, hashes, compares or writes it. -/
def Reads : Operation → Prop
  | .lookup .. | .keys .. | .items .. | .field .. | .hasField .. | .fieldNames .. | .hash .. | .equal .. | .equalDicts ..
  | .equalStructs .. | .display .. | .displayStruct .. => True
  | _ => False

/-- The operation inserts keys that are values. -/
def AddsKeys : Operation → Prop
  | @insert .any _ _ _ | .intoDict _ _ => True
  | _ => False

end Operation

/-- **Operations that read leave tables and structs as they are.** -/
theorem Operation.calm (op : Operation) (hp : op.Plain) (hr : op.Reads) : Calm w (op.run host w).2 := by
  have hdiscard : ∀ {α : Type} {act : Run ε α}, Calm w (act w).2 → Calm w ((discard act : Run ε Unit) w).2 :=
    fun h => calm_drift.map (fun _ => ()) h
  cases op with
  | lookup t key => exact hdiscard (calm_lookup (keyingOf_quiet hp))
  | keys t => exact hdiscard (calm_keyList t)
  | items t => exact hdiscard (calm_itemList t)
  | field s name => exact hdiscard (calm_requireField s name)
  | hasField s name => exact hdiscard (calm_hasField s name)
  | fieldNames s => exact hdiscard (calm_fieldNames s)
  | hash v => exact hdiscard (calm_hashValue hp)
  | equal depth x y => exact hdiscard (calm_equalWithin hp.1 depth y)
  | equalDicts depth x y => exact hdiscard (calm_dictsEqualWithin depth x y)
  | equalStructs depth x y => exact hdiscard (calm_structsEqualWithin depth x y)
  | display v => exact hdiscard (calm_display hp)
  | displayStruct s => exact hdiscard (calm_displayStruct s)
  | _ => exact False.elim hr

/-- **Operations that insert no values as keys take keys away at most.** -/
theorem Operation.prunes (op : Operation) (hv : op.Valid w) (hp : op.Plain) (ha : ¬ op.AddsKeys) :
    Prunes w (op.run host w).2 := by
  have hdiscard : ∀ {α : Type} {act : Run ε α}, Prunes w (act w).2 → Prunes w ((discard act : Run ε Unit) w).2 :=
    fun h => prunes_drift.map (fun _ => ()) h
  by_cases hr : op.Reads
  · exact (op.calm hp hr).prunes
  cases op with
  | newTable kind hint => exact hdiscard (prunes_newTable kind hint)
  | resize t hint => exact prunes_resizeTable hint hv.1.1 hv.2.1
  | @insert kind t key value =>
    cases kind with
    | any => exact absurd trivial ha
    | text =>
      intro hw
      exact (insert_inserted (textKeying_quiet key) ⟨trivial, hp.2⟩ hw hv.1.1).1.pruned
  | erase t key => exact hdiscard (prunes_erase (keyingOf_quiet hp) hv.1.1)
  | clear t => exact prunes_clear hv.1
  | freezeTable t => exact (retains_freezeDeep t).prunes
  | newDict hint => exact hdiscard (prunes_newDict hint)
  | createStruct ctor fields => exact hdiscard (prunes_createStruct hp.1 hp.2)
  | makeStruct positional fields => exact hdiscard (prunes_makeStruct positional hp)
  | mergeStructs x y => exact hdiscard (prunes_mergeStructs x y)
  | intoDict s d => exact absurd trivial ha
  | freeze v => exact (retains_freeze v w hp).prunes
  | _ => exact absurd trivial hr

end ValueCore
