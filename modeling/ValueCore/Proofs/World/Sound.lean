import ValueCore.Proofs.Table.Changes
import ValueCore.Proofs.World.Tables

/-!
# The invariant of a world

A world is sound when each of its tables is, and when everything that is referred to is there: the dicts and
structs that occur as keys, values, fields and constructors, the field tables of structs, and what the host
keeps on its own side.

What the host keeps is read off its part of the world by an `Inventory`: values, tables, and how many active
cursors it has on each table. The last is a ledger. Every active cursor holds its table, so the holds of a
table are never fewer than its active cursors (`Sound.counted`); the difference are the scans and comparisons
that are going on (`Guarded`).

The field table of a struct is `Sealed` against changes once the struct is made. While one is being made,
only the structs before it count; hence the bound `n`.
-/

namespace ValueCore

/-- What a host keeps, read off its part of the world. -/
structure Inventory (ε : Type) where
  values : ε → List Value
  tables : ε → List TableRef
  /-- Active cursors, by table. -/
  cursors : ε → TableRef → Nat

namespace World

variable {ε : Type} {w w' : World ε} {kind kind' : KeyKind} {I : Inventory ε} {n : Nat}

/-! ## What is there -/

/-- The object that a value refers to is there. -/
def Owns (w : World ε) : Value → Prop
  | .dict t => w.Has t
  | .struct s => s.index < w.structs.size
  | _ => True

instance (w : World ε) : DecidablePred w.Owns := fun v => by unfold Owns; cases v <;> infer_instance

/-- A key refers to what is there. Byte strings refer to nothing. -/
def OwnsKey (w : World ε) : {kind : KeyKind} → kind.Key → Prop
  | .any, key => w.Owns key
  | .text, _ => True

instance (w : World ε) : {kind : KeyKind} → (key : kind.Key) → Decidable (w.OwnsKey key)
  | .any, key => inferInstanceAs (Decidable (w.Owns key))
  | .text, _ => .isTrue trivial

/-- The items of a table refer to what is there. -/
def OwnsItems (w : World ε) {kind : KeyKind} (items : List (kind.Key × Value)) : Prop :=
  ∀ item ∈ items, w.OwnsKey item.1 ∧ w.Owns item.2

/-- The table belongs to one of the first `n` structs. -/
def Sealed (w : World ε) (n : Nat) : {kind : KeyKind} → TableId kind → Prop
  | .any, _ => False
  | .text, t => ∃ s : StructId, s.index < n ∧ s.index < w.structs.size ∧ (w.struct s).fields = t

instance (w : World ε) (n : Nat) : {kind : KeyKind} → (t : TableId kind) → Decidable (w.Sealed n t)
  | .any, _ => .isFalse id
  | .text, t =>
    decidable_of_iff (∃ i, i < n ∧ i < w.structs.size ∧ (w.struct ⟨i⟩).fields = t)
      ⟨fun ⟨i, h⟩ => ⟨⟨i⟩, h⟩, fun ⟨s, h⟩ => ⟨s.index, h⟩⟩

/-- A table that is there and belongs to no struct. -/
def Open (w : World ε) (t : TableId kind) : Prop := w.Has t ∧ ¬ w.Sealed w.structs.size t

instance (w : World ε) (t : TableId kind) : Decidable (w.Open t) :=
  inferInstanceAs (Decidable (w.Has t ∧ ¬ w.Sealed w.structs.size t))

/-- Whatever a host keeps is there. -/
structure Keeps (I : Inventory ε) (w : World ε) (e : ε) : Prop where
  values : ∀ v ∈ I.values e, w.Owns v
  tables : ∀ r ∈ I.tables e, w.Open r.2

/-- **The invariant.** -/
structure Sound (I : Inventory ε) (w : World ε) : Prop where
  tables : ∀ {kind : KeyKind} (t : TableId kind), (w.table t).Sound
  items : ∀ {kind : KeyKind} (t : TableId kind), w.OwnsItems (w.table t).items
  ctors : ∀ s : StructId, s.index < w.structs.size → w.Owns (w.struct s).ctor
  fields : ∀ s : StructId, s.index < w.structs.size → w.Has (w.struct s).fields
  kept : w.Keeps I w.env
  counted : ∀ r : TableRef, I.cursors w.env r ≤ (w.table r.2).holds

/-- Each table is held by its active cursors and by `g` more. -/
def Guarded (I : Inventory ε) (w : World ε) (g : TableRef → Nat) : Prop :=
  ∀ r : TableRef, (w.table r.2).holds = g r + I.cursors w.env r

/-- One more of `r`. -/
def plus (g : TableRef → Nat) (r : TableRef) : TableRef → Nat := fun q => g q + if q = r then 1 else 0

theorem Sound.guarded (h : w.Sound I) :
    Guarded I w fun r => (w.table r.2).holds - I.cursors w.env r := by
  intro r
  have := h.counted r
  show _ = _ - _ + _
  omega

theorem Guarded.counted {g : TableRef → Nat} (h : Guarded I w g) (r : TableRef) :
    I.cursors w.env r ≤ (w.table r.2).holds := by
  rw [h r]
  omega

/-! ## Later worlds

What is there stays there: tables and structs are only added, and structs never change. -/

/-- Every table and every struct of `w` is there in `w'`, the structs unchanged. -/
structure Within (w w' : World ε) : Prop where
  has : ∀ {kind : KeyKind} (t : TableId kind), w.Has t → w'.Has t
  size_le : w.structs.size ≤ w'.structs.size
  struct_eq : ∀ s : StructId, s.index < w.structs.size → w'.struct s = w.struct s
  /-- New structs have new field tables. -/
  fresh : ∀ s : StructId, w.structs.size ≤ s.index → s.index < w'.structs.size → ¬ w.Has (w'.struct s).fields

namespace Within

theorem refl (w : World ε) : Within w w := ⟨fun _ h => h, Nat.le_refl _, fun _ _ => rfl, fun _ h h' => by omega⟩

theorem trans {u : World ε} (h : Within w w') (h' : Within w' u) : Within w u := by
  refine ⟨fun t ht => h'.has t (h.has t ht), Nat.le_trans h.size_le h'.size_le, fun s hs => ?_, fun s hs hs' hu => ?_⟩
  · rw [h'.struct_eq s (Nat.lt_of_lt_of_le hs h.size_le), h.struct_eq s hs]
  · by_cases hlt : s.index < w'.structs.size
    · rw [h'.struct_eq s hlt] at hu
      exact h.fresh s hs hlt hu
    · exact h'.fresh s (Nat.le_of_not_lt hlt) hs' (h.has _ hu)

theorem owns (h : Within w w') : ∀ {v : Value}, w.Owns v → w'.Owns v
  | .dict t, hv => h.has t hv
  | .struct _, hv => Nat.lt_of_lt_of_le hv h.size_le
  | .none, _ | .bool _, _ | .int _, _ | .float _, _ | .str _, _ | .host _, _ => trivial

theorem ownsKey (h : Within w w') : ∀ {kind : KeyKind} {key : kind.Key}, w.OwnsKey key → w'.OwnsKey key
  | .any, _, hk => h.owns hk
  | .text, _, _ => trivial

theorem ownsItems (h : Within w w') {items : List (kind.Key × Value)} (hi : w.OwnsItems items) :
    w'.OwnsItems items := fun item hm => ⟨h.ownsKey (hi item hm).1, h.owns (hi item hm).2⟩

theorem sealed (h : Within w w') {t : TableId kind} (hs : w.Sealed n t) : w'.Sealed n t := by
  cases kind with
  | any => exact hs
  | text =>
    obtain ⟨s, hn, hlt, hf⟩ := hs
    exact ⟨s, hn, Nat.lt_of_lt_of_le hlt h.size_le, by rw [h.struct_eq s hlt]; exact hf⟩

/-- A table that was there is not among the field tables of later structs. -/
theorem sealed_of_has (h : Within w w') {t : TableId kind} (ht : w.Has t) (hs : w'.Sealed n t) : w.Sealed n t := by
  cases kind with
  | any => exact hs
  | text =>
    obtain ⟨s, hn, hlt, hf⟩ := hs
    by_cases hold : s.index < w.structs.size
    · exact ⟨s, hn, hold, by rw [← h.struct_eq s hold]; exact hf⟩
    · exact absurd (hf ▸ ht) (h.fresh s (Nat.le_of_not_lt hold) hlt)

theorem opens (h : Within w w') {t : TableId kind} (ht : w.Open t) : w'.Open t := by
  refine ⟨h.has t ht.1, fun hs => ht.2 ?_⟩
  have := h.sealed_of_has ht.1 hs
  cases kind with
  | any => exact this
  | text =>
    obtain ⟨s, _, hlt, hf⟩ := this
    exact ⟨s, hlt, hlt, hf⟩

theorem keeps (h : Within w w') {e : ε} (hk : w.Keeps I e) : w'.Keeps I e :=
  ⟨fun v hv => h.owns (hk.values v hv), fun r hr => h.opens (hk.tables r hr)⟩

end Within

theorem Sealed.le {m : Nat} {t : TableId kind} (h : w.Sealed n t) (hm : n ≤ m) : w.Sealed m t := by
  cases kind with
  | any => exact h
  | text =>
    obtain ⟨s, hn, hlt, hf⟩ := h
    exact ⟨s, Nat.lt_of_lt_of_le hn hm, hlt, hf⟩

theorem not_sealed_zero {t : TableId kind} : ¬ w.Sealed 0 t := by
  cases kind with
  | any => exact id
  | text => exact fun ⟨s, hs, _⟩ => Nat.not_lt_zero _ hs

/-- No more than the structs there are can have it for their fields. -/
theorem Open.not_sealed {t : TableId kind} (h : w.Open t) : ¬ w.Sealed n t := by
  cases kind with
  | any => exact id
  | text => exact fun ⟨s, _, hlt, hf⟩ => h.2 ⟨s, hlt, hlt, hf⟩

theorem open_any {t : TableId .any} : w.Open t ↔ w.Has t := ⟨fun h => h.1, fun h => ⟨h, id⟩⟩

/-! ## The world without its tables -/

/-- The tables, the structs and the host's part are the same. -/
structure Alike (w w' : World ε) : Prop where
  anyTables : w'.anyTables = w.anyTables
  textTables : w'.textTables = w.textTables
  structs : w'.structs = w.structs
  env : w'.env = w.env

theorem Alike.table (h : Alike w w') (t : TableId kind) : w'.table t = w.table t :=
  table_congr h.anyTables h.textTables t

theorem Alike.has_iff (h : Alike w w') {t : TableId kind} : w'.Has t ↔ w.Has t := has_congr h.anyTables h.textTables t

theorem alike_modifyTable (h : Alike w w') (t : TableId kind) (f : Table kind.Key → Table kind.Key) :
    Alike (w.modifyTable t f) (w'.modifyTable t f) := by
  cases kind
  · exact ⟨by simp only [modifyTable, h.anyTables], h.textTables, h.structs, h.env⟩
  · exact ⟨h.anyTables, by simp only [modifyTable, h.textTables], h.structs, h.env⟩

/-- The same world but for one table, its memory and its message. -/
structure Beside {kind : KeyKind} (t : TableId kind) (w w' : World ε) : Prop where
  table : ∀ {k : KeyKind} (u : TableId k), (⟨k, u⟩ : TableRef) ≠ ⟨kind, t⟩ → w'.table u = w.table u
  structs : w'.structs = w.structs
  env : w'.env = w.env

theorem Beside.refl (t : TableId kind) (w : World ε) : Beside t w w := ⟨fun _ _ => rfl, rfl, rfl⟩

theorem Beside.alike {u : World ε} (h : Beside t w w') (ha : Alike w' u) : Beside t w u :=
  ⟨fun u hu => (ha.table u).trans (h.table u hu), ha.structs.trans h.structs, ha.env.trans h.env⟩

theorem Beside.trans {u : World ε} (h : Beside t w w') (h' : Beside t w' u) : Beside t w u :=
  ⟨fun x hx => (h'.table x hx).trans (h.table x hx), h'.structs.trans h.structs, h'.env.trans h.env⟩

theorem Beside.symm (h : Beside t w w') : Beside t w' w :=
  ⟨fun u hu => (h.table u hu).symm, h.structs.symm, h.env.symm⟩

theorem Beside.modify (h : Beside t w w') (f : Table kind.Key → Table kind.Key) : Beside t w (w'.modifyTable t f) :=
  ⟨fun u hu => (table_modifyTable_of_ne f hu).trans (h.table u hu), (structs_modifyTable t f).trans h.structs,
    (env_modifyTable t f).trans h.env⟩

/-- Holding a table and letting it go undoes itself. -/
theorem held_undone (t : TableId kind) : (w.held t).letGo t = w := by
  unfold World.held World.letGo
  rw [modifyTable_modifyTable]
  exact modifyTable_id t fun _ => rfl

/-- What is alike while a table is held is alike when it is let go. -/
theorem letGo_held (t : TableId kind) (h : Alike (w.held t) w') : Alike w (w'.letGo t) := by
  have hlet := alike_modifyTable h t fun t => { t with holds := t.holds - 1 }
  exact held_undone (w := w) t ▸ hlet

theorem within_of_tables (hat : ∀ {kind : KeyKind} (t : TableId kind), w.Has t → w'.Has t)
    (hs : w'.structs = w.structs) : Within w w' :=
  ⟨hat, by rw [hs], fun s _ => by simp only [struct, hs], fun s h h' => by rw [hs] at h'; omega⟩

theorem within_modifyTable (t : TableId kind) (f : Table kind.Key → Table kind.Key) :
    Within w (w.modifyTable t f) :=
  within_of_tables (fun _ h => (has_modifyTable t f _).2 h) (structs_modifyTable t f)

/-- Soundness after a change that adds neither tables nor structs. -/
theorem Sound.of_tables (h : w.Sound I) (hat : ∀ {kind : KeyKind} (t : TableId kind), w.Has t → w'.Has t)
    (hs : w'.structs = w.structs) (htables : ∀ {kind : KeyKind} (t : TableId kind), (w'.table t).Sound)
    (hitems : ∀ {kind : KeyKind} (t : TableId kind), w.OwnsItems (w'.table t).items) (hkept : w.Keeps I w'.env)
    (hcount : ∀ r : TableRef, I.cursors w'.env r ≤ (w'.table r.2).holds) : w'.Sound I := by
  have hin := within_of_tables hat hs
  have hst : ∀ s, w'.struct s = w.struct s := fun s => by simp only [struct, hs]
  refine ⟨htables, fun t => hin.ownsItems (hitems t), fun s hlt => ?_, fun s hlt => ?_, hin.keeps hkept, hcount⟩
  · rw [hst]; rw [hs] at hlt; exact hin.owns (h.ctors s hlt)
  · rw [hst]; rw [hs] at hlt; exact hin.has _ (h.fields s hlt)

/-- What the tables are after one of them was changed. -/
theorem table_modifyTable_cases (t : TableId kind) (f : Table kind.Key → Table kind.Key) (ht : w.Has t)
    {P : {k : KeyKind} → TableId k → Table k.Key → Prop} (hself : P t (f (w.table t)))
    (hother : ∀ {k : KeyKind} (u : TableId k), (⟨k, u⟩ : TableRef) ≠ ⟨kind, t⟩ → P u (w.table u)) :
    ∀ {k : KeyKind} (u : TableId k), P u ((w.modifyTable t f).table u) := by
  intro k u
  by_cases hu : (⟨k, u⟩ : TableRef) = ⟨kind, t⟩
  · cases hu
    rw [table_modifyTable t f ht]; exact hself
  · rw [table_modifyTable_of_ne f hu]; exact hother u hu

end World

end ValueCore
