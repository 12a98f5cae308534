import ValueCore.World

/-!
# The tables of a world

Reading a table after a table was changed or added. A table is named by its kind and its index, so tables of
different kinds are different (`TableRef`).
-/

namespace ValueCore

section
variable {α : Type} {a : Array α} {i j : Nat} (f g : α → α) (d v : α)

theorem getD_modify_self (h : i < a.size) : (a.modify i f).getD i d = f (a.getD i d) := by
  simp only [Array.getD_eq_getD_getElem?, Array.getElem?_modify, if_true, Array.getElem?_eq_getElem h]; rfl

theorem getD_modify_of_ne (h : j ≠ i) : (a.modify i f).getD j d = a.getD j d := by
  simp only [Array.getD_eq_getD_getElem?, Array.getElem?_modify, if_neg h.symm]

theorem modify_modify : (a.modify i f).modify i g = a.modify i fun x => g (f x) := by
  refine Array.ext_getElem? fun j => ?_
  simp only [Array.getElem?_modify]
  split
  · rw [Option.map_map]; rfl
  · rfl

/-- An element is changed to `f` of what it is, and that may as well be said outright. -/
theorem modify_const : a.modify i f = a.modify i fun _ => f (a.getD i d) := by
  refine Array.ext_getElem? fun j => ?_
  simp only [Array.getElem?_modify, Array.getD_eq_getD_getElem?]
  split
  · rename_i h
    subst h
    cases a[i]? <;> rfl
  · rfl

theorem modify_id (h : ∀ x, f x = x) : a.modify i f = a := by
  refine Array.ext_getElem? fun j => ?_
  rw [Array.getElem?_modify, show f = id from funext h, Option.map_id]
  split <;> rfl

theorem getD_push_of_ne (h : j ≠ a.size) : (a.push v).getD j d = a.getD j d := by
  simp only [Array.getD_eq_getD_getElem?, Array.getElem?_push, if_neg h]

theorem getD_push_self : (a.push v).getD a.size d = v := by
  simp only [Array.getD_eq_getD_getElem?, Array.getElem?_push_size]; rfl

end

/-- A table of either kind, by name. -/
abbrev TableRef := (kind : KeyKind) × TableId kind

namespace World

variable {ε : Type} {w w' : World ε} {kind kind' : KeyKind}

/-- Is there such a table? -/
def Has (w : World ε) : {kind : KeyKind} → TableId kind → Prop
  | .any, t => t.index < w.anyTables.size
  | .text, t => t.index < w.textTables.size

instance (w : World ε) : {kind : KeyKind} → (t : TableId kind) → Decidable (w.Has t)
  | .any, t => inferInstanceAs (Decidable (t.index < w.anyTables.size))
  | .text, t => inferInstanceAs (Decidable (t.index < w.textTables.size))

theorem table_congr (ha : w'.anyTables = w.anyTables) (ht : w'.textTables = w.textTables) (t : TableId kind) :
    w'.table t = w.table t := by
  cases kind
  · simp only [table, ha]
  · simp only [table, ht]

theorem has_congr (ha : w'.anyTables = w.anyTables) (ht : w'.textTables = w.textTables) (t : TableId kind) :
    w'.Has t ↔ w.Has t := by
  cases kind
  · simp only [Has, ha]
  · simp only [Has, ht]

theorem table_of_not_has (t : TableId kind) (h : ¬ w.Has t) : w.table t = Table.empty := by
  cases kind
  · simp only [Has] at h
    simp only [table, Array.getD_eq_getD_getElem?, Array.getElem?_eq_none (Nat.le_of_not_lt h)]; rfl
  · simp only [Has] at h
    simp only [table, Array.getD_eq_getD_getElem?, Array.getElem?_eq_none (Nat.le_of_not_lt h)]; rfl

/-! ## Changing a table -/

section modify
variable (t : TableId kind) (f : Table kind.Key → Table kind.Key)

@[simp] theorem has_modifyTable (t' : TableId kind') : (w.modifyTable t f).Has t' ↔ w.Has t' := by
  cases kind <;> cases kind' <;> simp [Has, modifyTable]

theorem table_modifyTable (h : w.Has t) : (w.modifyTable t f).table t = f (w.table t) := by
  cases kind
  · exact getD_modify_self f default h
  · exact getD_modify_self f default h

theorem table_modifyTable_of_ne {t : TableId kind} {t' : TableId kind'} (f : Table kind.Key → Table kind.Key)
    (h : (⟨kind', t'⟩ : TableRef) ≠ ⟨kind, t⟩) : (w.modifyTable t f).table t' = w.table t' := by
  cases kind <;> cases kind' <;> try rfl
  all_goals
    have hne : t'.index ≠ t.index := fun hi => h (by cases t; cases t'; simp_all)
    exact getD_modify_of_ne f default hne

@[simp] theorem structs_modifyTable : (w.modifyTable t f).structs = w.structs := by cases kind <;> rfl

@[simp] theorem env_modifyTable : (w.modifyTable t f).env = w.env := by cases kind <;> rfl

theorem modifyTable_modifyTable (g : Table kind.Key → Table kind.Key) :
    (w.modifyTable t f).modifyTable t g = w.modifyTable t fun x => g (f x) := by
  cases kind <;> simp only [modifyTable, modify_modify]

theorem modifyTable_id {f : Table kind.Key → Table kind.Key} (h : ∀ x, f x = x) : w.modifyTable t f = w := by
  cases kind <;> simp only [modifyTable, modify_id f h]

theorem modifyTable_const : w.modifyTable t f = w.modifyTable t fun _ => f (w.table t) := by
  cases kind
  · simp only [modifyTable, table]; rw [modify_const f default]
  · simp only [modifyTable, table]; rw [modify_const f default]

end modify

/-! ## Adding a table -/

theorem has_addTable (kind : KeyKind) (T : Table kind.Key) (t : TableId kind') (h : w.Has t) :
    (w.addTable kind T).2.Has t := by
  cases kind <;> cases kind' <;> simp only [Has, addTable, Array.size_push] at h ⊢ <;> omega

theorem has_addTable_self (kind : KeyKind) (T : Table kind.Key) :
    (w.addTable kind T).2.Has (w.addTable kind T).1 := by
  cases kind <;> simp [Has, addTable]

theorem not_has_addTable (kind : KeyKind) (T : Table kind.Key) : ¬ w.Has (w.addTable kind T).1 := by
  cases kind <;> simp [Has, addTable]

theorem table_addTable_self (kind : KeyKind) (T : Table kind.Key) :
    (w.addTable kind T).2.table (w.addTable kind T).1 = T := by
  cases kind
  · exact getD_push_self _ _
  · exact getD_push_self _ _

theorem table_addTable_of_ne (kind : KeyKind) (T : Table kind.Key) (t : TableId kind')
    (h : (⟨kind', t⟩ : TableRef) ≠ ⟨kind, (w.addTable kind T).1⟩) :
    (w.addTable kind T).2.table t = w.table t := by
  cases kind <;> cases kind' <;> try rfl
  all_goals
    refine getD_push_of_ne _ _ fun hi => h ?_
    cases t
    simp_all [addTable]

theorem structs_addTable (kind : KeyKind) (T : Table kind.Key) : (w.addTable kind T).2.structs = w.structs := by
  cases kind <;> rfl

theorem env_addTable (kind : KeyKind) (T : Table kind.Key) : (w.addTable kind T).2.env = w.env := by
  cases kind <;> rfl

end World

end ValueCore
