import ValueCore.Proofs.Refinement

/-!
# Making structs, evaluated

A new struct has a field table that nothing else knows of, and its fields are set in it one after the other. So what
is in it in the end is what a list of fields comes to when they are set in it (`setFields`), whatever the world is like
otherwise (`run_filledStruct`).

Memory may run out on the way. If it does so early then nothing has been made. If it does so later then there is a
struct with some of the fields, the first few, of which the caller is not told.
-/

namespace ValueCore

open World MapCall

variable {ε : Type} {I : Inventory ε} {w w' v : World ε}

/-! ## Setting fields in a list -/

theorem mem_assign {κ : Type} {same : κ → κ → Bool} {key : κ} {value : Value} {item : κ × Value} :
    ∀ {l : List (κ × Value)}, item ∈ assign same key value l → item ∈ l ∨ item.2 = value
  | [], hm => .inr (by rw [List.mem_singleton.1 hm])
  | (k, x) :: rest, hm => by
    unfold assign at hm
    split at hm <;> rcases List.mem_cons.1 hm with rfl | hm
    · exact .inr rfl
    · exact .inl (List.mem_cons_of_mem _ hm)
    · exact .inl List.mem_cons_self
    · rcases mem_assign hm with hm | hm
      · exact .inl (List.mem_cons_of_mem _ hm)
      · exact .inr hm

/-- A list of fields after others were set in it, one after the other. -/
def setFields (fields l : List Field) : List Field :=
  fields.foldl (fun l field => assign textKeys.same field.1 field.2 l) l

theorem mem_setFields {item : Field} : ∀ (fields : List Field) {l : List Field}, item ∈ setFields fields l →
    item ∈ l ∨ ∃ field ∈ fields, item.2 = field.2
  | [], _, hm => .inl hm
  | field :: fields, l, hm => by
    rcases mem_setFields fields hm with hm | ⟨f, hf, heq⟩
    · rcases mem_assign hm with hm | heq
      · exact .inl hm
      · exact .inr ⟨field, List.mem_cons_self, heq⟩
    · exact .inr ⟨f, List.mem_cons_of_mem _ hf, heq⟩

/-! ## Filling a table -/

/-- Filling a table with fields sets them in order: all of them, or the first few if there is no memory for more. -/
theorem run_fillFields {t : TableId .text} {w₀ : World ε} : ∀ (fields : List Field) {l : List Field} {w : World ε},
    @Lists ε .text textKeys t w₀ l w →
      ∃ done v, done <+: fields ∧ @Lists ε .text textKeys t w₀ (setFields done l) v ∧
        (fillFields t fields w = (.ok (), v) ∧ done = fields ∨ fillFields t fields w = (.error (.raised .memory), v))
  | [], l, w, h => ⟨[], w, List.nil_prefix, h, .inl ⟨rfl, rfl⟩⟩
  | (name, value) :: fields, l, w, h => by
    have hins : @Settles .text ε Unit textKeys t w₀ l _ () (assign textKeys.same name value l)
        (insert textKeying t name value w) := Lists.run_insert h (textKeying_computes t w₀) trivial
    have hrun : fillFields t ((name, value) :: fields) w =
        (insert textKeying t name value >>= fun _ => fillFields t fields) w := rfl
    rw [hrun]
    rcases hins with ⟨v, hr, hv, -⟩ | ⟨v, hr, hv⟩
    · exact ⟨[], v, List.nil_prefix, hv, .inr (run_bind_error hr _)⟩
    · rw [run_bind_ok hr]
      obtain ⟨done, u, hdone, hl, hend⟩ := run_fillFields fields hv
      refine ⟨(name, value) :: done, u, List.cons_prefix_cons.2 ⟨rfl, hdone⟩, hl, ?_⟩
      rcases hend with ⟨hr, rfl⟩ | hr
      · exact .inl ⟨hr, rfl⟩
      · exact .inr hr

/-! ## Making a struct -/

/-- From `w` to `v` one struct was added, with its field table, in which there is the list `l`. -/
structure World.Adds (w : World ε) (s : StructId) (ctor : Value) (l : List Field) (v : World ε) : Prop where
  index : s.index = w.structs.size
  size : v.structs.size = w.structs.size + 1
  ctor : (v.struct s).ctor = ctor
  keyed : @Keyed ε .text textKeys (v.struct s).fields v
  items : (v.table (v.struct s).fields).items = l
  table : ∀ {kind : KeyKind} (t : TableId kind), (⟨kind, t⟩ : TableRef) ≠ ⟨.text, (v.struct s).fields⟩ →
    v.table t = w.table t

/-- The only struct that is added is the one. -/
theorem World.Adds.eq_of_index {s s' : StructId} {ctor : Value} {l : List Field} (h : w.Adds s ctor l v)
    (hge : w.structs.size ≤ s'.index) (hlt : s'.index < v.structs.size) : s' = s := by
  have hs := h.index
  have hsize := h.size
  cases s
  cases s'
  simp only [StructId.mk.injEq] at *
  omega

/-- **What making a struct comes to.** -/
theorem run_filledStruct (ctor : Value) (hint : Nat) (fields : List Field) (w : World ε) :
    (∃ v, Alike w v ∧ filledStruct ctor hint fields w = (.error (.raised .memory), v)) ∨
    ∃ s v done, done <+: fields ∧ w.Adds s ctor (setFields done []) v ∧
      (filledStruct ctor hint fields w = (.ok s, v) ∧ done = fields ∨
        filledStruct ctor hint fields w = (.error (.raised .memory), v)) := by
  unfold filledStruct
  rcases run_newStruct ctor hint w with ⟨v, hv, hr⟩ | ⟨v, u, heads, block, hv, hp, hu, hr⟩
  · exact .inl ⟨v, hv, run_bind_error hr _⟩
  have hself : u.struct ⟨v.structs.size⟩ = ⟨ctor, (v.addTable .text (.withStorage heads heads block)).1⟩ := by
    rw [hu.struct, struct_addStruct_self]
  rw [run_bind_ok hr, run_bind_ok (run_get u), hself]
  generalize hnew : (v.addTable .text (.withStorage heads heads block)).1 = t at hself ⊢
  have hhas : u.Has t := by
    rw [hu.has_iff, has_addStruct, ← hnew]
    exact has_addTable_self .text _
  have htable : u.table t = .withStorage heads heads block := by
    rw [hu.table, table_addStruct, ← hnew]
    exact table_addTable_self .text _
  obtain ⟨done, z, hdone, hl, hend⟩ := run_fillFields fields (lists_new hp hhas htable)
  have hstruct : z.struct ⟨v.structs.size⟩ = ⟨ctor, t⟩ := by
    rw [show z.struct ⟨v.structs.size⟩ = u.struct ⟨v.structs.size⟩ by simp only [World.struct, hl.beside.structs]]
    exact hself
  have hadds : w.Adds ⟨v.structs.size⟩ ctor (setFields done []) z := by
    refine ⟨by rw [hv.structs], ?_, by rw [hstruct], by rw [hstruct]; exact hl.keyed, by rw [hstruct]; exact hl.items,
      fun {kind} x hx => ?_⟩
    · rw [hl.beside.structs, hu.structs, size_addStruct, hv.structs]
    · rw [hstruct] at hx
      rw [hl.beside.table x hx, hu.table x, table_addStruct, table_addTable_of_ne .text _ x (hnew ▸ hx), hv.table x]
  refine .inr ⟨_, z, done, hdone, hadds, ?_⟩
  rcases hend with ⟨hr, rfl⟩ | hr
  · exact .inl ⟨run_bind_ok hr _, rfl⟩
  · exact .inr (run_bind_error hr _)

/-- What it leaves, whether or not the caller is told of the struct. -/
theorem filledStruct_leaves (ctor : Value) (hint : Nat) (fields : List Field) (w : World ε) :
    Alike w (filledStruct ctor hint fields w).2 ∨
    ∃ s done, done <+: fields ∧ w.Adds s ctor (setFields done []) (filledStruct ctor hint fields w).2 := by
  rcases run_filledStruct ctor hint fields w with ⟨v, hv, hr⟩ | ⟨s, v, done, hdone, hadds, ⟨hr, _⟩ | hr⟩
  · exact .inl (by rw [hr]; exact hv)
  · exact .inr ⟨s, done, hdone, by rw [hr]; exact hadds⟩
  · exact .inr ⟨s, done, hdone, by rw [hr]; exact hadds⟩

end ValueCore
