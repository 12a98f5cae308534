import ValueCore.Proofs.Operations.Outcomes

/-!
# Requests that are refused

A computation that only takes and gives back memory can fail in two ways: the size that it asks for is none, or the
allocator refuses. `Spends` says that it does not fail in the first way. If it fails at all, then there is a request among
those that it made which the allocator refused (`Memory.Refused`), and where every request is granted it returns.
-/

namespace ValueCore

open World

variable {ε α β : Type} {w v : World ε} {kind : KeyKind}

namespace Memory

variable {m m' m'' : Memory}

/-- A later state of the same ledger, with the same allocator. -/
structure Later (m m' : Memory) : Prop extends SamePolicy m m' where
  requests : m.requests ≤ m'.requests

/-- One of the requests made between two states of a ledger was refused. -/
def Refused (m m' : Memory) : Prop :=
  ∃ serial bytes, m.requests ≤ serial ∧ serial < m'.requests ∧
    (m.refusing = true ∨ m.grants serial bytes = false)

theorem Later.refl (m : Memory) : Later m m := ⟨.refl m, Nat.le_refl _⟩

theorem Later.trans (h : Later m m') (h' : Later m' m'') : Later m m'' :=
  ⟨h.toSamePolicy.trans h'.toSamePolicy, Nat.le_trans h.requests h'.requests⟩

theorem Refused.later (h : Refused m m') (h' : Later m' m'') : Refused m m'' := by
  obtain ⟨serial, bytes, hle, hlt, hno⟩ := h
  exact ⟨serial, bytes, hle, Nat.lt_of_lt_of_le hlt h'.requests, hno⟩

theorem Refused.earlier (h : Later m m') (h' : Refused m' m'') : Refused m m'' := by
  obtain ⟨serial, bytes, hle, hlt, hno⟩ := h'
  rw [h.grants, h.refusing] at hno
  exact ⟨serial, bytes, Nat.le_trans h.requests hle, hlt, hno⟩

theorem later_releaseOption (b : Option Block) (bytes : Nat) : Later m (m.releaseOption b bytes) := by
  cases b <;> exact ⟨⟨rfl, rfl⟩, Nat.le_refl _⟩

theorem later_request (bytes : Nat) : Later m (m.request bytes).2 := by
  unfold request
  dsimp only
  split <;> exact ⟨⟨rfl, rfl⟩, Nat.le_succ _⟩

theorem later_resize (b : Block) (old new : Nat) : Later m (m.resize b old new).2 := by
  unfold resize
  dsimp only
  split <;> exact ⟨⟨rfl, rfl⟩, Nat.le_succ _⟩

theorem answer_eq_false {bytes : Nat} (h : m.answer bytes = false) :
    m.refusing = true ∨ m.grants m.requests bytes = false := by
  unfold answer at h
  cases hr : m.refusing with
  | true => exact .inl rfl
  | false => exact .inr (by simpa [hr] using h)

theorem refused_request {bytes : Nat} (h : (m.request bytes).1 = none) : Refused m (m.request bytes).2 := by
  cases ha : m.answer bytes with
  | true => simp [request, ha] at h
  | false =>
    refine ⟨m.requests, bytes, Nat.le_refl _, ?_, answer_eq_false ha⟩
    simp [request, ha]

theorem refused_resize {b : Block} {old new : Nat} (h : (m.resize b old new).1 = false) :
    Refused m (m.resize b old new).2 := by
  cases ha : m.answer new with
  | true => simp [resize, ha] at h
  | false =>
    refine ⟨m.requests, new, Nat.le_refl _, ?_, answer_eq_false ha⟩
    simp [resize, ha]

/-- An array whose bytes, and those of one more element, can be counted in a word is not too big. -/
theorem tooBig_eq_false {count size : Nat} (hs : 0 < size) (h : (count + 1) * size < wordSpan) :
    tooBig count size = false := by
  have hle : count + 1 ≤ (wordSpan - 1) / size := (Nat.le_div_iff_mul_le hs).2 (by omega)
  have hlt : count + 1 < wordSpan := Nat.lt_of_le_of_lt (Nat.le_mul_of_pos_right _ hs) h
  unfold tooBig
  rw [Nat.mod_eq_of_lt hlt]
  exact decide_eq_false (Nat.not_lt.2 hle)

end Memory

/-- The computation fails for one reason only: the allocator refused one of its requests. -/
structure World.Spends (w : World ε) (act : Run ε α) : Prop where
  later : w.memory.Later (act w).2.memory
  refused : ∀ e, (act w).1 = .error e → w.memory.Refused (act w).2.memory

namespace World.Spends

/-- A computation that returns and does not touch the ledger. -/
theorem of_ok {act : Run ε α} {a : α} (h : act w = (.ok a, v)) (hm : v.memory = w.memory) : w.Spends act := by
  refine ⟨?_, fun e he => ?_⟩
  · rw [h, hm]
    exact .refl _
  · rw [h] at he
    cases he

theorem pure (a : α) : w.Spends (pure a : Run ε α) := of_ok (run_pure a w) rfl

/-- What runs alike fails for the same reason. -/
theorem congr {x y : Run ε α} (h : x w = y w) (hy : w.Spends y) : w.Spends x :=
  ⟨by rw [h]; exact hy.later, fun e he => by rw [h] at he ⊢; exact hy.refused e he⟩

theorem bind {x : Run ε α} {f : α → Run ε β} (hx : w.Spends x) (hf : ∀ a v, x w = (.ok a, v) → v.Spends (f a)) :
    w.Spends (x >>= f) := by
  obtain ⟨hlater, hrefused⟩ := hx
  cases hr : x w with
  | mk r v =>
    rw [hr] at hlater hrefused
    cases r with
    | error e =>
      refine ⟨by rw [run_bind_error hr]; exact hlater, fun e' _ => ?_⟩
      rw [run_bind_error hr]
      exact hrefused e rfl
    | ok a =>
      have hnext := hf a v hr
      refine ⟨by rw [run_bind_ok hr]; exact hlater.trans hnext.later, fun e he => ?_⟩
      rw [run_bind_ok hr] at he ⊢
      exact .earlier hlater (hnext.refused e he)

/-- Reading goes on in the same world. -/
theorem read {x : Run ε α} {a : α} {f : α → Run ε β} (hx : x w = (.ok a, w)) (hf : w.Spends (f a)) :
    w.Spends (x >>= f) := by
  refine (of_ok hx rfl).bind fun b v hb => ?_
  rw [hx] at hb
  cases hb
  exact hf

/-- A result in the block that was taken for it. -/
theorem newObject {bytes : Nat} {make : Run ε α} (ha : w.Spends (allocate bytes))
    (hmake : ∀ b v, allocate bytes w = (.ok b, v) → v.Spends make) : w.Spends (newObject bytes make) := by
  refine ha.bind fun b v hb => ?_
  have hm := hmake b v hb
  unfold madeIn
  cases hr : make v with
  | mk r u =>
    have hlater := hm.later
    have hrefused := hm.refused
    rw [hr] at hlater hrefused
    cases r with
    | ok a => exact ⟨by simpa only [hr] using hlater, fun e he => by simp only [hr] at he; cases he⟩
    | error e =>
      have hfreed : u.memory.Later (u.freed b bytes).memory := Memory.later_releaseOption b bytes
      refine ⟨by simpa only [hr] using hlater.trans hfreed, fun e' _ => ?_⟩
      simpa only [hr] using (hrefused e rfl).later hfreed

end World.Spends

/-! ## Asking for memory -/

theorem spends_allocate (bytes : Nat) : w.Spends (allocate bytes) := by
  unfold allocate
  dsimp only
  split
  · exact .pure none
  · cases hr : w.memory.request bytes with
    | mk granted memory =>
      have hlater := Memory.later_request (m := w.memory) bytes
      have hrefused : (w.memory.request bytes).1 = none → _ := Memory.refused_request
      rw [hr] at hlater hrefused
      have hrun : (modifyGet fun w : World ε => ((w.memory.request bytes).1, { w with memory := (w.memory.request bytes).2 }) :
          Run ε (Option Block)) w = (.ok granted, { w with memory }) := by rw [run_modifyGet, hr]
      cases granted with
      | some b => exact ⟨by rw [run_bind_ok hrun]; exact hlater, fun e he => by rw [run_bind_ok hrun] at he; cases he⟩
      | none =>
        refine ⟨by rw [run_bind_ok hrun]; exact hlater, fun e _ => ?_⟩
        rw [run_bind_ok hrun]
        exact hrefused rfl

theorem spends_allocateArray {count size : Nat} (hb : Memory.tooBig count size = false) :
    w.Spends (allocateArray count size) := by
  unfold allocateArray
  rw [hb]
  exact spends_allocate _

/-- A temporary array whose bytes can be counted in a word is asked for. -/
theorem spends_allocateElements {count size : Nat} (hs : 0 < size) (h : count * size < Memory.wordSpan) :
    w.Spends (allocateElements count size) := by
  have hle : count ≤ (Memory.wordSpan - 1) / size := (Nat.le_div_iff_mul_le hs).2 (by omega)
  unfold allocateElements
  rw [if_neg (Nat.not_lt.2 hle)]
  exact spends_allocate _

theorem spends_tryReallocate (b : Option Block) (old new : Nat) :
    w.memory.Later ((tryReallocate b old new : Run ε _) w).2.memory ∧ ∃ granted,
      ((tryReallocate b old new : Run ε _) w).1 = .ok granted ∧
        (granted = none → w.memory.Refused ((tryReallocate b old new : Run ε _) w).2.memory) := by
  unfold tryReallocate
  dsimp only
  split
  · exact ⟨Memory.later_releaseOption b old, _, rfl, fun h => by cases h⟩
  · cases b with
    | none =>
      refine ⟨Memory.later_request new, _, rfl, fun h => ?_⟩
      exact Memory.refused_request (Option.map_eq_none_iff.1 h)
    | some block =>
      refine ⟨Memory.later_resize block old new, _, rfl, fun h => Memory.refused_resize ?_⟩
      cases hg : (w.memory.resize block old new).1 with
      | true => simp [hg] at h
      | false => rfl

theorem spends_reallocateArray {b : Option Block} {old new size : Nat} (hb : Memory.tooBig new size = false) :
    w.Spends (reallocateArray b old new size) := by
  unfold reallocateArray reallocate
  rw [hb]
  change w.Spends (tryReallocate b (Memory.arrayBytes old size) (Memory.arrayBytes new size) >>= _)
  obtain ⟨hlater, granted, hg, hrefused⟩ := spends_tryReallocate (w := w) b (Memory.arrayBytes old size)
    (Memory.arrayBytes new size)
  have hrun := run_eq_of_answer hg
  cases granted with
  | some block => exact ⟨by rw [run_bind_ok hrun]; exact hlater, fun e he => by rw [run_bind_ok hrun] at he; cases he⟩
  | none =>
    refine ⟨by rw [run_bind_ok hrun]; exact hlater, fun e _ => ?_⟩
    rw [run_bind_ok hrun]
    exact hrefused rfl

end ValueCore
