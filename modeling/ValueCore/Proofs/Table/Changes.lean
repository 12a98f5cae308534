import ValueCore.Proofs.Table.Growth

/-!
# The changes of a table

`Change t t'` says that `t'` comes from `t` by one complete change of its contents or of its storage, made
where the operations make it: a new entry only in a table that is not overloaded, in the last empty slot of
its chain or else in a new bucket, a rebuild only when the table is overloaded, more storage only when all of
it is in use. Nothing else happens to a table, apart from being held, frozen or sized while it is empty.

Every change is a write into the storage as it is (`Written`), or it builds the storage anew (`Rebuilt`). It keeps the
invariant (`Change.sound`) and touches neither holds nor the frozen flag (`Change.flags`).
-/

namespace ValueCore.Table

variable {κ : Type} {t t' : Table κ}

/-- One change of a table. -/
inductive Change (t : Table κ) : Table κ → Prop
  | overwrite (i : Nat) (v : Value) : i ∈ t.order → Change t (t.overwrite i v)
  | fill (i : Nat) (hash : UInt32) (key : κ) (v : Value) : overloaded t.length t.heads = false → hash ≠ 0 →
    t.vacancy (t.home hash) = some i → Change t (t.append i hash key v)
  | extend (hash : UInt32) (key : κ) (v : Value) : overloaded t.length t.heads = false → hash ≠ 0 →
    t.vacancy (t.home hash) = none → t.used < t.capacity →
    Change t ((t.addOverflow (t.home hash)).append (bucketSize * t.used) hash key v)
  | remove (i : Nat) : i ∈ t.order → Change t (t.remove i)
  | clear : Change t t.cleared
  | double (block : Option Block) : t.used = t.capacity → t.capacity < 2 * maxHeads → Change t (t.doubled block)
  | grow (block : Option Block) : overloaded t.length t.heads → t.heads < maxHeads → Change t (t.grown block)

theorem vacancy_eq_some {c i : Nat} (h : t.vacancy c = some i) : i ∈ t.chainSlots c ∧ t.slot i = none := by
  have hm := List.mem_of_getLast? h
  simpa using hm

/-- A write into the storage that the table has. A new entry goes into the last empty slot of its chain, and into another
bucket if there is none. -/
inductive Written (t : Table κ) : Table κ → Prop
  | overwrite (i : Nat) (v : Value) : Written t (t.overwrite i v)
  | fill (i : Nat) (hash : UInt32) (key : κ) (v : Value) : hash ≠ 0 → t.vacancy (t.home hash) = some i →
    Written t (t.append i hash key v)
  | extend (hash : UInt32) (key : κ) (v : Value) : hash ≠ 0 → t.vacancy (t.home hash) = none → t.used < t.capacity →
    Written t ((t.addOverflow (t.home hash)).append (bucketSize * t.used) hash key v)
  | remove (i : Nat) : i ∈ t.order → Written t (t.remove i)
  | double (block : Option Block) : Written t (t.doubled block)

/-- The table gets its storage anew, with all the entries in it or without any. -/
inductive Rebuilt (t : Table κ) : Table κ → Prop
  | grow (block : Option Block) : t.heads < maxHeads → Rebuilt t (t.grown block)
  | clear : Rebuilt t t.cleared
  | size (heads : Nat) (block : Option Block) : (∃ k ≤ 24, heads = 2 ^ k) → t.length = 0 → Rebuilt t (t.resized heads block)

theorem Change.written_or_rebuilt (hc : Change t t') : Written t t' ∨ Rebuilt t t' := by
  cases hc with
  | overwrite i v _ => exact .inl (.overwrite i v)
  | fill i hash key v _ hhash hi => exact .inl (.fill i hash key v hhash hi)
  | extend hash key v _ hhash hi hroom => exact .inl (.extend hash key v hhash hi hroom)
  | remove i hi => exact .inl (.remove i hi)
  | clear => exact .inr .clear
  | double block _ _ => exact .inl (.double block)
  | grow block _ hmax => exact .inr (.grow block hmax)

theorem Written.sound (h : Sound t) (hw : Written t t') : Sound t' := by
  cases hw with
  | overwrite i v => exact (h.overwrite i v).1
  | fill i hash key v hhash hi =>
    obtain ⟨hmem, hempty⟩ := vacancy_eq_some hi
    exact (h.append key v hempty hmem hhash).1
  | extend hash key v hhash _ hroom => exact (h.extend key v hroom hhash).1
  | remove i hi =>
    obtain ⟨a, b, hab⟩ := List.append_of_mem hi
    exact (h.remove hab).1
  | double block => exact (h.doubled block).1

theorem Rebuilt.sound (h : Sound t) (hr : Rebuilt t t') : Sound t' := by
  cases hr with
  | grow block hmax => exact (h.grown hmax block).1
  | clear => exact h.cleared.1
  | size heads block hp hlen => exact (sound_resized block hp hlen).1

theorem Written.heads_eq (hw : Written t t') : t'.heads = t.heads := by
  cases hw with
  | overwrite | double => rfl
  | fill i hash key v => exact (append_frame (t := t) i hash key v).1
  | extend hash key v =>
    exact (append_frame (t := t.addOverflow (t.home hash)) _ hash key v).1.trans (addOverflow_frame (t := t) _).1
  | remove i => exact (remove_frame (t := t) i).1

theorem Change.sound (h : Sound t) (hc : Change t t') : Sound t' :=
  hc.written_or_rebuilt.elim (·.sound h) (·.sound h)

theorem Change.flags (h : Sound t) (hc : Change t t') : t'.holds = t.holds ∧ t'.frozen = t.frozen := by
  cases hc with
  | overwrite => exact ⟨rfl, rfl⟩
  | fill i hash key v _ _ _ =>
    obtain ⟨-, -, -, -, -, -, h7, h8⟩ := append_frame (t := t) i hash key v
    exact ⟨h7, h8⟩
  | extend hash key v _ _ _ _ =>
    obtain ⟨-, -, -, -, -, -, g7, g8⟩ := addOverflow_frame (t := t) (t.home hash)
    obtain ⟨-, -, -, -, -, -, h7, h8⟩ :=
      append_frame (t := t.addOverflow (t.home hash)) (bucketSize * t.used) hash key v
    exact ⟨h7.trans g7, h8.trans g8⟩
  | remove i _ =>
    obtain ⟨-, -, -, -, -, -, h7, h8⟩ := remove_frame (t := t) i
    exact ⟨h7, h8⟩
  | clear => exact ⟨rfl, rfl⟩
  | double => exact ⟨rfl, rfl⟩
  | grow block _ hmax =>
    obtain ⟨-, -, -, -, -, h6, h7⟩ := h.grown hmax block
    exact ⟨h6, h7⟩

/-! ## A new entry -/

/-- `t'` is `t` with a new entry at the end, put where an insertion puts it. -/
inductive Placed (t : Table κ) (hash : UInt32) (key : κ) (v : Value) : Table κ → Prop
  | fill (i : Nat) : t.vacancy (t.home hash) = some i → Placed t hash key v (t.append i hash key v)
  | extend : t.vacancy (t.home hash) = none → t.used < t.capacity →
    Placed t hash key v ((t.addOverflow (t.home hash)).append (bucketSize * t.used) hash key v)
  | doubled (block : Option Block) : t.vacancy (t.home hash) = none → t.used = t.capacity →
    t.capacity < 2 * maxHeads → Placed t hash key v
      (((t.doubled block).addOverflow (t.home hash)).append (bucketSize * t.used) hash key v)

theorem vacancy_doubled (block : Option Block) (c : Nat) : (t.doubled block).vacancy c = t.vacancy c := by
  have hslot : (t.doubled block).slot = t.slot := funext fun i => slot_doubled block i
  have hchain : (t.doubled block).chainSlots c = t.chainSlots c := rfl
  simp only [vacancy, hslot, hchain]

/-- Placing an entry is one change, or two if the storage is doubled first. -/
theorem Placed.changes (h : Sound t) {hash : UInt32} {key : κ} {v : Value} (hhash : hash ≠ 0)
    (ho : overloaded t.length t.heads = false) (hp : Placed t hash key v t') :
    Change t t' ∨ ∃ block, Change t (t.doubled block) ∧ Change (t.doubled block) t' := by
  cases hp with
  | fill i hi => exact .inl (.fill i hash key v ho hhash hi)
  | extend hi hroom => exact .inl (.extend hash key v ho hhash hi hroom)
  | doubled block hi hfull hmax =>
    refine .inr ⟨block, .double block hfull hmax, .extend hash key v ho hhash ?_ ?_⟩
    · exact (vacancy_doubled block _).trans hi
    · have := h.heads_pos
      have := h.heads_le
      show t.used < 2 * t.capacity
      omega

theorem Placed.sound (h : Sound t) {hash : UInt32} {key : κ} {v : Value} (hhash : hash ≠ 0)
    (ho : overloaded t.length t.heads = false) (hp : Placed t hash key v t') :
    Sound t' ∧ t'.holds = t.holds ∧ t'.frozen = t.frozen := by
  rcases hp.changes h hhash ho with hc | ⟨block, hc, hc'⟩
  · exact ⟨hc.sound h, hc.flags h⟩
  · have hd := hc.sound h
    have hf := hc.flags h
    have hf' := hc'.flags hd
    exact ⟨hc'.sound hd, hf'.1.trans hf.1, hf'.2.trans hf.2⟩

theorem Placed.records_eq (h : Sound t) {hash : UInt32} {key : κ} {v : Value} (hhash : hash ≠ 0)
    (hp : Placed t hash key v t') : t'.records = t.records ++ [(hash, key, v)] := by
  cases hp with
  | fill i hi =>
    obtain ⟨hmem, hempty⟩ := vacancy_eq_some hi
    exact h.records_append key v hempty hmem hhash
  | extend hi hroom => exact h.records_extend key v hroom hhash
  | doubled block hi hfull hmax =>
    have hd := (h.doubled block).1
    have hroom : (t.doubled block).used < (t.doubled block).capacity := by
      have := h.heads_pos
      have := h.heads_le
      show t.used < 2 * t.capacity
      omega
    exact (hd.records_extend key v hroom hhash).trans (by rw [h.records_doubled block])

/-! ## Tables that differ in their flags only -/

/-- `t'` is `t`, held or frozen in another way. -/
def SameStore (t t' : Table κ) : Prop := t' = { t with holds := t'.holds, frozen := t'.frozen }

/-- The same slots are live in the same order with the same entries. -/
def Kept (t t' : Table κ) : Prop := t'.order = t.order ∧ ∀ i ∈ t.order, t'.slot i = t.slot i

theorem SameStore.refl (t : Table κ) : SameStore t t := rfl

theorem SameStore.flags (t : Table κ) (n : Nat) (b : Bool) : SameStore t { t with holds := n, frozen := b } := rfl

theorem SameStore.trans {u : Table κ} (h : SameStore t t') (h' : SameStore t' u) : SameStore t u := by
  unfold SameStore at *
  rw [h', h]

theorem SameStore.symm (h : SameStore t t') : SameStore t' t := by
  unfold SameStore at *
  rw [h]

theorem SameStore.kept (h : SameStore t t') : Kept t t' := by
  rw [h]
  exact ⟨order_flags _ _, fun _ _ => rfl⟩

theorem Kept.refl (t : Table κ) : Kept t t := ⟨rfl, fun _ _ => rfl⟩

theorem Kept.trans {u : Table κ} (h : Kept t t') (h' : Kept t' u) : Kept t u :=
  ⟨h'.1.trans h.1, fun i hi => (h'.2 i (h.1 ▸ hi)).trans (h.2 i hi)⟩

theorem Kept.records_eq (h : Kept t t') : t'.records = t.records :=
  records_of_order h.1 fun i hi => by rw [recordAt, h.2 i hi, recordAt]

theorem Kept.items_eq (h : Kept t t') : t'.items = t.items := by
  rw [Table.items_eq, h.records_eq, Table.items_eq]

/-- The same but for flags, or sized anew without entries. -/
def Steady (t t' : Table κ) : Prop := SameStore t t' ∨ Kept t t' ∧ t.length = 0 ∧ t'.length = 0

theorem SameStore.steady (h : SameStore t t') : Steady t t' := .inl h

theorem SameStore.length_eq (h : SameStore t t') : t'.length = t.length := by rw [h]

theorem Steady.kept (h : Steady t t') : Kept t t' := h.elim (·.kept) (·.1)

theorem Steady.trans {u : Table κ} (h : Steady t t') (h' : Steady t' u) : Steady t u := by
  rcases h with h | ⟨hk, hlen, hlen'⟩
  · rcases h' with h' | ⟨hk', hlen, hlen'⟩
    · exact .inl (h.trans h')
    · exact .inr ⟨h.kept.trans hk', h.length_eq ▸ hlen, hlen'⟩
  · refine .inr ⟨hk.trans h'.kept, hlen, ?_⟩
    exact h'.elim (fun h' => h'.length_eq.trans hlen') (·.2.2)

theorem Steady.length_eq (h : Steady t t') : t'.length = t.length :=
  h.elim (·.length_eq) fun h => h.2.2.trans h.2.1.symm

/-- A search goes through the same slots. -/
theorem Steady.candidates_eq (h : Steady t t') (hs : Sound t) (hs' : Sound t') (hash : UInt32) :
    t'.candidates hash = t.candidates hash := by
  rcases h with h | ⟨_, hlen, hlen'⟩
  · rw [h]
    rfl
  · have hnone : ∀ {u : Table κ}, Sound u → u.length = 0 → u.candidates hash = [] := fun {u} hu hl =>
      List.eq_nil_iff_forall_not_mem.2 fun c hc => by
        have hm := (hu.mem_candidates.1 hc).1
        rw [hu.order_eq_nil hl] at hm
        cases hm
    rw [hnone hs hlen, hnone hs' hlen']

/-- A table without entries keeps them when it is sized. -/
theorem Sound.kept_resized (h : Sound t) {heads : Nat} (block : Option Block) (hp : ∃ k ≤ 24, heads = 2 ^ k)
    (hlen : t.length = 0) : Kept t (t.resized heads block) := by
  have ho := h.order_eq_nil hlen
  refine ⟨(sound_resized block hp hlen).2.trans ho.symm, fun i hi => ?_⟩
  rw [ho] at hi
  cases hi

end ValueCore.Table
