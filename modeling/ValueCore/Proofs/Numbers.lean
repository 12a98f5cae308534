import ValueCore.Equality

/-!
# Numbers

Integers and floats are equal when they are the same number (`numbersEqual?_eq`), and equal numbers have the
same hash (`hashNumber_eq`). The second needs that a bit pattern is determined by the number it denotes. That
holds for all but the two zeros (`denotation_inj`), and zero is an integer, so it is not hashed by its bits.
-/

namespace ValueCore

namespace Binary64

variable {x y : Binary64}

/-! ## Fields of a bit pattern -/

theorem fraction_lt (x : Binary64) : x.fraction < 2 ^ 52 := Nat.mod_lt _ (by decide)

/-- Sign, exponent and fraction make up the bit pattern. -/
theorem ext_fields (hs : x.negative = y.negative) (he : x.exponentField = y.exponentField)
    (hf : x.fraction = y.fraction) : x = y := by
  obtain ⟨a⟩ := x
  obtain ⟨b⟩ := y
  have ha := a.toNat_lt
  have hb := b.toNat_lt
  simp only [negative, exponentField, fraction] at hs he hf
  have hs' : a.toNat / 2 ^ 63 % 2 = 1 ↔ b.toNat / 2 ^ 63 % 2 = 1 := by
    simpa only [beq_iff_eq] using Bool.eq_iff_iff.1 hs
  have hab : a.toNat = b.toNat := by omega
  rw [UInt64.toNat_inj.1 hab]

/-! ## Magnitudes -/

theorem magnitude_subnormal (he : x.exponentField = 0) : x.magnitude = x.fraction := by
  simp [magnitude, significand, spacing, he]

theorem magnitude_normal (he : x.exponentField ≠ 0) :
    x.magnitude = (2 ^ 52 + x.fraction) * 2 ^ (x.exponentField - 1) := by
  simp [magnitude, significand, spacing, he]

theorem le_magnitude (he : x.exponentField ≠ 0) : 2 ^ 52 * 2 ^ (x.exponentField - 1) ≤ x.magnitude := by
  rw [magnitude_normal he]
  exact Nat.mul_le_mul_right _ (Nat.le_add_right _ _)

theorem magnitude_lt (he : x.exponentField ≠ 0) : x.magnitude < 2 ^ 52 * 2 ^ x.exponentField := by
  have hpow : 2 ^ x.exponentField = 2 * 2 ^ (x.exponentField - 1) := by
    rw [← Nat.pow_succ', Nat.succ_eq_add_one, Nat.sub_add_cancel (Nat.pos_of_ne_zero he)]
  have hf := fraction_lt x
  calc x.magnitude = (2 ^ 52 + x.fraction) * 2 ^ (x.exponentField - 1) := magnitude_normal he
    _ < (2 ^ 52 * 2) * 2 ^ (x.exponentField - 1) := Nat.mul_lt_mul_of_pos_right (by omega) (Nat.two_pow_pos _)
    _ = 2 ^ 52 * 2 ^ x.exponentField := by rw [hpow, Nat.mul_assoc]

/-- A larger exponent makes a larger number. -/
theorem magnitude_lt_of_exponent_lt (h : x.exponentField < y.exponentField) : x.magnitude < y.magnitude := by
  have hy : y.exponentField ≠ 0 := Nat.ne_zero_of_lt h
  refine Nat.lt_of_lt_of_le ?_ (le_magnitude hy)
  by_cases hx : x.exponentField = 0
  · rw [magnitude_subnormal hx]
    exact Nat.lt_of_lt_of_le (fraction_lt x) (Nat.le_mul_of_pos_right _ (Nat.two_pow_pos _))
  · refine Nat.lt_of_lt_of_le (magnitude_lt hx) (Nat.mul_le_mul_left _ ?_)
    exact Nat.pow_le_pow_right (by decide) (by omega)

theorem exponent_eq_of_magnitude (h : x.magnitude = y.magnitude) : x.exponentField = y.exponentField := by
  rcases Nat.lt_trichotomy x.exponentField y.exponentField with hlt | heq | hlt
  · have := magnitude_lt_of_exponent_lt hlt
    omega
  · exact heq
  · have := magnitude_lt_of_exponent_lt hlt
    omega

theorem fraction_eq_of_magnitude (h : x.magnitude = y.magnitude) : x.fraction = y.fraction := by
  have he := exponent_eq_of_magnitude h
  by_cases hx : x.exponentField = 0
  · rwa [magnitude_subnormal hx, magnitude_subnormal (he ▸ hx)] at h
  · rw [magnitude_normal hx, magnitude_normal (he ▸ hx), he] at h
    have := Nat.eq_of_mul_eq_mul_right (Nat.two_pow_pos _) h
    omega

/-- **Only the two zeros are one number with two bit patterns.** -/
theorem denotation_inj (h : x.denotation = y.denotation) (hn : x.denotation ≠ .notANumber)
    (hz : x.denotation ≠ .finite 0) : x = y := by
  unfold denotation at h hn hz
  by_cases hx : x.exponentField = 2047
  · by_cases hfx : x.fraction = 0
    · by_cases hy : y.exponentField = 2047
      · by_cases hfy : y.fraction = 0
        · simp only [hx, hfx, hy, hfy, if_true, Denotation.infinite.injEq] at h
          exact ext_fields h (hx.trans hy.symm) (hfx.trans hfy.symm)
        · simp [hx, hfx, hy, hfy] at h
      · simp [hx, hfx, hy] at h
    · simp [hx, hfx] at hn
  · by_cases hy : y.exponentField = 2047
    · by_cases hfy : y.fraction = 0 <;> simp [hx, hy, hfy] at h
    · simp only [hx, hy, if_false, Denotation.finite.injEq] at h hz
      have hzx : x.magnitude ≠ 0 := fun h0 => hz (by simp [h0])
      have hm : x.magnitude = y.magnitude := by split at h <;> split at h <;> omega
      have hs : x.negative = y.negative := by
        cases hsx : x.negative <;> cases hsy : y.negative <;> simp only [hsx, hsy, if_true, if_false,
          Bool.false_eq_true] at h ⊢ <;> omega
      exact ext_fields hs (exponent_eq_of_magnitude hm) (fraction_eq_of_magnitude hm)

/-! ## Floats that are integers -/

theorem unitsPerOne_pos : 0 < unitsPerOne := by
  unfold unitsPerOne
  exact Int.pow_pos (by decide)

theorem toInt64?_eq_some {i : Int64} : x.toInt64? = some i ↔ x.denotation = .finite (i.toInt * unitsPerOne) := by
  have hu := unitsPerOne_pos
  unfold toInt64?
  cases hd : x.denotation with
  | infinite | notANumber => simp
  | finite units =>
    simp only [Option.ite_none_right_eq_some, Denotation.finite.injEq, Option.some.injEq]
    constructor
    · rintro ⟨⟨hmod, hle, hlt⟩, rfl⟩
      rw [Int64.toInt_ofInt_of_le hle hlt]
      exact (Int.ediv_mul_cancel (Int.dvd_of_emod_eq_zero hmod)).symm
    · rintro rfl
      rw [Int.mul_ediv_cancel _ (Int.ne_of_gt hu)]
      exact ⟨⟨Int.mul_emod_left _ _, i.le_toInt, i.toInt_lt⟩, Int64.ofInt_toInt i⟩

theorem toInt64?_congr (h : x.denotation = y.denotation) : x.toInt64? = y.toInt64? := by
  simp only [toInt64?, h]

/-- Floats that are the same number hash alike. -/
theorem hashFloat_eq (h : x.denotation = y.denotation) (hn : x.denotation ≠ .notANumber) :
    hashFloat x = hashFloat y := by
  unfold hashFloat
  rw [← toInt64?_congr h]
  cases hi : x.toInt64? with
  | some i => rfl
  | none =>
    have hz : x.denotation ≠ .finite 0 := fun hz => by
      have : x.toInt64? = some 0 := toInt64?_eq_some.2 (by rw [hz, Int64.toInt_zero, Int.zero_mul])
      rw [hi] at this
      cases this
    rw [denotation_inj h hn hz]

end Binary64

/-! ## Numbers among the values -/

/-- What a value denotes as a number, if it is one. -/
def Value.number? : Value → Option Binary64.Denotation
  | .int i => some (.finite (i.toInt * Binary64.unitsPerOne))
  | .float x => some x.denotation
  | _ => .none

open Binary64

theorem int_eq_iff {i j : Int64} : i = j ↔ i.toInt * unitsPerOne = j.toInt * unitsPerOne := by
  refine ⟨fun h => by rw [h], fun h => Int64.toInt_inj.1 ?_⟩
  exact Int.eq_of_mul_eq_mul_right (Int.ne_of_gt unitsPerOne_pos) h

theorem equalInt_eq (x : Binary64) (i : Int64) :
    x.equalInt i = decide (x.denotation = .finite (i.toInt * unitsPerOne)) := by
  simp only [equalInt, Bool.beq_eq_decide_eq, toInt64?_eq_some]

/-- **Numbers are equal when they are the same number.** -/
theorem numbersEqual?_eq (x y : Value) : numbersEqual? x y = match x.number?, y.number? with
    | some a, some b => some (decide (a = b ∧ a ≠ .notANumber))
    | _, _ => none := by
  cases x with
  | none | bool | str | dict | struct | host => cases y <;> rfl
  | int i =>
    cases y with
    | none | bool | str | dict | struct | host => rfl
    | int j =>
      simp only [numbersEqual?, Value.number?, Bool.beq_eq_decide_eq, Denotation.finite.injEq, ← int_eq_iff]
      simp
    | float y => simp [numbersEqual?, Value.number?, equalInt_eq, eq_comm]
  | float x =>
    cases y with
    | none | bool | str | dict | struct | host => rfl
    | int j =>
      simp only [numbersEqual?, Value.number?, equalInt_eq]
      congr 1
      exact decide_eq_decide.2 ⟨fun h => ⟨h, by simp [h]⟩, fun h => h.1⟩
    | float y => simp [numbersEqual?, Value.number?, Binary64.equal, Bool.beq_eq_decide_eq, bne]

/-- The other way round the verdict is the same. -/
theorem numbersEqual?_comm (x y : Value) : numbersEqual? x y = numbersEqual? y x := by
  rw [numbersEqual?_eq, numbersEqual?_eq]
  cases x.number? <;> cases y.number? <;> simp only
  rename_i a b
  congr 1
  exact decide_eq_decide.2 ⟨fun ⟨h, hn⟩ => ⟨h.symm, h ▸ hn⟩, fun ⟨h, hn⟩ => ⟨h.symm, h ▸ hn⟩⟩

/-- Hash of a number. -/
def Value.hashNumber : Value → UInt32
  | .int i => hashInt i
  | .float x => hashFloat x
  | _ => 0

theorem hashFloat_of_int {x : Binary64} {i : Int64} (h : x.denotation = .finite (i.toInt * unitsPerOne)) :
    hashFloat x = hashInt i := by
  rw [hashFloat, toInt64?_eq_some.2 h]

/-- **Equal numbers hash alike.** -/
theorem hashNumber_eq {x y : Value} (h : numbersEqual? x y = some true) : x.hashNumber = y.hashNumber := by
  rw [numbersEqual?_eq] at h
  cases x <;> cases y <;> simp only [Value.number?, Option.some.injEq, decide_eq_true_eq, reduceCtorEq] at h <;>
    simp only [Value.hashNumber]
  · have hunits := Denotation.finite.inj h.1
    rw [int_eq_iff.2 hunits]
  · exact (hashFloat_of_int h.1.symm).symm
  · exact hashFloat_of_int h.1
  · exact hashFloat_eq h.1 h.2

end ValueCore
