import Mathlib.Data.EReal.Basic
import Mathlib.Tactic.Ring
import ValueCore.Proofs.Reachable
import ValueCore.Proofs.Scalars

/-!
# Equality of numbers is exact

A bit pattern is decoded to a number of units of `2 ^ (-1074)`. What the pattern stands for is told here once more, as
the standard for floating-point arithmetic tells it: sign, exponent and fraction give a real number
(`Binary64.real`), an exponent of ones an infinity or nothing. The two agree (`extended?_eq`), so numbers are equal when
they are the same extended real, whichever of them is an integer and whichever a float, and nothing is rounded on the
way (`numeric_equality_exact`).

| numbers | equal when |
|---|---|
| two integers | they are the same |
| an integer and a float | the float is finite and its value is the integer |
| two floats | both are numbers, and the same extended real |
-/

namespace ValueCore

variable {ε : Type}

namespace Binary64

/-! ## What a bit pattern stands for -/

/-- All exponents but the last are those of finite numbers. -/
def Finite (x : Binary64) : Prop := x.exponentField ≠ 2047

/-- Value of a finite pattern. A normal number has a leading one before its fraction, and the exponent is offset by
1023; a subnormal number has none, and the least exponent of the normal ones. -/
noncomputable def real (x : Binary64) : ℝ :=
  (if x.negative then -1 else 1) *
    if x.exponentField = 0 then (2 : ℝ) ^ (-1022 : ℤ) * (x.fraction / 2 ^ 52)
    else (2 : ℝ) ^ ((x.exponentField : ℤ) - 1023) * (1 + x.fraction / 2 ^ 52)

/-- The extended real that a pattern stands for, if it is a number. -/
noncomputable def extended? (x : Binary64) : Option EReal :=
  if x.exponentField = 2047 then
    if x.fraction = 0 then some (if x.negative then ⊥ else ⊤) else none
  else some (x.real : EReal)

theorem extended?_of_finite {x : Binary64} (h : x.Finite) : x.extended? = some (x.real : EReal) := if_neg h

/-- Ones for an exponent, with a fraction, make no number. -/
def IsNaN (x : Binary64) : Prop := x.exponentField = 2047 ∧ x.fraction ≠ 0

instance (x : Binary64) : Decidable x.IsNaN := inferInstanceAs (Decidable (_ ∧ _))

theorem extended?_eq_none {x : Binary64} : x.extended? = none ↔ x.IsNaN := by
  unfold extended? IsNaN
  split
  case isTrue he => by_cases hf : x.fraction = 0 <;> simp [he, hf]
  case isFalse he => simp [he]

/-- A real number is only what a finite pattern stands for. -/
theorem extended?_eq_real {x : Binary64} {r : ℝ} : x.extended? = some (r : EReal) ↔ x.Finite ∧ x.real = r := by
  by_cases h : x.exponentField = 2047
  · have hinfinite : x.extended? ≠ some (r : EReal) := by
      rw [extended?, if_pos h]
      split
      · split <;> simp
      · simp
    exact ⟨fun he => absurd he hinfinite, fun ⟨hf, _⟩ => absurd h hf⟩
  · rw [extended?_of_finite h, Option.some.injEq, EReal.coe_eq_coe_iff]
    exact ⟨fun hr => ⟨h, hr⟩, fun ⟨_, hr⟩ => hr⟩

/-! ## Units -/

/-- Value of a number of units. -/
noncomputable def Denotation.extended? : Denotation → Option EReal
  | .finite units => some ((units / 2 ^ 1074 : ℝ) : EReal)
  | .infinite negative => some (if negative then ⊥ else ⊤)
  | .notANumber => none

/-- A magnitude counts units. -/
theorem magnitude_units (x : Binary64) : (x.magnitude : ℝ) / 2 ^ 1074 =
    if x.exponentField = 0 then (2 : ℝ) ^ (-1022 : ℤ) * (x.fraction / 2 ^ 52)
    else (2 : ℝ) ^ ((x.exponentField : ℤ) - 1023) * (1 + x.fraction / 2 ^ 52) := by
  have htwo : (2 : ℝ) ≠ 0 := two_ne_zero
  have hunit : (2 : ℝ) ^ 1074 = 2 ^ 1022 * 2 ^ 52 := by rw [← pow_add]
  split
  case isTrue he =>
    rw [magnitude_subnormal he, hunit, zpow_neg]
    field_simp
  case isFalse he =>
    obtain ⟨k, hk⟩ := Nat.exists_eq_succ_of_ne_zero he
    have hexp : (2 : ℝ) ^ ((x.exponentField : ℤ) - 1023) = 2 ^ k / 2 ^ 1022 := by
      rw [show (x.exponentField : ℤ) - 1023 = (k : ℤ) - (1022 : ℕ) by omega, zpow_sub₀ htwo, zpow_natCast, zpow_natCast]
    rw [magnitude_normal he, hexp, hunit, hk, Nat.succ_sub_one]
    push_cast
    field_simp
    norm_num

/-- **Decoding a pattern gives what it stands for.** -/
theorem extended?_eq (x : Binary64) : x.extended? = x.denotation.extended? := by
  unfold extended? denotation
  split
  · split <;> rfl
  · have hreal : x.real = (if x.negative then -1 else 1) * (x.magnitude / 2 ^ 1074) := by rw [real, magnitude_units]
    rw [hreal]
    cases x.negative <;> simp [neg_div, Denotation.extended?]

namespace Denotation

/-- What a number of units stands for tells the number. -/
theorem extended?_inj {a b : Denotation} (h : a.extended? = b.extended?) : a = b := by
  have hpos : (2 : ℝ) ^ 1074 ≠ 0 := pow_ne_zero _ two_ne_zero
  cases a with
  | finite m =>
    cases b with
    | finite n =>
      rw [extended?, extended?, Option.some.injEq, EReal.coe_eq_coe_iff, div_left_inj' hpos, Int.cast_inj] at h
      rw [h]
    | infinite n => cases n <;> simp [extended?] at h
    | notANumber => simp [extended?] at h
  | infinite m =>
    cases b with
    | finite n => cases m <;> simp [extended?] at h
    | infinite n => cases m <;> cases n <;> first | rfl | simp [extended?] at h
    | notANumber => simp [extended?] at h
  | notANumber => cases b <;> first | rfl | simp [extended?] at h

end Denotation

end Binary64

/-! ## Numbers -/

/-- What a program takes for a number. -/
inductive Number where
  | int (i : Int64)
  | float (x : Binary64)

namespace Number

open Binary64

def value : Number → Value
  | .int i => .int i
  | .float x => .float x

/-- The extended real that it is, if it is any. -/
noncomputable def extended? : Number → Option EReal
  | .int i => some ((i.toInt : ℝ) : EReal)
  | .float x => x.extended?

variable {m n : Number}

theorem apart (m : Number) (v : Value) : m.value.Apart v := by
  refine apart_of_scalar ?_
  cases m <;> trivial

/-- An integer has `unitsPerOne` units for each one. -/
theorem extended?_int (i : Int64) :
    (Number.int i).extended? = Denotation.extended? (.finite (i.toInt * unitsPerOne)) := by
  have hpos : (2 : ℝ) ^ 1074 ≠ 0 := pow_ne_zero _ two_ne_zero
  have hunits : ((unitsPerOne : ℤ) : ℝ) = 2 ^ 1074 := Int.cast_pow 2 1074
  rw [extended?, Denotation.extended?, Int.cast_mul, hunits, mul_div_cancel_right₀ _ hpos]

/-- A number is decoded to what it is. -/
theorem denoted (m : Number) : ∃ d, m.value.number? = some d ∧ m.extended? = d.extended? := by
  cases m with
  | int i => exact ⟨_, rfl, extended?_int i⟩
  | float x => exact ⟨_, rfl, extended?_eq x⟩

theorem same_value : m.value.same n.value = true ↔ ∃ r, m.extended? = some r ∧ n.extended? = some r := by
  obtain ⟨a, ha, hm⟩ := m.denoted
  obtain ⟨b, hb, hn⟩ := n.denoted
  have hnone : ∀ {d : Denotation}, d.extended? = none ↔ d = .notANumber := fun {d} => by
    cases d <;> simp [ Denotation.extended?]
  rw [same_iff, ha, hb, hm, hn]
  constructor
  · rintro ⟨hab, hnumber, _⟩
    obtain rfl : a = b := Option.some.inj hab
    obtain ⟨r, hr⟩ := Option.ne_none_iff_exists'.1 fun h => hnumber (congrArg some (hnone.1 h))
    exact ⟨r, hr, hr⟩
  · rintro ⟨r, har, hbr⟩
    obtain rfl : a = b := Denotation.extended?_inj (har.trans hbr.symm)
    refine ⟨rfl, fun h => ?_, fun h => nomatch h⟩
    rw [hnone.2 (Option.some.inj h)] at har
    cases har

end Number

/-- Comparing the two values tells whether something is so. The comparison returns, and leaves the world as it is. -/
def Tells (host : Host ε) (w : World ε) (x y : Value) (P : Prop) : Prop :=
  ∃ verdict, equal host x y w = (.ok verdict, w) ∧ (verdict = true ↔ P)

variable {host : Host ε} {w : World ε}

theorem tells_numbers (m n : Number) :
    Tells host w m.value n.value (∃ r, m.extended? = some r ∧ n.extended? = some r) :=
  ⟨_, run_equal_apart (m.apart _) w, Number.same_value⟩

theorem Tells.congr {x y : Value} {P Q : Prop} (h : Tells host w x y P) (hPQ : P ↔ Q) : Tells host w x y Q := by
  obtain ⟨verdict, hrun, hiff⟩ := h
  exact ⟨verdict, hrun, hiff.trans hPQ⟩

/-- What is no number is equal to nothing. -/
theorem same_of_isNaN {x : Binary64} (h : x.IsNaN) (v : Value) : (Value.float x).same v = false := by
  have hd : x.denotation = .notANumber := by simp [Binary64.denotation, h.1, h.2]
  rw [Bool.eq_false_iff, Ne, same_iff]
  exact fun ⟨_, hne, _⟩ => hne (congrArg some hd)

/-- **Equality of numbers is exact.** Every comparison of numbers returns. An integer is equal to a float, in either
order, when the float is finite and its value is the integer; two floats are equal when both are numbers and stand for
the same extended real. Over all numbers equality is being the same extended real, so it is transitive. What is not a
number is equal to nothing, whatever it is compared with. -/
theorem numeric_equality_exact (host : Host ε) (w : World ε) :
    (∀ (i : Int64) (f : Binary64), Tells host w (.int i) (.float f) (f.Finite ∧ f.real = i.toInt) ∧
      Tells host w (.float f) (.int i) (f.Finite ∧ f.real = i.toInt)) ∧
    (∀ f g : Binary64, Tells host w (.float f) (.float g) (¬ f.IsNaN ∧ ¬ g.IsNaN ∧ f.extended? = g.extended?)) ∧
    (∀ m n : Number, Tells host w m.value n.value (∃ r, m.extended? = some r ∧ n.extended? = some r)) ∧
    (∀ l m n : Number, (equal host l.value m.value w).1 = .ok true → (equal host m.value n.value w).1 = .ok true →
      (equal host l.value n.value w).1 = .ok true) ∧
    ∀ f : Binary64, f.IsNaN → ∀ v, equal host (.float f) v w = (.ok false, w) ∧
      equal host v (.float f) w = (.ok false, w) := by
  refine ⟨fun i f => ⟨?_, ?_⟩, fun f g => ?_, tells_numbers, fun l m n hlm hmn => ?_, fun f hf v => ?_⟩
  · refine (tells_numbers (.int i) (.float f)).congr ?_
    rw [← Binary64.extended?_eq_real]
    exact ⟨fun ⟨r, hi, hr⟩ => hr.trans hi.symm, fun h => ⟨_, rfl, h⟩⟩
  · refine (tells_numbers (.float f) (.int i)).congr ?_
    rw [← Binary64.extended?_eq_real]
    exact ⟨fun ⟨r, hr, hi⟩ => hr.trans hi.symm, fun h => ⟨_, h, rfl⟩⟩
  · refine (tells_numbers (.float f) (.float g)).congr ?_
    rw [← @Binary64.extended?_eq_none f, ← @Binary64.extended?_eq_none g]
    constructor
    · rintro ⟨r, (hr : f.extended? = _), (hr' : g.extended? = _)⟩
      rw [hr, hr']
      exact ⟨Option.some_ne_none r, Option.some_ne_none r, rfl⟩
    · rintro ⟨hf, _, heq⟩
      obtain ⟨r, hr⟩ := Option.ne_none_iff_exists'.1 hf
      exact ⟨r, hr, heq.symm.trans hr⟩
  · rw [run_equal_apart (l.apart _)] at hlm ⊢
    rw [run_equal_apart (m.apart _)] at hmn
    exact congrArg Except.ok (same_trans (Except.ok.inj hlm) (Except.ok.inj hmn))
  · have happart : (Value.float f).Apart v := apart_of_scalar trivial
    rw [run_equal_apart happart, run_equal_apart happart.symm, same_comm v, same_of_isNaN hf]
    exact ⟨rfl, rfl⟩

/-- The two zeros are equal because both are equal to the integer; what is not a number is not equal to itself; and the
integer after `2 ^ 53`, which no float stands for, is not equal to the float next to it. -/
theorem numeric_equality_exact_zeros :
    (equal mute (.float ⟨0x8000000000000000⟩) (.int 0) (.unused ())).1 = .ok true ∧
    (equal mute (.int 0) (.float ⟨0⟩) (.unused ())).1 = .ok true ∧
    (equal mute (.float ⟨0x8000000000000000⟩) (.float ⟨0⟩) (.unused ())).1 = .ok true ∧
    (Binary64.mk 0x7FF8000000000000).IsNaN ∧
    (equal mute (.float ⟨0x7FF8000000000000⟩) (.float ⟨0x7FF8000000000000⟩) (.unused ())).1 = .ok false ∧
    ¬ ((Binary64.mk 0x4340000000000000).Finite ∧
      (Binary64.mk 0x4340000000000000).real = (9007199254740993 : Int64).toInt) := by
  obtain ⟨hmixed, _, _, htrans, hnan⟩ := numeric_equality_exact mute (.unused ())
  have hfirst : (equal mute (.float ⟨0x8000000000000000⟩) (.int 0) (.unused ())).1 = .ok true := by decide +kernel
  have hlast : (equal mute (.int 0) (.float ⟨0⟩) (.unused ())).1 = .ok true := by decide +kernel
  have hnumber : (Binary64.mk 0x7FF8000000000000).IsNaN := by decide +kernel
  have hnext : (equal mute (.int 9007199254740993) (.float ⟨0x4340000000000000⟩) (.unused ())).1 = .ok false := by
    decide +kernel
  refine ⟨hfirst, hlast, htrans (.float _) (.int 0) (.float _) hfirst hlast, hnumber, ?_, fun h => ?_⟩
  · exact congrArg Prod.fst (hnan _ hnumber _).1
  · obtain ⟨verdict, hrun, hiff⟩ := (hmixed 9007199254740993 ⟨0x4340000000000000⟩).1
    rw [hrun, hiff.2 h] at hnext
    cases hnext

end ValueCore
