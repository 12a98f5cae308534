import ValueCore.Proofs.Numbers
import ValueCore.Proofs.Run

/-!
# Scalars

Values without parts are hashed and compared without looking at the world, whatever the host. Equality of
scalars is symmetric and transitive and equal scalars hash alike, so they do as keys. It is not reflexive: a
float that is not a number equals nothing, itself included.
-/

namespace ValueCore

variable {ε : Type} {x y z : Value}

namespace Value

/-- A value without parts, known to the core. -/
def Scalar : Value → Prop
  | .dict _ | .struct _ | .host _ => False
  | _ => True

instance : DecidablePred Scalar
  | .dict _ | .struct _ | .host _ => .isFalse id
  | .none | .bool _ | .int _ | .float _ | .str _ => .isTrue trivial

/-- Two values that are not compared by their parts, be it because they are of different kinds. -/
def Apart : Value → Value → Prop
  | .dict _, .dict _ | .struct _, .struct _ | .host _, .host _ => False
  | _, _ => True

/-- Equality of values that are not compared by their parts. -/
def same (x y : Value) : Bool := (numbersEqual? x y).getD (decide (x = y))

/-- Hash of a scalar. -/
def hashScalar : Value → UInt32
  | .bool b => if b then 1 else 0
  | .str s => s.fnv1a
  | v => v.hashNumber

end Value

theorem same_iff : x.same y = true ↔
    x.number? = y.number? ∧ x.number? ≠ some .notANumber ∧ (x.number? = none → x = y) := by
  rw [Value.same, numbersEqual?_eq]
  cases hx : x.number? with
  | none =>
    cases hy : y.number? with
    | none => simp
    | some b =>
      have hne : x ≠ y := fun h => by rw [h, hy] at hx; cases hx
      simp [hne]
  | some a =>
    cases hy : y.number? with
    | none =>
      have hne : x ≠ y := fun h => by rw [h, hy] at hx; cases hx
      simp [hne]
    | some b => simp

theorem same_comm (x y : Value) : x.same y = y.same x := by
  simp only [Value.same, numbersEqual?_comm x y, eq_comm (a := x)]

theorem same_trans (hxy : x.same y = true) (hyz : y.same z = true) : x.same z = true := by
  obtain ⟨h, hn, he⟩ := same_iff.1 hxy
  obtain ⟨h', _, he'⟩ := same_iff.1 hyz
  exact same_iff.2 ⟨h.trans h', hn, fun hx => (he hx).trans (he' (h ▸ hx))⟩

theorem hashScalar_of_number (hx : x.number?.isSome) : x.hashScalar = x.hashNumber := by
  cases x <;> first | rfl | simp [Value.number?] at hx

theorem hashScalar_eq (h : x.same y = true) : x.hashScalar = y.hashScalar := by
  obtain ⟨hd, hn, he⟩ := same_iff.1 h
  cases hx : x.number? with
  | none => rw [he hx]
  | some a =>
    rw [hashScalar_of_number (by simp [hx]), hashScalar_of_number (by simp [← hd, hx])]
    refine hashNumber_eq ?_
    rw [numbersEqual?_eq, ← hd, hx]
    simpa [hx] using hn

variable {host : Host ε}

theorem run_hashAt_scalar (hx : x.Scalar) (fuel : Nat) (w : World ε) :
    hashAt host (fuel + 1) x w = (.ok x.hashScalar, w) := by
  cases x with
  | dict | struct | host => exact hx.elim
  | none | bool | int | float | str => rfl

theorem apart_of_scalar (hx : x.Scalar) : x.Apart y := by
  cases x with
  | dict | struct | host => exact hx.elim
  | none | bool | int | float | str => cases y <;> exact trivial

theorem pair_cases (x y : Value) : (∃ a b, x = .dict a ∧ y = .dict b) ∨ (∃ a b, x = .struct a ∧ y = .struct b) ∨
    (∃ a b, x = .host a ∧ y = .host b) ∨ x.Apart y := by
  cases x with
  | none | bool | int | float | str => exact .inr (.inr (.inr (apart_of_scalar trivial)))
  | dict a =>
    cases y with
    | dict b => exact .inl ⟨a, b, rfl, rfl⟩
    | none | bool | int | float | str | struct | host => exact .inr (.inr (.inr trivial))
  | struct a =>
    cases y with
    | struct b => exact .inr (.inl ⟨a, b, rfl, rfl⟩)
    | none | bool | int | float | str | dict | host => exact .inr (.inr (.inr trivial))
  | host a =>
    cases y with
    | host b => exact .inr (.inr (.inl ⟨a, b, rfl, rfl⟩))
    | none | bool | int | float | str | dict | struct => exact .inr (.inr (.inr trivial))

theorem Value.Apart.symm (h : x.Apart y) : y.Apart x := by
  rcases pair_cases y x with ⟨a, b, rfl, rfl⟩ | ⟨a, b, rfl, rfl⟩ | ⟨a, b, rfl, rfl⟩ | h'
  · exact h
  · exact h
  · exact h
  · exact h'

/-- Only scalars are equal without being compared by their parts. -/
theorem scalar_of_same (h : x.Apart y) (hs : x.same y = true) : x.Scalar ∧ y.Scalar := by
  have hnumber : ∀ {v : Value}, v.number?.isSome → v.Scalar := by
    intro v hv
    cases v <;> trivial
  obtain ⟨hd, _, he⟩ := same_iff.1 hs
  cases hx : x.number? with
  | none =>
    obtain rfl := he hx
    cases x <;> first | exact ⟨trivial, trivial⟩ | exact False.elim h
  | some d => exact ⟨hnumber (by simp [hx]), hnumber (by simp [← hd, hx])⟩

theorem run_equalAt_apart (h : x.Apart y) (fuel : Nat) {depth : Int} (hd : 1 ≤ depth) (w : World ε) :
    equalAt host (fuel + 1) depth x y w = (.ok (x.same y), w) := by
  unfold equalAt
  rw [if_neg (by omega)]
  unfold Value.same
  cases hnum : numbersEqual? x y with
  | some verdict => rfl
  | none =>
    cases x <;> cases y <;> first
      | exact h.elim
      | (simp [numbersEqual?] at hnum; done)
      | simp [Bool.beq_eq_decide_eq]

theorem run_hashValue_scalar (hx : x.Scalar) (w : World ε) : hashValue host x w = (.ok x.hashScalar, w) := by
  unfold hashValue
  rw [run_bind_ok (run_get w)]
  exact run_hashAt_scalar hx _ w

theorem run_equal_apart (h : x.Apart y) (w : World ε) :
    equal host x y w = (.ok (x.same y), w) := by
  unfold equal equalWithin
  rw [run_bind_ok (run_get w)]
  exact run_equalAt_apart h (comparisonFuel w fullBudget - 1) (by decide) w

end ValueCore
