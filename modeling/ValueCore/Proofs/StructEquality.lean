import ValueCore.Proofs.Operations.Agreement
import ValueCore.Proofs.Termination

/-!
# Three ways to compare two structs

Structs are compared as values, as structs, or by the operator `==`. With a budget these come to the same: the same
verdict, or the same error with the same message.

| budget | as values | as structs, by `==` |
| --- | --- | --- |
| at least 1 | the same | the same |
| less | `depthExceeded` | `depthExceeded` only where the value of a field has to be looked at |

Without a budget they do not. That nothing is left is noticed when two values are to be compared. As structs, two of
different numbers of fields are told apart before that, and two without any fields are equal if their constructors are, which
are compared with a full budget of their own (`spent_budget_unnoticed`).

A comparison that never ends is cut short at some depth, at another one for each of the ways. Hence agreement is told of
comparisons that are not cut short; what is not the host's, and has no struct inside of its own constructor, never is.
-/

namespace ValueCore

open World

variable {ε : Type} {I : Inventory ε} {w v : World ε} {host : Host ε} {a b : StructId} {depth : Int}

/-! ## Without a budget -/

/-- Without any budget two values are not compared. -/
theorem equalWithin_spent_eq (hd : depth < 1) (x y : Value) :
    (equalWithin host depth x y : Run ε Bool) = raise .depthExceeded := by
  funext w
  obtain ⟨fuel, hrun⟩ := equalWithin_eq_equalAt host w depth x y
  rw [hrun, equalAt_spent hd, run_raise]
  rfl

/-- Two structs are compared up to the first values. -/
theorem structsEqualWithin_spent (hd : depth < 1) : (structsEqualWithin host depth a b : Run ε Bool) =
    structsEqual (equal host) (fun _ _ => raise .depthExceeded) host a b := by
  have hbelow : (fun x y => equalWithin host (depth - 1) x y : Value → Value → Run ε Bool) =
      fun _ _ => raise .depthExceeded := by
    funext x y
    exact equalWithin_spent_eq (by omega) x y
  exact congrArg (fun below => structsEqual (equal host) below host a b) hbelow

section
variable {equalFully equal : Value → Value → Run ε Bool}

/-- Structs of different numbers of fields are told apart at once. -/
theorem run_structsEqual_of_length_ne
    (hl : (w.table (w.struct a).fields).length ≠ (w.table (w.struct b).fields).length) :
    structsEqual equalFully equal host a b w = (.ok false, w) := by
  unfold structsEqual
  rw [run_bind_ok (run_get w), if_pos (by simpa using hl), run_pure]

/-- Structs without fields are compared by their constructors. -/
theorem run_structsEqual_of_no_fields
    (hl : (w.table (w.struct a).fields).length = (w.table (w.struct b).fields).length)
    (hctor : sameConstructor equalFully host .equality (w.struct a).ctor (w.struct b).ctor w = (.ok true, v))
    (hnone : (v.table (w.struct a).fields).items = []) : structsEqual equalFully equal host a b w = (.ok true, v) := by
  unfold structsEqual
  rw [run_bind_ok (run_get w), if_neg (by simp [hl]), run_bind_ok hctor, if_pos rfl, run_bind_ok (run_get v), hnone]
  rfl

end

/-! ## With a budget -/

/-- As values and as structs, the comparison is the same. -/
theorem agrees_structsEqualWithin (hd : 1 ≤ depth) :
    Agrees (equalWithin host depth (.struct a) (.struct b)) (structsEqualWithin host depth a b) := by
  refine ⟨fun w hw hw' => ?_⟩
  obtain ⟨fuel, hrun⟩ := equalWithin_eq_equalAt host w depth (.struct a) (.struct b)
  rw [equalAt_structs (by omega)] at hrun
  rw [hrun] at hw ⊢
  have hfully : ∀ x y, Agrees (equalAt host fuel fullBudget x y) (equal host x y) := fun x y =>
    (agrees_equalWithin fuel fullBudget x y).symm
  have hbelow : ∀ x y, Agrees (equalAt host fuel (depth - 1) x y) (equalWithin host (depth - 1) x y) := fun x y =>
    (agrees_equalWithin fuel (depth - 1) x y).symm
  exact (agrees_structsEqual hbelow hfully a b).run w hw hw'

/-! ## Coming to an end -/

/-- Neither of the two is cut short where constructors lead to an end. -/
theorem struct_comparisons_end (hr : Reachable I w) (ha : w.Owns (.struct a)) (hb : w.Owns (.struct b))
    (hfa : w.HostFree (.struct a)) (hfb : w.HostFree (.struct b)) (hstraight : w.Straight (.struct a)) :
    (equalWithin host depth (.struct a) (.struct b) w).1 ≠ .error .exhausted ∧
      (structsEqualWithin host depth a b w).1 ≠ .error .exhausted := by
  have h := hr.sound
  have hC : w.Region fun x => w.HostFree x ∧ w.Owns x := region_free h
  have hsettles : ∀ (depth : Int) {x y : Value}, w.Reaches (.struct a) x →
      Settled (w.judged (comparisonFuel w depth) depth x y) := by
    intro depth x y hx
    have hown : w.Owns x := by
      induction hx with
      | refl => exact ha
      | tail _ hp ih => exact hp.owns h ih
    refine judged_settles h hr.orderly.founded _ depth x y [] hown (fun z hz => hfa z (hx.trans hz))
      (fun s hs => hstraight s (hx.trans hs)) (.nil w x) (.inl ?_)
    unfold comparisonFuel
    rw [List.length_nil]
    omega
  have hends : ∀ {act : Run ε Bool} {o : Judged Bool}, w.Answers act o → Settled o → (act w).1 ≠ .error .exhausted := by
    intro act o hanswers hsettled
    rcases hanswers.outcome w (.refl w) with ho | ⟨_, he⟩
    · generalize act w = out at ho ⊢
      cases ho with
      | returned => exact nofun
      | raised => exact nofun
      | exhausted => exact absurd rfl hsettled
    · rw [he]
      exact nofun
  have hequal : ∀ (depth : Int) (x y : Value), (w.HostFree x ∧ w.Owns x) → (w.HostFree y ∧ w.Owns y) →
      w.Answers (equalWithin host depth x y) (w.judged (comparisonFuel w depth) depth x y) :=
    fun depth x y hx hy => answers_equalWithin hC (fun _ hx => hx.2) hx hy depth
  refine ⟨hends (hequal depth _ _ ⟨hfa, ha⟩ ⟨hfb, hb⟩) (hsettles depth .refl), ?_⟩
  have hstructs : w.Answers (structsEqualWithin host depth a b) _ :=
    answers_structsEqual hC (fun _ hx => hx.2) ⟨hfa, ha⟩ ⟨hfb, hb⟩ (hequal fullBudget) (hequal (depth - 1))
  refine hends hstructs ?_
  split
  · exact settled_pure _
  · refine (constructorsJudged_settles (hsettles fullBudget (.single (.ctor a)))).bind fun verdict _ => ?_
    cases verdict with
    | false => exact settled_pure _
    | true =>
      refine And.right (settled_threads.fieldsJudged _ _ fun field hm z _ => ⟨rfl, ?_⟩)
      exact hsettles (depth - 1) (.single (.field hm))

/-! ## All three together -/

/-- **With a budget the three ways to compare two structs agree; without one they do not.** By the operator and as structs
the comparison is always the same. With a budget it is the same as values, in what it answers and in the world that it
leaves, message included, unless it is cut short; and it is not, if none of the host's values is reached and no struct from
its own constructor. Without one, values are not compared at all. Structs then are, and fail only once it comes to the value
of a field: of different numbers of fields they are unequal, and without fields they are equal if their constructors are. -/
theorem struct_comparisons_agree (host : Host ε) (a b : StructId) (depth : Int) (w : World ε) :
    compareStructs host .eq depth a b w = structsEqualWithin host depth a b w ∧
    (1 ≤ depth → (equalWithin host depth (.struct a) (.struct b) w).1 ≠ .error .exhausted →
      (structsEqualWithin host depth a b w).1 ≠ .error .exhausted →
        structsEqualWithin host depth a b w = equalWithin host depth (.struct a) (.struct b) w) ∧
    (∀ I, Reachable I w → w.Owns (.struct a) → w.Owns (.struct b) → w.HostFree (.struct a) → w.HostFree (.struct b) →
      (∀ s : StructId, w.Reaches (.struct a) (.struct s) → ¬ w.Reaches (w.struct s).ctor (.struct s)) →
        (equalWithin host depth (.struct a) (.struct b) w).1 ≠ .error .exhausted ∧
          (structsEqualWithin host depth a b w).1 ≠ .error .exhausted) ∧
    (depth < 1 → equalWithin host depth (.struct a) (.struct b) w = raise .depthExceeded w ∧
      structsEqualWithin host depth a b w = structsEqual (equal host) (fun _ _ => raise .depthExceeded) host a b w ∧
      ((w.table (w.struct a).fields).length ≠ (w.table (w.struct b).fields).length →
        structsEqualWithin host depth a b w = (.ok false, w)) ∧
      ∀ v, (w.table (w.struct a).fields).length = (w.table (w.struct b).fields).length →
        sameConstructor (equal host) host .equality (w.struct a).ctor (w.struct b).ctor w = (.ok true, v) →
        (v.table (w.struct a).fields).items = [] → structsEqualWithin host depth a b w = (.ok true, v)) := by
  refine ⟨rfl, fun hd hw hw' => ((agrees_structsEqualWithin hd).run w hw hw').symm,
    fun I hr ha hb hfa hfb hstraight => struct_comparisons_end hr ha hb hfa hfb hstraight, fun hd => ?_⟩
  refine ⟨by rw [equalWithin_spent_eq hd], by rw [structsEqualWithin_spent hd], fun hl => ?_, fun v hl hctor hnone => ?_⟩
  · exact run_structsEqual_of_length_ne hl
  · exact run_structsEqual_of_no_fields hl hctor hnone

/-! ## Structs in structs -/

/-- Two structs without fields, each of them in a field of another one, and two more whose constructors are dicts that
contain themselves. -/
def nest : List Operation :=
  [.newDict 0, .newDict 0, @Operation.insert .any ⟨0⟩ (.int 1) (.dict ⟨0⟩), @Operation.insert .any ⟨1⟩ (.int 1) (.dict ⟨1⟩),
    .createStruct (.str (ascii "p")) [], .createStruct (.str (ascii "p")) [],
    .createStruct (.str (ascii "p")) [(ascii "a", .struct ⟨0⟩)], .createStruct (.str (ascii "p")) [(ascii "a", .struct ⟨1⟩)],
    .createStruct (.dict ⟨0⟩) [], .createStruct (.dict ⟨1⟩) []]

def nested : World Unit := inTurn nest (.unused ())

theorem reachable_nested : Reachable .nothing nested ∧ nested.Plain := reachable_inTurn (by decide +kernel)

/-- From a budget of two on the outer structs are found equal; with one it is spent at the inner ones, and with none only
the inner ones are still found equal when they are compared as structs. -/
theorem struct_comparisons_agree_nested :
    (∀ depth, 1 ≤ depth →
      structsEqualWithin mute depth ⟨2⟩ ⟨3⟩ nested = equalWithin mute depth (.struct ⟨2⟩) (.struct ⟨3⟩) nested) ∧
    (structsEqualWithin mute 2 ⟨2⟩ ⟨3⟩ nested).1 = .ok true ∧
    (structsEqualWithin mute 1 ⟨2⟩ ⟨3⟩ nested).1 = .error (.raised .depthExceeded) ∧
    structsEqualWithin mute 1 ⟨4⟩ ⟨5⟩ nested = equalWithin mute 1 (.struct ⟨4⟩) (.struct ⟨5⟩) nested ∧
    (structsEqualWithin mute 1 ⟨4⟩ ⟨5⟩ nested).1 = .error (.raised .depthExceeded) ∧
    (structsEqualWithin mute 0 ⟨2⟩ ⟨3⟩ nested).1 = .error (.raised .depthExceeded) ∧
    (∀ depth < 1, (structsEqualWithin mute depth ⟨0⟩ ⟨1⟩ nested).1 = .ok true) ∧
    ∀ depth < 1, structsEqualWithin mute depth ⟨0⟩ ⟨2⟩ nested = (.ok false, nested) := by
  obtain ⟨hr, hplain⟩ := reachable_nested
  have hreach : ∀ {y : Value}, nested.Reaches (.struct ⟨2⟩) y → y ∈ [.struct ⟨2⟩, .str (ascii "p"), .struct ⟨0⟩] :=
    Reaches.mem (by decide +kernel) List.mem_cons_self
  have hctor : ∀ {s : StructId} {y : Value}, s = ⟨2⟩ ∨ s = ⟨0⟩ → nested.Reaches (nested.struct s).ctor y →
      y ∈ [Value.str (ascii "p")] := fun hs =>
    Reaches.mem (by decide +kernel) (by rcases hs with rfl | rfl <;> decide +kernel)
  have hstraight : ∀ s : StructId, nested.Reaches (.struct ⟨2⟩) (.struct s) →
      ¬ nested.Reaches (nested.struct s).ctor (.struct s) := by
    intro s hs hback
    have hone : s = ⟨2⟩ ∨ s = ⟨0⟩ := by simpa using hreach hs
    simpa using hctor hone hback
  refine ⟨fun depth hd => ?_, by decide +kernel, by decide +kernel, ?_, by decide +kernel, by decide +kernel,
    fun depth hd => ?_, fun depth hd => ?_⟩
  · obtain ⟨_, hsame, hend, _⟩ := struct_comparisons_agree mute ⟨2⟩ ⟨3⟩ depth nested
    obtain ⟨hvalues, hstructs⟩ := hend .nothing hr (by decide +kernel) (by decide +kernel) (hplain.hostFree trivial)
      (hplain.hostFree trivial) hstraight
    exact hsame hd hvalues hstructs
  · obtain ⟨_, hsame, _⟩ := struct_comparisons_agree mute ⟨4⟩ ⟨5⟩ 1 nested
    exact hsame (by decide) (by decide +kernel) (by decide +kernel)
  · obtain ⟨_, _, _, hspent⟩ := struct_comparisons_agree mute ⟨0⟩ ⟨1⟩ depth nested
    rw [(hspent hd).2.1]
    decide +kernel
  · obtain ⟨_, _, _, hspent⟩ := struct_comparisons_agree mute ⟨0⟩ ⟨2⟩ depth nested
    exact (hspent hd).2.2.1 (by decide +kernel)

/-- With a budget of zero, two structs without fields are found equal by the operator and as structs, but not compared as
values; with a budget of less, two of different numbers of fields are found unequal. -/
theorem spent_budget_unnoticed :
    Reachable .nothing nested ∧
    (compareStructs mute .eq 0 ⟨0⟩ ⟨1⟩ nested).1 = .ok true ∧
    (structsEqualWithin mute 0 ⟨0⟩ ⟨1⟩ nested).1 = .ok true ∧
    (equalWithin mute 0 (.struct ⟨0⟩) (.struct ⟨1⟩) nested).1 = .error (.raised .depthExceeded) ∧
    (structsEqualWithin mute (-1) ⟨0⟩ ⟨2⟩ nested).1 = .ok false ∧
    (equalWithin mute (-1) (.struct ⟨0⟩) (.struct ⟨2⟩) nested).1 = .error (.raised .depthExceeded) :=
  ⟨reachable_nested.1, by decide +kernel, by decide +kernel, by decide +kernel, by decide +kernel, by decide +kernel⟩

end ValueCore
