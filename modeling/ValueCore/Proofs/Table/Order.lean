import Mathlib.Data.List.Basic
import ValueCore.Table.Update

/-!
# The insertion order of a table

The live entries of a table form a doubly linked list whose links are slot numbers. `Linked t p is n` says
that the slots `is` are live and linked one after the other, with `p` before the first of them and `n`
after the last. It speaks of the links alone, so it splits at any place (`linked_append`) and survives every
write that keeps the links of the slots it mentions (`linked_congr`).

`order_eq` reads the list off the table: if `is` is linked from end to end and has as many slots as the
table has entries, following the links from the first slot gives `is`. `walkBack_eq` is the same the other way
round.
-/

namespace ValueCore.Table

variable {κ : Type} {t t' : Table κ}

/-- The links of the entry in a slot. -/
def links (t : Table κ) (i : Nat) : Option (Option Nat × Option Nat) :=
  (t.slot i).map fun e => (e.before, e.after)

/-- The slots `is` are linked in this order, after slot `p` and before slot `n`. -/
def Linked (t : Table κ) : Option Nat → List Nat → Option Nat → Prop
  | _, [], _ => True
  | p, i :: is, n => t.links i = some (p, is.head?.or n) ∧ Linked t (some i) is n

/-- Slots met by following `before` from `start`, at most `fuel` of them. -/
def walkBack (t : Table κ) : Nat → Option Nat → List Nat
  | 0, _ => []
  | _, none => []
  | fuel + 1, some i => i :: t.walkBack fuel ((t.slot i).bind (·.before))

theorem links_eq_some {i : Nat} {l : Option Nat × Option Nat} :
    t.links i = some l ↔ ∃ e, t.slot i = some e ∧ e.before = l.1 ∧ e.after = l.2 := by
  simp only [links, Option.map_eq_some_iff, Prod.ext_iff]

theorem links_isSome (i : Nat) : (t.links i).isSome = (t.slot i).isSome := by simp [links]

theorem linked_congr : ∀ {is : List Nat} {p n : Option Nat}, (∀ i ∈ is, t'.links i = t.links i) →
    (Linked t' p is n ↔ Linked t p is n)
  | [], _, _, _ => Iff.rfl
  | i :: is, p, n, h => by
    have hrest : Linked t' (some i) is n ↔ Linked t (some i) is n := linked_congr fun j hj => h j (by simp [hj])
    simp only [Linked, h i (by simp), hrest]

theorem linked_append : ∀ {a b : List Nat} {p n : Option Nat},
    Linked t p (a ++ b) n ↔ Linked t p a (b.head?.or n) ∧ Linked t (a.getLast?.or p) b n
  | [], b, p, n => by simp [Linked]
  | i :: a, b, p, n => by
    have hh : (a ++ b).head?.or n = a.head?.or (b.head?.or n) := by cases a <;> simp
    have hl : (i :: a).getLast?.or p = a.getLast?.or (some i) := by
      cases a <;> simp [List.getLast?_cons]
    simp only [List.cons_append, Linked, linked_append (a := a), hh, hl, and_assoc]

/-- The links on both sides of a slot in the middle. -/
theorem linked_at {a b : List Nat} {i : Nat} {p n : Option Nat} (h : Linked t p (a ++ i :: b) n) :
    t.links i = some (a.getLast?.or p, b.head?.or n) := (linked_append.1 h).2.1

theorem walk_congr (h : ∀ i, t'.slot i = t.slot i) :
    ∀ (fuel : Nat) (start : Option Nat), t'.walk fuel start = t.walk fuel start
  | 0, _ => rfl
  | _ + 1, none => rfl
  | fuel + 1, some i => by simp only [walk, h, walk_congr h fuel]

/-- Following `after` ends by itself, however far one is ready to go. -/
theorem walk_eq : ∀ {fuel : Nat} {is : List Nat} {p : Option Nat}, Linked t p is none → is.length ≤ fuel →
    t.walk fuel is.head? = is
  | 0, [], _, _, _ | _ + 1, [], _, _, _ => rfl
  | fuel + 1, i :: is, p, h, hle => by
    obtain ⟨e, he, _, ha⟩ := links_eq_some.1 h.1
    simp only [Option.or_none] at ha
    have hle : is.length ≤ fuel := by simpa using hle
    simp only [List.head?_cons, walk, he, Option.bind_some, ha, walk_eq h.2 hle]

/-- Following `before` from the end of a linked list gives it in reverse. The list is cut at its end here, as
the walk starts there. -/
theorem walkBack_eq : ∀ {fuel : Nat} {is : List Nat} {n : Option Nat}, Linked t none is n → is.length ≤ fuel →
    t.walkBack fuel is.getLast? = is.reverse
  | 0, [], _, _, _ | _ + 1, [], _, _, _ => rfl
  | fuel + 1, i :: is, n, h, hle => by
    rcases List.eq_nil_or_concat' (i :: is) with hnil | ⟨a, l, ha⟩
    · cases hnil
    rw [ha] at h hle ⊢
    obtain ⟨hleft, hl, _⟩ := linked_append.1 h
    obtain ⟨e, he, hb, _⟩ := links_eq_some.1 hl
    simp only [Option.or_none] at hb
    have hle : a.length ≤ fuel := by simpa using hle
    rw [List.getLast?_concat, List.reverse_concat]
    simp only [walkBack, he, Option.bind_some, hb, walkBack_eq hleft hle]

theorem order_eq {is : List Nat} (h : Linked t none is none) (hf : t.first = is.head?)
    (hl : t.length = is.length) : t.order = is := by
  rw [order, hf, hl, walk_eq h (Nat.le_refl _)]

end ValueCore.Table
