import ValueCore.Proofs.Scalars

/-!
# Hashes and verdicts, computed

Without values of the host nothing that happens when values are hashed or compared changes a world. So what
comes out can be computed from the world: `hashOf` and `verdict` follow the functions that hash and compare
step by step, and are `none` where those fail.
-/

namespace ValueCore

variable {ε : Type}

/-! ## Hashes -/

/-- Hash of fields whose values are hashed by `hash`. -/
def hashFieldsOf (hash : Value → Option UInt32) : List (Bytes × Value) → StructHash → Option UInt32
  | [], s => some s.hash
  | (name, value) :: rest, s => (hash value).bind fun h => hashFieldsOf hash rest (s.mix name h)

/-- Hash of a value with structs nested less than `fuel` deep. -/
def World.hashOf (w : World ε) : Nat → Value → Option UInt32
  | 0, _ => none
  | fuel + 1, v =>
    match v with
    | .struct s => hashFieldsOf (w.hashOf fuel) (w.table (w.struct s).fields).items {}
    | .dict _ | .host _ => none
    | v => some v.hashScalar

/-! ## Verdicts -/

/-- The slot of the first candidate of which `equal` says that it is equal to the key. -/
def firstVerdict {κ : Type} (equal : κ → Option Bool) : List (Nat × κ) → Option (Option Nat)
  | [] => some none
  | (slot, k) :: rest => (equal k).bind fun verdict => if verdict then some (some slot) else firstVerdict equal rest

/-- If no candidate is the first, all have been compared and none is equal. -/
theorem firstVerdict_eq_none {κ : Type} {equal : κ → Option Bool} : ∀ {cands : List (Nat × κ)},
    firstVerdict equal cands = some none → ∀ c ∈ cands, equal c.2 = some false
  | [], _, _, hc => by cases hc
  | (slot, k) :: rest, h, c, hc => by
    obtain ⟨verdict, hk, h⟩ := Option.bind_eq_some_iff.1 h
    cases verdict with
    | true => cases h
    | false =>
      rcases List.mem_cons.1 hc with rfl | hc
      · exact hk
      · exact firstVerdict_eq_none h c hc

/-- The first is a candidate that is equal. -/
theorem firstVerdict_eq_some {κ : Type} {equal : κ → Option Bool} {i : Nat} : ∀ {cands : List (Nat × κ)},
    firstVerdict equal cands = some (some i) → ∃ k, (i, k) ∈ cands ∧ equal k = some true
  | (slot, k) :: rest, h => by
    obtain ⟨verdict, hk, h⟩ := Option.bind_eq_some_iff.1 h
    cases verdict with
    | true =>
      cases h
      exact ⟨k, List.mem_cons_self, hk⟩
    | false =>
      obtain ⟨k', hm, heq⟩ := firstVerdict_eq_some h
      exact ⟨k', List.mem_cons_of_mem _ hm, heq⟩

/-- The value that a table has under a key. -/
def findIn (T : Table Value) (hash : Value → Option UInt32) (equal : Value → Value → Option Bool) (key : Value) :
    Option (Option Value) :=
  (hash key).bind fun h => (firstVerdict (equal key) (T.candidates (storedHash h))).bind fun found =>
    match found with
    | some i => some ((T.slot i).map (·.value))
    | none => some none

/-- Are the items of a dict what `get?` finds under the same keys? -/
def itemsVerdict (equal : Value → Value → Option Bool) (get? : Value → Option (Option Value)) :
    List (Value × Value) → Option Bool
  | [] => some true
  | (key, x) :: rest => (get? key).bind fun found =>
    match found with
    | none => some false
    | some y => (equal x y).bind fun verdict => if verdict then itemsVerdict equal get? rest else some false

/-- Are two lists of fields the same? -/
def fieldsVerdict (equal : Value → Value → Option Bool) :
    List (Bytes × Value) → List (Bytes × Value) → Option Bool
  | [], _ => some true
  | _, [] => some false
  | (m, x) :: xs, (n, y) :: ys =>
    if m != n then some false
    else (equal x y).bind fun verdict => if verdict then fieldsVerdict equal xs ys else some false

/-- The verdict on two values with a budget of `depth`, in `fuel` nested steps. -/
def World.verdict (w : World ε) : Nat → Int → Value → Value → Option Bool
  | 0, _, _, _ => none
  | fuel + 1, depth, x, y =>
    if depth < 1 then none
    else
      match x, y with
      | .dict a, .dict b =>
        if a = b then some true
        else if (w.table a).length != (w.table b).length then some false
        else itemsVerdict (w.verdict fuel (depth - 1))
          (findIn (w.table b) (w.hashOf (w.structs.size + 2)) (w.verdict fuel fullBudget)) (w.table a).items
      | .struct a, .struct b =>
        let xs := w.table (w.struct a).fields
        let ys := w.table (w.struct b).fields
        if xs.length != ys.length then some false
        else (w.verdict fuel fullBudget (w.struct a).ctor (w.struct b).ctor).bind fun verdict =>
          if verdict then fieldsVerdict (w.verdict fuel (depth - 1)) xs.items ys.items else some false
      | .host _, .host _ => none
      | x, y => some (x.same y)

section
variable {w : World ε} {fuel : Nat} {depth : Int}

theorem hashOf_struct (s : StructId) : w.hashOf (fuel + 1) (.struct s) =
    hashFieldsOf (w.hashOf fuel) (w.table (w.struct s).fields).items {} := rfl

theorem hashOf_scalar {x : Value} (hx : x.Scalar) : w.hashOf (fuel + 1) x = some x.hashScalar := by
  cases x with
  | dict | struct | host => exact hx.elim
  | none | bool | int | float | str => rfl

theorem verdict_spent {x y : Value} (hd : depth < 1) : w.verdict fuel depth x y = none := by
  cases fuel with
  | zero => rfl
  | succ fuel => exact if_pos hd

theorem verdict_dicts (hd : ¬ depth < 1) (a b : TableId .any) : w.verdict (fuel + 1) depth (.dict a) (.dict b) =
    if a = b then some true
    else if (w.table a).length != (w.table b).length then some false
    else itemsVerdict (w.verdict fuel (depth - 1))
      (findIn (w.table b) (w.hashOf (w.structs.size + 2)) (w.verdict fuel fullBudget)) (w.table a).items := if_neg hd

theorem verdict_structs (hd : ¬ depth < 1) (a b : StructId) : w.verdict (fuel + 1) depth (.struct a) (.struct b) =
    if (w.table (w.struct a).fields).length != (w.table (w.struct b).fields).length then some false
    else (w.verdict fuel fullBudget (w.struct a).ctor (w.struct b).ctor).bind fun verdict =>
      if verdict then fieldsVerdict (w.verdict fuel (depth - 1)) (w.table (w.struct a).fields).items
        (w.table (w.struct b).fields).items else some false := if_neg hd

theorem verdict_hosts (hd : ¬ depth < 1) (a b : HostId) : w.verdict (fuel + 1) depth (.host a) (.host b) = none :=
  if_neg hd

theorem verdict_apart {x y : Value} (hd : ¬ depth < 1) (h : x.Apart y) :
    w.verdict (fuel + 1) depth x y = some (x.same y) := by
  refine (if_neg hd).trans ?_
  cases x <;> cases y <;> first
    | rfl
    | exact False.elim h

end

end ValueCore
