import ValueCore.Display
import ValueCore.Proofs.Table.Changes
import ValueCore.Proofs.Verdict.Basic

/-!
# Texts and outcomes, computed

What `verdict` leaves open is how a comparison fails. `judged` computes this as well: it follows the functions that hash
and compare step by step, and where these raise an error it has the `Fault`. An error in the comparison of two
constructors quotes them, so there is also the text of a value (`text`), which always exists: writing may fail for lack
of memory only.

Values of the host are not looked into.
-/

namespace ValueCore

variable {ε : Type}

/-! ## Texts -/

/-- Text of a dict whose parts have the texts `write`. -/
def dictWritten (write : Value → Bytes) (items : List (Value × Value)) : Bytes :=
  ascii "\x7b" ++ Bytes.joined (ascii ", ") (items.map fun item => write item.1 ++ ascii ": " ++ write item.2) ++
    ascii "\x7d"

/-- Text of a struct whose parts have the texts `write`. -/
def structWritten (write : Value → Bytes) (ctor : Value) (fields : List (Bytes × Value)) : Bytes :=
  (if ctor = defaultConstructor then ascii "struct" else write ctor) ++ ascii "(" ++
    Bytes.joined (ascii ", ") (fields.map fun field => field.1 ++ ascii " = " ++ write field.2) ++ ascii ")"

/-- Text of a value inside the containers of `path`. -/
def World.text (w : World ε) : Nat → List Value → Value → Bytes
  | 0, _, _ => []
  | fuel + 1, path, x =>
    match x with
    | .none => ascii "None"
    | .bool b => if b then ascii "True" else ascii "False"
    | .int i => Bytes.decimal i.toInt
    | .float x => x.display
    | .str s => quoted s
    | .host _ => []
    | .dict t =>
      if x ∈ path then ascii "\x7b...\x7d" else dictWritten (w.text fuel (x :: path)) (w.table t).items
    | .struct s =>
      if x ∈ path then ascii "struct(...)"
      else structWritten (w.text fuel (x :: path)) (w.struct s).ctor (w.table (w.struct s).fields).items

/-- Text of a value. -/
def World.shown (w : World ε) (x : Value) : Bytes := w.text (w.containers + 2) [] x

/-! ## Outcomes -/

/-- Why there is no answer. -/
inductive Trouble where
  | fault (f : Fault)
  /-- The nesting that was allowed for is used up, or the host would have to be asked. -/
  | exhausted
  deriving DecidableEq

/-- What a computation comes to that only reads. -/
abbrev Judged := Except Trouble

/-- There is an answer or an error. -/
def Settled {α : Type} (o : Judged α) : Prop := o ≠ .error .exhausted

/-- Hash of fields whose values are hashed by `hash`. -/
def digestFields (hash : Value → Judged UInt32) : List (Bytes × Value) → StructHash → Judged UInt32
  | [], s => pure s.hash
  | (name, value) :: rest, s => hash value >>= fun h => digestFields hash rest (s.mix name h)

/-- Hash of a value with structs nested less than `fuel` deep. -/
def World.digest (w : World ε) : Nat → Value → Judged UInt32
  | 0, _ => throw .exhausted
  | fuel + 1, x =>
    match x with
    | .struct s => digestFields (w.digest fuel) (w.table (w.struct s).fields).items {}
    | .dict _ => throw (.fault (.unhashable x.basicTypeName))
    | .host _ => throw .exhausted
    | x => pure x.hashScalar

/-- The slot of the first candidate of which `equal` says that it is equal to the key. -/
def firstJudged {κ : Type} (equal : κ → Judged Bool) : List (Nat × κ) → Judged (Option Nat)
  | [] => pure none
  | (slot, k) :: rest => equal k >>= fun verdict => if verdict then pure (some slot) else firstJudged equal rest

/-- The first is a candidate that is equal. -/
theorem firstJudged_eq_some {κ : Type} {equal : κ → Judged Bool} {i : Nat} : ∀ {cands : List (Nat × κ)},
    firstJudged equal cands = .ok (some i) → ∃ k, (i, k) ∈ cands ∧ equal k = .ok true
  | (slot, k) :: rest, h => by
    unfold firstJudged at h
    cases hk : equal k with
    | error e =>
      rw [hk] at h
      cases h
    | ok verdict =>
      rw [hk] at h
      cases verdict with
      | true =>
        cases h
        exact ⟨k, List.mem_cons_self, hk⟩
      | false =>
        obtain ⟨k', hm, heq⟩ := firstJudged_eq_some h
        exact ⟨k', List.mem_cons_of_mem _ hm, heq⟩

/-- The value that a table has under a key. -/
def soughtIn (T : Table Value) (hash : Value → Judged UInt32) (equal : Value → Value → Judged Bool) (key : Value) :
    Judged (Option Value) :=
  hash key >>= fun h => firstJudged (equal key) (T.candidates (storedHash h)) >>= fun found =>
    match found with
    | some i => pure ((T.slot i).map (·.value))
    | none => pure none

/-- What is found in a table is the value of one of its items. -/
theorem item_of_soughtIn {T : Table Value} (h : T.Sound) {hash : Value → Judged UInt32}
    {of : Value → Value → Judged Bool} {key y : Value} (hf : soughtIn T hash of key = .ok (some y)) :
    ∃ k, (k, y) ∈ T.items := by
  unfold soughtIn at hf
  cases ha : hash key with
  | error e =>
    rw [ha] at hf
    cases hf
  | ok a =>
    rw [ha] at hf
    change (firstJudged (of key) (T.candidates (storedHash a)) >>= _) = _ at hf
    cases hfound : firstJudged (of key) (T.candidates (storedHash a)) with
    | error e =>
      rw [hfound] at hf
      cases hf
    | ok found =>
      rw [hfound] at hf
      cases found with
      | none => cases hf
      | some i =>
        obtain ⟨k, hk, _⟩ := firstJudged_eq_some hfound
        obtain ⟨e, he, _, _, hm⟩ := h.item_of_candidate hk
        have hy : (T.slot i).map (·.value) = some y := Except.ok.inj hf
        obtain rfl : e.value = y := by simpa [he] using hy
        exact ⟨e.key, hm⟩

/-- Are the items of a dict what `get?` finds under the same keys? -/
def itemsJudged (equal : Value → Value → Judged Bool) (get? : Value → Judged (Option Value)) :
    List (Value × Value) → Judged Bool
  | [] => pure true
  | (key, x) :: rest => get? key >>= fun found =>
    match found with
    | none => pure false
    | some y => equal x y >>= fun verdict => if verdict then itemsJudged equal get? rest else pure false

/-- Are two lists of fields the same? -/
def fieldsJudged (equal : Value → Value → Judged Bool) : List (Bytes × Value) → List (Bytes × Value) → Judged Bool
  | [], _ => pure true
  | _, [] => pure false
  | (m, x) :: xs, (n, y) :: ys =>
    if m != n then pure false
    else equal x y >>= fun verdict => if verdict then fieldsJudged equal xs ys else pure false

/-- Compares two constructors. A fault is reported with what has been compared. -/
def World.constructorsJudged (w : World ε) (equal : Value → Value → Judged Bool) (use : ConstructorUse)
    (x y : Value) : Judged Bool :=
  match equal x y with
  | .error (.fault f) => throw (.fault (.constructorComparison use f.status (w.shown x) (w.shown y) f.message))
  | r => r

/-- What the comparison of two values with a budget of `depth` comes to, in `fuel` nested steps. -/
def World.judged (w : World ε) : Nat → Int → Value → Value → Judged Bool
  | 0, _, _, _ => throw .exhausted
  | fuel + 1, depth, x, y =>
    if depth < 1 then throw (.fault .depthExceeded)
    else
      match x, y with
      | .dict a, .dict b =>
        if a = b then pure true
        else if (w.table a).length != (w.table b).length then pure false
        else itemsJudged (w.judged fuel (depth - 1))
          (soughtIn (w.table b) (w.digest (w.structs.size + 2)) (w.judged fuel fullBudget)) (w.table a).items
      | .struct a, .struct b =>
        let xs := w.table (w.struct a).fields
        let ys := w.table (w.struct b).fields
        if xs.length != ys.length then pure false
        else w.constructorsJudged (w.judged fuel fullBudget) .equality (w.struct a).ctor (w.struct b).ctor >>=
          fun verdict => if verdict then fieldsJudged (w.judged fuel (depth - 1)) xs.items ys.items else pure false
      | .host _, .host _ => throw .exhausted
      | x, y => pure (x.same y)

/-! ## What goes through

Hashing, looking up and comparing ask for something, go on with the answer and stop at an error. So what is known of all
that they ask for is known of what they come to. -/

/-- A relation that goes through computations. -/
structure Judged.Threads (P : {α : Type} → Judged α → Judged α → Prop) : Prop where
  pure : ∀ {α : Type} (a : α), P (.ok a) (.ok a)
  bind : ∀ {α β : Type} {o o' : Judged α} {g g' : α → Judged β}, P o o' → (∀ a, o = .ok a → P (g a) (g' a)) →
    P (o >>= g) (o' >>= g')

namespace Judged.Threads

variable {P : {α : Type} → Judged α → Judged α → Prop} (hP : Judged.Threads P) {equal equal' : Value → Value → Judged Bool}
include hP

theorem digestFields {hash hash' : Value → Judged UInt32} : ∀ (fields : List (Bytes × Value)) (s : StructHash),
    (∀ field ∈ fields, P (hash field.2) (hash' field.2)) →
      P (digestFields hash fields s) (digestFields hash' fields s)
  | [], s, _ => hP.pure s.hash
  | (_, _) :: rest, _, h => hP.bind (h _ List.mem_cons_self) fun _ _ =>
    digestFields rest _ fun field hm => h field (List.mem_cons_of_mem _ hm)

theorem firstJudged {κ : Type} {equal equal' : κ → Judged Bool} : ∀ cands : List (Nat × κ),
    (∀ c ∈ cands, P (equal c.2) (equal' c.2)) → P (firstJudged equal cands) (firstJudged equal' cands)
  | [], _ => hP.pure none
  | (slot, _) :: rest, h => hP.bind (h _ List.mem_cons_self) fun verdict _ => by
    cases verdict with
    | true => exact hP.pure (some slot)
    | false => exact firstJudged rest fun c hc => h c (List.mem_cons_of_mem _ hc)

/-- The table may be another one, if it has the same entries in the same places. -/
theorem soughtIn {T T' : Table Value} (hT : T.Sound) (hT' : T'.Sound) (hkeep : Table.Steady T T')
    {hash hash' : Value → Judged UInt32} {key : Value} (hh : P (hash key) (hash' key))
    (h : ∀ a, hash key = .ok a → ∀ c ∈ T.candidates (storedHash a), P (equal key c.2) (equal' key c.2)) :
    P (soughtIn T hash equal key) (soughtIn T' hash' equal' key) := by
  refine hP.bind hh fun a ha => ?_
  rw [hkeep.candidates_eq hT hT']
  refine hP.bind (hP.firstJudged _ (h a ha)) fun found hfound => ?_
  cases found with
  | none => exact hP.pure none
  | some i =>
    obtain ⟨k, hk, _⟩ := firstJudged_eq_some hfound
    dsimp only
    rw [hkeep.kept.2 i (hT.mem_candidates.1 hk).1]
    exact hP.pure _

theorem itemsJudged {get? get?' : Value → Judged (Option Value)} : ∀ items : List (Value × Value),
    (∀ item ∈ items, P (get? item.1) (get?' item.1) ∧
      ∀ z, get? item.1 = .ok (some z) → P (equal item.2 z) (equal' item.2 z)) →
      P (itemsJudged equal get? items) (itemsJudged equal' get?' items)
  | [], _ => hP.pure true
  | (_, _) :: rest, h => hP.bind (h _ List.mem_cons_self).1 fun found hfound => by
    cases found with
    | none => exact hP.pure false
    | some z =>
      refine hP.bind ((h _ List.mem_cons_self).2 z hfound) fun verdict _ => ?_
      cases verdict with
      | true => exact itemsJudged rest fun item hm => h item (List.mem_cons_of_mem _ hm)
      | false => exact hP.pure false

theorem fieldsJudged : ∀ xs ys : List (Bytes × Value),
    (∀ f ∈ xs, ∀ g ∈ ys, P (equal f.2 g.2) (equal' f.2 g.2)) → P (fieldsJudged equal xs ys) (fieldsJudged equal' xs ys)
  | [], _, _ => hP.pure true
  | _ :: _, [], _ => hP.pure false
  | (m, x) :: xs, (n, y) :: ys, h => by
    unfold ValueCore.fieldsJudged
    split
    · exact hP.pure false
    · refine hP.bind (h _ List.mem_cons_self _ List.mem_cons_self) fun verdict _ => ?_
      cases verdict with
      | true => exact fieldsJudged xs ys fun f hf g hg => h f (List.mem_cons_of_mem _ hf) g (List.mem_cons_of_mem _ hg)
      | false => exact hP.pure false

end Judged.Threads

section
variable {w : World ε} {fuel : Nat} {depth : Int}

theorem digest_struct (s : StructId) : w.digest (fuel + 1) (.struct s) =
    digestFields (w.digest fuel) (w.table (w.struct s).fields).items {} := rfl

theorem judged_spent (hd : depth < 1) (x y : Value) : w.judged (fuel + 1) depth x y = .error (.fault .depthExceeded) :=
  if_pos hd

theorem judged_dicts (hd : ¬ depth < 1) (a b : TableId .any) : w.judged (fuel + 1) depth (.dict a) (.dict b) =
    if a = b then pure true
    else if (w.table a).length != (w.table b).length then pure false
    else itemsJudged (w.judged fuel (depth - 1))
      (soughtIn (w.table b) (w.digest (w.structs.size + 2)) (w.judged fuel fullBudget)) (w.table a).items := if_neg hd

theorem judged_structs (hd : ¬ depth < 1) (a b : StructId) : w.judged (fuel + 1) depth (.struct a) (.struct b) =
    if (w.table (w.struct a).fields).length != (w.table (w.struct b).fields).length then pure false
    else w.constructorsJudged (w.judged fuel fullBudget) .equality (w.struct a).ctor (w.struct b).ctor >>=
      fun verdict => if verdict then fieldsJudged (w.judged fuel (depth - 1)) (w.table (w.struct a).fields).items
        (w.table (w.struct b).fields).items else pure false := if_neg hd

theorem judged_apart {x y : Value} (hd : ¬ depth < 1) (h : x.Apart y) :
    w.judged (fuel + 1) depth x y = .ok (x.same y) := by
  refine (if_neg hd).trans ?_
  cases x <;> cases y <;> first
    | rfl
    | exact False.elim h

end

end ValueCore
