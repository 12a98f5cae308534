import ValueCore.Proofs.Operations.Reads

/-!
# The same comparison in any number of nested steps

A comparison is allowed so many nested steps, and one that used them up is cut short. Otherwise the allowance plays no part:
two computations agree (`Agrees`) if they end alike, in worlds alike, wherever neither of them is cut short, and so do
comparisons with whatever allowances (`agrees_equalAt`).

Nothing is asked of the host here. It may fail, change its mind or make something new while it is asked, as it is asked the
same on both sides.
-/

namespace ValueCore

open World

variable {ε α β : Type} {w : World ε} {kind : KeyKind} {host : Host ε}

/-! ## Agreement -/

/-- Wherever neither of them is cut short, the two computations end alike. -/
structure Agrees (act act' : Run ε α) : Prop where
  run : ∀ w, (act w).1 ≠ .error .exhausted → (act' w).1 ≠ .error .exhausted → act w = act' w

namespace Agrees

variable {act act' : Run ε α}

theorem refl (act : Run ε α) : Agrees act act := ⟨fun _ _ _ => rfl⟩

theorem symm (h : Agrees act act') : Agrees act' act := ⟨fun w hw hw' => (h.run w hw' hw).symm⟩

theorem exhausted_left : Agrees (throw .exhausted) act := ⟨fun _ hw _ => absurd rfl hw⟩

theorem exhausted_right : Agrees act (throw .exhausted) := ⟨fun _ _ hw => absurd rfl hw⟩

/-- A computation that goes on is cut short where its beginning is. -/
theorem bind {x x' : Run ε α} {f f' : α → Run ε β} (hx : Agrees x x') (hf : ∀ a, Agrees (f a) (f' a)) :
    Agrees (x >>= f) (x' >>= f') := by
  refine ⟨fun w hw hw' => ?_⟩
  have hsame : x w = x' w := by
    refine hx.run w (fun he => hw ?_) fun he => hw' ?_
    · rw [run_bind_error (Prod.ext he rfl)]
    · rw [run_bind_error (Prod.ext he rfl)]
  cases hr : x w with
  | mk r v =>
    have hr' := hsame.symm.trans hr
    cases r with
    | error e => rw [run_bind_error hr, run_bind_error hr']
    | ok a =>
      rw [run_bind_ok hr] at hw ⊢
      rw [run_bind_ok hr'] at hw' ⊢
      exact (hf a).run v hw hw'

theorem after {x : Run ε α} {f f' : α → Run ε β} (hf : ∀ a, Agrees (f a) (f' a)) : Agrees (x >>= f) (x >>= f') :=
  (refl x).bind hf

theorem holding (h : Agrees act act') (t : TableId kind) : Agrees (holding t act) (holding t act') := by
  refine ⟨fun w hw hw' => ?_⟩
  cases hf : (w.table t).frozen with
  | true =>
    rw [run_holding_of_frozen hf] at hw hw' ⊢
    rw [run_holding_of_frozen hf]
    exact h.run w hw hw'
  | false =>
    rw [run_holding hf] at hw hw' ⊢
    rw [run_holding hf, h.run _ hw hw']

/-- An error is caught, but not that a computation is cut short. -/
theorem protect (h : Agrees act act') : Agrees (protect act) (protect act') := by
  have hcut : ∀ {act : Run ε α} {w : World ε}, (act w).1 = .error .exhausted →
      (ValueCore.protect act w).1 = .error .exhausted := by
    intro act w he
    unfold ValueCore.protect
    rw [show act w = (.error .exhausted, (act w).2) from Prod.ext he rfl]
  refine ⟨fun w hw hw' => ?_⟩
  have hsame := h.run w (fun he => hw (hcut he)) fun he => hw' (hcut he)
  unfold ValueCore.protect
  rw [hsame]

end Agrees

/-! ## Comparing -/

theorem agrees_firstEqual {κ : Type} {equal equal' : κ → κ → Run ε Bool} {key : κ}
    (h : ∀ k, Agrees (equal key k) (equal' key k)) : ∀ cands : List (Nat × κ),
      Agrees (firstEqual equal key cands) (firstEqual equal' key cands)
  | [] => .refl _
  | (slot, k) :: rest => by
    refine (h k).bind fun verdict => ?_
    cases verdict with
    | true => exact .refl _
    | false => exact agrees_firstEqual h rest

theorem agrees_lookup {hash : kind.Key → Run ε UInt32} {equal equal' : kind.Key → kind.Key → Run ε Bool}
    {key : kind.Key} (h : ∀ k, Agrees (equal key k) (equal' key k)) (t : TableId kind) :
    Agrees (lookup ⟨hash, equal⟩ t key) (lookup ⟨hash, equal'⟩ t key) := by
  have hfind : Agrees (findSlot ⟨hash, equal⟩ t key) (findSlot ⟨hash, equal'⟩ t key) :=
    .after fun _ => .after fun _ => (agrees_firstEqual h _).holding t
  exact hfind.bind fun found => .refl _

section
variable {equal equal' : Value → Value → Run ε Bool} (h : ∀ x y, Agrees (equal x y) (equal' x y))
include h

theorem agrees_itemsEqual {get? get?' : Value → Run ε (Option Value)} (hget : ∀ key, Agrees (get? key) (get?' key)) :
    ∀ items : List (Value × Value), Agrees (itemsEqual equal get? items) (itemsEqual equal' get?' items)
  | [] => .refl _
  | (key, x) :: rest => by
    refine (hget key).bind fun found => ?_
    cases found with
    | none => exact .refl _
    | some y =>
      refine (h x y).bind fun verdict => ?_
      cases verdict with
      | true => exact agrees_itemsEqual hget rest
      | false => exact .refl _

theorem agrees_fieldsEqual : ∀ xs ys : List (Bytes × Value), Agrees (fieldsEqual equal xs ys) (fieldsEqual equal' xs ys)
  | [], _ => .refl _
  | _ :: _, [] => .refl _
  | (m, x) :: xs, (n, y) :: ys => by
    unfold fieldsEqual
    split
    · exact .refl _
    · refine (h x y).bind fun verdict => ?_
      cases verdict with
      | true => exact agrees_fieldsEqual xs ys
      | false => exact .refl _

theorem agrees_sameConstructor (use : ConstructorUse) (x y : Value) :
    Agrees (sameConstructor equal host use x y) (sameConstructor equal' host use x y) :=
  (h x y).protect.bind fun _ => .refl _

theorem agrees_dictsEqual {fully fully' : Value → Value → Run ε Bool} (hfully : ∀ x y, Agrees (fully x y) (fully' x y))
    (a b : TableId .any) :
    Agrees (dictsEqual ⟨hashValue host, fully⟩ equal a b) (dictsEqual ⟨hashValue host, fully'⟩ equal' a b) := by
  refine .after fun T => .after fun U => ?_
  split
  · exact .refl _
  · refine .holding (.after fun T => agrees_itemsEqual h (fun key => ?_) _) a
    have hkeys : ∀ k : KeyKind.any.Key, Agrees (fully key k) (fully' key k) := fun k => hfully key k
    exact agrees_lookup hkeys b

theorem agrees_structsEqual {fully fully' : Value → Value → Run ε Bool} (hfully : ∀ x y, Agrees (fully x y) (fully' x y))
    (a b : StructId) : Agrees (structsEqual fully equal host a b) (structsEqual fully' equal' host a b) := by
  refine .after fun w => ?_
  dsimp only
  split
  · exact .refl _
  · refine (agrees_sameConstructor hfully .equality _ _).bind fun verdict => ?_
    cases verdict with
    | false => exact .refl _
    | true => exact .after fun v => agrees_fieldsEqual h _ _

end

/-- **However many nested steps are allowed, a comparison that is not cut short is the same.** The induction is on one of
the allowances; both fall by one whenever the comparison goes deeper. -/
theorem agrees_equalAt : ∀ (fuel fuel' : Nat) (depth : Int) (x y : Value),
    Agrees (equalAt host fuel depth x y) (equalAt host fuel' depth x y)
  | 0, _, _, _, _ => .exhausted_left
  | _ + 1, 0, _, _, _ => .exhausted_right
  | fuel + 1, fuel' + 1, depth, x, y => by
    by_cases hd : depth < 1
    · exact ⟨fun w _ _ => by rw [equalAt_spent hd, equalAt_spent hd]⟩
    have hfully := agrees_equalAt fuel fuel' fullBudget
    have hbelow := agrees_equalAt fuel fuel' (depth - 1)
    rcases pair_cases x y with ⟨a, b, rfl, rfl⟩ | ⟨a, b, rfl, rfl⟩ | ⟨a, b, rfl, rfl⟩ | hapart
    · rw [equalAt_dicts hd, equalAt_dicts hd]
      split
      · exact .refl _
      · exact agrees_dictsEqual hbelow hfully a b
    · rw [equalAt_structs hd, equalAt_structs hd]
      exact agrees_structsEqual hbelow hfully a b
    · rw [equalAt_hosts hd, equalAt_hosts hd]
      exact .refl _
    · exact ⟨fun w _ _ => by rw [run_equalAt_apart hapart fuel (by omega), run_equalAt_apart hapart fuel' (by omega)]⟩

/-- The world allows for at least one step. -/
theorem equalWithin_eq_equalAt (host : Host ε) (w : World ε) (depth : Int) (x y : Value) :
    ∃ fuel, equalWithin host depth x y w = equalAt host (fuel + 1) depth x y w := by
  obtain ⟨fuel, hfuel⟩ : ∃ n, comparisonFuel w depth = n + 1 := ⟨comparisonFuel w depth - 1, by unfold comparisonFuel; omega⟩
  refine ⟨fuel, ?_⟩
  rw [← hfuel]
  exact run_bind_ok (run_get w) _

/-- A comparison is the same with the allowance that the world gives it. -/
theorem agrees_equalWithin (fuel : Nat) (depth : Int) (x y : Value) :
    Agrees (equalWithin host depth x y) (equalAt host fuel depth x y) := by
  refine ⟨fun w hw hw' => ?_⟩
  obtain ⟨fuel', hrun⟩ := equalWithin_eq_equalAt host w depth x y
  rw [hrun] at hw ⊢
  exact (agrees_equalAt _ fuel depth x y).run w hw hw'

end ValueCore
