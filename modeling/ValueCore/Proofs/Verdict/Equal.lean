import ValueCore.Proofs.Operations.Reads

/-!
# Equality without a budget

`World.Equal` is what a comparison has found out when it says yes (`equal_of_verdict`): a finite tree of equal parts.
It is told without budgets, and of dicts it says only that each item of the first has one of equal key and equal
value in the second. Values that are equal may be cyclic, as a dict equals itself.

Equality is transitive (`Equal.trans`), and equal values hash alike: not only is the hash the same if there is one
(`Equal.hashOf_eq`), but hashing is the same computation (`Equal.hashAt_eq`), so it fails alike, too. The other way
round equality holds where keys are distinct, which needs more of the world.
-/

namespace ValueCore

open World

variable {ε : Type} {w v : World ε} {x y z : Value} {host : Host ε}

/-! ## Lists of parts, compared -/

/-- Lists of fields of the same length are the same if all fields in the same place are. -/
theorem fieldsVerdict_eq_true {of : Value → Value → Option Bool} : ∀ {xs ys : List (Bytes × Value)},
    fieldsVerdict of xs ys = some true → ∀ p ∈ xs.zip ys, p.1.1 = p.2.1 ∧ of p.1.2 p.2.2 = some true
  | [], _, _, p, hp => by cases hp
  | _ :: _, [], h, _, _ => by cases h
  | (m, x) :: xs, (n, y) :: ys, h, p, hp => by
    unfold fieldsVerdict at h
    split at h
    · cases h
    · rename_i hmn
      obtain ⟨verdict, hxy, h⟩ := Option.bind_eq_some_iff.1 h
      cases verdict with
      | false => cases h
      | true =>
        rcases List.mem_cons.1 hp with rfl | hp
        · exact ⟨by simpa using hmn, hxy⟩
        · exact fieldsVerdict_eq_true h p hp

/-- Lists of fields of the same length differ in a place. -/
theorem fieldsVerdict_eq_false {of : Value → Value → Option Bool} : ∀ {xs ys : List (Bytes × Value)},
    xs.length = ys.length → fieldsVerdict of xs ys = some false →
      ∃ p ∈ xs.zip ys, p.1.1 ≠ p.2.1 ∨ of p.1.2 p.2.2 = some false
  | [], _, _, h => by cases h
  | _ :: _, [], hl, _ => by simp at hl
  | (m, x) :: xs, (n, y) :: ys, hl, h => by
    unfold fieldsVerdict at h
    split at h
    · rename_i hmn
      exact ⟨((m, x), (n, y)), List.mem_cons_self, .inl (by simpa using hmn)⟩
    · obtain ⟨verdict, hxy, h⟩ := Option.bind_eq_some_iff.1 h
      cases verdict with
      | false => exact ⟨((m, x), (n, y)), List.mem_cons_self, .inr hxy⟩
      | true =>
        obtain ⟨p, hp, hdiffer⟩ := fieldsVerdict_eq_false (by simpa using hl) h
        exact ⟨p, List.mem_cons_of_mem _ hp, hdiffer⟩

/-- All items were found, with equal values. -/
theorem itemsVerdict_eq_true {of : Value → Value → Option Bool} {get? : Value → Option (Option Value)} :
    ∀ {items : List (Value × Value)}, itemsVerdict of get? items = some true →
      ∀ item ∈ items, ∃ y, get? item.1 = some (some y) ∧ of item.2 y = some true
  | [], _, _, hm => by cases hm
  | (key, x) :: rest, h, item, hm => by
    obtain ⟨found, hfound, h⟩ := Option.bind_eq_some_iff.1 h
    cases found with
    | none => cases h
    | some y =>
      obtain ⟨verdict, hxy, h⟩ := Option.bind_eq_some_iff.1 h
      cases verdict with
      | false => cases h
      | true =>
        rcases List.mem_cons.1 hm with rfl | hm
        · exact ⟨y, hfound, hxy⟩
        · exact itemsVerdict_eq_true h item hm

/-- An item was not found, or not with an equal value. -/
theorem itemsVerdict_eq_false {of : Value → Value → Option Bool} {get? : Value → Option (Option Value)} :
    ∀ {items : List (Value × Value)}, itemsVerdict of get? items = some false →
      ∃ item ∈ items, get? item.1 = some none ∨ ∃ y, get? item.1 = some (some y) ∧ of item.2 y = some false
  | [], h => by cases h
  | (key, x) :: rest, h => by
    obtain ⟨found, hfound, h⟩ := Option.bind_eq_some_iff.1 h
    cases found with
    | none => exact ⟨(key, x), List.mem_cons_self, .inl hfound⟩
    | some y =>
      obtain ⟨verdict, hxy, h⟩ := Option.bind_eq_some_iff.1 h
      cases verdict with
      | false => exact ⟨(key, x), List.mem_cons_self, .inr ⟨y, hfound, hxy⟩⟩
      | true =>
        obtain ⟨item, hm, hdiffer⟩ := itemsVerdict_eq_false h
        exact ⟨item, List.mem_cons_of_mem _ hm, hdiffer⟩

/-! ## Equality -/

/-- The fields of two structs in the same place. -/
def World.fieldPairs (w : World ε) (a b : StructId) : List ((Bytes × Value) × (Bytes × Value)) :=
  (w.table (w.struct a).fields).items.zip (w.table (w.struct b).fields).items

/-- Two values are equal. -/
inductive World.Equal (w : World ε) : Value → Value → Prop
  | same {x y : Value} : x.Apart y → x.same y = true → Equal w x y
  | itself (t : TableId .any) : Equal w (.dict t) (.dict t)
  /-- For each item of `a` there is one of `b`. -/
  | dicts {a b : TableId .any} (other : Value × Value → Value × Value) : (w.table a).length = (w.table b).length →
    (∀ item ∈ (w.table a).items, other item ∈ (w.table b).items) →
    (∀ item ∈ (w.table a).items, Equal w item.1 (other item).1) →
    (∀ item ∈ (w.table a).items, Equal w item.2 (other item).2) → Equal w (.dict a) (.dict b)
  | structs {a b : StructId} : (w.table (w.struct a).fields).length = (w.table (w.struct b).fields).length →
    Equal w (w.struct a).ctor (w.struct b).ctor → (∀ p ∈ w.fieldPairs a b, p.1.1 = p.2.1) →
    (∀ p ∈ w.fieldPairs a b, Equal w p.1.2 p.2.2) → Equal w (.struct a) (.struct b)

/-- Between two members in the same place there is one of any list of the same length. -/
theorem mem_zip_between {α β γ : Type} {p : α × γ} : ∀ {xs : List α} {ys : List β} {zs : List γ},
    xs.length = ys.length → p ∈ xs.zip zs → ∃ y, (p.1, y) ∈ xs.zip ys ∧ (y, p.2) ∈ ys.zip zs
  | [], _, _, _, hp => by cases hp
  | _ :: _, [], _, hl, _ => by simp at hl
  | _ :: _, _ :: _, [], _, hp => by cases hp
  | x :: xs, y :: ys, z :: zs, hl, hp => by
    rcases List.mem_cons.1 hp with rfl | hp
    · exact ⟨y, List.mem_cons_self, List.mem_cons_self⟩
    · obtain ⟨y', hxy, hyz⟩ := mem_zip_between (by simpa using hl) hp
      exact ⟨y', List.mem_cons_of_mem _ hxy, List.mem_cons_of_mem _ hyz⟩

/-- **A comparison that says yes has found the values equal.** -/
theorem equal_of_verdict (hs : ∀ {kind : KeyKind} (t : TableId kind), (w.table t).Sound) :
    ∀ {fuel : Nat} {depth : Int} {x y : Value}, w.verdict fuel depth x y = some true → w.Equal x y
  | 0, _, _, _, h => by cases h
  | fuel + 1, depth, x, y, h => by
    by_cases hd : depth < 1
    · rw [verdict_spent hd] at h
      cases h
    have ih : ∀ {depth : Int} {x y : Value}, w.verdict fuel depth x y = some true → w.Equal x y := equal_of_verdict hs
    rcases pair_cases x y with ⟨a, b, rfl, rfl⟩ | ⟨a, b, rfl, rfl⟩ | ⟨a, b, rfl, rfl⟩ | hap
    · rw [verdict_dicts hd] at h
      split at h
      · rename_i hab
        subst hab
        exact .itself a
      split at h
      · cases h
      rename_i hl
      have hitem : ∀ item, ∃ other : Value × Value, item ∈ (w.table a).items →
          other ∈ (w.table b).items ∧ w.Equal item.1 other.1 ∧ w.Equal item.2 other.2 := by
        intro item
        by_cases hm : item ∈ (w.table a).items
        · obtain ⟨y, hfind, hy⟩ := itemsVerdict_eq_true h item hm
          obtain ⟨k, _, hk, _, hkey, _⟩ := item_of_findIn (hs b) hfind
          exact ⟨(k, y), fun _ => ⟨hk, ih hkey, ih hy⟩⟩
        · exact ⟨item, fun hm' => absurd hm' hm⟩
      choose other hother using hitem
      refine .dicts other (by simpa using hl) (fun item hm => (hother item hm).1) (fun item hm => (hother item hm).2.1) ?_
      exact fun item hm => (hother item hm).2.2
    · rw [verdict_structs hd] at h
      split at h
      · cases h
      rename_i hl
      obtain ⟨verdict, hctor, h⟩ := Option.bind_eq_some_iff.1 h
      cases verdict with
      | false => cases h
      | true =>
        have hfields := fieldsVerdict_eq_true h
        exact .structs (by simpa using hl) (ih hctor) (fun p hp => (hfields p hp).1) fun p hp => ih (hfields p hp).2
    · rw [verdict_hosts hd] at h
      cases h
    · rw [verdict_apart hd hap, Option.some.injEq] at h
      exact .same hap h

namespace World.Equal

/-- The items of two structs of as many fields are as many. -/
theorem length_fields (hs : ∀ {kind : KeyKind} (t : TableId kind), (w.table t).Sound) {a b : StructId}
    (hl : (w.table (w.struct a).fields).length = (w.table (w.struct b).fields).length) :
    (w.table (w.struct a).fields).items.length = (w.table (w.struct b).fields).items.length := by
  rw [(hs _).length_items, (hs _).length_items, hl]

/-- **Equality is transitive.** -/
theorem trans (hs : ∀ {kind : KeyKind} (t : TableId kind), (w.table t).Sound) (h : w.Equal x y) :
    ∀ {z : Value}, w.Equal y z → w.Equal x z := by
  induction h with
  | @same x y hap hsame =>
    intro z h
    obtain ⟨hx, hy⟩ := scalar_of_same hap hsame
    cases h with
    | same hap' hsame' => exact .same (apart_of_scalar hx) (same_trans hsame hsame')
    | itself | dicts | structs => exact hy.elim
  | itself t => exact fun h => h
  | @dicts a b other hl hm hkey hvalue ihkey ihvalue =>
    intro z h
    cases h with
    | same hap' hsame' => exact (scalar_of_same hap' hsame').1.elim
    | itself => exact .dicts other hl hm hkey hvalue
    | dicts other' hl' hm' hkey' hvalue' =>
      refine .dicts (other' ∘ other) (hl.trans hl') (fun item hi => hm' _ (hm item hi)) (fun item hi => ?_)
        fun item hi => ?_
      · exact ihkey item hi (hkey' _ (hm item hi))
      · exact ihvalue item hi (hvalue' _ (hm item hi))
  | @structs a b hl hctor hname hfield ihctor ihfield =>
    intro z h
    cases h with
    | same hap' hsame' => exact (scalar_of_same hap' hsame').1.elim
    | @structs _ c hl' hctor' hname' hfield' =>
      -- fields of `a` and `c` in the same place have one of `b` between them
      have hmiddle : ∀ p ∈ w.fieldPairs a c, ∃ q, (p.1, q) ∈ w.fieldPairs a b ∧ (q, p.2) ∈ w.fieldPairs b c :=
        fun p hp => mem_zip_between (length_fields hs hl) hp
      refine .structs (hl.trans hl') (ihctor hctor') (fun p hp => ?_) fun p hp => ?_
      · obtain ⟨q, hpq, hqp⟩ := hmiddle p hp
        exact (hname _ hpq).trans (hname' _ hqp)
      · obtain ⟨q, hpq, hqp⟩ := hmiddle p hp
        exact ihfield _ hpq (hfield' _ hqp)

end World.Equal

/-! ## Equal values hash alike -/

theorem hashFieldsOf_congr {hash : Value → Option UInt32} : ∀ {xs ys : List (Bytes × Value)} {s : StructHash},
    xs.length = ys.length → (∀ p ∈ xs.zip ys, p.1.1 = p.2.1 ∧ hash p.1.2 = hash p.2.2) →
      hashFieldsOf hash xs s = hashFieldsOf hash ys s
  | [], [], _, _, _ => rfl
  | [], _ :: _, _, hl, _ => by simp at hl
  | _ :: _, [], _, hl, _ => by simp at hl
  | (m, x) :: xs, (n, y) :: ys, s, hl, h => by
    obtain ⟨hname, hhash⟩ := h ((m, x), (n, y)) (by simp)
    dsimp only at hname hhash
    unfold hashFieldsOf
    rw [hname, hhash]
    have hrest : ∀ p ∈ xs.zip ys, p.1.1 = p.2.1 ∧ hash p.1.2 = hash p.2.2 := fun p hp => h p (by simp [hp])
    exact congrArg _ (funext fun a => hashFieldsOf_congr (by simpa using hl) hrest)

/-- Hashing the fields is the same computation if hashing each of them is, and changes nothing. -/
theorem hashFields_congr {hash : Value → Run ε UInt32} : ∀ {xs ys : List (Bytes × Value)} {s : StructHash} {v : World ε},
    xs.length = ys.length → SameStores w v →
      (∀ p ∈ xs.zip ys, p.1.1 = p.2.1 ∧ ∀ v, SameStores w v → hash p.1.2 v = hash p.2.2 v ∧ Alike v (hash p.1.2 v).2) →
      hashFields hash xs s v = hashFields hash ys s v ∧ Alike v (hashFields hash xs s v).2
  | [], [], _, v, _, _, _ => ⟨rfl, .refl v⟩
  | [], _ :: _, _, _, hl, _, _ => by simp at hl
  | _ :: _, [], _, _, hl, _, _ => by simp at hl
  | (m, x) :: xs, (n, y) :: ys, s, v, hl, hv, h => by
    obtain ⟨hname, hhash⟩ := h ((m, x), (n, y)) (by simp)
    obtain ⟨heq, halike⟩ := hhash v hv
    dsimp only at hname heq halike
    have hrest : ∀ p ∈ xs.zip ys, p.1.1 = p.2.1 ∧
        ∀ v, SameStores w v → hash p.1.2 v = hash p.2.2 v ∧ Alike v (hash p.1.2 v).2 := fun p hp => h p (by simp [hp])
    unfold hashFields
    rw [hname]
    cases hr : hash x v with
    | mk r u =>
      rw [hr] at heq halike
      cases r with
      | error e =>
        rw [run_bind_error hr, run_bind_error heq.symm]
        exact ⟨rfl, halike⟩
      | ok a =>
        rw [run_bind_ok hr, run_bind_ok heq.symm]
        obtain ⟨heq', halike'⟩ := hashFields_congr (by simpa using hl) (hv.alike halike) hrest (s := s.mix n a)
        exact ⟨heq', halike.trans halike'⟩

namespace World.Equal

/-- Equal values have the same hash, or none. -/
theorem hashOf_eq (hs : ∀ {kind : KeyKind} (t : TableId kind), (w.table t).Sound) (h : w.Equal x y) :
    ∀ n, w.hashOf n x = w.hashOf n y := by
  induction h with
  | same hap hsame =>
    intro n
    obtain ⟨hx, hy⟩ := scalar_of_same hap hsame
    cases n with
    | zero => rfl
    | succ n => rw [hashOf_scalar hx, hashOf_scalar hy, hashScalar_eq hsame]
  | itself | dicts => exact fun n => by cases n <;> rfl
  | structs hl _ hname _ _ ih =>
    intro n
    cases n with
    | zero => rfl
    | succ n =>
      rw [hashOf_struct, hashOf_struct]
      exact hashFieldsOf_congr (length_fields hs hl) fun p hp => ⟨hname p hp, ih p hp n⟩

/-- **Hashing equal values is the same computation**, and changes nothing. -/
theorem hashAt_eq (hs : ∀ {kind : KeyKind} (t : TableId kind), (w.table t).Sound) (h : w.Equal x y) :
    ∀ n v, SameStores w v → hashAt host n x v = hashAt host n y v ∧ Alike v (hashAt host n x v).2 := by
  induction h with
  | same hap hsame =>
    intro n v _
    obtain ⟨hx, hy⟩ := scalar_of_same hap hsame
    cases n with
    | zero => exact ⟨rfl, .refl v⟩
    | succ n =>
      rw [run_hashAt_scalar hx, run_hashAt_scalar hy, hashScalar_eq hsame]
      exact ⟨rfl, .refl v⟩
  | itself | dicts =>
    intro n v _
    cases n with
    | zero => exact ⟨rfl, .refl v⟩
    | succ n => exact ⟨rfl, rfl, rfl, rfl, rfl⟩
  | @structs a b hl _ hname _ _ ih =>
    intro n v hv
    cases n with
    | zero => exact ⟨rfl, .refl v⟩
    | succ n =>
      have hrun : ∀ s, hashAt host (n + 1) (.struct s) v =
          hashFields (hashAt host n) (w.table (w.struct s).fields).items {} v := by
        intro s
        show (get >>= fun v => hashFields (hashAt host n) (v.table (v.struct s).fields).items {} : Run ε UInt32) v = _
        rw [run_bind_ok (run_get v), hv.struct s, hv.items]
      rw [hrun, hrun]
      exact hashFields_congr (length_fields hs hl) hv fun p hp => ⟨hname p hp, ih p hp n⟩

end World.Equal

end ValueCore
