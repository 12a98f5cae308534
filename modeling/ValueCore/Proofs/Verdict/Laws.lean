import ValueCore.Proofs.Verdict.Equal

/-!
# Laws of verdicts

Structs never change, but dicts do. What a hash or a verdict comes to is therefore settled for good, unless the
comparison comes to two different dicts (`Meets`), which may become equal, or cease to be. If one of the values
has a hash then it is only by constructors that this may happen (`ConstructorsMeet`).

| law | holds | |
| --- | --- | --- |
| equal values have the same hash | always | `hash_eq_of_verdict` |
| the other way round the verdict is the same | unless dicts meet | `verdict_comm` |
| a hash stays what it is as the world goes on | always | `hashOf_stands` |
| a verdict stays what it is as the world goes on | unless dicts meet | `verdict_stands` |
-/

namespace ValueCore

open World

variable {ε : Type} {I : Inventory ε} {n : Nat} {w w' : World ε}

namespace World

/-- Comparing the two values comes to two different dicts. -/
inductive Meets (w : World ε) : Value → Value → Prop
  | dicts {a b : TableId .any} : a ≠ b → Meets w (.dict a) (.dict b)
  | ctors {a b : StructId} : Meets w (w.struct a).ctor (w.struct b).ctor → Meets w (.struct a) (.struct b)
  | fields {a b : StructId} {x y : Bytes × Value} :
    (x, y) ∈ (w.table (w.struct a).fields).items.zip (w.table (w.struct b).fields).items →
    Meets w x.2 y.2 → Meets w (.struct a) (.struct b)

theorem mem_zip_swap {α β : Type} {x : α} {y : β} : ∀ {xs : List α} {ys : List β}, (x, y) ∈ xs.zip ys → (y, x) ∈ ys.zip xs
  | [], _, h => by cases h
  | _ :: _, [], h => by cases h
  | _ :: xs, _ :: ys, h => by
    rcases List.mem_cons.1 h with h | h
    · cases h
      exact List.mem_cons_self
    · exact List.mem_cons_of_mem _ (mem_zip_swap h)

theorem Meets.symm {x y : Value} (h : w.Meets x y) : w.Meets y x := by
  induction h with
  | dicts hne => exact .dicts (Ne.symm hne)
  | ctors _ ih => exact .ctors ih
  | fields hm _ ih => exact .fields (mem_zip_swap hm) ih

/-- Two structs, or two fields in the same place, have constructors that come to two different dicts. -/
inductive ConstructorsMeet (w : World ε) : Value → Value → Prop
  | here {a b : StructId} : w.Meets (w.struct a).ctor (w.struct b).ctor → ConstructorsMeet w (.struct a) (.struct b)
  | fields {a b : StructId} {x y : Bytes × Value} :
    (x, y) ∈ (w.table (w.struct a).fields).items.zip (w.table (w.struct b).fields).items →
    ConstructorsMeet w x.2 y.2 → ConstructorsMeet w (.struct a) (.struct b)

end World

/-! ## Dicts in values that have a hash -/

theorem hash_of_field {hash : Value → Option UInt32} : ∀ {fields : List (Bytes × Value)} {s : StructHash} {a : UInt32},
    hashFieldsOf hash fields s = some a → ∀ field ∈ fields, ∃ b, hash field.2 = some b
  | (name, value) :: rest, s, a, ha, field, hm => by
    obtain ⟨b, hb, ha⟩ := Option.bind_eq_some_iff.1 ha
    rcases List.mem_cons.1 hm with rfl | hm
    · exact ⟨b, hb⟩
    · exact hash_of_field ha field hm

/-- Dicts have no hash, and neither have structs with dicts in their fields. So only constructors come to dicts. -/
theorem World.Meets.constructors {x y : Value} (h : w.Meets x y) : ∀ {n : Nat} {a : UInt32}, w.hashOf n x = some a →
    w.ConstructorsMeet x y := by
  induction h with
  | dicts _ =>
    intro n a ha
    cases n <;> cases ha
  | ctors h _ => exact fun _ => .here h
  | @fields s t x y hm _ ih =>
    intro n a ha
    cases n with
    | zero => cases ha
    | succ n =>
      rw [hashOf_struct] at ha
      obtain ⟨b, hb⟩ := hash_of_field ha x (List.of_mem_zip hm).1
      exact .fields hm (ih hb)

/-! ## The other way round -/

theorem fieldsVerdict_comm {of of' : Value → Value → Option Bool} : ∀ {xs ys : List (Bytes × Value)} {a b : Bool},
    (∀ p ∈ xs.zip ys, ∀ a b, of p.1.2 p.2.2 = some a → of' p.2.2 p.1.2 = some b → a = b) → xs.length = ys.length →
      fieldsVerdict of xs ys = some a → fieldsVerdict of' ys xs = some b → a = b
  | [], [], a, b, _, _, ha, hb => by
    rw [fieldsVerdict, Option.some.injEq] at ha hb
    exact ha.symm.trans hb
  | [], _ :: _, _, _, _, hl, _, _ => by simp at hl
  | _ :: _, [], _, _, _, hl, _, _ => by simp at hl
  | (m, x) :: xs, (k, y) :: ys, a, b, h, hl, ha, hb => by
    unfold fieldsVerdict at ha hb
    by_cases hmk : m = k
    · subst hmk
      simp only [bne_self_eq_false, Bool.false_eq_true, if_false] at ha hb
      obtain ⟨c, hc, ha⟩ := Option.bind_eq_some_iff.1 ha
      obtain ⟨d, hd, hb⟩ := Option.bind_eq_some_iff.1 hb
      obtain rfl := h ((m, x), (m, y)) (by simp) c d hc hd
      cases c with
      | true => exact fieldsVerdict_comm (fun p hp => h p (by simp [hp])) (by simpa using hl) ha hb
      | false => exact (Option.some.inj ha).symm.trans (Option.some.inj hb)
    · simp only [bne_iff_ne, ne_eq, hmk, not_false_eq_true, if_true, Option.some.injEq] at ha
      simp only [bne_iff_ne, ne_eq, Ne.symm hmk, not_false_eq_true, if_true, Option.some.injEq] at hb
      exact ha.symm.trans hb

/-- **The other way round the verdict is the same**, unless dicts meet. -/
theorem verdict_comm (hs : ∀ {kind : KeyKind} (t : TableId kind), (w.table t).Sound) :
    ∀ {fuel fuel' : Nat} {depth depth' : Int} {x y : Value} {a b : Bool}, ¬ w.Meets x y →
      w.verdict fuel depth x y = some a → w.verdict fuel' depth' y x = some b → a = b
  | 0, _, _, _, _, _, _, _, _, ha, _ => by cases ha
  | _ + 1, 0, _, _, _, _, _, _, _, _, hb => by cases hb
  | fuel + 1, fuel' + 1, depth, depth', x, y, a, b, hm, ha, hb => by
    by_cases hd : depth < 1
    · rw [verdict_spent hd] at ha
      cases ha
    by_cases hd' : depth' < 1
    · rw [verdict_spent hd'] at hb
      cases hb
    rcases pair_cases x y with ⟨s, t, rfl, rfl⟩ | ⟨s, t, rfl, rfl⟩ | ⟨s, t, rfl, rfl⟩ | h
    · have hst : s = t := by
        by_contra hne
        exact hm (.dicts hne)
      rw [verdict_dicts hd, if_pos hst, Option.some.injEq] at ha
      rw [verdict_dicts hd', if_pos hst.symm, Option.some.injEq] at hb
      exact ha.symm.trans hb
    · rw [verdict_structs hd] at ha
      rw [verdict_structs hd'] at hb
      by_cases hl : (w.table (w.struct s).fields).length = (w.table (w.struct t).fields).length
      · simp only [hl, bne_self_eq_false, Bool.false_eq_true, if_false] at ha hb
        obtain ⟨c, hc, ha⟩ := Option.bind_eq_some_iff.1 ha
        obtain ⟨d, hd, hb⟩ := Option.bind_eq_some_iff.1 hb
        obtain rfl := verdict_comm hs (fun h => hm (.ctors h)) hc hd
        cases c with
        | false => exact (Option.some.inj ha).symm.trans (Option.some.inj hb)
        | true =>
          refine fieldsVerdict_comm (fun p hp c d hc hd => ?_) ?_ ha hb
          · exact verdict_comm hs (fun h => hm (.fields hp h)) hc hd
          · rw [(hs _).length_items, (hs _).length_items, hl]
      · simp only [bne_iff_ne, ne_eq, hl, not_false_eq_true, if_true, Option.some.injEq] at ha
        simp only [bne_iff_ne, ne_eq, Ne.symm hl, not_false_eq_true, if_true, Option.some.injEq] at hb
        exact ha.symm.trans hb
    · rw [verdict_hosts hd] at ha
      cases ha
    · rw [verdict_apart hd h, Option.some.injEq] at ha
      rw [verdict_apart hd' h.symm, Option.some.injEq] at hb
      rw [← ha, ← hb, same_comm]

/-! ## As the world goes on -/

/-- The structs among the values `C` read in `w'` as they do in `w`, and `C` has the parts of its structs. -/
structure World.Stands (C : Value → Prop) (w w' : World ε) : Prop where
  struct_eq : ∀ s : StructId, C (.struct s) → w'.struct s = w.struct s
  items_eq : ∀ s : StructId, C (.struct s) →
    (w'.table (w.struct s).fields).items = (w.table (w.struct s).fields).items
  length_eq : ∀ s : StructId, C (.struct s) →
    (w'.table (w.struct s).fields).length = (w.table (w.struct s).fields).length
  ctor : ∀ s : StructId, C (.struct s) → C (w.struct s).ctor
  field : ∀ s : StructId, C (.struct s) → ∀ item ∈ (w.table (w.struct s).fields).items, C item.2

/-- **Whatever is there stands as the world goes on.** -/
theorem stands_of_evolves (h : w.Sound I) (he : Evolves I w.structs.size w w') : World.Stands w.Owns w w' := by
  have hsame : ∀ s : StructId, w.Owns (.struct s) →
      Table.SameStore (w.table (w.struct s).fields) (w'.table (w.struct s).fields) := fun s hs =>
    he.same_of_sealed h (h.fields s hs) ⟨s, hs, hs, rfl⟩
  refine ⟨fun s hs => he.within.struct_eq s hs, fun s hs => (hsame s hs).kept.items_eq, fun s hs => ?_,
    fun s hs => h.ctors s hs, fun s _ item hm => (h.items _ item hm).2⟩
  rw [hsame s hs]

/-- Structs stand when a table of values is changed. -/
theorem stands_of_beside {t : TableId .any} (hb : Beside t w w') : World.Stands (fun _ => True) w w' := by
  have htable : ∀ u : TableId .text, w'.table u = w.table u := fun u => hb.table u (by simp)
  have hstruct : ∀ s : StructId, w'.struct s = w.struct s := fun s => by simp only [World.struct, hb.structs]
  exact ⟨fun s _ => hstruct s, fun s _ => by rw [htable], fun s _ => by rw [htable], fun _ _ => trivial,
    fun _ _ _ _ => trivial⟩

section
variable {C : Value → Prop}

theorem hashFieldsOf_mono {hash hash' : Value → Option UInt32} : ∀ {fields : List (Bytes × Value)} {s : StructHash}
    {a : UInt32}, (∀ field ∈ fields, ∀ b, hash field.2 = some b → hash' field.2 = some b) →
      hashFieldsOf hash fields s = some a → hashFieldsOf hash' fields s = some a
  | [], _, _, _, ha => ha
  | (name, value) :: rest, s, a, h, ha => by
    obtain ⟨b, hb, ha⟩ := Option.bind_eq_some_iff.1 ha
    refine Option.bind_eq_some_iff.2 ⟨b, h (name, value) List.mem_cons_self b hb, ?_⟩
    exact hashFieldsOf_mono (fun field hm => h field (List.mem_cons_of_mem _ hm)) ha

/-- **A hash stays what it is as the world goes on.** -/
theorem hashOf_stands (hw : World.Stands C w w') : ∀ {m n : Nat} {x : Value} {a : UInt32}, C x → m ≤ n →
    w.hashOf m x = some a → w'.hashOf n x = some a
  | 0, _, _, _, _, _, ha => by cases ha
  | _ + 1, 0, _, _, _, hn, _ => by omega
  | m + 1, n + 1, x, a, hx, hn, ha => by
    by_cases hs : x.Scalar
    · rw [hashOf_scalar hs] at ha ⊢
      exact ha
    cases x with
    | none | bool | int | float | str => exact absurd trivial hs
    | dict | host => cases ha
    | struct s =>
      rw [hashOf_struct] at ha ⊢
      rw [hw.struct_eq s hx, hw.items_eq s hx]
      refine hashFieldsOf_mono (fun field hm b hb => ?_) ha
      exact hashOf_stands hw (hw.field s hx field hm) (by omega) hb

/-- **Equal values have the same hash.** -/
theorem hash_eq_of_verdict (hs : ∀ {kind : KeyKind} (t : TableId kind), (w.table t).Sound) {fuel : Nat} {depth : Int}
    {x y : Value} {m n : Nat} {a b : UInt32} (hv : w.verdict fuel depth x y = some true) (ha : w.hashOf m x = some a)
    (hb : w.hashOf n y = some b) : a = b := by
  have hw : World.Stands (fun _ => True) w w :=
    ⟨fun _ _ => rfl, fun _ _ => rfl, fun _ _ => rfl, fun _ _ => trivial, fun _ _ _ _ => trivial⟩
  have hx := hashOf_stands hw (x := x) trivial (Nat.le_max_left m n) ha
  have hy := hashOf_stands hw (x := y) trivial (Nat.le_max_right m n) hb
  rw [(equal_of_verdict hs hv).hashOf_eq hs, hy] at hx
  exact (Option.some.inj hx).symm

theorem World.Meets.stands (hw : World.Stands C w w') {x y : Value} (h : w.Meets x y) : C x → C y → w'.Meets x y := by
  induction h with
  | dicts hne => exact fun _ _ => .dicts hne
  | @ctors a b _ ih =>
    intro hx hy
    refine .ctors ?_
    rw [hw.struct_eq a hx, hw.struct_eq b hy]
    exact ih (hw.ctor a hx) (hw.ctor b hy)
  | @fields a b x y hm _ ih =>
    intro hx hy
    obtain ⟨hmx, hmy⟩ := List.of_mem_zip hm
    refine .fields (x := x) (y := y) ?_ (ih (hw.field a hx x hmx) (hw.field b hy y hmy))
    rw [hw.struct_eq a hx, hw.struct_eq b hy, hw.items_eq a hx, hw.items_eq b hy]
    exact hm

theorem fieldsVerdict_mono {of of' : Value → Value → Option Bool} : ∀ {xs ys : List (Bytes × Value)} {a : Bool},
    (∀ p ∈ xs.zip ys, ∀ a, of p.1.2 p.2.2 = some a → of' p.1.2 p.2.2 = some a) → fieldsVerdict of xs ys = some a →
      fieldsVerdict of' xs ys = some a
  | [], _, _, _, ha => ha
  | _ :: _, [], _, _, ha => ha
  | (m, x) :: xs, (k, y) :: ys, a, h, ha => by
    unfold fieldsVerdict at ha ⊢
    by_cases hmk : (m != k) = true
    · rw [if_pos hmk] at ha ⊢
      exact ha
    · rw [if_neg hmk] at ha ⊢
      obtain ⟨c, hc, ha⟩ := Option.bind_eq_some_iff.1 ha
      refine Option.bind_eq_some_iff.2 ⟨c, h ((m, x), (k, y)) (by simp) c hc, ?_⟩
      cases c with
      | false => exact ha
      | true => exact fieldsVerdict_mono (fun p hp => h p (by simp [hp])) ha

/-- **A verdict stays what it is as the world goes on**, unless dicts meet. -/
theorem verdict_stands (hw : World.Stands C w w') : ∀ {f f' : Nat} {depth : Int} {x y : Value} {a : Bool}, C x → C y →
    ¬ w.Meets x y → f ≤ f' → w.verdict f depth x y = some a → w'.verdict f' depth x y = some a
  | 0, _, _, _, _, _, _, _, _, _, ha => by cases ha
  | _ + 1, 0, _, _, _, _, _, _, _, hf, _ => by omega
  | f + 1, f' + 1, depth, x, y, a, hx, hy, hm, hf, ha => by
    by_cases hd : depth < 1
    · rw [verdict_spent hd] at ha
      cases ha
    rcases pair_cases x y with ⟨s, t, rfl, rfl⟩ | ⟨s, t, rfl, rfl⟩ | ⟨s, t, rfl, rfl⟩ | h
    · have hst : s = t := by
        by_contra hne
        exact hm (.dicts hne)
      rw [verdict_dicts hd, if_pos hst] at ha
      rw [verdict_dicts hd, if_pos hst]
      exact ha
    · rw [verdict_structs hd] at ha ⊢
      rw [hw.struct_eq s hx, hw.struct_eq t hy, hw.items_eq s hx, hw.items_eq t hy, hw.length_eq s hx, hw.length_eq t hy]
      by_cases hl : ((w.table (w.struct s).fields).length != (w.table (w.struct t).fields).length) = true
      · rw [if_pos hl] at ha ⊢
        exact ha
      · rw [if_neg hl] at ha ⊢
        obtain ⟨c, hc, ha⟩ := Option.bind_eq_some_iff.1 ha
        have hc' := verdict_stands hw (hw.ctor s hx) (hw.ctor t hy) (fun h => hm (.ctors h)) (by omega : f ≤ f') hc
        refine Option.bind_eq_some_iff.2 ⟨c, hc', ?_⟩
        cases c with
        | false => simpa using ha
        | true =>
          refine fieldsVerdict_mono (fun p hp b hb => ?_) ha
          obtain ⟨hpx, hpy⟩ := List.of_mem_zip hp
          exact verdict_stands hw (hw.field s hx _ hpx) (hw.field t hy _ hpy) (fun h => hm (.fields hp h))
            (by omega) hb
    · rw [verdict_hosts hd] at ha
      cases ha
    · rw [verdict_apart hd h] at ha ⊢
      exact ha

end

end ValueCore
