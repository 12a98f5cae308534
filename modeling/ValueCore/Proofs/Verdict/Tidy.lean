import Mathlib.Data.List.Nodup
import Mathlib.Data.List.Pairwise
import Mathlib.Data.List.Perm.Subperm
import ValueCore.Proofs.Operations.Keys
import ValueCore.Proofs.Verdict.Laws

/-!
# Equality where keys are distinct

Among values whose dicts have keys that have hashes, are stored under them and are all different (`World.Tidy`),
equality is symmetric as well, and a comparison that says no has found the values different. So what comparisons say
does not depend on how they go about it: the other way round they say the same, and of three values of which the
first two and the last two are equal, the first and the last are.

The one place where this takes an argument is the comparison of two dicts. It looks up the keys of the first dict in
the second one only, and it looks at the number of items. If each item of the first has an equal one in the second
then these are all different, since the keys of the first dict are; as they are as many as there are, they are all.
-/

namespace ValueCore

open World

variable {ε : Type} {w : World ε} {x y z : Value} {C : Value → Prop}

/-- If nothing is found then no candidate is equal to the key. -/
theorem missed_of_findIn {T : Table Value} (h : T.Sound) {hash : Value → Option UInt32}
    {of : Value → Value → Option Bool} {key : Value} (hf : findIn T hash of key = some none) :
    ∃ a, hash key = some a ∧ ∀ c ∈ T.candidates (storedHash a), of key c.2 = some false := by
  obtain ⟨a, ha, hf⟩ := Option.bind_eq_some_iff.1 hf
  obtain ⟨found, hfound, hf⟩ := Option.bind_eq_some_iff.1 hf
  refine ⟨a, ha, ?_⟩
  cases found with
  | none => exact firstVerdict_eq_none hfound
  | some i =>
    -- a candidate is live, so a value would have been found
    obtain ⟨k, hk, _⟩ := firstVerdict_eq_some hfound
    obtain ⟨_, e, he, _, _⟩ := h.mem_candidates.1 hk
    simp [he] at hf

/-- A stored key is a candidate for its hash. -/
theorem Table.Sound.candidate_of_record {κ : Type} {T : Table κ} (h : T.Sound) {r : UInt32 × κ × Value}
    (hr : r ∈ T.records) : ∃ i, (i, r.2.1) ∈ T.candidates r.1 := by
  obtain ⟨i, hi, e, he, rfl⟩ := Table.mem_records.1 hr
  exact ⟨i, h.mem_candidates.2 ⟨hi, e, he, rfl, rfl⟩⟩

theorem Table.record_of_item {κ : Type} {T : Table κ} {item : κ × Value} (hm : item ∈ T.items) :
    ∃ a, (a, item) ∈ T.records := by
  rw [Table.items_eq] at hm
  obtain ⟨r, hr, rfl⟩ := List.mem_map.1 hm
  exact ⟨r.1, hr⟩

namespace World

/-- A region without values of the host, in which the keys of dicts have hashes, are stored under them and differ. -/
structure Tidy (w : World ε) (C : Value → Prop) : Prop extends Region w C where
  hashed : ∀ {t : TableId .any}, C (.dict t) → ∀ r ∈ (w.table t).storedKeys,
    ∃ a, w.hashOf (w.structs.size + 2) r.2 = some a ∧ r.1 = storedHash a
  distinct : ∀ {t : TableId .any}, C (.dict t) → (w.table t).storedKeys.Pairwise fun r s => ¬ w.Equal s.2 r.2

namespace Tidy

variable (hC : w.Tidy C)
include hC

/-- Items of equal keys are the same. -/
theorem item_unique {t : TableId .any} (ht : C (.dict t)) {p q : Value × Value} (hp : p ∈ (w.table t).items)
    (hq : q ∈ (w.table t).items) (hpq : w.Equal p.1 q.1) (hqp : w.Equal q.1 p.1) : p = q := by
  obtain ⟨a, ha⟩ := Table.record_of_item hp
  obtain ⟨b, hb⟩ := Table.record_of_item hq
  have hpairs : (w.table t).records.Pairwise fun r s => ¬ (w.Equal s.2.1 r.2.1 ∧ w.Equal r.2.1 s.2.1) :=
    (List.pairwise_map.1 (hC.distinct ht)).imp fun h h' => h h'.1
  have hsymm : Std.Symm fun r s : UInt32 × Value × Value => ¬ (w.Equal s.2.1 r.2.1 ∧ w.Equal r.2.1 s.2.1) :=
    ⟨fun _ _ h h' => h ⟨h'.2, h'.1⟩⟩
  by_contra hne
  exact hpairs.forall ha hb (fun h => hne (congrArg Prod.snd h)) ⟨hqp, hpq⟩

/-- If each item of a dict has one of equal key among as many others then these are all of them, each once. -/
theorem items_perm {a b : TableId .any} (ha : C (.dict a)) (hl : (w.table a).length = (w.table b).length)
    {other : Value × Value → Value × Value} (hm : ∀ item ∈ (w.table a).items, other item ∈ (w.table b).items)
    (hkey : ∀ item ∈ (w.table a).items, w.Equal item.1 (other item).1)
    (hback : ∀ item ∈ (w.table a).items, w.Equal (other item).1 item.1) :
    ((w.table a).items.map other).Perm (w.table b).items := by
  have hs := fun {kind : KeyKind} (t : TableId kind) => hC.tables t
  have hinj : ∀ p ∈ (w.table a).items, ∀ q ∈ (w.table a).items, other p = other q → p = q := by
    intro p hp q hq heq
    refine hC.item_unique ha hp hq ?_ ?_
    · exact (hkey p hp).trans hs (heq ▸ hback q hq)
    · exact (hkey q hq).trans hs (heq ▸ hback p hp)
  -- a key of the first dict equals itself, so no item occurs twice
  have hnodup : (w.table a).items.Nodup := by
    rw [Table.items_eq]
    refine List.pairwise_map.2 ((List.pairwise_map.1 (hC.distinct ha)).imp_of_mem fun {r s} hr _ hrs heq => ?_)
    have hr' : r.2 ∈ (w.table a).items := by
      rw [Table.items_eq]
      exact List.mem_map_of_mem hr
    have hself := (hkey r.2 hr').trans hs (hback r.2 hr')
    exact hrs (heq ▸ hself)
  have himage : ((w.table a).items.map other).Nodup := hnodup.map_on hinj
  have hsub : (w.table a).items.map other ⊆ (w.table b).items := by
    intro item hi
    obtain ⟨p, hp, rfl⟩ := List.mem_map.1 hi
    exact hm p hp
  refine (List.subperm_of_subset himage hsub).perm_of_length_le ?_
  rw [List.length_map, (hs a).length_items, (hs b).length_items, hl]

/-- **Equality is symmetric.** -/
theorem symm (h : w.Equal x y) : C x → C y → w.Equal y x := by
  have hs := fun {kind : KeyKind} (t : TableId kind) => hC.tables t
  induction h with
  | same hap hsame => exact fun _ _ => .same hap.symm (by rw [same_comm, hsame])
  | itself t => exact fun _ _ => .itself t
  | @dicts a b other hl hm hkey hvalue ihkey ihvalue =>
    intro ha hb
    have hback : ∀ item ∈ (w.table a).items, w.Equal (other item).1 item.1 ∧ w.Equal (other item).2 item.2 := by
      intro item hi
      obtain ⟨hk, hv⟩ := hC.item ha item hi
      obtain ⟨hk', hv'⟩ := hC.item hb _ (hm item hi)
      exact ⟨ihkey item hi hk hk', ihvalue item hi hv hv'⟩
    have hperm := hC.items_perm ha hl hm hkey fun item hi => (hback item hi).1
    have hitem : ∀ item, ∃ p : Value × Value, item ∈ (w.table b).items → p ∈ (w.table a).items ∧ other p = item := by
      intro item
      by_cases hi : item ∈ (w.table b).items
      · obtain ⟨p, hp, heq⟩ := List.mem_map.1 (hperm.mem_iff.2 hi)
        exact ⟨p, fun _ => ⟨hp, heq⟩⟩
      · exact ⟨item, fun hi' => absurd hi' hi⟩
    choose source hsource using hitem
    refine .dicts source hl.symm (fun item hi => (hsource item hi).1) (fun item hi => ?_) fun item hi => ?_
    · obtain ⟨hp, heq⟩ := hsource item hi
      have hk := (hback _ hp).1
      rwa [heq] at hk
    · obtain ⟨hp, heq⟩ := hsource item hi
      have hv := (hback _ hp).2
      rwa [heq] at hv
  | @structs a b hl _ hname _ ihctor ihfield =>
    intro ha hb
    refine .structs hl.symm (ihctor (hC.ctor ha) (hC.ctor hb)) (fun p hp => ?_) fun p hp => ?_
    · exact (hname _ (mem_zip_swap hp)).symm
    · have hp' := mem_zip_swap hp
      obtain ⟨hpa, hpb⟩ := List.of_mem_zip hp'
      exact ihfield _ hp' (hC.field ha _ hpa) (hC.field hb _ hpb)

/-- If each item of a dict has an equal one in another dict then looking for them there does not say no. -/
theorem not_itemsVerdict {a b : TableId .any} (ha : C (.dict a)) (hb : C (.dict b))
    {fully below : Value → Value → Option Bool} (hyes : ∀ {x y : Value}, fully x y = some true → w.Equal x y)
    (hno : ∀ {x y : Value}, C x → C y → fully x y = some false → ¬ w.Equal x y)
    (hunequal : ∀ {x y : Value}, C x → C y → below x y = some false → ¬ w.Equal x y)
    {other : Value × Value → Value × Value} (hm : ∀ item ∈ (w.table a).items, other item ∈ (w.table b).items)
    (hkey : ∀ item ∈ (w.table a).items, w.Equal item.1 (other item).1)
    (hvalue : ∀ item ∈ (w.table a).items, w.Equal item.2 (other item).2) :
    itemsVerdict below (findIn (w.table b) (w.hashOf (w.structs.size + 2)) fully) (w.table a).items ≠ some false := by
  have hs := fun {kind : KeyKind} (t : TableId kind) => hC.tables t
  intro h
  obtain ⟨item, hi, hdiffer⟩ := itemsVerdict_eq_false h
  obtain ⟨hk, hv⟩ := hC.item ha item hi
  obtain ⟨hk', _⟩ := hC.item hb _ (hm item hi)
  rcases hdiffer with hfind | ⟨y, hfind, hdifferent⟩
  · -- the equal key of the other dict is stored under the hash that was looked for
    obtain ⟨c, hc, hall⟩ := missed_of_findIn (hs b) hfind
    obtain ⟨r, hr⟩ := Table.record_of_item (hm item hi)
    obtain ⟨c', hc', hrc⟩ := hC.hashed hb _ (List.mem_map_of_mem hr)
    dsimp only at hc' hrc
    rw [← (hkey item hi).hashOf_eq hs, hc, Option.some.injEq] at hc'
    obtain ⟨i, hcand⟩ := (hs b).candidate_of_record hr
    rw [hrc, ← hc'] at hcand
    exact hno hk hk' (hall _ hcand) (hkey item hi)
  · -- the item that was found is the one of equal key
    obtain ⟨k, _, hkm, _, hfound, _⟩ := item_of_findIn (hs b) hfind
    have hk'' := (hC.item hb _ hkm).1
    have hitem := hyes hfound
    have hsame : (k, y) = other item := by
      refine hC.item_unique hb hkm (hm item hi) ?_ ?_
      · exact (hC.symm hitem hk hk'').trans hs (hkey item hi)
      · exact (hC.symm (hkey item hi) hk hk').trans hs hitem
    have hequal := hvalue item hi
    rw [← hsame] at hequal
    exact hunequal hv (hC.item hb _ hkm).2 hdifferent hequal

/-- **A comparison that says no has found the values different.** -/
theorem not_equal_of_verdict : ∀ {fuel : Nat} {depth : Int} {x y : Value}, C x → C y →
    w.verdict fuel depth x y = some false → ¬ w.Equal x y
  | 0, _, _, _, _, _, h => by cases h
  | fuel + 1, depth, x, y, hx, hy, h => by
    have hs := fun {kind : KeyKind} (t : TableId kind) => hC.tables t
    by_cases hd : depth < 1
    · rw [verdict_spent hd] at h
      cases h
    have ih : ∀ {depth : Int} {x y : Value}, C x → C y → w.verdict fuel depth x y = some false → ¬ w.Equal x y :=
      not_equal_of_verdict
    intro heq
    rcases pair_cases x y with ⟨a, b, rfl, rfl⟩ | ⟨a, b, rfl, rfl⟩ | ⟨a, b, rfl, rfl⟩ | hap
    · rw [verdict_dicts hd] at h
      cases heq with
      | same hap => exact hap
      | itself => rw [if_pos rfl] at h; cases h
      | dicts other hl hm hkey hvalue =>
        split at h
        · cases h
        rw [if_neg (by simp [hl])] at h
        exact hC.not_itemsVerdict hx hy (equal_of_verdict hs) ih ih hm hkey hvalue h
    · rw [verdict_structs hd] at h
      cases heq with
      | same hap => exact hap
      | structs hl hctor hname hfield =>
        rw [if_neg (by simp [hl])] at h
        obtain ⟨verdict, hv, h⟩ := Option.bind_eq_some_iff.1 h
        cases verdict with
        | false => exact ih (hC.ctor hx) (hC.ctor hy) hv hctor
        | true =>
          obtain ⟨p, hp, hdiffer⟩ := fieldsVerdict_eq_false (Equal.length_fields hs hl) h
          obtain ⟨hpa, hpb⟩ := List.of_mem_zip hp
          rcases hdiffer with hno | hno
          · exact hno (hname p hp)
          · exact ih (hC.field hx _ hpa) (hC.field hy _ hpb) hno (hfield p hp)
    · exact hC.plain hx
    · rw [verdict_apart hd hap, Option.some.injEq] at h
      cases heq with
      | same _ hsame => rw [hsame] at h; cases h
      | itself | dicts | structs => exact hap

/-- What a comparison says is whether the values are equal. -/
theorem verdict_iff {fuel : Nat} {depth : Int} {r : Bool} (hx : C x) (hy : C y)
    (h : w.verdict fuel depth x y = some r) : r = true ↔ w.Equal x y := by
  constructor
  · rintro rfl
    exact equal_of_verdict hC.tables h
  · intro heq
    cases r with
    | true => rfl
    | false => exact absurd heq (hC.not_equal_of_verdict hx hy h)

end Tidy

end World

end ValueCore
