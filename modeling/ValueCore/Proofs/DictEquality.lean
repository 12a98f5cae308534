import Mathlib.Data.List.Forall2
import ValueCore.Proofs.Equivalence

/-!
# Dicts are equal as finite maps

The comparison of two dicts walks over the items of the first and looks for their keys in the second. What it says is
whether the items can be matched one to one, equal key with equal key and equal value with equal value
(`World.Matched`, `dict_equality_matching`). It does not matter in which order the items are, and where they are stored:
dicts of the same items, made in whatever way, cannot be told apart in this (`verdict_of_items`).

The comparison that is meant here is that of two dicts. Compared as values, a dict equals itself at once, also if there is
something in it that is not a number; compared as dicts, what is in it has to be equal to itself.
-/

namespace ValueCore

open World

variable {ε : Type} {I : Inventory ε} {w : World ε} {C : Value → Prop} {a b a' b' : TableId .any}

/-! ## Verdicts on dicts -/

namespace World

/-- The verdict on two dicts with a budget of `depth`. -/
def dictsVerdict (w : World ε) (depth : Int) (a b : TableId .any) : Option Bool :=
  if (w.table a).length != (w.table b).length then some false
  else itemsVerdict (w.verdict (comparisonFuel w (depth - 1)) (depth - 1))
    (findIn (w.table b) (w.hashOf (w.structs.size + 2)) (w.verdict (comparisonFuel w fullBudget) fullBudget))
    (w.table a).items

/-- The verdict on two dicts is computed from the world. -/
theorem yields_dictsEqualWithin (hC : w.Region C) (ha : C (.dict a)) (hb : C (.dict b)) (host : Host ε) (depth : Int) :
    w.Yields (dictsEqualWithin host depth a b) (w.dictsVerdict depth a b) :=
  yields_dictsEqual hC ha hb (fun _ hk => yields_hashValue (hC.not_hosted hk))
    (fun _ _ hx hy => yields_equalInside hC fullBudget _ _ hx hy) fun _ _ hx hy => yields_equalInside hC (depth - 1) _ _ hx hy

/-- A comparison of the two dicts with a budget of `d` says `r`: with some host, in some world of the same tables and
structs. -/
def SaysOfDicts (w : World ε) (d : Int) (a b : TableId .any) (r : Bool) : Prop :=
  ∃ host v, SameStores w v ∧ (dictsEqualWithin host d a b v).1 = .ok r

theorem SaysOfDicts.verdict (hC : w.Region C) (ha : C (.dict a)) (hb : C (.dict b)) {d : Int} {r : Bool}
    (h : w.SaysOfDicts d a b r) : w.dictsVerdict d a b = some r := by
  obtain ⟨host, v, hv, hr⟩ := h
  rw [← (yields_dictsEqualWithin hC ha hb host d).answer v hv, hr]
  rfl

/-- What has been found out without a host is what any host is told. -/
theorem says_of_verdict (hC : w.Region C) {x y : Value} (hx : C x) (hy : C y) {d : Int} {r : Bool}
    (h : w.verdict (comparisonFuel w d) d x y = some r) : w.Says d x y r := by
  have hyields : w.Yields (equalWithin mute d x y) (some r) := h ▸ yields_equalInside hC d x y hx hy
  exact ⟨mute, w, .refl w, hyields.returns (.refl w)⟩

/-! ## Matching items -/

/-- The items of the two dicts can be matched one to one, so that comparisons find keys equal and, with a budget of `d`,
values. -/
def Matched (w : World ε) (d : Int) (a b : TableId .any) : Prop :=
  ∃ items, items.Perm (w.table b).items ∧
    List.Forall₂ (fun p q => w.Says fullBudget p.1 q.1 true ∧ w.Says d p.2 q.2 true) (w.table a).items items

/-- Each item of `a` has one of `b` that is equal to it. -/
def Covered (w : World ε) (a b : TableId .any) : Prop :=
  ∀ p ∈ (w.table a).items, ∃ q ∈ (w.table b).items, w.Equal p.1 q.1 ∧ w.Equal p.2 q.2

/-- An item of the first list has one of the second in its place. -/
theorem exists_of_forall₂ {α β : Type} {R : α → β → Prop} {xs : List α} {ys : List β} (h : List.Forall₂ R xs ys) :
    ∀ x ∈ xs, ∃ y ∈ ys, R x y := by
  induction h with
  | nil => exact fun _ hm => absurd hm List.not_mem_nil
  | cons hxy _ ih =>
    intro x hm
    rcases List.mem_cons.1 hm with rfl | hm
    · exact ⟨_, List.mem_cons_self, hxy⟩
    · obtain ⟨y, hy, hR⟩ := ih x hm
      exact ⟨y, List.mem_cons_of_mem _ hy, hR⟩

section
variable (hC : w.Tidy C) (ha : C (.dict a)) (hb : C (.dict b))
include hC ha hb

/-- Items that are matched are equal. -/
theorem Matched.covered {d : Int} (h : w.Matched d a b) : w.Covered a b := by
  obtain ⟨items, hperm, hall⟩ := h
  intro p hp
  obtain ⟨q, hq, hkey, hvalue⟩ := exists_of_forall₂ hall p hp
  have hq' := hperm.mem_iff.1 hq
  obtain ⟨hpk, hpv⟩ := hC.item ha p hp
  obtain ⟨hqk, hqv⟩ := hC.item hb q hq'
  exact ⟨q, hq', (hC.says_iff hpk hqk hkey).1 rfl, (hC.says_iff hpv hqv hvalue).1 rfl⟩

/-- **A comparison that says yes has matched the items.** The items that were found in the second dict are different ones,
as the keys of the first are, and they are as many as there are. -/
theorem matched_of_verdict {d : Int} (h : w.dictsVerdict d a b = some true) :
    (w.table a).length = (w.table b).length ∧ w.Matched (d - 1) a b := by
  have hs := fun {kind : KeyKind} (t : TableId kind) => hC.tables t
  unfold dictsVerdict at h
  split at h
  · cases h
  rename_i hl
  have hl' : (w.table a).length = (w.table b).length := by simpa using hl
  have hitem : ∀ p ∈ (w.table a).items, ∃ q : Value × Value, q ∈ (w.table b).items ∧
      w.verdict (comparisonFuel w fullBudget) fullBudget p.1 q.1 = some true ∧
        w.verdict (comparisonFuel w (d - 1)) (d - 1) p.2 q.2 = some true := by
    intro p hp
    obtain ⟨y, hfind, hy⟩ := itemsVerdict_eq_true h p hp
    obtain ⟨k, _, hk, _, hkey, _⟩ := item_of_findIn (hs b) hfind
    exact ⟨(k, y), hk, hkey, hy⟩
  choose! other hother using hitem
  have hkey : ∀ p ∈ (w.table a).items, w.Equal p.1 (other p).1 := fun p hp => equal_of_verdict hs (hother p hp).2.1
  refine ⟨hl', (w.table a).items.map other, ?_, ?_⟩
  · refine hC.items_perm ha hl' (fun p hp => (hother p hp).1) hkey fun p hp => ?_
    exact hC.symm (hkey p hp) (hC.item ha p hp).1 (hC.item hb _ (hother p hp).1).1
  · rw [List.forall₂_map_right_iff, List.forall₂_same]
    intro p hp
    obtain ⟨hq, hk, hv⟩ := hother p hp
    obtain ⟨hpk, hpv⟩ := hC.item ha p hp
    obtain ⟨hqk, hqv⟩ := hC.item hb _ hq
    exact ⟨says_of_verdict hC.toRegion hpk hqk hk, says_of_verdict hC.toRegion hpv hqv hv⟩

/-- **A comparison of two dicts says whether they have as many items and each of the first has an equal one.** -/
theorem SaysOfDicts.iff_covered {d : Int} {r : Bool} (h : w.SaysOfDicts d a b r) :
    r = true ↔ (w.table a).length = (w.table b).length ∧ w.Covered a b := by
  have hverdict := h.verdict hC.toRegion ha hb
  constructor
  · rintro rfl
    obtain ⟨hl, hmatched⟩ := matched_of_verdict hC ha hb hverdict
    exact ⟨hl, hmatched.covered hC ha hb⟩
  · rintro ⟨hl, hcovered⟩
    cases r with
    | true => rfl
    | false =>
      choose! other hother using hcovered
      unfold dictsVerdict at hverdict
      rw [if_neg (by simp [hl])] at hverdict
      exact absurd hverdict (hC.not_itemsVerdict ha hb (equal_of_verdict hC.tables) hC.not_equal_of_verdict
        hC.not_equal_of_verdict (fun p hp => (hother p hp).1) (fun p hp => (hother p hp).2.1) fun p hp => (hother p hp).2.2)

end

/-! ## The same items -/

/-- What is in a dict decides whether it may be compared. -/
theorem Comparable.of_items (h : w.Comparable (.dict a)) (hi : (w.table a').items.Perm (w.table a).items) :
    w.Comparable (.dict a') := by
  have hpart : ∀ {x : Value}, w.Part (.dict a') x → w.Part (.dict a) x := by
    intro x hx
    cases hx with
    | key hm => exact .key (hi.mem_iff.1 hm)
    | value hm => exact .value (hi.mem_iff.1 hm)
  refine ⟨fun y hy => ?_, fun s hs t ht => ?_⟩
  · rcases hy.cases_head with rfl | ⟨x, hx, hy⟩
    · exact trivial
    · exact h.hostFree y (.head (hpart hx) hy)
  · rcases hs.cases_head with heq | ⟨x, hx, hs⟩
    · cases heq
    · exact h.ctors s (.head (hpart hx) hs) t ht

/-- **The verdict depends on nothing but the items.** -/
theorem verdict_of_items (hC : w.Tidy C) (ha : C (.dict a)) (hb : C (.dict b)) (ha' : C (.dict a')) (hb' : C (.dict b'))
    (hi : (w.table a').items.Perm (w.table a).items) (hi' : (w.table b').items.Perm (w.table b).items) {d d' : Int}
    {r r' : Bool} (h : w.SaysOfDicts d a b r) (h' : w.SaysOfDicts d' a' b' r') : r = r' := by
  have hlength : ∀ {t u : TableId .any}, (w.table t).items.Perm (w.table u).items →
      (w.table t).length = (w.table u).length := by
    intro t u hp
    rw [← (hC.tables t).length_items, ← (hC.tables u).length_items, hp.length_eq]
  have hcovered : w.Covered a' b' ↔ w.Covered a b := by
    unfold Covered
    simp only [hi.mem_iff, hi'.mem_iff]
  rw [Bool.eq_iff_iff, h.iff_covered hC ha hb, h'.iff_covered hC ha' hb', hcovered, hlength hi, hlength hi']

end World

/-! ## Dicts as finite maps -/

/-- **Dict equality is equality of finite maps.** If a comparison of two dicts returns a verdict then this is whether they
are of the same length and their items can be matched one to one, keys that are equal with each other and values that are
equal with one unit less. So it is the same verdict for dicts that have the same items, in whatever order and however they
came about, and with whatever budget there is one. -/
theorem dict_equality_matching (hr : Reachable I w) (ha : w.Comparable (.dict a)) (hb : w.Comparable (.dict b)) :
    (∀ d r, w.SaysOfDicts d a b r →
      (r = true ↔ (w.table a).length = (w.table b).length ∧ w.Matched (d - 1) a b)) ∧
    ∀ a' b', (w.table a').items.Perm (w.table a).items → (w.table b').items.Perm (w.table b).items →
      ∀ d d' r r', w.SaysOfDicts d a b r → w.SaysOfDicts d' a' b' r' → r = r' := by
  have htidy : w.Tidy w.Comparable := hr.orderly.tidy fun t => hr.sound.tables t
  refine ⟨fun d r h => ⟨?_, fun ⟨hl, hm⟩ => ?_⟩, fun a' b' hi hi' d d' r r' h h' => ?_⟩
  · rintro rfl
    exact matched_of_verdict htidy ha hb (h.verdict htidy.toRegion ha hb)
  · exact (h.iff_covered htidy ha hb).2 ⟨hl, hm.covered htidy ha hb⟩
  · exact verdict_of_items htidy ha hb (ha.of_items hi) (hb.of_items hi') hi hi' h h'

/-! ## Dicts made in other ways -/

/-- Of the first three dicts the second has the items of the first in the other order, in a table of another size from which
a key was erased; the third has equal ones. In the last one is a key that equals nothing. -/
def rearrange : List Operation :=
  [.createStruct (.str (ascii "point")) [(ascii "x", .int 1)],
    .createStruct (.str (ascii "point")) [(ascii "x", .float ⟨0x3FF0000000000000⟩)],
    .newDict 0, .newDict 100, .newDict 0, .newDict 0,
    @Operation.insert .any ⟨3⟩ (.float ⟨0x7FF8000000000000⟩) (.int 1),
    @Operation.insert .any ⟨0⟩ (.struct ⟨0⟩) (.str (ascii "one")), @Operation.insert .any ⟨0⟩ (.int 2) (.dict ⟨3⟩),
    @Operation.insert .any ⟨1⟩ (.int 7) .none, @Operation.insert .any ⟨1⟩ (.int 2) (.dict ⟨3⟩),
    @Operation.erase .any ⟨1⟩ (.int 7), @Operation.insert .any ⟨1⟩ (.struct ⟨0⟩) (.str (ascii "one")),
    @Operation.insert .any ⟨2⟩ (.float ⟨0x4000000000000000⟩) (.dict ⟨3⟩),
    @Operation.insert .any ⟨2⟩ (.struct ⟨1⟩) (.str (ascii "one"))]

def rearranged : World Unit := inTurn rearrange (.unused ())

/-- The first dict and the third are equal, so their items match, and no comparison of the second and the third says
anything else. The last dict is not found equal to itself, so its item does not match itself. -/
theorem dict_equality_matching_rearranged :
    (dictsEqualWithin mute 3 ⟨0⟩ ⟨2⟩ rearranged).1 = .ok true ∧
    rearranged.Matched 2 ⟨0⟩ ⟨2⟩ ∧
    (∀ d r, rearranged.SaysOfDicts d ⟨1⟩ ⟨2⟩ r → r = true) ∧
    (dictsEqualWithin mute 3 ⟨3⟩ ⟨3⟩ rearranged).1 = .ok false ∧
    ¬ rearranged.Matched 2 ⟨3⟩ ⟨3⟩ := by
  obtain ⟨hr, hplain⟩ : Reachable .nothing rearranged ∧ rearranged.Plain := reachable_inTurn (by decide +kernel)
  have hdict : ∀ t, rearranged.Comparable (.dict t) := fun t => comparable_of_scalars hplain (by decide +kernel) trivial
  have hyes : (dictsEqualWithin mute 3 ⟨0⟩ ⟨2⟩ rearranged).1 = .ok true := by decide +kernel
  have hno : (dictsEqualWithin mute 3 ⟨3⟩ ⟨3⟩ rearranged).1 = .ok false := by decide +kernel
  have hsame : (@World.table _ rearranged .any ⟨1⟩).items.Perm (@World.table _ rearranged .any ⟨0⟩).items := by
    decide +kernel
  obtain ⟨hmatch, hitems⟩ := dict_equality_matching hr (hdict ⟨0⟩) (hdict ⟨2⟩)
  obtain ⟨hmatch', _⟩ := dict_equality_matching hr (hdict ⟨3⟩) (hdict ⟨3⟩)
  refine ⟨hyes, ((hmatch 3 true ⟨mute, _, .refl _, hyes⟩).1 rfl).2, fun d r h => ?_, hno, fun hm => ?_⟩
  · exact (hitems ⟨1⟩ ⟨2⟩ hsame (.refl _) 3 d true r ⟨mute, _, .refl _, hyes⟩ h).symm
  · exact absurd ((hmatch' 3 false ⟨mute, _, .refl _, hno⟩).2 ⟨rfl, hm⟩) (by decide)

end ValueCore
