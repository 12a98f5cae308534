import ValueCore.Proofs.Distinctness
import ValueCore.Proofs.Orderliness
import ValueCore.Proofs.World.Parts

/-!
# Equality is a partial equivalence

What comparisons say depends on how they go: which of two dicts is walked over, which budget there is, whose turn it is
when. It is consistent all the same. In a world that a program may come to, among values without any of the host's and
without dicts in the constructors of their structs (`World.Comparable`), whatever comparisons say is whether the values
are equal. Hence two verdicts on the same two values agree, whichever of them comes first, and equality is transitive
(`equality_partial_equivalence`).

It is partial in that a comparison may fail, when it exceeds its budget, and in that what is not a number equals
nothing. A dict with such a value in it equals itself nevertheless, since it is not looked into then.

The keys of dicts are what has to be shown to be in order here. A world that is in order (`World.Orderly`) has each key
under its hash and all of them different, except for keys that dicts may be reached from. As a key has a hash, that
could only be through a constructor.
-/

namespace ValueCore

open World

variable {ε : Type} {I : Inventory ε} {w : World ε} {x y z : Value}

/-! ## Values that may be compared -/

/-- None of the host's values is reached, and no dict from a constructor. -/
structure World.Comparable (w : World ε) (x : Value) : Prop where
  hostFree : w.HostFree x
  ctors : ∀ s, w.Reaches x (.struct s) → ∀ t, ¬ w.Reaches (w.struct s).ctor (.dict t)

theorem World.Comparable.part (h : w.Comparable x) (hp : w.Part x y) : w.Comparable y :=
  ⟨h.hostFree.part hp, fun s hs => h.ctors s (.head hp hs)⟩

/-- From a value whose comparison may come to a dict or to a value of the host one of these is reached. -/
theorem World.Fluid.reaches (h : w.Fluid x) : (∃ t, w.Reaches x (.dict t)) ∨ ∃ i, w.Reaches x (.host i) := by
  have hpart : ∀ {x y : Value}, w.Part x y → (∃ t, w.Reaches y (.dict t)) ∨ (∃ i, w.Reaches y (.host i)) →
      (∃ t, w.Reaches x (.dict t)) ∨ ∃ i, w.Reaches x (.host i) := by
    rintro x y hp (⟨t, ht⟩ | ⟨i, hi⟩)
    · exact .inl ⟨t, .head hp ht⟩
    · exact .inr ⟨i, .head hp hi⟩
  induction h with
  | dict t => exact .inl ⟨t, .refl⟩
  | host i => exact .inr ⟨i, .refl⟩
  | ctor _ ih => exact hpart (.ctor _) ih
  | field hm _ ih => exact hpart (.field hm) ih

/-- Comparing such a value comes to no dict if it has a hash. -/
theorem World.Comparable.not_fluid (hx : w.Comparable x) {n : Nat} {a : UInt32} (ha : w.hashOf n x = some a) :
    ¬ w.Fluid x := by
  intro h
  induction h generalizing n a with
  | dict t => cases n <;> cases ha
  | host i => exact hx.hostFree _ .refl
  | @ctor s h _ =>
    rcases h.reaches with ⟨t, ht⟩ | ⟨i, hi⟩
    · exact hx.ctors s .refl t ht
    · exact hx.hostFree _ (.head (.ctor s) hi)
  | field hm _ ih =>
    cases n with
    | zero => cases ha
    | succ n =>
      rw [hashOf_struct] at ha
      obtain ⟨b, hb⟩ := hash_of_field ha _ hm
      exact ih (hx.part (.field hm)) hb

theorem region_comparable (h : ∀ {kind : KeyKind} (t : TableId kind), (w.table t).Sound) : w.Region w.Comparable :=
  ⟨h, fun hx => hx.hostFree _ .refl, fun hx _ hm => ⟨hx.part (.key hm), hx.part (.value hm)⟩,
    fun hx => hx.part (.ctor _), fun hx _ hm => hx.part (.field hm)⟩

/-- **Where keys are in order, they have hashes and differ.** -/
theorem World.Orderly.tidy (ho : w.Orderly) (h : ∀ {kind : KeyKind} (t : TableId kind), (w.table t).Sound) :
    w.Tidy w.Comparable := by
  have hregion := region_comparable h
  have hkey : ∀ {t : TableId .any}, w.Comparable (.dict t) → ∀ r ∈ (w.table t).storedKeys, w.Comparable r.2 := by
    intro t ht r hr
    obtain ⟨item, hm, heq⟩ := Table.item_of_stored hr
    exact heq ▸ (hregion.item ht item hm).1
  have hhashed : ∀ {t : TableId .any}, w.Comparable (.dict t) → ∀ r ∈ (w.table t).storedKeys,
      ∃ a, w.hashOf (w.structs.size + 2) r.2 = some a ∧ r.1 = storedHash a := by
    intro t ht r hr
    rcases (ho.arranged t).filed r hr with hhosted | hash
    · exact absurd hhosted (hregion.not_hosted (hkey ht r hr))
    · exact hash
  refine ⟨hregion, hhashed, fun {t} ht => (ho.arranged t).unlike.imp_of_mem fun {r s} hr hs hrs => ?_⟩
  have hsolid : ∀ r ∈ (w.table t).storedKeys, ¬ w.Fluid r.2 := by
    intro r hr
    obtain ⟨a, ha, _⟩ := hhashed ht r hr
    exact (hkey ht r hr).not_fluid ha
  rcases hrs with hfluid | hfluid | hne
  · exact absurd hfluid (hsolid s hs)
  · exact absurd hfluid (hsolid r hr)
  · exact hne

/-! ## Verdicts -/

/-- A comparison of the two values with a budget of `d` says `r`: with some host, in some world of the same tables and
structs. A world in the middle of an operation has those of one that the program comes to if the operation fails there. -/
def World.Says (w : World ε) (d : Int) (x y : Value) (r : Bool) : Prop :=
  ∃ host v, SameStores w v ∧ (equalWithin host d x y v).1 = .ok r

theorem World.Says.verdict {C : Value → Prop} (hC : w.Region C) (hx : C x) (hy : C y) {d : Int} {r : Bool}
    (h : w.Says d x y r) : w.verdict (comparisonFuel w d) d x y = some r := by
  obtain ⟨host, v, hv, hr⟩ := h
  rw [← (yields_equalInside hC d x y hx hy).answer v hv, hr]
  rfl

/-- What comparisons say is whether the values are equal. -/
theorem World.Tidy.says_iff {C : Value → Prop} (hC : w.Tidy C) (hx : C x) (hy : C y) {d : Int} {r : Bool}
    (h : w.Says d x y r) : r = true ↔ w.Equal x y := hC.verdict_iff hx hy (h.verdict hC.toRegion hx hy)

/-- **Equality is a partial equivalence.** With whatever budgets, two verdicts on the same two values agree, whichever
of the values comes first. If the first of three values is equal to the second, and that to the third, then no
comparison of the first and the third says no. -/
theorem equality_partial_equivalence (hr : Reachable I w) (hx : w.Comparable x) (hy : w.Comparable y)
    (hz : w.Comparable z) :
    (∀ d d' a b, w.Says d x y a → w.Says d' y x b → a = b) ∧
    (∀ d₁ d₂ d₃ r, w.Says d₁ x y true → w.Says d₂ y z true → w.Says d₃ x z r → r = true) := by
  have htables := fun {kind : KeyKind} (t : TableId kind) => hr.sound.tables t
  have htidy : w.Tidy w.Comparable := hr.orderly.tidy htables
  refine ⟨fun d d' a b hxy hyx => ?_, fun d₁ d₂ d₃ r hxy hyz hxz => ?_⟩
  · have hiff : w.Equal x y ↔ w.Equal y x := ⟨fun h => htidy.symm h hx hy, fun h => htidy.symm h hy hx⟩
    rw [Bool.eq_iff_iff, htidy.says_iff hx hy hxy, hiff, htidy.says_iff hy hx hyx]
  · have hequal : w.Equal x y := (htidy.says_iff hx hy hxy).1 rfl
    have hequal' : w.Equal y z := (htidy.says_iff hy hz hyz).1 rfl
    exact (htidy.says_iff hx hz hxz).2 (hequal.trans htables hequal')

/-! ## Dicts that contain themselves -/

/-- Where all constructors are scalars, no dict is reached from them. -/
theorem comparable_of_scalars (hw : w.Plain) (hc : ∀ object ∈ w.structs.toList, object.ctor.Scalar) (hx : x.Plain) :
    w.Comparable x := by
  refine ⟨hw.hostFree hx, fun s _ t ht => ?_⟩
  have hscalar : (w.struct s).ctor.Scalar := by
    by_cases hs : s.index < w.structs.size
    · refine hc _ ?_
      simp only [World.struct, Array.getD_eq_getD_getElem?, Array.getElem?_eq_getElem hs, Option.getD_some]
      exact Array.getElem_mem_toList hs
    · simp only [World.struct, Array.getD_eq_getD_getElem?, Array.getElem?_eq_none (Nat.le_of_not_lt hs)]
      exact trivial
  rcases ht.cases_head with heq | ⟨y, hp, _⟩
  · rw [heq] at hscalar
    exact hscalar
  · generalize (w.struct s).ctor = ctor at hp hscalar
    cases hp <;> exact hscalar

/-- Three dicts with items of equal keys, but different ones, each with the first of the dicts in it; and two dicts with
something in them that is not a number. -/
def looped : List Operation :=
  [.createStruct (.str (ascii "point")) [(ascii "x", .int 1)],
    .createStruct (.str (ascii "point")) [(ascii "x", .float ⟨0x3FF0000000000000⟩)],
    .newDict 0, .newDict 0, .newDict 0, .newDict 0, .newDict 0,
    @Operation.insert .any ⟨0⟩ (.struct ⟨0⟩) (.dict ⟨0⟩), @Operation.insert .any ⟨0⟩ (.int 2) (.dict ⟨3⟩),
    @Operation.insert .any ⟨1⟩ (.int 2) (.dict ⟨3⟩), @Operation.insert .any ⟨1⟩ (.struct ⟨1⟩) (.dict ⟨0⟩),
    @Operation.insert .any ⟨2⟩ (.struct ⟨0⟩) (.dict ⟨0⟩),
    @Operation.insert .any ⟨2⟩ (.float ⟨0x4000000000000000⟩) (.dict ⟨3⟩),
    @Operation.insert .any ⟨3⟩ (.int 1) (.float ⟨0x7FF8000000000000⟩),
    @Operation.insert .any ⟨4⟩ (.int 1) (.float ⟨0x7FF8000000000000⟩)]

def loopedWorld : World Unit := inTurn looped (.unused ())

theorem reachable_loopedWorld : Reachable .nothing loopedWorld ∧ loopedWorld.Plain := reachable_inTurn (by decide +kernel)

/-- The first two of the dicts and the last two are equal, so no comparison says anything else of them or of the first
and the third. The two that are not numbers differ, and so do the dicts with them, from wherever one looks. -/
theorem equality_partial_equivalence_looped :
    (equalWithin mute 2 (.dict ⟨0⟩) (.dict ⟨1⟩) loopedWorld).1 = .ok true ∧
    (equalWithin mute 2 (.dict ⟨1⟩) (.dict ⟨2⟩) loopedWorld).1 = .ok true ∧
    (equalWithin mute 2 (.dict ⟨3⟩) (.dict ⟨4⟩) loopedWorld).1 = .ok false ∧
    (∀ d r, loopedWorld.Says d (.dict ⟨1⟩) (.dict ⟨0⟩) r → r = true) ∧
    (∀ d r, loopedWorld.Says d (.dict ⟨0⟩) (.dict ⟨2⟩) r → r = true) ∧
    (∀ d r, loopedWorld.Says d (.dict ⟨4⟩) (.dict ⟨3⟩) r → r = false) := by
  obtain ⟨hr, hplain⟩ := reachable_loopedWorld
  have hdict : ∀ t, loopedWorld.Comparable (.dict t) := fun t =>
    comparable_of_scalars hplain (by decide +kernel) trivial
  have hfirst : (equalWithin mute 2 (.dict ⟨0⟩) (.dict ⟨1⟩) loopedWorld).1 = .ok true := by decide +kernel
  have hlast : (equalWithin mute 2 (.dict ⟨1⟩) (.dict ⟨2⟩) loopedWorld).1 = .ok true := by decide +kernel
  have hnumbers : (equalWithin mute 2 (.dict ⟨3⟩) (.dict ⟨4⟩) loopedWorld).1 = .ok false := by decide +kernel
  have hanswer : ∀ {x y : Value} {r : Bool}, (equalWithin mute 2 x y loopedWorld).1 = .ok r → loopedWorld.Says 2 x y r :=
    fun h => ⟨mute, _, .refl _, h⟩
  obtain ⟨hcomm, htrans⟩ := equality_partial_equivalence hr (hdict ⟨0⟩) (hdict ⟨1⟩) (hdict ⟨2⟩)
  obtain ⟨hcomm', _⟩ := equality_partial_equivalence hr (hdict ⟨3⟩) (hdict ⟨4⟩) (hdict ⟨4⟩)
  refine ⟨hfirst, hlast, hnumbers, fun d r h => ?_, fun d r h => ?_, fun d r h => ?_⟩
  · exact (hcomm 2 d true r (hanswer hfirst) h).symm
  · exact htrans 2 2 d r (hanswer hfirst) (hanswer hlast) h
  · exact (hcomm' 2 d false r (hanswer hnumbers) h).symm

end ValueCore
