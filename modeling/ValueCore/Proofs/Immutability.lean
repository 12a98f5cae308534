import ValueCore.Proofs.Distinctness
import ValueCore.Proofs.Freezing
import ValueCore.Proofs.Operations.Outcomes
import ValueCore.Proofs.Verdict.Persistence

/-!
# Frozen values read the same

The text of a frozen value stays what it is, whatever is done from then on, and so does what a comparison with another
frozen value comes to (`frozen_values_read_alike`).

Writing and comparing look at the constructors of structs, which freezing leaves alone. A dict that a constructor leads
to must therefore be frozen for itself (`ConstructorsFrozen`); if it is not, then what is read of a frozen struct may
change (`constructors_stay_open`).

| an edge | is followed by freezing | is followed by writing and comparing |
| --- | --- | --- |
| from a dict to its keys and values | yes | yes |
| from a struct to its fields | yes | yes |
| from a struct to its constructor | no | yes |
-/

namespace ValueCore

open World
open Relation (ReflTransGen)

variable {ε : Type} {I : Inventory ε} {F : HostId → Prop} {w w' : World ε} {host : Host ε} {x y : Value}

namespace World

/-! ## Frozen to its constructors -/

/-- The dicts are frozen that constructors of structs in the value lead to. -/
def ConstructorsFrozen (w : World ε) (x : Value) : Prop :=
  ∀ (s : StructId) (t : TableId .any), w.Reaches x (.struct s) → w.Reaches (w.struct s).ctor (.dict t) →
    (w.table t).frozen = true

/-- The value is frozen, as are the dicts that its constructors lead to, and none of the host's values is in it. -/
structure FrozenThrough (w : World ε) (x : Value) : Prop where
  owns : w.Owns x
  frozen : w.Frozen x
  free : w.HostFree x
  ctors : w.ConstructorsFrozen x

theorem HostFree.not_spoiled (hx : w.HostFree x) : ¬ w.Spoiled F x := by
  intro hs
  induction hs with
  | host _ => exact hx _ .refl
  | @dict t _ _ hc _ ih =>
    obtain ⟨item, hm, rfl | rfl⟩ := hc
    · exact ih (hx.part (.key hm))
    · exact ih (hx.part (.value hm))
  | @struct s _ _ hc _ ih =>
    obtain ⟨item, hm, rfl⟩ := hc
    exact ih (hx.part (.field hm))

/-- Every dict in the value is frozen: the search has come to it, unless a constructor leads to it. -/
theorem FrozenThrough.still (hx : w.FrozenThrough x) (hc : w.Closed F fun _ => False) : w.Still x := by
  refine ⟨hx.owns, hx.free, fun t ht => ?_⟩
  have hreach : ∀ {z : Value}, w.Reaches x z → w.HostFree z ∧
      (w.Frozen z ∨ ∃ s, w.Reaches x (.struct s) ∧ w.Reaches (w.struct s).ctor z) := by
    intro z hz
    induction hz with
    | refl => exact ⟨hx.free, .inl hx.frozen⟩
    | tail hz hp ih =>
      obtain ⟨hfree, hf | ⟨s, hs, hctor⟩⟩ := ih
      · refine ⟨hfree.part hp, ?_⟩
        cases hp with
        | key hm => exact .inl (hc.inside hf hfree.not_spoiled (.key hm)).1
        | value hm => exact .inl (hc.inside hf hfree.not_spoiled (.value hm)).1
        | ctor s => exact .inr ⟨s, hz, .refl⟩
        | field hm => exact .inl (hc.inside hf hfree.not_spoiled (.field hm)).1
      · exact ⟨hfree.part hp, .inr ⟨s, hs, hctor.tail hp⟩⟩
  rcases (hreach ht).2 with hf | ⟨s, hs, hctor⟩
  · exact hf
  · exact hx.ctors s t hs hctor

theorem Still.frozenThrough (hx : w.Still x) (hf : w.Frozen x) : w.FrozenThrough x :=
  ⟨hx.owns, hf, hx.free, fun s t hs ht => hx.dicts t ((hs.tail (.ctor s)).trans ht)⟩

end World

/-! ## Readers -/

/-- If a comparison ends in `w` then it comes to the same in `w'`: to the same verdict, or if memory is granted to the same
error with the same message. -/
structure World.ComparesAlike (w w' : World ε) (x y : Value) : Prop where
  verdict : ∀ (host host' : Host ε) (depth : Int) (verdict : Bool), (equalWithin host depth x y w).1 = .ok verdict →
    (equalWithin host' depth x y w').1 = .ok verdict
  error : ∀ (host host' : Host ε) (depth : Int) (status : Status), w.memory.Granting → w'.memory.Granting →
    (equalWithin host depth x y w).1 = .error (.raised status) →
      (equalWithin host' depth x y w').1 = .error (.raised status) ∧
        (equalWithin host' depth x y w').2.message = (equalWithin host depth x y w).2.message

section
variable (h : w.Sound I) (h' : w'.Sound I) (hl : w.Lasts w')
include h h' hl

/-- A still value is written as it would have been before. -/
theorem display_lasts (hx : w.Still x) (hg : w'.memory.Granting) : (display host x w').1 = .ok (w.shown x) := by
  have hanswers : w'.Answers (display host x) (.ok (w'.shown x)) :=
    answers_display (region_still h') (fun _ hz => hz.owns) (hx.lasts h hl)
  rw [shown_lasts h hl hx] at hanswers
  exact (hanswers.returns (.refl w')).resolve_right fun ⟨hno, _⟩ => hno hg

/-- What the comparison of still values would have come to before. -/
theorem comparison_persists (hx : w.Still x) (hy : w.Still y) (depth : Int) :
    Persists (w.judged (comparisonFuel w depth) depth x y) (w'.judged (comparisonFuel w' depth) depth x y) := by
  have hsize := hl.within.size_le
  exact judged_persists h hl h' _ _ depth x y hx hy (by unfold comparisonFuel; omega)

/-- The verdict on still values stays, also if memory is refused: none is needed. -/
theorem verdict_lasts (hx : w.Still x) (hy : w.Still y) (host host' : Host ε) (depth : Int) (verdict : Bool)
    (hr : (equalWithin host depth x y w).1 = .ok verdict) : (equalWithin host' depth x y w').1 = .ok verdict := by
  have hC := region_still h
  have hC' := region_still h'
  have hx' := hx.lasts h hl
  have hy' := hy.lasts h hl
  have hnow := (yields_equalWithin hC hx (fun _ => hy) depth).value hr
  have hthen : w'.Yields (equalWithin host' depth x y) (w'.verdict (comparisonFuel w' depth) depth x y) :=
    yields_equalWithin hC' hx' (fun _ => hy') depth
  have hpersists := comparison_persists h h' hl hx hy depth
  rw [← judged_toOption hC (fun _ hz => hz.owns) host hx hy] at hnow
  rw [← judged_toOption hC' (fun _ hz => hz.owns) host' hx' hy'] at hthen
  generalize w.judged (comparisonFuel w depth) depth x y = o at hnow hpersists
  cases o with
  | error e => cases hnow
  | ok b =>
    cases hnow
    rw [hpersists nofun] at hthen
    exact hthen.returns (.refl w')

/-- The error stays, with what is quoted in its message. -/
theorem error_lasts (hx : w.Still x) (hy : w.Still y) (host host' : Host ε) (depth : Int) (status : Status)
    (hg : w.memory.Granting) (hg' : w'.memory.Granting)
    (hr : (equalWithin host depth x y w).1 = .error (.raised status)) :
    (equalWithin host' depth x y w').1 = .error (.raised status) ∧
      (equalWithin host' depth x y w').2.message = (equalWithin host depth x y w).2.message := by
  have hanswers : w.Answers (equalWithin host depth x y) (w.judged (comparisonFuel w depth) depth x y) :=
    answers_equalWithin (region_still h) (fun _ hz => hz.owns) hx hy depth
  have hanswers' : w'.Answers (equalWithin host' depth x y) (w'.judged (comparisonFuel w' depth) depth x y) :=
    answers_equalWithin (region_still h') (fun _ hz => hz.owns) (hx.lasts h hl) (hy.lasts h hl) depth
  have hnow := (hanswers.outcome w (.refl w)).resolve_right fun ⟨hno, _⟩ => hno hg
  have hthen := (hanswers'.outcome w' (.refl w')).resolve_right fun ⟨hno, _⟩ => hno hg'
  have hpersists := comparison_persists h h' hl hx hy depth
  generalize w.judged (comparisonFuel w depth) depth x y = o at hnow hpersists
  generalize equalWithin host depth x y w = out at hnow hr ⊢
  cases hnow with
  | returned => cases hr
  | exhausted => cases hr
  | raised f hm =>
    cases hr
    rw [hpersists nofun] at hthen
    generalize equalWithin host' depth x y w' = out at hthen ⊢
    cases hthen with
    | raised _ hm' => exact ⟨rfl, hm'.trans hm.symm⟩

theorem comparesAlike_of_still (hx : w.Still x) (hy : w.Still y) : w.ComparesAlike w' x y :=
  ⟨verdict_lasts h h' hl hx hy, error_lasts h h' hl hx hy⟩

end

/-! ## Ever after -/

/-- Freezing comes to an end, whatever is being frozen. -/
def Host.Ends (I : Inventory ε) (host : Host ε) : Prop :=
  ∀ (x : Value) (w : World ε), w.Sound I → w.Owns x → (ValueCore.freeze host x w).1 ≠ .error .exhausted

/-- The host may fail to freeze any of its values, but nothing else is left to be closed. -/
theorem CivilWith.ends (hc : CivilWith I (Host.Ends I) host) : host.Closes I (fun _ => True) ∧ host.Respects I :=
  ⟨hc.closes fun _ he => ⟨fun x w h hx hcut => he x w h hx hcut.1, fun _ _ _ hn => absurd trivial hn⟩,
    hc.civil.respects⟩

/-- Freezing a value without any of the host's in it does not fail. -/
theorem freeze_frozenThrough (hh : host.Closes I fun _ => True) (h : w.Sound I) (hx : w.Owns x) (hfree : w.HostFree x) :
    (freeze host x w).1 = .ok () ∧
      ((freeze host x w).2.ConstructorsFrozen x → (freeze host x w).2.FrozenThrough x) := by
  have hsame : SameStores w (freeze host x w).2 := same_freeze (region_hostFree h.tables) hfree
  have hfree' := hfree.same hsame
  obtain ⟨he, ho⟩ := freeze_stiffens hh ((freeze host x w).2.containers + 1) h hx
  obtain ⟨_, ⟨hok, hf⟩ | ⟨z, rfl, hs⟩⟩ := ho.resolve_left not_cutShort
  · exact ⟨hok, fun hctors => ⟨he.within.owns hx, hf x rfl, hfree', hctors⟩⟩
  · exact (hfree'.not_spoiled hs).elim

/-- **A frozen value reads the same ever after.** Let hosts do what they like, as long as freezing comes to an end. It does
not fail for a value with none of the host's in it, and then that value is frozen through if the dicts are frozen that its
constructors lead to. If a value is frozen through then it stays so, and has one text that is written of it from then on
whenever memory is granted. If two values are frozen through then a comparison of them that ends comes to the same from
then on. -/
theorem frozen_values_read_alike {w₀ : World ε} (hb : w₀.Bare I)
    (ha : Attempts I (CivilWith I (Host.Ends I)) w₀ w) :
    (∀ (host : Host ε) (x : Value), CivilWith I (Host.Ends I) host → w.Owns x → w.HostFree x →
      (freeze host x w).1 = .ok () ∧
        ((freeze host x w).2.ConstructorsFrozen x → (freeze host x w).2.FrozenThrough x)) ∧
    (∀ x, w.FrozenThrough x → ∃ text, ∀ w', Attempts I (Civil I) w w' →
      w'.FrozenThrough x ∧ ∀ host : Host ε, w'.memory.Granting → (display host x w').1 = .ok text) ∧
    (∀ x y, w.FrozenThrough x → w.FrozenThrough y → ∀ w', Attempts I (Civil I) w w' → w.ComparesAlike w' x y) := by
  have hi : ∀ h, CivilWith I (Host.Ends I) h → h.Closes I (fun _ => True) ∧ h.Respects I := fun _ hc => hc.ends
  have hclosed := ha.closed hi hb
  have h : w.Sound I := (ha.closes hi hb.sound).1.sound hb.sound
  have hlater : ∀ {w' : World ε}, Attempts I (Civil I) w w' → Evolves I w.structs.size w w' := fun ha' =>
    ha'.evolves (fun _ hc => hc.respects) h
  refine ⟨fun host x hc hx hfree => freeze_frozenThrough (hi host hc).1 h hx hfree,
    fun x hx => ⟨w.shown x, fun w' ha' => ?_⟩, fun x y hx hy w' ha' => ?_⟩
  · have he := hlater ha'
    have hl := lasts_of_evolves h he
    have hstill := hx.still hclosed
    have hfrozen : w'.Frozen x := hx.frozen.hardens (he.hardens h) hx.owns
    exact ⟨(hstill.lasts h hl).frozenThrough hfrozen, fun _ => display_lasts h (he.sound h) hl hstill⟩
  · have he := hlater ha'
    exact comparesAlike_of_still h (he.sound h) (lasts_of_evolves h he) (hx.still hclosed) (hy.still hclosed)

/-! ## Constructors -/

theorem mute_ends : (mute : Host ε).Ends I := by
  intro x w h hx he
  have hok := (freeze_returns mute_willing.willing.1 h hx).1
  rw [hok] at he
  cases he

/-- Structs of the same field, whose constructors are two empty dicts and two dicts that contain themselves. All is frozen
but the empty dicts. -/
def brand : List Operation :=
  [.newDict 0, .newDict 0, .newDict 0, .newDict 0, @Operation.insert .any ⟨2⟩ (.int 1) (.dict ⟨2⟩),
    @Operation.insert .any ⟨3⟩ (.int 1) (.dict ⟨3⟩), oneField (.dict ⟨0⟩), oneField (.dict ⟨1⟩), oneField (.dict ⟨2⟩),
    oneField (.dict ⟨3⟩), .freeze (.struct ⟨0⟩), .freeze (.struct ⟨1⟩), .freeze (.struct ⟨2⟩), .freeze (.struct ⟨3⟩),
    .freeze (.dict ⟨2⟩), .freeze (.dict ⟨3⟩)]

def branded : World Unit := (inTurn brand (.unused ())).allocating true

theorem attempts_branded : Attempts .nothing (CivilWith .nothing (Host.Ends .nothing)) (.unused ()) branded :=
  (Attempts.refl.inTurn (mute_civilWith mute_ends) (by decide +kernel)).outside (alike_allocating _ true)

theorem plain_branded : branded.Plain :=
  World.Plain.alike (reachable_inTurn (by decide +kernel)).2 (alike_allocating _ true)

/-- The constructor is a dict that contains itself and nothing else but a number. -/
theorem frozenThrough_branded {s : StructId} (hs : s = ⟨2⟩ ∨ s = ⟨3⟩) : branded.FrozenThrough (.struct s) := by
  have hreach : ∀ {y : Value}, branded.Reaches (.struct s) y → y ∈ [.struct s, .dict ⟨s.index⟩, .int 1] := by
    rcases hs with rfl | rfl <;> exact Reaches.mem (by decide +kernel) List.mem_cons_self
  refine ⟨?_, ?_, plain_branded.hostFree trivial, fun u t hu ht => ?_⟩
  · rcases hs with rfl | rfl <;> decide +kernel
  · rcases hs with rfl | rfl <;> decide +kernel
  · obtain rfl : t = ⟨s.index⟩ := by simpa using hreach ((hu.tail (.ctor u)).trans ht)
    rcases hs with rfl | rfl <;> decide +kernel

/-- What two of them read as, whatever is done later. -/
theorem frozen_values_read_alike_branded : (freeze mute (.struct ⟨2⟩) branded).1 = .ok () ∧
    ∀ w, Attempts .nothing (Civil .nothing) branded w →
      (w.memory.Granting → (display mute (.struct ⟨2⟩) w).1 = .ok (ascii "\x7b1: \x7b...\x7d\x7d(a = 1)")) ∧
      (equal mute (.struct ⟨2⟩) (.struct ⟨2⟩) w).1 = .ok true ∧
      (w.memory.Granting →
        (equal mute (.struct ⟨2⟩) (.struct ⟨3⟩) w).1 = .error (.raised Fault.depthExceeded.status)) := by
  obtain ⟨hfreeze, htext, hequal⟩ := frozen_values_read_alike (bare_unused ()) attempts_branded
  have htwo := frozenThrough_branded (s := ⟨2⟩) (.inl rfl)
  have hthree := frozenThrough_branded (s := ⟨3⟩) (.inr rfl)
  have hmemory : branded.memory.Granting := granting_allocating _
  obtain ⟨text, hwritten⟩ := htext _ htwo
  -- the text is the one that is written now
  have hnow : (display mute (.struct ⟨2⟩) branded).1 = .ok text := (hwritten branded .refl).2 mute hmemory
  have hthis : (display mute (.struct ⟨2⟩) branded).1 = .ok (ascii "\x7b1: \x7b...\x7d\x7d(a = 1)") := by decide +kernel
  obtain rfl : text = _ := Except.ok.inj (hnow.symm.trans hthis)
  refine ⟨(hfreeze mute _ (mute_civilWith mute_ends) htwo.owns htwo.free).1, fun w ha => ⟨?_, ?_, fun hg => ?_⟩⟩
  · exact (hwritten w ha).2 mute
  · exact (hequal _ _ htwo htwo w ha).verdict mute mute fullBudget true (by decide +kernel)
  · exact ((hequal _ _ htwo hthree w ha).error mute mute fullBudget _ hmemory hg (by decide +kernel)).1

/-- With an item in the first dict. -/
def rebranded : World Unit := ((@Operation.insert .any ⟨0⟩ (.int 1) (.int 1)).run mute branded).2

/-- A frozen struct is written in another way, and is no longer equal to another one, when the dict that is its constructor
has changed. An error in a comparison of constructors is another one when there is no memory to quote them. -/
theorem constructors_stay_open :
    Attempts .nothing (CivilWith .nothing (Host.Ends .nothing)) (.unused ()) branded ∧ branded.Plain ∧
    Attempts .nothing (Civil .nothing) branded rebranded ∧
    Attempts .nothing (Civil .nothing) branded (branded.allocating false) ∧
    (∀ i < 4, (freeze mute (.struct ⟨i⟩) branded).1 = .ok () ∧ branded.Frozen (.struct ⟨i⟩)) ∧
    (display mute (.struct ⟨0⟩) branded).1 = .ok (ascii "\x7b\x7d(a = 1)") ∧
    (display mute (.struct ⟨0⟩) rebranded).1 = .ok (ascii "\x7b1: 1\x7d(a = 1)") ∧
    (equal mute (.struct ⟨0⟩) (.struct ⟨1⟩) branded).1 = .ok true ∧
    (equal mute (.struct ⟨0⟩) (.struct ⟨1⟩) rebranded).1 = .ok false ∧
    (equal mute (.struct ⟨2⟩) (.struct ⟨3⟩) branded).1 = .error (.raised Fault.depthExceeded.status) ∧
    (equal mute (.struct ⟨2⟩) (.struct ⟨3⟩) (branded.allocating false)).1 = .error (.raised .memory) :=
  ⟨attempts_branded, plain_branded, .call mute _ .refl mute_civil (by decide +kernel),
    .outside .refl (alike_allocating branded false), by decide +kernel, by decide +kernel, by decide +kernel,
    by decide +kernel, by decide +kernel, by decide +kernel, by decide +kernel⟩

end ValueCore
