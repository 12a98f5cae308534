import ValueCore.Proofs.Distinctness
import ValueCore.Proofs.Operations.Outcomes
import ValueCore.Proofs.Orderliness
import ValueCore.Proofs.World.Parts

/-!
# Comparisons end

A comparison has a budget, but it is renewed at each key of a dict and at each constructor of a struct, so the budget
alone does not bound how deep a comparison nests. What bounds it (`judged_settles`):

* A key that is compared has been hashed before. So it is no dict, and no dict is among its fields: within keys, the
  budget is renewed at constructors only.
* A struct that is not reached from its own constructor is not met again inside of it. So the constructors that a
  comparison is in at a time belong to different structs (`Entered`), and there are only so many of those.

The left value of a comparison decides; what is on the right does not matter. Dicts may contain themselves and each other
in any way.
-/

namespace ValueCore

open World
open Relation (ReflTransGen)

variable {ε α β : Type} {I : Inventory ε} {w : World ε} {host : Host ε} {x y : Value}

/-! ## Settled -/

theorem settled_pure (a : α) : Settled (pure a : Judged α) := nofun

theorem settled_fault (f : Fault) : Settled (throw (.fault f) : Judged α) := nofun

theorem Settled.bind {o : Judged α} {g : α → Judged β} (ho : Settled o) (hg : ∀ a, o = .ok a → Settled (g a)) :
    Settled (o >>= g) := by
  cases o with
  | ok a => exact hg a rfl
  | error e =>
    intro he
    cases he
    exact ho rfl

/-- Here both outcomes are the same. -/
theorem settled_threads : Judged.Threads fun o o' => o' = o ∧ Settled o := by
  refine ⟨fun a => ⟨rfl, settled_pure a⟩, fun {α β o o' g g'} ⟨heq, ho⟩ hg => ⟨?_, ho.bind fun a ha => (hg a ha).2⟩⟩
  rw [heq]
  cases o with
  | ok a => exact (hg a rfl).1
  | error e => rfl

theorem constructorsJudged_settles {equal : Value → Value → Judged Bool} {use : ConstructorUse}
    (h : Settled (equal x y)) : Settled (w.constructorsJudged equal use x y) := by
  unfold constructorsJudged
  split
  · exact settled_fault _
  · exact h

/-- A struct of which the hash can be computed has such structs as fields. -/
theorem digest_of_field {hash : Value → Judged UInt32} : ∀ {fields : List (Bytes × Value)} {s : StructHash} {a : UInt32},
    digestFields hash fields s = .ok a → ∀ field ∈ fields, ∃ b, hash field.2 = .ok b
  | (name, value) :: rest, s, a, h, field, hm => by
    unfold digestFields at h
    cases hv : hash value with
    | error e =>
      rw [hv] at h
      cases h
    | ok b =>
      rw [hv] at h
      rcases List.mem_cons.1 hm with rfl | hm
      · exact ⟨b, hv⟩
      · exact digest_of_field h field hm

/-! ## Hashing -/

/-- Hashing ends, as the fields of a struct were there before it. -/
theorem digest_settles (hf : ∀ s : StructId, s.index < w.structs.size → w.Founded s) : ∀ (fuel : Nat) {n : Nat} {x : Value},
    x.Below n → n ≤ w.structs.size → n + 1 ≤ fuel → ¬ w.Hosted x → Settled (w.digest fuel x)
  | 0, _, _, _, _, hfuel, _ => by omega
  | fuel + 1, n, x, hx, hn, hfuel, hhost => by
    cases x with
    | none | bool | int | float | str => exact settled_pure _
    | dict t => exact settled_fault _
    | host i => exact absurd (.host i) hhost
    | struct s =>
      have hs : s.index < n := hx
      refine And.right (settled_threads.digestFields _ _ fun field hm => ⟨rfl, ?_⟩)
      exact digest_settles hf fuel ((hf s (by omega)).fields field hm) (by omega) (by omega) fun h => hhost (.field hm h)

/-! ## Comparing -/

/-- No struct in the value is reached from its own constructor. -/
def World.Straight (w : World ε) (x : Value) : Prop :=
  ∀ s : StructId, w.Reaches x (.struct s) → ¬ w.Reaches (w.struct s).ctor (.struct s)

/-- The structs whose constructors a comparison is in when it comes to `x`. -/
structure World.Entered (w : World ε) (entered : List StructId) (x : Value) : Prop where
  nodup : entered.Nodup
  there : ∀ s ∈ entered, s.index < w.structs.size
  reaches : ∀ s ∈ entered, w.Reaches (w.struct s).ctor x

theorem World.Straight.part (h : w.Straight x) (hp : w.Part x y) : w.Straight y := fun s hs => h s (.head hp hs)

namespace World.Entered

variable {entered : List StructId} {s : StructId}

theorem nil (w : World ε) (x : Value) : w.Entered [] x := ⟨List.nodup_nil, nofun, nofun⟩

theorem part (h : w.Entered entered x) (hp : w.Part x y) : w.Entered entered y :=
  ⟨h.nodup, h.there, fun s hs => (h.reaches s hs).tail hp⟩

/-- A struct whose constructor is entered is not one of those before. -/
theorem enter (h : w.Entered entered (.struct s)) (hs : w.Owns (.struct s)) (hstraight : w.Straight (.struct s)) :
    w.Entered (s :: entered) (w.struct s).ctor := by
  refine ⟨List.nodup_cons.2 ⟨fun hm => hstraight s .refl (h.reaches s hm), h.nodup⟩,
    List.forall_mem_cons.2 ⟨hs, h.there⟩, List.forall_mem_cons.2 ⟨.refl, fun u hu => (h.reaches u hu).tail (.ctor s)⟩⟩

theorem length_le (h : w.Entered entered x) : entered.length ≤ w.structs.size := by
  have hindex : (entered.map (·.index)).Nodup := h.nodup.map fun s u heq => congrArg StructId.mk heq
  have hle := length_le_of_lt hindex (List.forall_mem_map.2 h.there)
  rwa [List.length_map] at hle

end World.Entered

/-- **With enough fuel a comparison ends.** For each struct whose constructor may still be entered it takes two full
budgets, one for what is in the constructor and one for what is in a key there; a value that has been hashed takes one
less, as there are no keys in it. -/
theorem judged_settles (h : w.Sound I) (hf : ∀ s : StructId, s.index < w.structs.size → w.Founded s) :
    ∀ (fuel : Nat) (depth : Int) (x y : Value) (entered : List StructId), w.Owns x → w.HostFree x → w.Straight x →
      w.Entered entered x → (depth.toNat + 11 + 32 * (w.structs.size - entered.length) ≤ fuel ∨
        (∃ n a, w.digest n x = .ok a) ∧ depth.toNat + 1 + 32 * (w.structs.size - entered.length) ≤ fuel) →
      Settled (w.judged fuel depth x y)
  | 0, depth, x, y, entered, _, _, _, _, hfuel => by omega
  | fuel + 1, depth, x, y, entered, hx, hfree, hstraight, hin, hfuel => by
    by_cases hd : depth < 1
    · rw [judged_spent hd]
      exact settled_fault _
    rcases pair_cases x y with ⟨a, b, rfl, rfl⟩ | ⟨a, b, rfl, rfl⟩ | ⟨a, b, rfl, rfl⟩ | hapart
    · rw [judged_dicts hd]
      -- a dict has not been hashed, so there is fuel for its keys
      have hroom : depth.toNat + 11 + 32 * (w.structs.size - entered.length) ≤ fuel + 1 := by
        rcases hfuel with hfuel | ⟨⟨n, c, hc⟩, _⟩
        · exact hfuel
        · cases n <;> cases hc
      split
      · exact settled_pure _
      split
      · exact settled_pure _
      refine And.right (settled_threads.itemsJudged _ fun item hm => ⟨⟨rfl, ?_⟩, fun z _ => ⟨rfl, ?_⟩⟩)
      · have hp : w.Part (.dict a) item.1 := .key hm
        have hkey := hp.owns h hx
        have hnot := (hfree.part hp).not_hosted
        have hhash := digest_settles hf (w.structs.size + 2) (below_of_owns hkey) (Nat.le_refl _) (by omega) hnot
        refine And.right (settled_threads.soughtIn (h.tables b) (h.tables b) (.inl (.refl _)) ⟨rfl, hhash⟩
          fun c hc k _ => ⟨rfl, ?_⟩)
        refine judged_settles h hf fuel fullBudget item.1 k.2 entered hkey (hfree.part hp) (hstraight.part hp) (hin.part hp) ?_
        exact .inr ⟨⟨_, c, hc⟩, by show 10 + 1 + _ ≤ fuel; omega⟩
      · have hp : w.Part (.dict a) item.2 := .value hm
        refine judged_settles h hf fuel (depth - 1) item.2 z entered (hp.owns h hx) (hfree.part hp) (hstraight.part hp)
          (hin.part hp) (.inl (by omega))
    · rw [judged_structs hd]
      split
      · exact settled_pure _
      refine (constructorsJudged_settles ?_).bind fun verdict _ => ?_
      · have hp : w.Part (.struct a) (w.struct a).ctor := .ctor a
        have henter := hin.enter hx hstraight
        have hlen := henter.length_le
        rw [List.length_cons] at hlen
        refine judged_settles h hf fuel fullBudget _ _ (a :: entered) (hp.owns h hx) (hfree.part hp) (hstraight.part hp)
          henter (.inl ?_)
        show 10 + 11 + _ ≤ fuel
        rw [List.length_cons]
        omega
      · cases verdict with
        | false => exact settled_pure _
        | true =>
          refine And.right (settled_threads.fieldsJudged _ _ fun field hm z _ => ⟨rfl, ?_⟩)
          have hp : w.Part (.struct a) field.2 := .field hm
          refine judged_settles h hf fuel (depth - 1) field.2 z.2 entered (hp.owns h hx) (hfree.part hp) (hstraight.part hp)
            (hin.part hp) ?_
          rcases hfuel with hfuel | ⟨⟨n, c, hc⟩, hfuel⟩
          · exact .inl (by omega)
          · obtain ⟨n, rfl⟩ : ∃ m, n = m + 1 := by
              cases n with
              | zero => cases hc
              | succ m => exact ⟨m, rfl⟩
            obtain ⟨e, he⟩ := digest_of_field hc field hm
            exact .inr ⟨⟨n, e, he⟩, by omega⟩
    · exact (hfree _ .refl).elim
    · rw [judged_apart hd hapart]
      exact settled_pure _

/-- **Equality ends.** In every world that a program can come to, whatever dicts refer to each other there or to
themselves, the comparison of two values with any budget returns a verdict or raises an error, if no struct in the first
value is reached from its own constructor and none of the values is the host's or leads to one of those. -/
theorem equality_ends (hr : Reachable I w) (hx : w.Owns x) (hy : w.Owns y) (hfx : w.HostFree x) (hfy : w.HostFree y)
    (hctor : ∀ s : StructId, w.Reaches x (.struct s) → ¬ w.Reaches (w.struct s).ctor (.struct s)) (host : Host ε)
    (depth : Int) : (∃ verdict, (equalWithin host depth x y w).1 = .ok verdict) ∨
      ∃ status, (equalWithin host depth x y w).1 = .error (.raised status) := by
  have h := hr.sound
  have hsettled : Settled (w.judged (comparisonFuel w depth) depth x y) :=
    judged_settles h hr.orderly.founded _ depth x y [] hx hfx hctor (.nil w x)
      (.inl (by unfold comparisonFuel; rw [List.length_nil]; omega))
  have hanswers : w.Answers (equalWithin host depth x y) (w.judged (comparisonFuel w depth) depth x y) :=
    answers_equalWithin (region_free h) (fun _ hx => hx.2) ⟨hfx, hx⟩ ⟨hfy, hy⟩ depth
  rcases hanswers.outcome w (.refl w) with ho | ⟨_, he⟩
  · generalize w.judged (comparisonFuel w depth) depth x y = o at ho hsettled
    generalize equalWithin host depth x y w = out at ho ⊢
    cases ho with
    | returned verdict => exact .inl ⟨verdict, rfl⟩
    | raised f => exact .inr ⟨f.status, rfl⟩
    | exhausted => exact absurd rfl hsettled
  · exact .inr ⟨_, he⟩

/-! ## Dicts that contain themselves -/

/-- Two dicts contain themselves and each other. A key of each is a struct with a dict as constructor, which leads to one
that contains itself. -/
def mirror : List Operation :=
  [.newDict 0, .newDict 0, .newDict 0, .newDict 0, @Operation.insert .any ⟨2⟩ (.int 1) (.dict ⟨3⟩),
    @Operation.insert .any ⟨3⟩ (.int 1) (.dict ⟨3⟩), oneField (.dict ⟨2⟩), oneField (.dict ⟨3⟩),
    @Operation.insert .any ⟨0⟩ (.struct ⟨0⟩) (.dict ⟨0⟩), @Operation.insert .any ⟨0⟩ (.int 1) (.dict ⟨1⟩),
    @Operation.insert .any ⟨1⟩ (.struct ⟨1⟩) (.dict ⟨1⟩), @Operation.insert .any ⟨1⟩ (.int 1) (.dict ⟨0⟩)]

def mirrored : World Unit := inTurn mirror (.unused ())

/-- The keys are equal, and so the comparison goes on with the values until the budget is spent. -/
theorem equality_ends_mirrored :
    ((∃ verdict, (equalWithin mute 3 (.dict ⟨0⟩) (.dict ⟨1⟩) mirrored).1 = .ok verdict) ∨
      ∃ status, (equalWithin mute 3 (.dict ⟨0⟩) (.dict ⟨1⟩) mirrored).1 = .error (.raised status)) ∧
    (equal mute (.struct ⟨0⟩) (.struct ⟨1⟩) mirrored).1 = .ok true ∧
    (equalWithin mute 3 (.dict ⟨0⟩) (.dict ⟨1⟩) mirrored).1 = .error (.raised Fault.depthExceeded.status) := by
  obtain ⟨hr, hp⟩ : Reachable .nothing mirrored ∧ mirrored.Plain := reachable_inTurn (by decide +kernel)
  have hreach : ∀ {y : Value}, mirrored.Reaches (.dict ⟨0⟩) y →
      y ∈ [.dict ⟨0⟩, .dict ⟨1⟩, .int 1, .struct ⟨0⟩, .struct ⟨1⟩, .dict ⟨2⟩, .dict ⟨3⟩] :=
    Reaches.mem (by decide +kernel) (by decide)
  -- what the constructors lead to
  have hctor : ∀ {s : StructId} {y : Value}, s = ⟨0⟩ ∨ s = ⟨1⟩ → mirrored.Reaches (mirrored.struct s).ctor y →
      y ∈ [.int 1, .dict ⟨2⟩, .dict ⟨3⟩] := fun hs =>
    Reaches.mem (by decide +kernel) (by rcases hs with rfl | rfl <;> decide +kernel)
  refine ⟨equality_ends hr (by decide +kernel) (by decide +kernel) (hp.hostFree (by decide)) (hp.hostFree (by decide))
    (fun s hs hback => ?_) mute 3, by decide +kernel, by decide +kernel⟩
  have hone : s = ⟨0⟩ ∨ s = ⟨1⟩ := by simpa using hreach hs
  simpa using hctor hone hback

end ValueCore
