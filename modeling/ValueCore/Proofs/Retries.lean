import ValueCore.Proofs.Peaks
import ValueCore.Proofs.ViewModeration
import ValueCore.Proofs.ViewPresizing

/-!
# Loops that end in their second round

An insertion scans, and if the table turns out to be overloaded it has it grow and scans again. An append doubles the chains
of its view as long as that is overloaded. Neither loop has a bound of its own: both go on until the load is light enough.
They are written as rounds here (`insertRound`, `relieveRound`) that are run `again` as long as they ask for it.

One growth is enough. In every world that a program comes to the load is moderate, also in the middle of an operation, and so
a container that has just got twice as many chains is not overloaded. A scan may run the host's code; but it holds the table,
and whatever the host does in the meantime, the table has as many entries and as many chains after it as before
(`same_scan`). So the second scan of an insertion finds a table that is not overloaded (`growth_happens_once`).

| first round | second round | what was asked |
| --- | --- | --- |
| fails, writes the entry, or fails to grow | | `[false]` |
| grows | fails or writes the entry | `[true, false]` |
-/

namespace ValueCore

open World

variable {ε : Type} {I : Inventory ε} {w u v : World ε} {kind : KeyKind} {t : TableId kind}

/-! ## Rounds -/

/-- Runs `round` as long as it asks for another round, at most `fuel` times. -/
def again (round : Run ε Bool) : Nat → Run ε Unit
  | 0 => throw .exhausted
  | fuel + 1 => do if ← round then again round fuel

/-- What the rounds asked for, one after the other: whether there is to be another. A round that fails asks for none. -/
def asked (round : Run ε Bool) : Nat → World ε → List Bool
  | 0, _ => []
  | fuel + 1, w =>
    match round w with
    | (.ok true, u) => true :: asked round fuel u
    | _ => [false]

/-- However often it may be run, the round is run once or twice. -/
structure EndsBySecond (round : Run ε Bool) (w : World ε) : Prop where
  asked : ∀ fuel, asked round (fuel + 2) w = [false] ∨ asked round (fuel + 2) w = [true, false]
  bound : ∀ fuel, again round (fuel + 2) w = again round 2 w

section
variable {round : Run ε Bool}

theorem again_of_asked (h : round w = (.ok true, u)) (fuel : Nat) : again round (fuel + 1) w = again round fuel u :=
  run_bind_ok h _

theorem again_of_done (h : ∀ u, round w ≠ (.ok true, u)) (fuel fuel' : Nat) :
    again round (fuel + 1) w = again round (fuel' + 1) w :=
  run_bind_congr rfl fun more u hr => by
    cases more with
    | true => exact absurd hr (h u)
    | false => rfl

theorem asked_of_done (h : ∀ u, round w ≠ (.ok true, u)) (fuel : Nat) : asked round (fuel + 1) w = [false] := by
  unfold asked
  split
  · rename_i u hr
    exact absurd hr (h u)
  · rfl

/-- The second round is the last one if it never asks for another after one that did. -/
theorem endsBySecond (h : ∀ u, round w = (.ok true, u) → ∀ v, round u ≠ (.ok true, v)) : EndsBySecond round w := by
  by_cases hdone : ∀ u, round w ≠ (.ok true, u)
  · exact ⟨fun fuel => .inl (asked_of_done hdone (fuel + 1)), fun fuel => again_of_done hdone (fuel + 1) 1⟩
  · obtain ⟨u, hr⟩ := not_forall_not.1 hdone
    refine ⟨fun fuel => .inr ?_, fun fuel => ?_⟩
    · rw [asked, hr]
      exact congrArg _ (asked_of_done (h u hr) fuel)
    · rw [again_of_asked hr, again_of_asked hr]
      exact again_of_done (h u hr) fuel 0

end

/-! ## Inserting -/

/-- One scan of an insertion and what follows from it: the entry is written, or the table grows and there is to be another
scan. -/
def insertRound (keying : Keying ε kind.Key) (t : TableId kind) (key : kind.Key) (value : Value) (hash : UInt32) :
    Run ε Bool := do
  let found ← scan keying t key hash
  checkMutable t .insert
  match found with
  | some i =>
    updateTable t (·.overwrite i value)
    return false
  | none =>
    let table ← readTable t
    if overloaded table.length table.heads then
      growTable t
      return true
    else
      let i ← roomFor t hash
      updateTable t (·.append i hash key value)
      return false

variable {keying : Keying ε kind.Key} {key : kind.Key} {value : Value} {hash : UInt32}

theorem insertHashed_eq_again (keying : Keying ε kind.Key) (t : TableId kind) (key : kind.Key) (value : Value)
    (hash : UInt32) : ∀ fuel, insertHashed keying t key value hash fuel = again (insertRound keying t key value hash) fuel
  | 0 => rfl
  | fuel + 1 => by
    rw [insertHashed, again, insertRound, bind_assoc]
    refine bind_congr fun found => ?_
    rw [bind_assoc]
    refine bind_congr fun _ => ?_
    cases found with
    | some i => rw [bind_assoc]; rfl
    | none =>
      rw [bind_assoc]
      refine bind_congr fun table => ?_
      split
      · rw [bind_assoc, insertHashed_eq_again keying t key value hash fuel]
        rfl
      · rw [bind_assoc]
        refine bind_congr fun i => ?_
        rw [bind_assoc]
        rfl

theorem ok_checkMutable {change : TableChange} {a : Unit} (h : checkMutable t change w = (.ok a, u)) :
    u = w ∧ (w.table t).frozen = false ∧ (w.table t).holds = 0 := by
  cases hf : (w.table t).frozen with
  | true => cases (run_checkMutable_frozen change hf).symm.trans h
  | false =>
    rcases Nat.eq_zero_or_pos (w.table t).holds with hz | hz
    · cases (run_checkMutable change hf hz).symm.trans h
      exact ⟨rfl, rfl, hz⟩
    · cases (run_checkMutable_held change hf hz).symm.trans h

/-- A round asks for another when the table was overloaded after the scan and has grown. -/
theorem insertRound_asks (hr : insertRound keying t key value hash w = (.ok true, u)) :
    ∃ v, scan keying t key hash w = (.ok none, v) ∧ (v.table t).frozen = false ∧ (v.table t).holds = 0 ∧
      overloaded (v.table t).length (v.table t).heads = true ∧ growTable t v = (.ok (), u) := by
  unfold insertRound at hr
  obtain ⟨found, v, hs, hrest⟩ := run_bind_eq_ok hr
  obtain ⟨_, v', hc, hwrite⟩ := run_bind_eq_ok hrest
  obtain ⟨rfl, hf, hz⟩ := ok_checkMutable hc
  cases found with
  | some i =>
    obtain ⟨_, _, _, hdone⟩ := run_bind_eq_ok hwrite
    cases hdone
  | none =>
    dsimp only at hwrite
    rw [run_bind_ok (run_readTable t v')] at hwrite
    refine ⟨v', hs, hf, hz, ?_⟩
    split at hwrite
    · rename_i ho
      obtain ⟨_, x, hg, hdone⟩ := run_bind_eq_ok hwrite
      cases hdone
      exact ⟨ho, hg⟩
    · obtain ⟨i, x, _, happend⟩ := run_bind_eq_ok hwrite
      obtain ⟨_, y, _, hdone⟩ := run_bind_eq_ok happend
      cases hdone

/-- A table of moderate load that has grown is not overloaded. -/
theorem relieved_of_growTable (h : (w.table t).Sound) (hm : (w.table t).Moderate) (ht : w.Has t)
    (hg : growTable t w = (.ok (), u)) : overloaded (u.table t).length (u.table t).heads = false := by
  rcases run_growTable t w with ⟨x, _, hr⟩ | ⟨x, y, block, hmax, hx, hy, hr⟩
  · cases hr.symm.trans hg
  · cases hr.symm.trans hg
    rw [hy.table t, table_modifyTable t _ (hx.has_iff.2 ht), hx.table t]
    exact hm.relieved h hmax block

section
variable (hk : keying.Respects I) (h : w.Sound I) (hm : w.Moderate) (ht : w.Has t) (hkey : w.OwnsKey key)
include hk h hm ht hkey

/-- After a round that asks for another the table is not overloaded. -/
theorem relieved_of_insertRound (hr : insertRound keying t key value hash w = (.ok true, u)) :
    Evolves I 0 w u ∧ overloaded (u.table t).length (u.table t).heads = false := by
  obtain ⟨v, hs, hf, hz, ho, hg⟩ := insertRound_asks hr
  have hJ := steady_respects hk hash h ht hkey
  obtain ⟨hu, -, -⟩ := hJ.round .refl hs hf hz ho hg
  have hv : Evolves I 0 w v := by
    have := hJ.scan .refl
    rwa [hs] at this
  exact ⟨hu, relieved_of_growTable ((hv.sound h).tables t) (hv.moderate h hm ⟨kind, t⟩) (hv.within.has t ht) hg⟩

/-- **An insertion scans at most twice.** -/
theorem insertRound_endsBySecond : EndsBySecond (insertRound keying t key value hash) w := by
  refine endsBySecond fun u hr x hx => ?_
  obtain ⟨hu, hlight⟩ := relieved_of_insertRound hk h hm ht hkey hr
  obtain ⟨y, hs, -, -, ho, -⟩ := insertRound_asks hx
  -- the second scan holds the table, so it is still as light as growth left it
  have hsame := same_scan hk (hu.sound h) (hu.within.has t ht) (hu.within.ownsKey hkey) hash
  rw [hs] at hsame
  have heavy : overloaded (u.table t).length (u.table t).heads = true := by
    rw [hsame] at ho
    exact ho
  exact Bool.false_ne_true (hlight.symm.trans heavy)

end

/-! ## Appending to a view -/

/-- One look at the load of a view: it is light enough, or the chains are doubled and there is to be another look. -/
def relieveRound (v : ViewId) : Run ε Bool := do
  let view ← readView v
  let heads := view.heads
  if overloaded view.length heads then
    if maxHeads ≤ heads then raise .tableOverflow
    rehashView v (2 * heads)
    return true
  else return false

theorem relieveView_eq_again (v : ViewId) : ∀ fuel, (relieveView v fuel : Run ε Unit) = again (relieveRound v) fuel
  | 0 => rfl
  | fuel + 1 => by
    rw [relieveView, again, relieveRound, bind_assoc]
    refine bind_congr fun view => ?_
    dsimp only
    split
    · split
      · rw [bind_assoc]
        refine bind_congr fun _ => ?_
        rw [bind_assoc, relieveView_eq_again v fuel]
        rfl
      · rw [bind_assoc, relieveView_eq_again v fuel]
        rfl
    · rfl

/-- After a round that asks for another the view is not overloaded. -/
theorem relieved_of_relieveRound {v : ViewId} (h : w.ModerateView v) (hr : relieveRound v w = (.ok true, u)) :
    overloaded (u.view v).length (u.view v).heads = false := by
  unfold relieveRound at hr
  rw [run_bind_ok (run_readView v w)] at hr
  dsimp only at hr
  split at hr
  · split at hr
    · obtain ⟨_, _, hraise, _⟩ := run_bind_eq_ok hr
      cases hraise
    · rename_i hmax
      obtain ⟨_, x, hrehash, hr⟩ := run_bind_eq_ok hr
      cases hr
      have hdone := h.double hmax
      rw [hrehash] at hdone
      exact hdone.of_ok.2
  · cases hr

/-- **An append rebuilds the index at most once.** -/
theorem relieveRound_endsBySecond {v : ViewId} (h : w.ModerateView v) : EndsBySecond (relieveRound v) w := by
  refine endsBySecond fun u hr x hx => ?_
  have hlight := relieved_of_relieveRound h hr
  unfold relieveRound at hx
  rw [run_bind_ok (run_readView v u)] at hx
  dsimp only at hx
  rw [if_neg (by rw [hlight]; exact Bool.false_ne_true)] at hx
  cases hx

/-! ## Every world -/

/-- **Growth happens once.** No table and no view has more entries than eight, or 6.5 on average on each chain. So the rounds
that an insertion consists of, after its key has been hashed, and those in which an append sees to the chains of its view, are
at most two; and between the two the container has got twice as many chains, which then are enough. -/
theorem growth_happens_once :
    (∀ {w : World ε}, Midway I w → ∀ {kind : KeyKind} (t : TableId kind),
      2 * (w.table t).length ≤ max 16 (13 * (w.table t).heads) ∧
      ∀ {host : Host ε}, Civil I host → w.Has t → ∀ (key : kind.Key) (value : Value), w.OwnsKey key →
        ∀ hash u, (keyingOf host kind).hash key w = (.ok hash, u) →
          let round := insertRound (keyingOf host kind) t key value (storedHash hash)
          (∀ fuel, insertHashed (keyingOf host kind) t key value (storedHash hash) fuel = again round fuel) ∧
          EndsBySecond round u ∧
          ∀ x, round u = (.ok true, x) → overloaded (x.table t).length (x.table t).heads = false) ∧
    ∀ {w : World ε} {v : ViewId}, WellKept v w →
      2 * (w.view v).length ≤ max 16 (13 * (w.view v).heads) ∧
      (∀ fuel, (relieveView v fuel : Run ε Unit) = again (relieveRound v) fuel) ∧
      EndsBySecond (relieveRound v) w ∧
      ∀ x, relieveRound v w = (.ok true, x) → overloaded (x.view v).length (x.view v).heads = false := by
  constructor
  · intro w hw kind t
    refine ⟨(hw.moderate ⟨kind, t⟩).load, ?_⟩
    intro host hc ht key value hkey hash u hr
    have hk := keyingOf_respects hc.respects kind
    have he : Evolves I 0 w u := by
      have := hk.hash key hw.sound (Nat.zero_le _) hkey
      rwa [hr] at this
    have hs := he.sound hw.sound
    have hm := he.moderate hw.sound hw.moderate
    have hin := he.within
    exact ⟨insertHashed_eq_again _ t key value _,
      insertRound_endsBySecond hk hs hm (hin.has t ht) (hin.ownsKey hkey),
      fun x hx => (relieved_of_insertRound hk hs hm (hin.has t ht) (hin.ownsKey hkey) hx).2⟩
  · intro w v hv
    have hm := hv.moderate
    exact ⟨hm.2.load, relieveView_eq_again v, relieveRound_endsBySecond hm, fun x => relieved_of_relieveRound hm⟩

theorem WellKept.colliding {v : ViewId} : ∀ (keys : List Bytes) {w : World ε}, WellKept v w →
    WellKept v (ValueCore.colliding v keys w)
  | [], _, h => h
  | key :: keys, _, h => colliding keys (h.appended 0 key .none)

/-- A view of one chain with eight entries on it. -/
def fullView : World Unit := colliding ⟨0⟩ eightKeys (newView 0 (World.unused ())).2

/-- The ninth entry of a table, and of a view, with one chain. Both get another chain, and are looked at again. -/
theorem growth_happens_once_ninth :
    let t : TableId .any := ⟨0⟩
    let round := insertRound (keyingOf (weary 99) .any) t (.host ⟨8⟩) (.int 1) 7
    ((@World.table _ (crowded 8) .any t).length = 8 ∧ EndsBySecond round (crowded 8) ∧
      asked round 26 (crowded 8) = [true, false]) ∧
    (fullView.view ⟨0⟩).length = 8 ∧ EndsBySecond (relieveRound ⟨0⟩) fullView ∧
      asked (relieveRound ⟨0⟩) 26 fullView = [true, false] := by
  obtain ⟨hr, ht⟩ := reachable_crowded 8
  have hv : WellKept ⟨0⟩ fullView := WellKept.colliding eightKeys (.made (w := World.unused ()) 0 rfl)
  obtain ⟨-, hinsert⟩ := growth_happens_once.1 ⟨_, hr, .start⟩ (⟨0⟩ : TableId .any)
  obtain ⟨-, -, hview, -⟩ := growth_happens_once (I := .nothing).2 hv
  exact ⟨⟨by decide +kernel, (hinsert (weary_civil 99) ht (.host ⟨8⟩) (.int 1) trivial 7 (crowded 8) rfl).2.1,
    by decide +kernel⟩, by decide +kernel, hview, by decide +kernel⟩

end ValueCore
