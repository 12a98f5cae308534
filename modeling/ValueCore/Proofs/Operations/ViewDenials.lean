import ValueCore.Proofs.Operations.Refusals
import ValueCore.Proofs.Operations.Views

/-!
# Views and entries that are denied

A view is sized as it is asked, unless the limit on the number of chains does not admit so many entries or a request is
refused (`denied_of_resizeView`, `denied_of_newView`). Another entry is appended unless all chains that the limit admits hold
as many entries as they may, or a request is refused (`denied_of_appendEntry`).

Of the requests that are made only the one for chains has a limit of its own. The others are never for more than can be
measured in a word, as how many chains there may be bounds what a view has room for.

| what is asked for | how many at most |
| --- | --- |
| room for entries | 13 · `maxHeads` |
| buckets, when the index is rebuilt | `maxHeads`, one for every eight entries that there is room for, and one |
| buckets, when all are in use | twice `maxHeads` and one for every eight entries |
-/

namespace ValueCore

open World

variable {ε : Type} {w u : World ε} {v : ViewId} {l : List (Bytes × Value)} {heads : Nat} {hint : UInt32} {e : Failure}

/-- A request followed by a write to the view. -/
theorem spends_updateView {ask : Run ε (Option Block)} (hspends : w.Spends ask) (f : Option Block → View → View) :
    w.Spends (ask >>= fun block => updateView v (f block)) := hspends.bind fun _ _ _ => .of_ok rfl rfl

theorem spends_reserveEntries {capacity : Nat} (hle : capacity ≤ 13 * maxHeads) : w.Spends (reserveEntries v capacity) := by
  have hentries : Memory.tooBig capacity viewEntryBytes = false := by
    refine Memory.tooBig_eq_false (by decide) ?_
    simp only [maxHeads, viewEntryBytes, Memory.wordSpan] at *
    omega
  exact .read (run_readView v w) (spends_updateView (spends_reallocateArray hentries)
    fun block V => V.withEntryRoom capacity block)

namespace World.Shows

theorem spends_rehashView (h : w.Shows v l) (hheads : heads ≤ maxHeads) : w.Spends (rehashView v heads) := by
  have hfits := h.sound.fits
  have hroom := h.room_le
  have hbuckets : Memory.tooBig ((w.view v).rehashedCapacity heads) viewBucketBytes = false := by
    refine Memory.tooBig_eq_false (by decide) ?_
    simp only [View.rehashedCapacity, viewBucketBytes, bucketSize, Memory.wordSpan, maxHeads] at *
    omega
  exact .read (run_readView v w) ((spends_allocateArray hbuckets).bind fun b y _ =>
    .bind ⟨Memory.later_releaseOption _ _, fun e he => by cases he⟩ fun _ z _ => .of_ok rfl rfl)

/-! ## Sizing -/

theorem spends_resizeView (h : w.Shows v l) (hh : headsFor hint.toNat = some heads) : w.Spends (resizeView v hint) := by
  have hrehash : ∀ {x : World ε}, x.Shows v l → x.Spends (if 1 < heads then rehashView v heads else pure ()) := by
    intro x hx
    split
    · exact hx.spends_rehashView (headsFor_fits hh).2
    · exact .pure ()
  have hle := le_of_headsFor hh
  unfold resizeView
  refine .read (run_chooseHeads_some hh w) (.read (run_readView v w) ?_)
  dsimp only
  split
  · rename_i hlt
    have hfits := Nat.le_trans h.sound.fits (Nat.le_of_lt hlt)
    refine (spends_reserveEntries hle).bind fun _ x hx => hrehash ?_
    have hroom := (shows_indifferent v l).reserveEntries h hfits hle
    rw [hx] at hroom
    exact hroom.of_ok.1
  · exact hrehash h

/-- **A view that is not sized** was to be sized for too many entries, or a request was refused. -/
theorem denied_of_resizeView (h : w.Shows v l) (hr : resizeView v hint w = (.error e, u)) :
    w.memory.Refused u.memory ∨ headsFor hint.toNat = none := by
  cases hh : headsFor hint.toNat with
  | none => exact .inr rfl
  | some heads =>
    have hrefused := (h.spends_resizeView hh).refused e
    rw [hr] at hrefused
    exact .inl (hrefused rfl)

/-! ## Appending -/

/-- The limit is not reached before the list is longer than it admits. -/
theorem heads_lt (h : w.Shows v l) (hfit : overloaded l.length maxHeads = false)
    (ho : overloaded (w.view v).length (w.view v).heads = true) : (w.view v).heads < maxHeads := by
  refine Nat.lt_of_not_le fun hmax => ?_
  rw [← h.length_eq] at hfit
  exact Bool.false_ne_true ((overloaded_of_le hmax hfit).symm.trans ho)

theorem spends_relieveView (hfit : overloaded l.length maxHeads = false) : ∀ (fuel : Nat) {w : World ε} {k : Nat},
    w.Shows v l → (w.view v).heads = 2 ^ k → 25 ≤ k + fuel → w.Spends (relieveView v fuel)
  | 0, w, k, h, hk, hfuel => by
    obtain ⟨j, hj, hpow⟩ := h.sound.storage.heads_pow
    have hjk : j = k := Nat.pow_right_injective (Nat.le_refl 2) (hpow.symm.trans hk)
    omega
  | fuel + 1, w, k, h, hk, hfuel => by
    unfold relieveView
    refine .read (run_readView v w) ?_
    dsimp only
    split
    · rename_i ho
      have hlt := h.heads_lt hfit ho
      have hpow : ∃ j ≤ 24, 2 * (w.view v).heads = 2 ^ j := h.sound.storage.pow_double hlt
      have hdouble : 2 * (w.view v).heads = 2 ^ (k + 1) := by rw [hk, Nat.pow_succ, Nat.mul_comm]
      rw [if_neg (Nat.not_le_of_lt hlt)]
      refine (h.spends_rehashView (Table.le_maxHeads hpow)).bind fun _ x hx => ?_
      have hrehashed := (shows_indifferent v l).rehash h hpow
      rw [hx] at hrehashed
      obtain ⟨hshows, hheads⟩ := hrehashed.of_ok
      exact spends_relieveView hfit fuel hshows (hheads.trans hdouble) (by omega)
    · exact .pure ()

theorem spends_reserveEntry (h : w.Shows v l) (ho : overloaded (w.view v).length (w.view v).heads = false) :
    w.Spends (reserveEntry v) := by
  unfold reserveEntry
  refine .read (run_readView v w) ?_
  split
  · rename_i hfull
    exact spends_reserveEntries (h.sound.room_double_le ho hfull)
  · exact .pure ()

theorem spends_reserveViewBucket (h : w.Shows v l) : w.Spends (reserveViewBucket v) := by
  unfold reserveViewBucket
  refine .read (run_readView v w) ?_
  split
  · rename_i hfull
    have hbuckets : Memory.tooBig (2 * (w.view v).capacity) viewBucketBytes = false := by
      have hused := h.sound.toIndexed.used_le
      have hheads : (w.view v).heads ≤ maxHeads := Table.le_maxHeads h.sound.storage.heads_pow
      have hfits := h.sound.fits
      have hroom := h.room_le
      refine Memory.tooBig_eq_false (by decide) ?_
      simp only [viewBucketBytes, bucketSize, Memory.wordSpan, maxHeads] at *
      omega
    cases (w.view v).bucketBlock with
    | none => exact spends_updateView (spends_allocateArray hbuckets) fun block V => V.withDoubledBuckets block
    | some b => exact spends_updateView (spends_reallocateArray hbuckets) fun block V => V.withDoubledBuckets block
  · exact .pure ()

/-- **Only a refused request keeps an entry from being appended**, if the limit admits more than there are. -/
theorem spends_appendEntry (h : w.Shows v l) (hfit : overloaded l.length maxHeads = false) {key : Bytes}
    (hnew : key ∉ l.map (·.1)) (value : Value) : w.Spends (appendEntry v key value) := by
  obtain ⟨k, _, hk⟩ := h.sound.storage.heads_pow
  have hfind : (w.view v).find key.fnv1a key = none :=
    Option.not_isSome_iff_eq_none.1 fun hfound => hnew ((h.isSome_find key).1 hfound)
  refine .congr (run_appendHashed_new hfind value) (.bind ?_ fun _ x _ => .of_ok rfl rfl)
  refine (spends_relieveView hfit 26 h hk (by omega)).bind fun _ x hx => ?_
  have hrelieved := (shows_indifferent v l).relieve 26 h hk (by omega)
  rw [hx] at hrelieved
  obtain ⟨hshows, ho⟩ := hrelieved.of_ok
  refine (hshows.spends_reserveEntry ho).bind fun _ y hy => ?_
  have hreserved := (shows_indifferent v l).reserveEntry hshows ho
  rw [hy] at hreserved
  exact hreserved.of_ok.1.spends_reserveViewBucket

/-- **An entry that is not appended** is one more than the limit admits, or a request was refused. -/
theorem denied_of_appendEntry (h : w.Shows v l) {key : Bytes} (hnew : key ∉ l.map (·.1)) {value : Value}
    (hr : appendEntry v key value w = (.error e, u)) :
    w.memory.Refused u.memory ∨ overloaded l.length maxHeads = true := by
  cases hfit : overloaded l.length maxHeads with
  | true => exact .inr rfl
  | false =>
    have hrefused := (h.spends_appendEntry hfit hnew value).refused e
    rw [hr] at hrefused
    exact .inl (hrefused rfl)

/-! ## Reading -/

/-- There are never so many keys that a list of them could not be asked for. -/
theorem spends_viewKeyList (h : w.Shows v l) : w.Spends (viewKeyList v) := by
  have hfits := h.sound.fits
  have hroom := h.room_le
  have hkeys : w.Spends (allocateElements (w.view v).length 8) := by
    refine spends_allocateElements (by decide) ?_
    simp only [maxHeads, Memory.wordSpan] at *
    omega
  unfold viewKeyList withScratch
  exact .read (run_readView v w) (hkeys.bind fun block x _ =>
    ⟨Memory.later_releaseOption _ _, fun e he => by cases he⟩)

end World.Shows

/-! ## New views -/

theorem spends_newView (hh : headsFor hint.toNat = some heads) : w.Spends (newView hint) := by
  by_cases hzero : hint = 0
  · rw [hzero]
    exact .of_ok (v := w.addView.2) rfl rfl
  obtain ⟨hlater, hrefused⟩ := (shows_addView w).spends_resizeView hh
  cases hr : resizeView w.addView.1 hint w.addView.2 with
  | mk r x =>
    rw [hr] at hlater hrefused
    cases r with
    | ok _ =>
      have hrun := run_newView_ok hzero hr
      exact ⟨by rw [hrun]; exact hlater, fun e he => by rw [hrun] at he; cases he⟩
    | error e =>
      have hrun := run_newView_error hzero hr
      exact ⟨by rw [hrun]; exact hlater, fun e' _ => by rw [hrun]; exact hrefused e rfl⟩

/-- **A view that is not made** was sized for too many entries, or a request was refused. -/
theorem denied_of_newView (hr : newView hint w = (.error e, u)) :
    w.memory.Refused u.memory ∨ headsFor hint.toNat = none := by
  cases hh : headsFor hint.toNat with
  | none => exact .inr rfl
  | some heads =>
    have hspends : w.Spends (newView hint) := spends_newView hh
    have hrefused := hspends.refused e
    rw [hr] at hrefused
    exact .inl (hrefused rfl)

end ValueCore
