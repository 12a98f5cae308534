import ValueCore.Proofs.Ledger.Tables
import ValueCore.Proofs.Operations.ViewBuilding

/-!
# The balance of views

A view has two arrays, and whatever asks for one of them is either refused and has changed nothing, or the array takes the
place of the one before (`reserveEntries_cases`, `rehashView_cases`). So sizing a view, appending to it and dropping it keep
the balance, also if the second array is refused after the first was granted.

Only making a view may lose something. If it cannot be sized then the view is given up with what it holds, and that is the
entry array if the index was what was refused (`resizeView_failed`). Such a view is spoilt (`World.Spoils`): it was to have
eight entries or more, and the allocator refused a request for it.
-/

namespace ValueCore

open World

variable {ε : Type} {w u : World ε} {v : ViewId} {spoilt : UInt32 → Prop} {beside : Multiset Holding}

/-! ## The two arrays -/

/-- An array that was granted is measured in a machine word. -/
theorem lt_of_allocateArray {count size : Nat} (hs : 0 < size) (hc : count + 1 < Memory.wordSpan) {b : Option Block}
    (h : allocateArray count size w = (.ok b, u)) : count * size < Memory.wordSpan := by
  unfold allocateArray at h
  cases hbig : Memory.tooBig count size with
  | true =>
    rw [hbig] at h
    cases h
  | false => exact (Memory.arrayBytes_eq hs hc hbig).2

theorem lt_of_reallocateArray {old new size : Nat} (hs : 0 < size) (hc : new + 1 < Memory.wordSpan) {b b' : Option Block}
    (h : reallocateArray b old new size w = (.ok b', u)) : new * size < Memory.wordSpan := by
  unfold reallocateArray at h
  cases hbig : Memory.tooBig new size with
  | true =>
    rw [hbig] at h
    cases h
  | false => exact (Memory.arrayBytes_eq hs hc hbig).2

/-- Work on a view that fails and has changed nothing, or that changes it in one way, and keeps the balance. -/
inductive World.Reworked (w : World ε) (v : ViewId) (beside : Multiset Holding) (f : Option Block → View → View) :
    Except Failure Unit × World ε → Prop
  | refused (e : Failure) {m : Memory} {s : Bytes} : (w.ledgered m s).Tallies beside →
    Reworked w v beside f (.error e, w.ledgered m s)
  | done (b : Option Block) {m : Memory} {s : Bytes} : ((w.modifyView v (f b)).ledgered m s).Tallies beside →
    Reworked w v beside f (.ok (), (w.modifyView v (f b)).ledgered m s)

theorem reserveEntries_cases (hw : w.Tallies beside) (hv : v.index < w.views.size) {capacity : Nat}
    (hlength : (w.view v).length ≤ capacity) (hcount : capacity + 1 < Memory.wordSpan) :
    w.Reworked v beside (fun b view => view.withEntryRoom capacity b) (reserveEntries v capacity w) := by
  have hfits := hw.views v
  obtain ⟨rest, hrest, hkeep, hmodify⟩ := hw.focusView hv
  have hold : (w.view v).holding + (rest + beside) =
      inBlock (w.view v).entryBlock ((w.view v).entryCapacity * viewEntryBytes) +
        (inBlock (w.view v).bucketBlock ((w.view v).capacity * viewBucketBytes) + (rest + beside)) := by
    rw [View.holding]
    ac_rfl
  rw [hold] at hrest
  have hask := obtained_reallocateArray (by decide : 0 < viewEntryBytes) hfits.entries hcount hrest
  unfold reserveEntries
  rw [run_bind_ok (run_readView v w)]
  cases hr : reallocateArray (w.view v).entryBlock (w.view v).entryCapacity capacity viewEntryBytes w with
  | mk r u =>
    have hlt := fun b (he : r = .ok b) => lt_of_reallocateArray (by decide : 0 < viewEntryBytes) hcount (he ▸ hr)
    rw [hr] at hask
    cases hask with
    | refused e hm =>
      rw [run_bind_error hr]
      exact .refused e (hkeep (hold ▸ hm))
    | @granted b m hm =>
      rw [run_bind_ok hr]
      refine .done b (s := w.message) (hmodify _ m w.message ⟨hlength, hlt b rfl, hfits.buckets⟩ ?_)
      have hnew : ((w.view v).withEntryRoom capacity b).holding + (rest + beside) = inBlock b (capacity * viewEntryBytes) +
          (inBlock (w.view v).bucketBlock ((w.view v).capacity * viewBucketBytes) + (rest + beside)) := by
        show inBlock (w.view v).bucketBlock ((w.view v).capacity * viewBucketBytes) + inBlock b (capacity * viewEntryBytes) +
          (rest + beside) = _
        ac_rfl
      rw [hnew]
      exact hm

theorem rehashView_cases (hw : w.Tallies beside) (hv : v.index < w.views.size) {heads : Nat} (hheads : heads ≤ 2 * maxHeads) :
    w.Reworked v beside (fun b view => view.rehashed heads b) (rehashView v heads w) := by
  have hfits := hw.views v
  have hcount : (w.view v).rehashedCapacity heads + 1 < Memory.wordSpan := by
    have hlength := hfits.length
    have hentries := hfits.entries
    rw [View.rehashedCapacity, Nat.max_eq_right hlength]
    simp only [viewEntryBytes, maxHeads, bucketSize, Memory.wordSpan] at *
    omega
  obtain ⟨rest, hrest, hkeep, hmodify⟩ := hw.focusView hv
  have hask := obtained_allocateArray (by decide : 0 < viewBucketBytes) hcount hrest
  unfold rehashView
  rw [run_bind_ok (run_readView v w)]
  cases hr : allocateArray ((w.view v).rehashedCapacity heads) viewBucketBytes w with
  | mk r u =>
    have hlt := fun b (he : r = .ok b) => lt_of_allocateArray (by decide : 0 < viewBucketBytes) hcount (he ▸ hr)
    rw [hr] at hask
    cases hask with
    | refused e hm =>
      rw [run_bind_error hr]
      exact .refused e (hkeep hm)
    | @granted b m hm =>
      rw [run_bind_ok hr, run_bind_ok (run_release _ _ _), ledgered_freed]
      obtain ⟨h1, h2, h3, h4, h5⟩ := (w.view v).rehashed_storage heads b
      have hnew : ((w.view v).rehashed heads b).holding =
          inBlock b ((w.view v).rehashedCapacity heads * viewBucketBytes) +
            inBlock (w.view v).entryBlock ((w.view v).entryCapacity * viewEntryBytes) := by
        rw [View.holding, h1, h2, h3, h4]
      have hfreed : (m.releaseOption (w.view v).bucketBlock ((w.view v).capacity * viewBucketBytes)).Tallies stateBytes
          (((w.view v).rehashed heads b).holding + (rest + beside)) := by
        refine Memory.Tallies.releaseOption ?_
        have hold : inBlock (w.view v).bucketBlock ((w.view v).capacity * viewBucketBytes) +
            (((w.view v).rehashed heads b).holding + (rest + beside)) =
            inBlock b ((w.view v).rehashedCapacity heads * viewBucketBytes) + ((w.view v).holding + (rest + beside)) := by
          rw [hnew, View.holding]
          ac_rfl
        rw [hold]
        exact hm
      exact .done b (s := w.message) (hmodify _ _ w.message
        ⟨by rw [h5, h1]; exact hfits.length, by rw [h1]; exact hfits.entries, by rw [h3]; exact hlt b rfl⟩ hfreed)

/-! ## Sizing and appending -/

/-- A view after work on it that keeps the balance and its entries. -/
structure World.Serves (w : World ε) (v : ViewId) (beside : Multiset Holding) (u : World ε) : Prop where
  tallies : u.Tallies beside
  views : u.views.size = w.views.size
  trail : u.trail = w.trail
  length : (u.view v).length = (w.view v).length
  room : (w.view v).length < (w.view v).entryCapacity → (u.view v).length < (u.view v).entryCapacity

namespace World.Serves

theorem ledgered {m : Memory} {s : Bytes} (h : (w.ledgered m s).Tallies beside) : w.Serves v beside (w.ledgered m s) :=
  ⟨h, rfl, rfl, rfl, id⟩

theorem trans {x : World ε} (h : w.Serves v beside u) (h' : u.Serves v beside x) : w.Serves v beside x :=
  ⟨h'.tallies, h'.views.trans h.views, h'.trail.trans h.trail, h'.length.trans h.length, fun hr => h'.room (h.room hr)⟩

theorem retains (h : w.Serves v beside u) : w.Retains u := .of_eq h.views h.trail

end World.Serves

/-- The world that work on a view leaves has the view there. -/
theorem World.Reworked.serves {f : Option Block → View → View} {r : Except Failure Unit × World ε}
    (h : w.Reworked v beside f r) (hv : v.index < w.views.size) (hlength : ∀ b view, (f b view).length = view.length)
    (hroom : ∀ b, (w.view v).length < (w.view v).entryCapacity → (w.view v).length < (f b (w.view v)).entryCapacity) :
    w.Serves v beside r.2 := by
  cases h with
  | refused e hm => exact .ledgered hm
  | @done b m s hm =>
    have hview : ((w.modifyView v (f b)).ledgered m s).view v = f b (w.view v) := view_modifyView hv
    exact ⟨hm, Array.size_modify .., rfl, by rw [hview, hlength], fun hr => by rw [hview, hlength]; exact hroom b hr⟩

theorem rehashView_serves (hw : w.Tallies beside) (hv : v.index < w.views.size) {heads : Nat}
    (hheads : heads ≤ 2 * maxHeads) : w.Serves v beside (rehashView v heads w).2 :=
  (rehashView_cases hw hv hheads).serves hv (fun b view => (view.rehashed_storage heads b).2.2.2.2)
    fun b hr => by rw [((w.view v).rehashed_storage heads b).1]; exact hr

theorem reserveEntries_serves (hw : w.Tallies beside) (hv : v.index < w.views.size) {capacity : Nat}
    (hcapacity : (w.view v).entryCapacity ≤ capacity) (hcount : capacity + 1 < Memory.wordSpan) :
    w.Serves v beside (reserveEntries v capacity w).2 :=
  (reserveEntries_cases hw hv (Nat.le_trans (hw.views v).length hcapacity) hcount).serves hv (fun _ _ => rfl)
    fun _ hr => Nat.lt_of_lt_of_le hr hcapacity

theorem resizeView_serves (hw : w.Tallies beside) (hv : v.index < w.views.size) (hint : UInt32) :
    w.Serves v beside (resizeView v hint w).2 := by
  unfold resizeView
  rcases run_chooseHeads hint w with hc | ⟨heads, hheads, _, hc⟩
  · rw [run_bind_error hc]
    exact .ledgered (hw.message _)
  rw [run_bind_ok hc, run_bind_ok (run_readView v w)]
  have hrehash : ∀ {u : World ε}, w.Serves v beside u →
      w.Serves v beside ((if 1 < heads then rehashView v heads else pure ()) u).2 := by
    intro u hu
    split
    · exact hu.trans (rehashView_serves hu.tallies (hu.views ▸ hv) (by omega))
    · exact hu
  split
  · rename_i hlt
    have hcount : hint.toNat + 1 < Memory.wordSpan := by
      have hbound := hint.toNat_lt
      simp only [Memory.wordSpan] at *
      omega
    exact holds_bind (reserveEntries_serves hw hv (Nat.le_of_lt hlt) hcount) fun _ _ _ hu => hrehash hu
  · exact hrehash (.ledgered hw)

theorem relieveView_serves : ∀ (fuel : Nat) {w : World ε}, w.Tallies beside → v.index < w.views.size →
    w.Serves v beside (relieveView v fuel w).2
  | 0, w, hw, _ => .ledgered hw
  | fuel + 1, w, hw, hv => by
    unfold relieveView
    rw [run_bind_ok (run_readView v w)]
    dsimp only
    split
    · split
      · exact .ledgered (hw.message _)
      · rename_i hmax
        have hheads : 2 * (w.view v).heads ≤ 2 * maxHeads := by omega
        exact holds_bind (rehashView_serves hw hv hheads) fun _ u _ hu =>
          hu.trans (relieveView_serves fuel hu.tallies (hu.views ▸ hv))
    · exact .ledgered hw

/-- There is room for an entry afterwards. -/
theorem reserveEntry_serves (hw : w.Tallies beside) (hv : v.index < w.views.size) :
    w.Serves v beside (reserveEntry v w).2 ∧
      ∀ u, reserveEntry v w = (.ok (), u) → (u.view v).length < (u.view v).entryCapacity := by
  have hfits := hw.views v
  unfold reserveEntry
  rw [run_bind_ok (run_readView v w)]
  split
  · rename_i hfull
    generalize hcapacity : (if (w.view v).entryCapacity = 0 then 1 else 2 * (w.view v).entryCapacity) = capacity
    have hmore : (w.view v).length < capacity := by
      rw [← hcapacity]
      split <;> omega
    have hcount : capacity + 1 < Memory.wordSpan := by
      have hentries := hfits.entries
      simp only [viewEntryBytes, Memory.wordSpan] at *
      rw [← hcapacity]
      split <;> omega
    refine ⟨reserveEntries_serves hw hv (hfull ▸ Nat.le_of_lt hmore) hcount, fun u hr => ?_⟩
    have hcases := reserveEntries_cases hw hv (Nat.le_of_lt hmore) hcount
    rw [hr] at hcases
    cases hcases with
    | @done b m s hm =>
      have hview : ((w.modifyView v fun view => view.withEntryRoom capacity b).ledgered m s).view v = _ := view_modifyView hv
      rw [hview]
      exact hmore
  · rename_i hroom
    refine ⟨.ledgered hw, fun u hr => ?_⟩
    cases hr
    exact Nat.lt_of_le_of_ne hfits.length hroom

/-- Buckets are doubled when an array of twice the size is granted in place of the one there is. -/
theorem doubledBuckets_cases (hw : w.Tallies beside) (hv : v.index < w.views.size) {ask : Run ε (Option Block)}
    (hlt : ∀ b u, ask w = (.ok b, u) → 2 * (w.view v).capacity * viewBucketBytes < Memory.wordSpan)
    (hask : ∀ {rest}, w.memory.Tallies stateBytes
        (inBlock (w.view v).bucketBlock ((w.view v).capacity * viewBucketBytes) + rest) →
      w.Obtained (inBlock (w.view v).bucketBlock ((w.view v).capacity * viewBucketBytes) + rest) rest
        (2 * (w.view v).capacity * viewBucketBytes) (ask w)) :
    w.Reworked v beside (fun b view => view.withDoubledBuckets b)
      ((ask >>= fun block => updateView v (·.withDoubledBuckets block)) w) := by
  have hfits := hw.views v
  obtain ⟨rest, hrest, hkeep, hmodify⟩ := hw.focusView hv
  rw [View.holding, add_assoc] at hrest
  have hasked := hask hrest
  cases hr : ask w with
  | mk r u =>
    rw [hr] at hasked
    cases hasked with
    | refused e hm =>
      rw [run_bind_error hr]
      rw [← add_assoc, ← View.holding] at hm
      exact .refused e (hkeep hm)
    | @granted b m hm =>
      rw [run_bind_ok hr]
      rw [← add_assoc] at hm
      exact .done b (s := w.message) (hmodify _ m w.message ⟨hfits.length, hfits.entries, hlt b _ hr⟩ hm)

theorem reserveViewBucket_serves (hw : w.Tallies beside) (hv : v.index < w.views.size) :
    w.Serves v beside (reserveViewBucket v w).2 := by
  have hbuckets := (hw.views v).buckets
  have hcount : 2 * (w.view v).capacity + 1 < Memory.wordSpan := by
    simp only [viewBucketBytes, Memory.wordSpan] at *
    omega
  have hpos : 0 < viewBucketBytes := by decide
  unfold reserveViewBucket
  rw [run_bind_ok (run_readView v w)]
  split
  · cases hb : (w.view v).bucketBlock with
    | none =>
      refine (doubledBuckets_cases hw hv (fun b u hr => lt_of_allocateArray hpos hcount hr) fun {rest} hrest => ?_).serves hv
        (fun _ _ => rfl) fun _ hr => hr
      rw [hb, inBlock_none, zero_add] at hrest ⊢
      exact obtained_allocateArray hpos hcount hrest
    | some b =>
      refine (doubledBuckets_cases hw hv (fun b u hr => lt_of_reallocateArray hpos hcount hr) fun {rest} hrest => ?_).serves
        hv (fun _ _ => rfl) fun _ hr => hr
      rw [hb] at hrest ⊢
      exact obtained_reallocateArray hpos hbuckets hcount hrest
  · exact .ledgered hw

theorem World.Serves.conserves (h : ∀ beside, w.Tallies beside → w.Serves v beside u) : Conserves spoilt w u :=
  .keep fun {beside} hw => ⟨(h beside hw).tallies, (h beside hw).retains⟩

theorem resizeView_conserves (hv : v.index < w.views.size) (hint : UInt32) :
    Conserves spoilt w (resizeView v hint w).2 := Serves.conserves fun _ hw => resizeView_serves hw hv hint

/-- Writing to a view without touching its storage. -/
theorem World.Tallies.writeView (hw : w.Tallies beside) (v : ViewId) {f : View → View}
    (hs : View.SameStorage (w.view v) (f (w.view v))) (hlength : (f (w.view v)).length ≤ (w.view v).entryCapacity) :
    (w.modifyView v f).Tallies beside := by
  by_cases hv : v.index < w.views.size
  · obtain ⟨h1, h2, h3, h4⟩ := hs
    have hfits := hw.views v
    obtain ⟨rest, hrest, _, hmodify⟩ := hw.focusView hv
    refine hmodify f w.memory w.message ⟨?_, ?_, ?_⟩ ?_
    · rw [h1]
      exact hlength
    · rw [h1]
      exact hfits.entries
    · rw [h3]
      exact hfits.buckets
    · rw [View.holding, h1, h2, h3, h4]
      exact hrest
  · rw [modifyView_of_not_has hv]
    exact hw

/-- **Appending to a view** loses nothing, wherever it is refused memory. -/
theorem appendHashed_conserves (hv : v.index < w.views.size) (hash : UInt32) (key : Bytes) (value : Value) :
    Conserves spoilt w (appendHashed v hash key value w).2 := by
  refine .keep fun {beside} hw => ?_
  unfold appendHashed
  rw [run_bind_ok (run_readView v w)]
  split
  · exact ⟨hw.message _, .of_eq rfl rfl⟩
  have hend : ∀ {u : World ε}, w.Serves v beside u → u.Tallies beside ∧ w.Retains u := fun hu => ⟨hu.tallies, hu.retains⟩
  have hrelieved := relieveView_serves 26 hw hv
  refine holds_bind (P := fun u => u.Tallies beside ∧ w.Retains u) (hend hrelieved) fun _ x hx _ => ?_
  rw [hx] at hrelieved
  obtain ⟨hreserved, hroom⟩ := reserveEntry_serves hrelieved.tallies (hrelieved.views ▸ hv)
  have hreserved := hrelieved.trans hreserved
  refine holds_bind (P := fun u => u.Tallies beside ∧ w.Retains u) (hend hreserved) fun _ y hy _ => ?_
  rw [hy] at hreserved
  have hbucket := reserveViewBucket_serves hreserved.tallies (hreserved.views ▸ hv)
  have hbucketed := hreserved.trans hbucket
  refine holds_bind (P := fun u => u.Tallies beside ∧ w.Retains u) (hend hbucketed) fun _ z hz _ => ?_
  rw [hz] at hbucket hbucketed
  refine ⟨hbucket.tallies.writeView v (View.sameStorage_push _ hash key value) ?_, hbucketed.retains.trans (.modifyView v _)⟩
  rw [View.length_push]
  exact hbucket.room (hroom y hy)

theorem setEntry_conserves (v : ViewId) (key : Bytes) (value : Value) (w : World ε) :
    Conserves spoilt w (setEntry v key value w).2 := by
  refine .keep fun {beside} hw => ?_
  unfold setEntry
  rw [run_bind_ok (run_readView v w)]
  cases (w.view v).find key.fnv1a key with
  | none => exact ⟨hw, .of_eq rfl rfl⟩
  | some p =>
    have hlength : ((w.view v).setValue p value).length = (w.view v).length := Array.size_modify ..
    exact ⟨hw.writeView v ⟨rfl, rfl, rfl, rfl⟩ (hlength ▸ (hw.views v).length), .modifyView v _⟩

/-! ## Making and dropping views -/

/-- What a view that is given up still holds is held by nobody. -/
theorem World.Tallies.abandon (hw : w.Tallies beside) (hv : v.index < w.views.size) :
    (w.modifyView v fun _ => View.empty).Tallies (beside + (w.view v).holding) := by
  obtain ⟨rest, hrest, _, hmodify⟩ := hw.focusView hv
  refine hmodify (fun _ => View.empty) w.memory w.message View.fits_empty ?_
  have hnone : View.empty.holding = 0 := rfl
  have hall : View.empty.holding + (rest + (beside + (w.view v).holding)) = (w.view v).holding + (rest + beside) := by
    rw [hnone, zero_add]
    ac_rfl
  rw [hall]
  exact hrest

/-- A view that is dropped gives back what it holds. -/
theorem World.Tallies.dropView (hw : w.Tallies beside) (v : ViewId) : (w.dropView v).Tallies beside := by
  by_cases hv : v.index < w.views.size
  · obtain ⟨rest, hrest, _, hmodify⟩ := hw.focusView hv
    have hnone : View.empty.holding = 0 := rfl
    refine hmodify (fun _ => View.empty) ((w.memory.releaseOption (w.view v).bucketBlock
      ((w.view v).capacity * viewBucketBytes)).releaseOption (w.view v).entryBlock
        ((w.view v).entryCapacity * viewEntryBytes)) w.message View.fits_empty ?_
    rw [hnone, zero_add]
    rw [View.holding, add_assoc] at hrest
    exact hrest.releaseOption.releaseOption
  · have hview : w.view v = View.empty := by
      rw [view, Array.getD_eq_getD_getElem?, Array.getElem?_eq_none (Nat.le_of_not_lt hv)]
      rfl
    have hdrop : w.dropView v = w.modifyView v fun _ => View.empty := by
      unfold World.dropView
      rw [hview]
      rfl
    rw [hdrop, modifyView_of_not_has hv]
    exact hw

theorem eight_le_of_heads {hint heads : Nat} (h : headsFor hint = some heads) (hheads : 1 < heads) : 8 ≤ hint := by
  by_contra hlt
  have ho : overloaded hint 1 = false := by simp [overloaded, hlt]
  have hone : headsFor hint = some 1 := by simp [headsFor, headsFrom, ho]
  rw [h] at hone
  cases hone
  exact Nat.lt_irrefl _ hheads

/-- **What a view holds that could not be sized**: nothing, or an entry array if it was to have several chains. -/
theorem resizeView_failed (hw : w.Tallies beside) (hv : v.index < w.views.size) (hempty : w.view v = View.empty)
    {hint : UInt32} {e : Failure} (hr : resizeView v hint w = (.error e, u)) :
    u.view v = View.empty ∨ ∃ heads b, headsFor hint.toNat = some heads ∧ 1 < heads ∧
      u.view v = View.empty.withEntryRoom hint.toNat b := by
  unfold resizeView at hr
  rcases run_chooseHeads hint w with hc | ⟨heads, hheads, hfor, hc⟩
  · rw [run_bind_error hc] at hr
    cases hr
    exact .inl hempty
  rw [run_bind_ok hc, run_bind_ok (run_readView v w)] at hr
  -- once the entries are settled only rebuilding the index can fail, and it then changes nothing
  have hrehash : ∀ {x : World ε}, x.Tallies beside → x.views.size = w.views.size →
      (if 1 < heads then rehashView v heads else pure ()) x = (.error e, u) →
        u.view v = x.view v ∧ 1 < heads := by
    intro x hx hviews hr
    split at hr
    · rename_i hlt
      have hcases := rehashView_cases hx (hviews ▸ hv) (show heads ≤ 2 * maxHeads by omega)
      rw [hr] at hcases
      cases hcases with
      | refused e hm => exact ⟨rfl, hlt⟩
    · cases hr
  split at hr
  · rename_i hlt
    have hcount : hint.toNat + 1 < Memory.wordSpan := by
      have hbound := hint.toNat_lt
      simp only [Memory.wordSpan] at *
      omega
    have hcases := reserveEntries_cases hw hv (Nat.le_trans (hw.views v).length (Nat.le_of_lt hlt)) hcount
    rw [run_bind] at hr
    cases hreserve : reserveEntries v hint.toNat w with
    | mk r x =>
      rw [hreserve] at hcases hr
      cases hcases with
      | refused e' hm =>
        cases hr
        exact .inl hempty
      | @done b m s hm =>
        obtain ⟨hview, hseveral⟩ := hrehash hm (Array.size_modify ..) hr
        have hx : ((w.modifyView v fun view => view.withEntryRoom hint.toNat b).ledgered m s).view v =
            (w.view v).withEntryRoom hint.toNat b := view_modifyView hv
        exact .inr ⟨heads, b, hfor, hseveral, by rw [hview, hx, hempty]⟩
  · obtain ⟨hview, _⟩ := hrehash hw rfl hr
    exact .inl (hview.trans hempty)

/-- What an empty view with room for entries holds is an entry array. -/
theorem entryArray_of_mem {hint : UInt32} (hspoilt : spoilt hint) (height : 8 ≤ hint.toNat) {b : Option Block} {x : Holding}
    (hx : x ∈ (View.empty.withEntryRoom hint.toNat b).holding) : EntryArray spoilt x := by
  have hholding : (View.empty.withEntryRoom hint.toNat b).holding = inBlock b (hint.toNat * viewEntryBytes) := zero_add _
  rw [hholding] at hx
  cases b with
  | none => cases hx
  | some b => exact ⟨hint, hspoilt, height, by rw [Multiset.mem_singleton.1 hx]⟩

/-- A new view is empty and holds nothing. -/
theorem World.Tallies.addView (hw : w.Tallies beside) : w.addView.2.Tallies beside := by
  refine ⟨?_, fun t => (table_congr rfl rfl t : w.addView.2.table t = w.table t) ▸ hw.tables t, fun u => ?_⟩
  · have hnone : View.empty.holding = 0 := rfl
    have hall : w.addView.2.holdings = w.holdings := by
      simp only [World.addView, World.holdings, heldIn_push, hnone, zero_add]
    rw [hall]
    exact hw.ledger
  · by_cases hu : u.index = w.views.size
    · have heq : w.addView.2.view u = View.empty := by
        rw [view, hu]
        exact getD_push_self _ _
      rw [heq]
      exact View.fits_empty
    · have heq : w.addView.2.view u = w.view u := getD_push_of_ne _ _ hu
      rw [heq]
      exact hw.views u

/-- A view for so many entries, eight or more, is spoilt: there is no memory to size it, as the allocator refuses one of the
requests for it. -/
structure World.Spoils (w : World ε) (hint : UInt32) : Prop where
  many : 8 ≤ hint.toNat
  failed : (newView hint w).1 = .error (.raised .memory)
  refused : w.memory.Refused (newView hint w).2.memory

/-- Only the allocator fails a view that gets several chains. -/
theorem spoils_of_heads {hint : UInt32} {heads : Nat} (hheads : headsFor hint.toNat = some heads) (hseveral : 1 < heads)
    {e : Failure} (hr : newView hint w = (.error e, u)) : w.Spoils hint := by
  have hspends : w.Spends (newView hint) := spends_newView hheads
  refine ⟨eight_le_of_heads hheads hseveral, ?_, hspends.refused e (by rw [hr])⟩
  rcases run_newView hint w with ⟨x, hx⟩ | ⟨_, x, hx, -⟩
  · rw [hx]
  · cases hr.symm.trans hx

/-- **Making a view** loses the entry array at most, and that only if the view is spoilt. -/
theorem newView_conserves {hint : UInt32} (h : w.Spoils hint → spoilt hint) : Conserves spoilt w (newView hint w).2 := by
  intro beside hw
  have hadded := hw.addView
  have hretains : w.Retains w.addView.2 := ⟨Nat.le_of_lt (by simp [World.addView]), id⟩
  have hv := has_addView w
  have hempty := view_addView w
  have hserves := resizeView_serves hadded hv hint
  by_cases hzero : hint = 0
  · rw [hzero]
    exact ⟨0, by simp, by rw [add_zero]; exact hadded, hretains⟩
  cases hr : resizeView w.addView.1 hint w.addView.2 with
  | mk r u =>
    rw [hr] at hserves
    have hkept := hretains.trans hserves.retains
    cases r with
    | ok =>
      rw [run_newView_ok hzero hr]
      exact ⟨0, by simp, by rw [add_zero]; exact hserves.tallies, hkept⟩
    | error e =>
      have hrun := run_newView_error hzero hr
      rw [hrun]
      refine ⟨(u.view w.addView.1).holding, fun x hx => ?_, hserves.tallies.abandon (hserves.views ▸ hv),
        hkept.trans (.modifyView _ _)⟩
      rcases resizeView_failed hadded hv hempty hr with hview | ⟨heads, b, hheads, hseveral, hview⟩
      · rw [hview] at hx
        cases hx
      · rw [hview] at hx
        exact entryArray_of_mem (h (spoils_of_heads hheads hseveral hrun)) (eight_le_of_heads hheads hseveral) hx

/-! ## Views of tables -/

/-- One thing after the other, where no view is gone meanwhile. -/
theorem World.Conserves.bind {α β : Type} {act : Run ε α} {k : α → Run ε β} (h : Conserves spoilt w (act w).2)
    (hk : ∀ a u, act w = (.ok a, u) → w.Retains u → Conserves spoilt u (k a u).2) :
    Conserves spoilt w ((act >>= k) w).2 := by
  intro beside hw
  obtain ⟨lost, hl, hu, hkept⟩ := h beside hw
  rw [run_bind]
  cases hr : act w with
  | mk r u =>
    rw [hr] at hu hkept
    cases r with
    | error e => exact ⟨lost, hl, hu, hkept⟩
    | ok a =>
      obtain ⟨lost', hl', hx, hkept'⟩ := hk a u hr hkept (beside + lost) hu
      refine ⟨lost + lost', fun x hx => (Multiset.mem_add.1 hx).elim (hl x) (hl' x), ?_, hkept.trans hkept'⟩
      rw [← add_assoc]
      exact hx

theorem appendKeys_conserves (t : TableId .text) : ∀ (keys : List Bytes) {w : World ε}, v.index < w.views.size →
    Conserves spoilt w (appendKeys v t keys w).2
  | [], w, _ => .refl w
  | key :: keys, w, hv => by
    have hlookup : Conserves spoilt w (lookup textKeying t key w).2 := Upholds.lookup Upholds.textKeying_upholds t key w
    have hone : Conserves spoilt w ((lookup textKeying t key >>= fun value => appendEntry v key (value.getD .none)) w).2 :=
      hlookup.bind fun value u _ hkept => appendHashed_conserves (Nat.lt_of_lt_of_le hv hkept.views) _ key _
    exact hone.bind fun _ u _ hkept => appendKeys_conserves t keys (Nat.lt_of_lt_of_le hv hkept.views)

/-- A view of a table is dropped if it cannot be filled, and then gives back what it holds. -/
theorem viewOfTable_conserves (t : TableId .text)
    (h : w.Spoils (w.table t).length.toUInt32 → spoilt (w.table t).length.toUInt32) :
    Conserves spoilt w (viewOfTable t w).2 := by
  unfold viewOfTable
  rw [run_bind_ok (run_readTable t w)]
  refine (newView_conserves h).bind fun v u hr _ => ?_
  have hv : v.index < u.views.size := by
    rcases run_newView (w.table t).length.toUInt32 w with ⟨x, hx⟩ | ⟨v', x, hx, hshows⟩
    · rw [hr] at hx
      cases hx
    · rw [hr] at hx
      cases hx
      exact hshows.has
  have hfill : Conserves spoilt u (withScratch (w.table t).length 8 (appendKeys v t (sortBy id (w.table t).keys)) u).2 :=
    withScratch_conserves _ 8 fun m text =>
      appendKeys_conserves t _ (show v.index < (u.ledgered m text).views.size from hv)
  unfold orDropView
  cases hfilled : withScratch (w.table t).length 8 (appendKeys v t (sortBy id (w.table t).keys)) u with
  | mk r x =>
    rw [hfilled] at hfill
    cases r with
    | ok => exact hfill
    | error e => exact hfill.trans (.keep fun hx => ⟨hx.dropView v, .of_eq (Array.size_modify ..) rfl⟩)

end ValueCore
