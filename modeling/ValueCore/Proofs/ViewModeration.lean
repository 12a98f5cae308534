import ValueCore.Proofs.Moderation
import ValueCore.Proofs.Presizing
import ValueCore.Proofs.ViewUpkeep

/-!
# Views of moderate load

What holds of tables (`Proofs.Moderation`) holds of views. An append sees to it that the view is not overloaded before it
writes its entry, so a view has eight entries at most, or 6.5 on average on each chain (`View.Moderate`). Its other counters
grow by rules of their own, and the load bounds them as well.

| counter | where it grows | what bounds it |
| --- | --- | --- |
| chains | an append doubles them, up to `maxHeads` | the limit |
| room for entries | a size hint, or twice the entries when there are as many | hints and loads end at 6.5 for each chain |
| buckets at hand | when the index is rebuilt: as many as there may be entries for | the chains and the room for entries |
| | when all are in use: twice as many | the chains and the entries (`View.Indexed.used_le`) |

Nothing but an append refuses to add buckets or room for entries, so that there is a limit to them follows from the load.

A view is sized when it is made, and may be sized anew as long as it has no entries. That is essential here: sized for few
when it has many, it would have fewer chains than it needs. `WellKept v w` says that `v` has been kept in this way, whatever
else has happened in the world.
-/

namespace ValueCore

open World

variable {ε α : Type} {w u : World ε} {v : ViewId}

namespace View

variable {V : View} {heads : Nat}

/-- In order, with no more entries than 6.5 on each chain, or eight, and with storage within its limits. -/
structure Moderate (V : View) : Prop extends V.Sound where
  load : 2 * V.length ≤ max 16 (13 * V.heads)
  room_le : V.entryCapacity ≤ 13 * maxHeads
  capacity_le : V.capacity ≤ 4 * maxHeads

theorem moderate_empty : View.empty.Moderate := ⟨sound_empty, by decide, Nat.zero_le _, by decide +kernel⟩

namespace Moderate

theorem heads_le (h : V.Moderate) : V.heads ≤ maxHeads := Table.le_maxHeads h.storage.heads_pow

theorem length_le (h : V.Moderate) : 2 * V.length ≤ 13 * maxHeads := by
  have hload := h.load
  have hheads := h.heads_le
  simp only [maxHeads] at hheads ⊢
  omega

theorem rehashedCapacity_le (h : V.Moderate) (hp : ∃ k ≤ 24, heads = 2 ^ k) : V.rehashedCapacity heads ≤ 4 * maxHeads := by
  have hfits := h.fits
  have hle := h.room_le
  have hmax := Table.le_maxHeads hp
  simp only [rehashedCapacity, bucketSize, maxHeads] at hmax hle ⊢
  omega

/-- The index may be rebuilt for as many chains as the entries need. -/
theorem rehashed (h : V.Moderate) (hp : ∃ k ≤ 24, heads = 2 ^ k) (hload : 2 * V.length ≤ max 16 (13 * heads))
    (block : Option Block) : (V.rehashed heads block).Moderate := by
  obtain ⟨hroom, -, hcapacity, -, hlength⟩ := V.rehashed_storage heads block
  obtain ⟨hsound, -, hheads⟩ := h.toSound.rehashed hp block
  exact ⟨hsound, by rw [hlength, hheads]; exact hload, hroom ▸ h.room_le, hcapacity ▸ h.rehashedCapacity_le hp⟩

theorem withEntryRoom (h : V.Moderate) {capacity : Nat} (hfits : V.length ≤ capacity) (hle : capacity ≤ 13 * maxHeads)
    (block : Option Block) : (V.withEntryRoom capacity block).Moderate :=
  ⟨h.toSound.withEntryRoom hfits block, h.load, hle, h.capacity_le⟩

/-- When all buckets are in use there are not that many. -/
theorem withDoubledBuckets (h : V.Moderate) (hfull : V.used = V.capacity) (block : Option Block) :
    (V.withDoubledBuckets block).Moderate := by
  refine ⟨h.toSound.withDoubledBuckets block, h.load, h.room_le, ?_⟩
  have hused := h.used_le
  have hheads := h.heads_le
  have hlength := h.length_le
  show 2 * V.capacity ≤ 4 * maxHeads
  simp only [bucketSize, maxHeads] at hused hheads hlength ⊢
  omega

theorem push (h : V.Moderate) (ho : overloaded V.length V.heads = false) (hroom : V.used < V.capacity)
    (hfits : V.length < V.entryCapacity) (hash : UInt32) (key : Bytes) (value : Value) :
    (V.push hash key value).Moderate := by
  obtain ⟨-, hheads, hcapacity, hentries⟩ := place_frame { V with entries := V.entries.push ⟨hash, key, value⟩ } hash V.length
  refine ⟨h.toSound.push hash key value hroom hfits, ?_, ?_, ?_⟩
  · rw [length_push, View.push, hheads]
    exact load_succ h.storage.heads_pow ho
  · rw [View.push, hentries]
    exact h.room_le
  · rw [View.push, hcapacity]
    exact h.capacity_le

theorem setValue (h : V.Moderate) (p : Nat) (value : Value) : (V.setValue p value).Moderate := by
  have hlength : (V.setValue p value).length = V.length := Array.size_modify ..
  exact ⟨h.toSound.setValue p value, hlength ▸ h.load, h.room_le, h.capacity_le⟩

end Moderate

end View

/-! ## Work on a view -/

/-- A view that is there and within the bounds. -/
def World.ModerateView (v : ViewId) (w : World ε) : Prop := v.index < w.views.size ∧ (w.view v).Moderate

/-- There is room in the view for another entry. -/
structure View.Roomy (V : View) : Prop where
  chains : overloaded V.length V.heads = false
  entries : V.length < V.entryCapacity
  buckets : V.used < V.capacity

namespace World.ModerateView

variable {x : Run ε α}

theorem same (h : w.ModerateView v) (hv : v.index < u.views.size) (hview : u.view v = w.view v) : u.ModerateView v :=
  ⟨hv, hview ▸ h.2⟩

theorem of_views (h : w.ModerateView v) (hu : u.views = w.views) : u.ModerateView v := h.same (hu ▸ h.1) (view_of_views hu v)

theorem write (h : w.ModerateView v) {f : View → View} (hf : (f (w.view v)).Moderate) : (w.modifyView v f).ModerateView v :=
  ⟨(Array.size_modify ..).symm ▸ h.1, view_modifyView h.1 ▸ hf⟩

theorem asks (h : w.ModerateView v) (ha : Asks w x) : Leaves (ModerateView v) (fun _ u => u.views = w.views) (x w) := by
  rcases ha.outcome_views with ⟨u, hu, hr⟩ | ⟨u, a, hu, hr⟩
  · rw [hr]
    exact .refused (h.of_views hu)
  · rw [hr]
    exact .ok (h.of_views hu) hu

theorem rehash (h : w.ModerateView v) {heads : Nat} (hp : ∃ k ≤ 24, heads = 2 ^ k)
    (hload : 2 * (w.view v).length ≤ max 16 (13 * heads)) :
    Leaves (ModerateView v) (fun _ u => (u.view v).heads = heads ∧ (u.view v).length = (w.view v).length)
      (rehashView v heads w) := by
  unfold rehashView
  rw [run_bind_ok (run_readView v w)]
  refine (h.asks (asks_allocateArray _ _)).bind fun block u hu hviews => ?_
  rw [run_bind_ok (run_release _ _ u)]
  have hview := view_of_views hviews v
  have hfreed := hu.of_views (u := u.freed (w.view v).bucketBlock ((w.view v).capacity * viewBucketBytes)) rfl
  obtain ⟨-, hentries, hheads⟩ := hfreed.2.toSound.rehashed hp block
  refine .ok (hfreed.write (hfreed.2.rehashed hp (hview ▸ hload) block)) ?_
  rw [view_modifyView hfreed.1]
  exact ⟨hheads, (congrArg Array.size hentries).trans (congrArg View.length hview)⟩

theorem reserveEntries (h : w.ModerateView v) {capacity : Nat} (hfits : (w.view v).length ≤ capacity)
    (hle : capacity ≤ 13 * maxHeads) :
    Leaves (ModerateView v) (fun _ u => (u.view v).entryCapacity = capacity ∧ (u.view v).heads = (w.view v).heads ∧
      (u.view v).length = (w.view v).length) (reserveEntries v capacity w) := by
  unfold ValueCore.reserveEntries
  rw [run_bind_ok (run_readView v w)]
  refine (h.asks (asks_reallocateArray _ _ _ _)).bind fun block u hu hviews => ?_
  have hview := view_of_views hviews v
  refine .ok (hu.write (hu.2.withEntryRoom (hview ▸ hfits) hle block)) ?_
  rw [view_modifyView hu.1, hview]
  exact ⟨rfl, rfl, rfl⟩

/-! ### Appending -/

/-- With twice as many chains a view is not overloaded. -/
theorem double (h : w.ModerateView v) (hmax : ¬ maxHeads ≤ (w.view v).heads) :
    Leaves (ModerateView v) (fun _ u => overloaded (u.view v).length (u.view v).heads = false)
      (rehashView v (2 * (w.view v).heads) w) := by
  have hheads := h.2.storage.heads_pos
  have hload := h.2.load
  have hp : ∃ k ≤ 24, 2 * (w.view v).heads = 2 ^ k := h.2.storage.pow_double (Nat.lt_of_not_le hmax)
  refine (h.rehash hp (by omega)).mono fun _ u hu => ?_
  rw [hu.1, hu.2]
  exact overloaded_double hheads hload

/-- **The chains are doubled at most once.** What the loop would do if it went on is nothing. -/
theorem relieve (h : w.ModerateView v) (fuel : Nat) :
    Leaves (ModerateView v) (fun _ u => overloaded (u.view v).length (u.view v).heads = false)
      (relieveView v (fuel + 2) w) := by
  rw [relieveView, run_bind_ok (run_readView v w)]
  dsimp only
  split
  · split
    · exact .refused (h.of_views rfl)
    · rename_i hmax
      refine (h.double hmax).bind fun _ u hu ho => ?_
      rw [run_relieveView_idle ho]
      exact .ok hu ho
  · rename_i ho
    exact .ok h (Bool.eq_false_iff.2 ho)

theorem reserveEntry (h : w.ModerateView v) (ho : overloaded (w.view v).length (w.view v).heads = false) :
    Leaves (ModerateView v) (fun _ u => overloaded (u.view v).length (u.view v).heads = false ∧
      (u.view v).length < (u.view v).entryCapacity) (reserveEntry v w) := by
  unfold ValueCore.reserveEntry
  rw [run_bind_ok (run_readView v w)]
  split
  · rename_i hfull
    have hmore : (w.view v).length < if (w.view v).entryCapacity = 0 then 1 else 2 * (w.view v).entryCapacity := by
      split <;> omega
    have hle := h.2.room_double_le ho hfull
    refine (h.reserveEntries (Nat.le_of_lt hmore) hle).mono fun _ u hu => ?_
    obtain ⟨hcap, hheads, hlen⟩ := hu
    rw [hcap, hheads, hlen]
    exact ⟨ho, hmore⟩
  · rename_i hne
    exact .ok h ⟨ho, Nat.lt_of_le_of_ne h.2.fits hne⟩

theorem reserveBucket (h : w.ModerateView v) (ho : overloaded (w.view v).length (w.view v).heads = false)
    (hroom : (w.view v).length < (w.view v).entryCapacity) :
    Leaves (ModerateView v) (fun _ u => (u.view v).Roomy) (reserveViewBucket v w) := by
  unfold reserveViewBucket
  rw [run_bind_ok (run_readView v w)]
  split
  · rename_i hfull
    have hgrow : ∀ ask : Run ε (Option Block), (∀ x, Asks x ask) → Leaves (ModerateView v) (fun _ u => (u.view v).Roomy)
        ((ask >>= fun block => updateView v (·.withDoubledBuckets block)) w) := by
      intro ask hask
      refine (h.asks (hask w)).bind fun block u hu hviews => ?_
      have hview := view_of_views hviews v
      refine .ok (hu.write (hu.2.withDoubledBuckets (hview ▸ hfull) block)) ?_
      rw [view_modifyView hu.1, hview]
      have hused := h.2.storage.heads_le
      have hheads := h.2.storage.heads_pos
      refine ⟨ho, hroom, ?_⟩
      show (w.view v).used < 2 * (w.view v).capacity
      change (w.view v).heads ≤ (w.view v).used at hused
      change 0 < (w.view v).heads at hheads
      omega
    cases (w.view v).bucketBlock with
    | none => exact hgrow _ fun x => asks_allocateArray _ _
    | some block => exact hgrow _ fun x => asks_reallocateArray _ _ _ _
  · rename_i hne
    exact .ok h ⟨ho, hroom, Nat.lt_of_le_of_ne h.2.storage.used_le hne⟩

theorem makeRoom (h : w.ModerateView v) :
    Leaves (ModerateView v) (fun _ u => (u.view v).Roomy)
      ((relieveView v 26 >>= fun _ => ValueCore.reserveEntry v >>= fun _ => reserveViewBucket v) w) :=
  (h.relieve 24).bind fun _ _ hx ho => (hx.reserveEntry ho).bind fun _ _ hy ⟨ho, hroom⟩ => hy.reserveBucket ho hroom

theorem append (h : w.ModerateView v) (hash : UInt32) (key : Bytes) (value : Value) :
    (appendHashed v hash key value w).2.ModerateView v := by
  cases hfind : (w.view v).find hash key with
  | some p =>
    rw [run_appendHashed_found (by rw [hfind]; rfl)]
    exact h.of_views rfl
  | none =>
    rw [run_appendHashed_new hfind]
    rcases h.makeRoom with ⟨u, hr, hu⟩ | ⟨_, u, hr, hu, hroom⟩
    · rw [run_bind_error hr]
      exact hu
    · rw [run_bind_ok hr]
      exact hu.write (hu.2.push hroom.chains hroom.buckets hroom.entries hash key value)

theorem set (h : w.ModerateView v) (key : Bytes) (value : Value) : (setEntry v key value w).2.ModerateView v := by
  unfold setEntry
  rw [run_bind_ok (run_readView v w)]
  cases (w.view v).find key.fnv1a key with
  | none => exact h
  | some p => exact h.write (h.2.setValue p value)

/-! ### Sizing -/

/-- Without entries there are chains enough, however few the hint asks for. -/
theorem resize (h : w.ModerateView v) (hempty : (w.view v).length = 0) (hint : UInt32) :
    Leaves (ModerateView v) (fun _ _ => True) (resizeView v hint w) := by
  unfold resizeView
  cases hh : headsFor hint.toNat with
  | none =>
    rw [run_bind_error (run_chooseHeads_none hh w)]
    exact .refused (h.of_views rfl)
  | some heads =>
    rw [run_bind_ok (run_chooseHeads_some hh w), run_bind_ok (run_readView v w)]
    have hrehash : ∀ {x : World ε}, x.ModerateView v → (x.view v).length = 0 →
        Leaves (ModerateView v) (fun _ _ => True) ((if 1 < heads then rehashView v heads else pure ()) x) := by
      intro x hx hlen
      split
      · exact (hx.rehash (Table.headsFor_pow hh) (by rw [hlen]; exact Nat.zero_le _)).mono fun _ _ _ => trivial
      · exact .ok hx trivial
    dsimp only
    split
    · have hle := le_of_headsFor hh
      refine (h.reserveEntries (by rw [hempty]; exact Nat.zero_le _) hle).bind fun _ x hx ⟨_, _, hlen⟩ => ?_
      exact hrehash hx (hlen.trans hempty)
    · exact hrehash h hempty

theorem added (w : World ε) : w.addView.2.ModerateView w.addView.1 := ⟨has_addView w, view_addView w ▸ View.moderate_empty⟩

theorem new {hint : UInt32} (hr : newView hint w = (.ok v, u)) : u.ModerateView v := by
  have hmade := added w
  have hempty : (w.addView.2.view w.addView.1).length = 0 := congrArg View.length (view_addView w)
  by_cases hzero : hint = 0
  · unfold newView at hr
    dsimp only at hr
    rw [if_pos hzero] at hr
    cases hr
    exact hmade
  · cases hsize : resizeView w.addView.1 hint w.addView.2 with
    | mk r x =>
      have hx := (hmade.resize hempty hint).ends
      rw [hsize] at hx
      cases r with
      | error e => cases (run_newView_error hzero hsize).symm.trans hr
      | ok _ =>
        cases (run_newView_ok hzero hsize).symm.trans hr
        exact hx

end World.ModerateView

/-! ## Views as programs keep them -/

/-- The worlds in which a view has been made and kept as it should be: it was sized only as long as it had no entries. Its
operations may have failed, and whatever leaves it as it stands may have happened before and between them, such as a part of
an operation on a table. -/
inductive WellKept (v : ViewId) : World ε → Prop
  | made {w u : World ε} (hint : UInt32) : newView hint w = (.ok v, u) → WellKept v u
  | sized {w : World ε} (hint : UInt32) : WellKept v w → (w.view v).length = 0 → WellKept v (resizeView v hint w).2
  | appended {w : World ε} (hash : UInt32) (key : Bytes) (value : Value) : WellKept v w →
    WellKept v (appendHashed v hash key value w).2
  | set {w : World ε} (key : Bytes) (value : Value) : WellKept v w → WellKept v (setEntry v key value w).2
  | aside {w u : World ε} : WellKept v w → v.index < u.views.size → u.view v = w.view v → WellKept v u

/-- **A view that is kept as it should be is never loaded much beyond what has its chains doubled.** -/
theorem WellKept.moderate (h : WellKept v w) : w.ModerateView v := by
  induction h with
  | made hint hr => exact .new hr
  | sized hint _ hempty ih => exact (ih.resize hempty hint).ends
  | appended hash key value _ ih => exact ih.append hash key value
  | set key value _ ih => exact ih.set key value
  | aside _ hv hview ih => exact ih.same hv hview

/-- Whatever leaves the views alone may happen. -/
theorem viewwise_wellKept (v : ViewId) : Viewwise fun w u : World ε => WellKept v w → WellKept v u :=
  ⟨fun hu h => h.aside (hu ▸ h.moderate.1) (view_of_views hu v), fun h h' hw => h' (h hw)⟩

theorem WellKept.appendKeys (t : TableId .text) : ∀ (keys : List Bytes) {w : World ε}, WellKept v w →
    WellKept v (appendKeys v t keys w).2
  | [], _, h => h
  | key :: keys, w, h => by
    have hroutine := (viewwise_wellKept (ε := ε) v).routine
    have hlookup : WellKept v w → WellKept v (lookup textKeying t key w).2 :=
      Upholds.lookup (R := fun w u => WellKept v w → WellKept v u) Upholds.textKeying_upholds t key w
    refine holds_bind (P := WellKept v) ?_ fun _ u _ hu => appendKeys t keys hu
    exact holds_bind (hlookup h) fun value u _ hu => hu.appended key.fnv1a key (value.getD .none)

/-- **A view of the items of a table** is one of these. -/
theorem wellKept_viewOfTable {t : TableId .text} (hr : viewOfTable t w = (.ok v, u)) : WellKept v u := by
  unfold viewOfTable at hr
  rw [run_bind_ok (run_readTable t w)] at hr
  obtain ⟨v', x, hmade, hr⟩ := run_bind_eq_ok hr
  have hfilled := (viewwise_wellKept v').withScratch (w.table t).length 8
    (fun _ _ hx => hx.appendKeys t (sortBy id (w.table t).keys)) (WellKept.made _ hmade)
  unfold orDropView at hr
  generalize withScratch (w.table t).length 8 (appendKeys v' t (sortBy id (w.table t).keys)) x = out at hr hfilled
  obtain ⟨e | _, y⟩ := out
  · cases hr
  · cases hr
    exact hfilled

end ValueCore
