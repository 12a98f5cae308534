import ValueCore.Proofs.Operations.Ascending
import ValueCore.Proofs.Operations.MixedKeys
import ValueCore.Proofs.Operations.Refusals
import ValueCore.Proofs.Table.Packing
import ValueCore.Proofs.ViewRefinement

/-!
# Building a view of a table

The keys of a table are sorted and looked up one after the other, and what is found is appended to a view that was sized
for all of them. No key occurs twice and each is there, so no append is refused as a duplicate and no value is missing: the
view shows the items of the table in ascending order, or there was no memory (`run_viewOfTable`). Tables and structs are
left alone by all of this (`Drift.appendEntry`, `Drift.newView`).

If the limit on the number of chains admits that many entries then it admits any part of them, so only the allocator can
refuse what is asked for on the way (`spends_viewOfTable`).
-/

namespace ValueCore

open World MapCall

variable {ε : Type} {w u : World ε} {v : ViewId} {l : List (Bytes × Value)} {t : TableId .text}

/-! ## What is left alone -/

namespace Drift

variable {R : World ε → World ε → Prop}

theorem ofReadView {α : Type} {f : View → Run ε α} (h : R w (f (w.view v) w).2) : R w ((readView v >>= f) w).2 := by
  rw [run_bind_ok (run_readView v w)]
  exact h

variable (hR : Drift R)
include hR

theorem updateView (v : ViewId) (f : View → View) : R w ((updateView v f : Run ε Unit) w).2 := hR.alike ⟨rfl, rfl, rfl, rfl⟩

theorem rehashView (v : ViewId) (heads : Nat) : R w (rehashView v heads w).2 :=
  ofReadView <| hR.bind (hR.asks (asks_allocateArray _ _)) fun _ _ _ _ =>
    hR.bind (hR.alike (alike_freed _ _)) fun _ _ _ _ => hR.updateView v _

theorem reserveEntries (v : ViewId) (capacity : Nat) : R w (reserveEntries v capacity w).2 :=
  ofReadView <| hR.bind (hR.asks (asks_reallocateArray _ _ _ _)) fun _ _ _ _ => hR.updateView v _

theorem resizeView (v : ViewId) (hint : UInt32) : R w (resizeView v hint w).2 := by
  refine hR.bind (hR.asks (asks_chooseHeads hint)) fun heads u _ _ => ofReadView ?_
  have hrehash : ∀ x : World ε, R x ((if 1 < heads then ValueCore.rehashView v heads else Pure.pure ()) x).2 := by
    intro x
    split
    · exact hR.rehashView v heads
    · exact hR.pure ()
  dsimp only
  split
  · exact hR.bind (hR.reserveEntries v _) fun _ x _ _ => hrehash x
  · exact hrehash u

theorem newView (hint : UInt32) : R w (newView hint w).2 := by
  have hadd : R w w.addView.2 := hR.alike ⟨rfl, rfl, rfl, rfl⟩
  have hsize := hR.resizeView (w := w.addView.2) w.addView.1 hint
  unfold ValueCore.newView
  dsimp only
  split
  · exact hadd
  · generalize ValueCore.resizeView w.addView.1 hint w.addView.2 = out at hsize ⊢
    obtain ⟨r, x⟩ := out
    cases r with
    | ok _ => exact hR.trans hadd hsize
    | error e => exact hR.trans hadd (hR.trans hsize (hR.alike ⟨rfl, rfl, rfl, rfl⟩))

theorem relieveView (v : ViewId) : ∀ (fuel : Nat) {w : World ε}, R w (relieveView v fuel w).2
  | 0, _ => hR.throw _
  | fuel + 1, _ => by
    refine ofReadView ?_
    dsimp only
    split
    · split
      · exact hR.bind (hR.raise _) fun _ _ hr _ => by cases hr
      · exact hR.bind (hR.rehashView v _) fun _ _ _ _ => relieveView v fuel
    · exact hR.pure ()

theorem reserveEntry (v : ViewId) : R w (reserveEntry v w).2 := by
  refine ofReadView ?_
  split
  · exact hR.reserveEntries v _
  · exact hR.pure ()

theorem reserveViewBucket (v : ViewId) : R w (reserveViewBucket v w).2 := by
  refine ofReadView ?_
  split
  · cases (w.view v).bucketBlock with
    | none => exact hR.bind (hR.asks (asks_allocateArray _ _)) fun _ _ _ _ => hR.updateView v _
    | some _ => exact hR.bind (hR.asks (asks_reallocateArray _ _ _ _)) fun _ _ _ _ => hR.updateView v _
  · exact hR.pure ()

theorem appendEntry (v : ViewId) (key : Bytes) (value : Value) : R w (appendEntry v key value w).2 := by
  refine ofReadView ?_
  split
  · exact hR.bind (hR.raise _) fun _ _ hr _ => by cases hr
  · exact hR.bind (hR.relieveView v 26) fun _ _ _ _ => hR.bind (hR.reserveEntry v) fun _ _ _ _ =>
      hR.bind (hR.reserveViewBucket v) fun _ _ _ _ => hR.updateView v _

theorem orDropView (v : ViewId) {fill : Run ε Unit} (h : R w (fill w).2) : R w (orDropView v fill w).2 := by
  unfold ValueCore.orDropView
  generalize fill w = out at h ⊢
  obtain ⟨e | _, u⟩ := out
  · exact hR.trans h (hR.alike ⟨rfl, rfl, rfl, rfl⟩)
  · exact h

end Drift

theorem alike_drift : Drift (World.Alike (ε := ε)) := ⟨id, .trans⟩

/-! ## Building -/

theorem valueOf_eq_lookup (name : Bytes) : ∀ l : List Field, valueOf textKeys.same name l = l.lookup name
  | [] => rfl
  | (n, x) :: l => by
    rw [lookup_field_cons, ← valueOf_eq_lookup name l]
    by_cases h : name = n <;> simp [valueOf, textKeys, h]

/-- What a table has for some keys. -/
def entriesOf (T : Table Bytes) (keys : List Bytes) : List Field := keys.map fun key => (key, (T.items.lookup key).getD .none)

theorem Table.Files.nodup_keys {T : Table Bytes} (hf : T.Files textKeys) : (T.items.map (·.1)).Nodup := by
  have hd := hf.distinct.imp fun {r s} hne => of_decide_eq_false (hne trivial trivial)
  have hkeys : T.items.map (·.1) = T.storedKeys.map (·.2) := by
    rw [items_eq, storedKeys, List.map_map, List.map_map]
    rfl
  rw [hkeys]
  exact List.pairwise_map.2 hd

/-- All keys of a table, sorted, bring all of its items. -/
theorem Table.Files.entriesOf_sorted {T : Table Bytes} (hf : T.Files textKeys) :
    (entriesOf T (sortBy id T.keys)).Perm T.items ∧ StrictlyAscending (entriesOf T (sortBy id T.keys)) := by
  have hperm : (sortBy id T.keys).Perm (T.items.map (·.1)) := perm_sortBy T.keys
  refine ⟨?_, List.pairwise_map.2 ?_⟩
  · have hall : entriesOf T (T.items.map (·.1)) = T.items := by
      rw [entriesOf, List.map_map]
      refine (List.map_congr_left fun item hm => ?_).trans (List.map_id _)
      rw [Function.comp_apply, (mem_iff_lookup hf.nodup_keys).1 hm]
      rfl
    exact (hperm.map _).trans (.of_eq hall)
  · have hle : (sortBy id T.keys).Pairwise fun a b => a.le b = true := ascending_sortBy T.keys
    have hne : (sortBy id T.keys).Pairwise (· ≠ ·) := hperm.nodup_iff.2 hf.nodup_keys
    exact (hle.and hne).imp fun ⟨h, hne⟩ => (Bytes.le_iff.1 h).resolve_right hne

section
variable (hf : (w.table t).Files textKeys)
include hf

/-- Looking a key up for the view and appending it. -/
theorem run_appendKeys_cons (ha : Alike w u) (key : Bytes) (keys : List Bytes) : appendKeys v t (key :: keys) u =
    (appendEntry v key (((w.table t).items.lookup key).getD .none) >>= fun _ => appendKeys v t keys) u := by
  have hlookup : lookup textKeying t key u = (.ok ((w.table t).items.lookup key), u) := by
    have hfu : (u.table t).Files textKeys := ha.table t ▸ hf
    rw [run_lookup_unasked (unasked_text key) hfu, valueOf_eq_lookup, ha.table t]
  show ((lookup textKeying t key >>= fun value => appendEntry v key (value.getD .none)) >>= fun _ =>
    appendKeys v t keys) u = _
  rw [bind_assoc, run_bind_ok hlookup]

theorem run_appendKeys : ∀ (keys : List Bytes) {l : List Field} {u : World ε}, Alike w u → u.Shows v l →
    (l.map (·.1) ++ keys).Nodup → (∃ x, Alike w x ∧ appendKeys v t keys u = (.error (.raised .memory), x)) ∨
      ∃ x, Alike w x ∧ appendKeys v t keys u = (.ok (), x) ∧ x.Shows v (l ++ entriesOf (w.table t) keys)
  | [], l, u, ha, hshows, _ => .inr ⟨u, ha, rfl, by simpa [entriesOf] using hshows⟩
  | key :: rest, l, u, ha, hshows, hd => by
    have hnew : key ∉ l.map (·.1) := fun hm => (List.nodup_append.1 hd).2.2 key hm key List.mem_cons_self rfl
    have halike := alike_drift.appendEntry (w := u) v key (((w.table t).items.lookup key).getD .none)
    rw [run_appendKeys_cons hf ha]
    rcases hshows.append_new hnew (((w.table t).items.lookup key).getD .none) with ⟨x, hr, -⟩ | ⟨x, hr, hx⟩
    · rw [hr] at halike
      exact .inl ⟨x, ha.trans halike, run_bind_error hr _⟩
    · rw [hr] at halike
      rw [run_bind_ok hr]
      have hnext := run_appendKeys rest (ha.trans halike) hx (by simpa using hd)
      rwa [List.append_assoc] at hnext

theorem spends_appendKeys {n : Nat} (hfit : overloaded n maxHeads = false) : ∀ (keys : List Bytes) {l : List Field}
    {u : World ε}, Alike w u → u.Shows v l → (l.map (·.1) ++ keys).Nodup → l.length + keys.length ≤ n →
      u.Spends (appendKeys v t keys)
  | [], _, _, _, _, _, _ => .pure ()
  | key :: rest, l, u, ha, hshows, hd, hn => by
    rw [List.length_cons] at hn
    have hnew : key ∉ l.map (·.1) := fun hm => (List.nodup_append.1 hd).2.2 key hm key List.mem_cons_self rfl
    have hspends := hshows.spends_appendEntry (overloaded_mono (by omega) hfit) hnew
      (((w.table t).items.lookup key).getD .none)
    have halike := alike_drift.appendEntry (w := u) v key (((w.table t).items.lookup key).getD .none)
    refine .congr (run_appendKeys_cons hf ha key rest) (hspends.bind fun _ x hx => ?_)
    rcases hshows.append_new hnew (((w.table t).items.lookup key).getD .none) with ⟨y, hr, -⟩ | ⟨y, hr, hy⟩
    · cases hr.symm.trans hx
    · cases hr.symm.trans hx
      rw [hr] at halike
      exact spends_appendKeys hfit rest (ha.trans halike) hy (by simpa using hd) (by simp; omega)

end

/-- A temporary array is granted and given back, or there is no memory. -/
theorem run_withScratch (count size : Nat) {α : Type} (act : Run ε α) (w : World ε) :
    (∃ x, Alike w x ∧ withScratch count size act w = (.error (.raised .memory), x)) ∨
    ∃ x block, Alike w x ∧ x.views = w.views ∧
      withScratch count size act w = ((act x).1, (act x).2.freed block (count * size)) := by
  have hask := asks_allocateElements (w := w) count size
  have halike := hask.alike
  have hviews := hask.views
  have hstatus := hask.status
  unfold withScratch
  cases hr : (allocateElements count size : Run ε _) w with
  | mk r x =>
    rw [hr] at halike hviews hstatus
    cases r with
    | error e =>
      obtain rfl := hstatus e rfl
      exact .inl ⟨x, halike, run_bind_error hr _⟩
    | ok block => exact .inr ⟨x, block, halike, hviews, run_bind_ok hr _⟩

theorem run_orDropView_ok {fill : Run ε Unit} (hr : fill w = (.ok (), u)) : orDropView v fill w = (.ok v, u) := by
  rw [orDropView, hr]

theorem run_orDropView_error {fill : Run ε Unit} {e : Failure} (hr : fill w = (.error e, u)) :
    orDropView v fill w = (.error e, u.dropView v) := by
  rw [orDropView, hr]

/-- **What building a view of a table comes to.** It shows all items of the table in ascending order, or there is no
memory. -/
theorem run_viewOfTable (hf : (w.table t).Files textKeys) :
    (∃ u, Alike w u ∧ viewOfTable t w = (.error (.raised .memory), u)) ∨
    ∃ v u, Alike w u ∧ viewOfTable t w = (.ok v, u) ∧ u.Shows v (entriesOf (w.table t) (sortBy id (w.table t).keys)) := by
  have hview := alike_drift.newView (w := w) (w.table t).length.toUInt32
  unfold viewOfTable
  rw [run_bind_ok (run_readTable t w)]
  rcases run_newView (w.table t).length.toUInt32 w with ⟨u, hr⟩ | ⟨v, u, hr, hshows⟩ <;> rw [hr] at hview
  · exact .inl ⟨u, hview, run_bind_error hr _⟩
  rw [run_bind_ok hr]
  rcases run_withScratch (w.table t).length 8 (appendKeys v t (sortBy id (w.table t).keys)) u with
    ⟨x, hx, hr⟩ | ⟨x, block, hx, hviews, hr⟩
  · exact .inl ⟨x.dropView v, (hview.trans hx).trans ⟨rfl, rfl, rfl, rfl⟩, run_orDropView_error hr⟩
  have hd : (([] : List Field).map (·.1) ++ sortBy id (w.table t).keys).Nodup :=
    (perm_sortBy (w.table t).keys).nodup_iff.2 hf.nodup_keys
  rcases run_appendKeys hf _ (hview.trans hx) (hshows.same hviews) hd with ⟨y, hy, hfill⟩ | ⟨y, hy, hfill, hall⟩
  · rw [hfill] at hr
    exact .inl ⟨(y.freed block _).dropView v, hy.trans ⟨rfl, rfl, rfl, rfl⟩, run_orDropView_error hr⟩
  · rw [hfill] at hr
    exact .inr ⟨v, _, hy.trans (alike_freed _ _), run_orDropView_ok hr, hall.same rfl⟩

/-- Filling a view that is dropped if there is no memory for it. -/
theorem World.Spends.orDropView {fill : Run ε Unit} (h : w.Spends fill) (v : ViewId) : w.Spends (orDropView v fill) := by
  obtain ⟨hlater, hrefused⟩ := h
  cases hr : fill w with
  | mk r x =>
    rw [hr] at hlater hrefused
    cases r with
    | ok _ =>
      have hrun := run_orDropView_ok (v := v) hr
      exact ⟨by rw [hrun]; exact hlater, fun e he => by rw [hrun] at he; cases he⟩
    | error e =>
      have hrun := run_orDropView_error (v := v) hr
      have hdrop : x.memory.Later (x.dropView v).memory :=
        (Memory.later_releaseOption _ _).trans (Memory.later_releaseOption _ _)
      exact ⟨by rw [hrun]; exact hlater.trans hdrop, fun e' _ => by rw [hrun]; exact (hrefused e rfl).later hdrop⟩

/-- **Only a refused request keeps a view from being built**, if the limit admits as many entries. -/
theorem spends_viewOfTable (hf : (w.table t).Files textKeys) (hfit : overloaded (w.table t).length maxHeads = false) :
    w.Spends (viewOfTable t) := by
  have hhint := toNat_hint hfit
  obtain ⟨heads, hheads⟩ := headsFor_of_fits hfit
  have hspends : w.Spends (newView (w.table t).length.toUInt32) := spends_newView (hhint.symm ▸ hheads)
  have hview := alike_drift.newView (w := w) (w.table t).length.toUInt32
  have hkeys : (sortBy id (w.table t).keys).length = (w.table t).length := by
    rw [(perm_sortBy _).length_eq, Table.keys, List.length_map, hf.sound.length_items]
  have hd : (([] : List Field).map (·.1) ++ sortBy id (w.table t).keys).Nodup :=
    (perm_sortBy (w.table t).keys).nodup_iff.2 hf.nodup_keys
  have hscratch : ∀ x : World ε, x.Spends (allocateElements (w.table t).length 8) := fun x => by
    have hlt := (w.table t).length.toUInt32.toNat_lt
    rw [hhint] at hlt
    refine spends_allocateElements (by decide) ?_
    simp only [Memory.wordSpan]
    omega
  unfold viewOfTable
  refine .read (run_readTable t w) (hspends.bind fun v u hr => .orDropView (.bind (hscratch u) fun block x hx => ?_) v)
  rw [hr] at hview
  have hviews := (asks_allocateElements (w := u) (w.table t).length 8).views
  have halike := (asks_allocateElements (w := u) (w.table t).length 8).alike
  rw [hx] at hviews halike
  have hshows : u.Shows v [] := by
    rcases run_newView (w.table t).length.toUInt32 w with ⟨y, hy⟩ | ⟨v', y, hy, hshows⟩
    · cases hy.symm.trans hr
    · cases hy.symm.trans hr
      exact hshows
  have hfill := spends_appendKeys hf hfit _ (hview.trans halike) (hshows.same hviews) hd
    (Nat.le_of_eq ((Nat.zero_add _).trans hkeys))
  exact ⟨hfill.later.trans (Memory.later_releaseOption _ _), fun e he =>
    (hfill.refused e he).later (Memory.later_releaseOption _ _)⟩

end ValueCore
