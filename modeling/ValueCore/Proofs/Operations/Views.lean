import ValueCore.Proofs.Operations.Tables
import ValueCore.Proofs.Table.Packing
import ValueCore.Proofs.View.Sound
import ValueCore.View.Access

/-!
# Operations on a view

Before a view is added to, room is made: its index is rebuilt, or its entries or buckets move to larger blocks. Whatever is
indifferent to how the entries are stored (`Indifferent`) stays so, whether a request for memory is granted or refused, at
whichever of the requests (`Leaves`). One thing of this kind is what the view has to show: `World.Shows w v l` says that view
`v` of `w` has the items `l`, each under the hash of its own key and no key twice, and room for no more entries than any view
comes to have.

The order in which an append makes room matters to it. Chains come first, as rebuilding the index settles how many
buckets are used; a free entry and a free bucket are then found one after the other, and neither takes away the other. A view
that has chains enough is not too large to have its room for entries doubled.
-/

namespace ValueCore

open World

variable {ε α β : Type} {w u : World ε} {v : ViewId} {l l' : List (Bytes × Value)}

@[simp] theorem run_readView (v : ViewId) (w : World ε) : readView v w = (.ok (w.view v), w) := rfl

theorem view_modifyView {f : View → View} (h : v.index < w.views.size) : (w.modifyView v f).view v = f (w.view v) :=
  getD_modify_self f default h

theorem view_of_views (h : u.views = w.views) (v : ViewId) : u.view v = w.view v := by rw [World.view, World.view, h]

theorem view_addView (w : World ε) : w.addView.2.view w.addView.1 = View.empty := getD_push_self _ _

theorem has_addView (w : World ε) : w.addView.1.index < w.addView.2.views.size := by simp [World.addView]

/-- A request followed by a write to the view. -/
theorem ok_updateView {ask : Run ε (Option Block)} (hask : Asks w ask) (f : Option Block → View → View)
    (hv : v.index < w.views.size) (hr : (ask >>= fun block => updateView v (f block)) w = (.ok (), u)) :
    v.index < u.views.size ∧ ∃ block, u.view v = f block (w.view v) := by
  obtain ⟨block, x, hx, hwrite⟩ := run_bind_eq_ok hr
  cases hwrite
  have hviews := hask.views
  rw [hx] at hviews
  have hvx : v.index < x.views.size := hviews ▸ hv
  refine ⟨by simpa [modifyView] using hvx, block, ?_⟩
  rw [view_modifyView hvx, view_of_views hviews]

theorem ok_reserveEntries (hv : v.index < w.views.size) {capacity : Nat} (hr : reserveEntries v capacity w = (.ok (), u)) :
    v.index < u.views.size ∧ ∃ block, u.view v = (w.view v).withEntryRoom capacity block :=
  ok_updateView (asks_reallocateArray (w.view v).entryBlock (w.view v).entryCapacity capacity viewEntryBytes)
    (fun block V => V.withEntryRoom capacity block) hv hr

theorem ok_rehashView (hv : v.index < w.views.size) {heads : Nat} (hr : rehashView v heads w = (.ok (), u)) :
    v.index < u.views.size ∧ ∃ block, u.view v = (w.view v).rehashed heads block := by
  unfold rehashView at hr
  rw [run_bind_ok (run_readView v w)] at hr
  obtain ⟨block, x, hx, hwrite⟩ := run_bind_eq_ok hr
  cases hwrite
  have hviews := (asks_allocateArray (w := w) ((w.view v).rehashedCapacity heads) viewBucketBytes).views
  rw [hx] at hviews
  have hvx : v.index < (x.freed (w.view v).bucketBlock ((w.view v).capacity * viewBucketBytes)).views.size := hviews ▸ hv
  refine ⟨by simpa [modifyView] using hvx, block, (view_modifyView hvx).trans ?_⟩
  exact congrArg (·.rehashed heads block) (view_of_views hviews v)

/-- No key occurs twice if one that is new is added. -/
theorem distinct_append (hd : (l.map (·.1)).Nodup) {key : Bytes} (hnew : key ∉ l.map (·.1)) (value : Value) :
    ((l ++ [(key, value)]).map (·.1)).Nodup := by
  rw [List.map_append, List.map_singleton, List.nodup_append]
  refine ⟨hd, List.nodup_singleton key, ?_⟩
  rintro a ha b hb rfl
  rw [List.mem_singleton.1 hb] at ha
  exact hnew ha

/-- The view is there, in order, and has the items `l` under their own hashes. -/
structure World.Shows (w : World ε) (v : ViewId) (l : List (Bytes × Value)) : Prop where
  has : v.index < w.views.size
  sound : (w.view v).Sound
  hashed : (w.view v).Hashed
  items : (w.view v).items = l
  distinct : (l.map (·.1)).Nodup
  room_le : (w.view v).entryCapacity ≤ 13 * maxHeads

theorem World.Shows.same (h : w.Shows v l) (hu : u.views = w.views) : u.Shows v l := by
  have hview := view_of_views hu v
  exact ⟨hu ▸ h.has, hview ▸ h.sound, hview ▸ h.hashed, hview ▸ h.items, h.distinct, hview ▸ h.room_le⟩

theorem World.Shows.length_eq (h : w.Shows v l) : (w.view v).length = l.length := by rw [← View.length_items, h.items]

/-- A write that keeps the entries. -/
theorem World.Shows.keep (h : w.Shows v l) {f : View → View} (hs : (f (w.view v)).Sound)
    (he : (f (w.view v)).entries = (w.view v).entries) (hroom : (f (w.view v)).entryCapacity ≤ 13 * maxHeads) :
    (w.modifyView v f).Shows v l := by
  have hview := view_modifyView (f := f) h.has
  refine ⟨by simpa [modifyView] using h.has, hview ▸ hs, ?_, ?_, h.distinct, hview ▸ hroom⟩
  · rw [hview, View.Hashed, he]
    exact h.hashed
  · rw [hview, View.items_of_entries he]
    exact h.items

/-! ## Work that keeps the items -/

/-- A view that is full and not overloaded is not too large to have twice the room. -/
theorem View.Sound.room_double_le {V : View} (h : V.Sound) (ho : overloaded V.length V.heads = false)
    (hfull : V.length = V.entryCapacity) :
    (if V.entryCapacity = 0 then 1 else 2 * V.entryCapacity) ≤ 13 * maxHeads := by
  have hdouble := double_le_of_fits (overloaded_of_le (Table.le_maxHeads h.storage.heads_pow) ho)
  rw [← hfull]
  split
  · decide
  · exact hdouble

/-- What became of work on a world: it answered with something of which `P` holds, or it was refused memory. Either way `J`
holds of the world that is left. -/
def Leaves (J : World ε → Prop) (P : α → World ε → Prop) (r : Except Failure α × World ε) : Prop :=
  (∃ u, r = (.error (.raised .memory), u) ∧ J u) ∨ ∃ a u, r = (.ok a, u) ∧ J u ∧ P a u

namespace Leaves

variable {J : World ε → Prop} {P P' : α → World ε → Prop} {Q : β → World ε → Prop} {x : Run ε α} {f : α → Run ε β}

theorem ok {a : α} (h : J w) (hp : P a w) : Leaves J P (.ok a, w) := .inr ⟨a, w, rfl, h, hp⟩

theorem refused (h : J w) : @Leaves ε α J P (.error (.raised .memory), w) := .inl ⟨w, rfl, h⟩

theorem mono {r : Except Failure α × World ε} (h : Leaves J P r) (hp : ∀ a u, P a u → P' a u) : Leaves J P' r := by
  rcases h with ⟨u, rfl, hu⟩ | ⟨a, u, rfl, hu, ha⟩
  · exact refused hu
  · exact ok hu (hp a u ha)

theorem bind (h : Leaves J P (x w)) (hf : ∀ a u, J u → P a u → Leaves J Q (f a u)) : Leaves J Q ((x >>= f) w) := by
  rcases h with ⟨u, hr, hu⟩ | ⟨a, u, hr, hu, hp⟩
  · rw [run_bind_error hr]
    exact refused hu
  · rw [run_bind_ok hr]
    exact hf a u hu hp

theorem of_ok {a : α} (h : Leaves J P (.ok a, w)) : J w ∧ P a w := by
  rcases h with ⟨u, hr, _⟩ | ⟨b, u, hr, hu, hp⟩
  · cases hr
  · cases hr
    exact ⟨hu, hp⟩

/-- What is left of the world, in either case. -/
theorem ends {r : Except Failure α × World ε} (h : Leaves J P r) : J r.2 := by
  rcases h with ⟨u, rfl, hu⟩ | ⟨_, u, rfl, hu, _⟩
  · exact hu
  · exact hu

end Leaves

/-- What became of work on view `v`: it answered with something of which `P` holds, or it was refused memory. Either way
the view shows the items `l`. -/
def StillShows (v : ViewId) (l : List (Bytes × Value)) (P : α → World ε → Prop) (r : Except Failure α × World ε) : Prop :=
  (∃ u, r = (.error (.raised .memory), u) ∧ u.Shows v l) ∨ ∃ a u, r = (.ok a, u) ∧ u.Shows v l ∧ P a u

/-- What holds only of worlds in which the view is there and in order, and is indifferent to how its entries are stored. -/
structure Indifferent (v : ViewId) (J : World ε → Prop) : Prop where
  has : ∀ {w : World ε}, J w → v.index < w.views.size
  sound : ∀ {w : World ε}, J w → (w.view v).Sound
  same : ∀ {w u : World ε}, J w → u.views = w.views → J u
  keep : ∀ {w : World ε} {f : View → View}, J w → (f (w.view v)).Sound → (f (w.view v)).entries = (w.view v).entries →
    ((w.view v).entryCapacity ≤ 13 * maxHeads → (f (w.view v)).entryCapacity ≤ 13 * maxHeads) → J (w.modifyView v f)

theorem shows_indifferent (v : ViewId) (l : List (Bytes × Value)) : Indifferent v fun w : World ε => w.Shows v l :=
  ⟨fun h => h.has, fun h => h.sound, fun h => h.same, fun h hs he hroom => h.keep hs he (hroom h.room_le)⟩

namespace Indifferent

variable {J : World ε → Prop} (hJ : Indifferent v J)
include hJ

theorem asks {x : Run ε α} (h : J w) (ha : Asks w x) : Leaves J (fun _ u => u.views = w.views) (x w) := by
  rcases ha.outcome_views with ⟨u, hu, hr⟩ | ⟨u, a, hu, hr⟩
  · rw [hr]
    exact .refused (hJ.same h hu)
  · rw [hr]
    exact .ok (hJ.same h hu) hu

theorem rehash (h : J w) {heads : Nat} (hp : ∃ k ≤ 24, heads = 2 ^ k) :
    Leaves J (fun _ u => (u.view v).heads = heads) (rehashView v heads w) := by
  unfold rehashView
  rw [run_bind_ok (run_readView v w)]
  refine (hJ.asks h (asks_allocateArray _ _)).bind fun block u hu hviews => ?_
  rw [run_bind_ok (run_release _ _ u)]
  have hfreed := hJ.same (u := u.freed (w.view v).bucketBlock ((w.view v).capacity * viewBucketBytes)) hu rfl
  obtain ⟨hs, he, hheads⟩ := (hJ.sound hfreed).rehashed hp block
  refine .ok (hJ.keep hfreed hs he fun hle => Nat.le_trans (Nat.le_of_eq (View.rehashed_storage _ heads block).1) hle) ?_
  rw [view_modifyView (hJ.has hfreed)]
  exact hheads

theorem reserveEntries (h : J w) {capacity : Nat} (hcap : (w.view v).length ≤ capacity) (hle : capacity ≤ 13 * maxHeads) :
    Leaves J (fun _ u => (u.view v).entryCapacity = capacity ∧ (u.view v).length = (w.view v).length)
      (reserveEntries v capacity w) := by
  unfold ValueCore.reserveEntries
  rw [run_bind_ok (run_readView v w)]
  refine (hJ.asks h (asks_reallocateArray _ _ _ _)).bind fun block u hu hviews => ?_
  have hview := view_of_views hviews v
  refine .ok (hJ.keep hu ((hJ.sound hu).withEntryRoom (hview ▸ hcap) block) rfl fun _ => hle) ?_
  rw [view_modifyView (hJ.has hu), hview]
  exact ⟨rfl, rfl⟩

/-- **Sizing a view** for however many entries. -/
theorem resize (h : J w) (hint : UInt32) : Leaves J (fun _ _ => True) (resizeView v hint w) := by
  unfold resizeView
  cases hh : headsFor hint.toNat with
  | none =>
    rw [run_bind_error (run_chooseHeads_none hh w)]
    exact .refused (hJ.same h rfl)
  | some heads =>
    rw [run_bind_ok (run_chooseHeads_some hh w), run_bind_ok (run_readView v w)]
    have hrehash : ∀ x : World ε, J x →
        Leaves J (fun _ _ => True) ((if 1 < heads then rehashView v heads else pure ()) x) := by
      intro x hx
      split
      · exact (hJ.rehash hx (Table.headsFor_pow hh)).mono fun _ _ _ => trivial
      · exact .ok hx trivial
    dsimp only
    split
    · rename_i hlt
      have hfits := Nat.le_trans (hJ.sound h).fits (Nat.le_of_lt hlt)
      exact (hJ.reserveEntries h hfits (le_of_headsFor hh)).bind fun _ x hx _ => hrehash x hx
    · exact hrehash w h

/-- Doubling the chains comes to an end: there are enough, or at the limit there is an error. -/
theorem relieve : ∀ (fuel : Nat) {w : World ε} {k : Nat}, J w → (w.view v).heads = 2 ^ k → 25 ≤ k + fuel →
    Leaves J (fun _ u => overloaded (u.view v).length (u.view v).heads = false) (relieveView v fuel w)
  | 0, w, k, h, hk, hfuel => by
    obtain ⟨j, hj, hpow⟩ := (hJ.sound h).storage.heads_pow
    have hjk : j = k := Nat.pow_right_injective (Nat.le_refl 2) (hpow.symm.trans hk)
    omega
  | fuel + 1, w, k, h, hk, hfuel => by
    unfold relieveView
    rw [run_bind_ok (run_readView v w)]
    dsimp only
    split
    · split
      · exact .refused (hJ.same h rfl)
      · rename_i hlt
        have hpow : ∃ j ≤ 24, 2 * (w.view v).heads = 2 ^ j := (hJ.sound h).storage.pow_double (Nat.lt_of_not_le hlt)
        have hdouble : 2 * (w.view v).heads = 2 ^ (k + 1) := by rw [hk, Nat.pow_succ, Nat.mul_comm]
        refine (hJ.rehash h hpow).bind fun _ u hu hheads => ?_
        exact relieve fuel hu (hheads.trans hdouble) (by omega)
    · rename_i ho
      exact .ok h (Bool.eq_false_iff.2 ho)

theorem reserveEntry (h : J w) (ho : overloaded (w.view v).length (w.view v).heads = false) :
    Leaves J (fun _ u => (u.view v).length < (u.view v).entryCapacity) (reserveEntry v w) := by
  unfold ValueCore.reserveEntry
  rw [run_bind_ok (run_readView v w)]
  split
  · rename_i heq
    have hmore : (w.view v).length < if (w.view v).entryCapacity = 0 then 1 else 2 * (w.view v).entryCapacity := by
      split <;> omega
    have hle := (hJ.sound h).room_double_le ho heq
    refine (hJ.reserveEntries h (Nat.le_of_lt hmore) hle).mono fun _ u ⟨hcap, hlen⟩ => ?_
    rw [hcap, hlen]
    exact hmore
  · rename_i hne
    exact .ok h (Nat.lt_of_le_of_ne (hJ.sound h).fits hne)

theorem reserveBucket (h : J w) (hroom : (w.view v).length < (w.view v).entryCapacity) :
    Leaves J (fun _ u => (u.view v).used < (u.view v).capacity ∧ (u.view v).length < (u.view v).entryCapacity)
      (reserveViewBucket v w) := by
  unfold reserveViewBucket
  rw [run_bind_ok (run_readView v w)]
  split
  · rename_i heq
    have hgrow : ∀ (ask : Run ε (Option Block)), (∀ x, Asks x ask) →
        Leaves J (fun _ u => (u.view v).used < (u.view v).capacity ∧ (u.view v).length < (u.view v).entryCapacity)
          ((ask >>= fun block => updateView v (·.withDoubledBuckets block)) w) := by
      intro ask hask
      refine (hJ.asks h (hask w)).bind fun block u hu hviews => ?_
      have hview := view_of_views hviews v
      refine .ok (hJ.keep hu ((hJ.sound hu).withDoubledBuckets block) rfl id) ?_
      rw [view_modifyView (hJ.has hu), hview]
      have hstorage := (hJ.sound h).storage
      have hused : 0 < (w.view v).used := Nat.zero_lt_of_lt (hstorage.bucket_lt (hstorage.home_lt 0) List.mem_cons_self)
      refine ⟨?_, hroom⟩
      show (w.view v).used < 2 * (w.view v).capacity
      omega
    cases (w.view v).bucketBlock with
    | none => exact hgrow _ fun x => asks_allocateArray _ _
    | some block => exact hgrow _ fun x => asks_reallocateArray _ _ _ _
  · rename_i hne
    exact .ok h ⟨Nat.lt_of_le_of_ne (hJ.sound h).storage.used_le hne, hroom⟩

/-- **An append makes room** for an entry and for a bucket. -/
theorem makeRoom (h : J w) :
    Leaves J (fun _ u => (u.view v).used < (u.view v).capacity ∧ (u.view v).length < (u.view v).entryCapacity)
      ((relieveView v 26 >>= fun _ => ValueCore.reserveEntry v >>= fun _ => reserveViewBucket v) w) := by
  obtain ⟨k, _, hk⟩ := (hJ.sound h).storage.heads_pow
  exact (hJ.relieve 26 h hk (by omega)).bind fun _ x hx ho =>
    (hJ.reserveEntry hx ho).bind fun _ y hy hlt => hJ.reserveBucket hy hlt

end Indifferent

namespace StillShows

variable {P : α → World ε → Prop} {Q : β → World ε → Prop} {x : Run ε α} {f : α → Run ε β}

theorem ok {a : α} (h : w.Shows v l) (hp : P a w) : StillShows v l P (.ok a, w) := Leaves.ok h hp

theorem bind (h : StillShows v l P (x w)) (hf : ∀ a u, u.Shows v l → P a u → StillShows v l Q (f a u)) :
    StillShows v l Q ((x >>= f) w) := Leaves.bind h hf

theorem asks (h : w.Shows v l) (ha : Asks w x) : StillShows v l (fun _ u => u.views = w.views) (x w) :=
  (shows_indifferent v l).asks h ha

end StillShows

/-! ## Appending -/

/-- An append that finds its key refuses it, and changes nothing. -/
theorem run_appendHashed_found {hash : UInt32} {key : Bytes} (h : ((w.view v).find hash key).isSome) (value : Value) :
    appendHashed v hash key value w = raise (.duplicateKey key) w := by
  unfold appendHashed
  rw [run_bind_ok (run_readView v w), if_pos h, run_bind]
  rfl

/-- Otherwise it makes room for the entry and writes it. -/
theorem run_appendHashed_new {hash : UInt32} {key : Bytes} (h : (w.view v).find hash key = none) (value : Value) :
    appendHashed v hash key value w =
      ((relieveView v 26 >>= fun _ => reserveEntry v >>= fun _ => reserveViewBucket v) >>= fun _ =>
        updateView v (·.push hash key value)) w := by
  unfold appendHashed
  rw [run_bind_ok (run_readView v w), h]
  simp only [bind_assoc]
  rfl

/-! Where there is room already, nothing is done. -/

theorem run_relieveView_idle (h : overloaded (w.view v).length (w.view v).heads = false) (fuel : Nat) :
    relieveView v (fuel + 1) w = (.ok (), w) := by
  unfold relieveView
  rw [run_bind_ok (run_readView v w)]
  dsimp only
  rw [if_neg (by simp [h])]
  rfl

theorem run_reserveEntry_idle (h : (w.view v).length ≠ (w.view v).entryCapacity) : reserveEntry v w = (.ok (), w) := by
  unfold reserveEntry
  rw [run_bind_ok (run_readView v w), if_neg h]
  rfl

theorem run_reserveViewBucket_idle (h : (w.view v).used ≠ (w.view v).capacity) : reserveViewBucket v w = (.ok (), w) := by
  unfold reserveViewBucket
  rw [run_bind_ok (run_readView v w), if_neg h]
  rfl

namespace World.Shows

/-- **Sizing a view** keeps the items. -/
theorem resize (h : w.Shows v l) (hint : UInt32) : StillShows v l (fun _ _ => True) (resizeView v hint w) :=
  (shows_indifferent v l).resize h hint

/-- Another item, once there is room for it. -/
theorem push (h : w.Shows v l) {key : Bytes} (hnew : key ∉ l.map (·.1)) (value : Value)
    (hroom : (w.view v).used < (w.view v).capacity) (hfits : (w.view v).length < (w.view v).entryCapacity) :
    (w.modifyView v (·.push key.fnv1a key value)).Shows v (l ++ [(key, value)]) := by
  have hview := view_modifyView (f := (·.push key.fnv1a key value)) h.has
  refine ⟨by simpa [modifyView] using h.has, ?_, ?_, ?_, distinct_append h.distinct hnew value, ?_⟩
  · rw [hview]
    exact h.sound.push _ key value hroom hfits
  · rw [hview]
    exact h.hashed.push key value
  · rw [hview, View.items_push, h.items]
  · rw [hview, (View.sameStorage_push _ _ key value).1]
    exact h.room_le

/-- A search finds the item that has the key. -/
theorem find_eq (h : w.Shows v l) (key : Bytes) :
    (w.view v).find key.fnv1a key = l.findIdx? fun item => item.1 = key := by
  rw [h.sound.find_own h.hashed, h.items]

theorem isSome_find (h : w.Shows v l) (key : Bytes) :
    ((w.view v).find key.fnv1a key).isSome ↔ key ∈ l.map (·.1) := by
  rw [h.find_eq, List.findIdx?_isSome]
  simp

/-- **Appending a key that is there** is refused, and changes nothing. -/
theorem append_present (h : w.Shows v l) {key : Bytes} (hkey : key ∈ l.map (·.1)) (value : Value) :
    appendEntry v key value w = raise (.duplicateKey key) w := run_appendHashed_found ((h.isSome_find key).2 hkey) value

/-- **Appending a new key** adds it at the end, or there is no memory and the items are as before. -/
theorem append_new (h : w.Shows v l) {key : Bytes} (hnew : key ∉ l.map (·.1)) (value : Value) :
    (∃ u, appendEntry v key value w = (.error (.raised .memory), u) ∧ u.Shows v l) ∨
    ∃ u, appendEntry v key value w = (.ok (), u) ∧ u.Shows v (l ++ [(key, value)]) := by
  have hfind : (w.view v).find key.fnv1a key = none :=
    Option.not_isSome_iff_eq_none.1 fun hfound => hnew ((h.isSome_find key).1 hfound)
  rw [appendEntry, run_appendHashed_new hfind]
  rcases (shows_indifferent v l).makeRoom h with ⟨u, hr, hu⟩ | ⟨a, u, hr, hu, hbucket, hentry⟩
  · exact .inl ⟨u, run_bind_error hr _, hu⟩
  · exact .inr ⟨_, run_bind_ok hr _, hu.push hnew value hbucket hentry⟩

end World.Shows

/-! ## New views -/

theorem shows_addView (w : World ε) : w.addView.2.Shows w.addView.1 [] := by
  have hview := view_addView w
  exact ⟨has_addView w, hview ▸ View.sound_empty, hview ▸ View.hashed_empty, by rw [hview]; rfl, .nil,
    by rw [hview]; exact Nat.zero_le _⟩

section
variable {hint : UInt32} (hzero : hint ≠ 0)
include hzero

theorem run_newView_ok (hr : resizeView w.addView.1 hint w.addView.2 = (.ok (), u)) :
    newView hint w = (.ok w.addView.1, u) := by
  unfold newView
  dsimp only
  rw [if_neg hzero, hr]

theorem run_newView_error {e : Failure} (hr : resizeView w.addView.1 hint w.addView.2 = (.error e, u)) :
    newView hint w = (.error e, u.modifyView w.addView.1 fun _ => View.empty) := by
  unfold newView
  dsimp only
  rw [if_neg hzero, hr]

end

/-- A new view shows nothing, or there is no memory. -/
theorem run_newView (hint : UInt32) (w : World ε) :
    (∃ u, newView hint w = (.error (.raised .memory), u)) ∨
    ∃ v u, newView hint w = (.ok v, u) ∧ u.Shows v [] := by
  by_cases hzero : hint = 0
  · rw [hzero]
    exact .inr ⟨_, _, rfl, shows_addView w⟩
  · rcases (shows_addView w).resize hint with ⟨u, hr, _⟩ | ⟨_, u, hr, hu, _⟩
    · exact .inl ⟨_, run_newView_error hzero hr⟩
    · exact .inr ⟨_, u, run_newView_ok hzero hr, hu⟩

end ValueCore
