import ValueCore.Proofs.Operations.ViewBuilding

/-!
# Views that were sized beforehand

Another entry may find too little room in three places. A view that was sized for `n` entries, eight or more, has enough of
each of them for as many (`View.Presized`).

| what an append may find too small | and why it is large enough |
| --- | --- |
| the entry array | room for `n` entries was asked for when the view was sized, or before |
| the number of chains | it was chosen for `n` entries, and fewer are not too many either |
| the buckets at hand | there is one for each chain, one for every eight entries that there is room for, and one more |

The last of these does not depend on how the entries are spread over the chains. A chain gets another bucket only when those
that it has are full, and `n` entries do not fill more than `n / 8` buckets (`View.Indexed.used_le`). An append wants one
bucket to be left even if it will not need it; that is the one more.

So the appends ask for nothing and change nothing but the view, whatever becomes of the rest of the world meanwhile, its
allocator included (`presized_view_never_allocates`). Nothing is asked of the view beforehand but that it is empty.
-/

namespace ValueCore

open World

variable {ε : Type} {w u x : World ε} {v : ViewId} {n heads k : Nat} {hint : UInt32}

/-! ## Enough room -/

namespace View

variable {V : View}

/-- The view has chains and entries for `n` items. -/
structure Ample (V : View) (n : Nat) : Prop where
  chains : overloaded n V.heads = false
  entries : n ≤ V.entryCapacity

/-- The view is in order, and has room for `n` entries without any other number of chains. -/
structure Presized (V : View) (n heads : Nat) : Prop extends V.Ample n where
  sound : V.Sound
  heads_eq : V.heads = heads
  buckets : heads + n / bucketSize < V.capacity

namespace Presized

/-- There is a bucket left, however the entries are distributed. -/
theorem used_lt (h : V.Presized n heads) (hlen : V.length ≤ n) : V.used < V.capacity := by
  have hbuckets := h.buckets
  refine h.sound.toIndexed.used_lt ?_
  rw [h.heads_eq]
  simp only [bucketSize] at *
  omega

/-- Another entry takes what it needs from the room there is. -/
theorem push (h : V.Presized n heads) (hlen : V.length < n) (hash : UInt32) (key : Bytes) (value : Value) :
    (V.push hash key value).Presized n heads := by
  obtain ⟨-, hheads, hcapacity, hentries⟩ := place_frame { V with entries := V.entries.push ⟨hash, key, value⟩ } hash V.length
  have hroom := h.used_lt (Nat.le_of_lt hlen)
  refine ⟨⟨?_, ?_⟩, h.sound.push hash key value hroom (Nat.lt_of_lt_of_le hlen h.entries), ?_, ?_⟩
  · rw [View.push, hheads]
    exact h.chains
  · rw [View.push, hentries]
    exact h.entries
  · rw [View.push, hheads]
    exact h.heads_eq
  · rw [View.push, hcapacity]
    exact h.buckets

theorem setValue (h : V.Presized n heads) (p : Nat) (value : Value) : (V.setValue p value).Presized n heads :=
  ⟨⟨h.chains, h.entries⟩, h.sound.setValue p value, h.heads_eq, h.buckets⟩

end Presized

/-- Rebuilding the index asks for enough buckets for all entries that there is room for. -/
theorem presized_rehashed (hlen : V.length ≤ V.entryCapacity) (hn : n ≤ V.entryCapacity) (hh : headsFor n = some heads)
    (block : Option Block) : (V.rehashed heads block).Presized n heads := by
  obtain ⟨hentries, -, hcapacity, -⟩ := V.rehashed_storage heads block
  obtain ⟨hsound, -, hheads⟩ := sound_rehashed hlen (Table.headsFor_pow hh) block
  refine ⟨⟨?_, ?_⟩, hsound, hheads, ?_⟩
  · rw [hheads]
    exact (headsFor_fits hh).1
  · rw [hentries]
    exact hn
  · rw [hcapacity, rehashedCapacity, Nat.max_eq_right hlen]
    exact Nat.lt_succ_of_le (Nat.add_le_add_left (Nat.div_le_div_right hn) heads)

/-- No entry has both this hash and this key. -/
def Lacks (V : View) (hash : UInt32) (key : Bytes) : Prop := ∀ e ∈ V.entries.toList, ¬ (e.hash = hash ∧ e.key = key)

theorem Sound.find_eq_none (h : V.Sound) {hash : UInt32} {key : Bytes} (hnew : V.Lacks hash key) : V.find hash key = none := by
  rw [h.find_eq, List.findIdx?_eq_none_iff]
  intro e he
  simpa using hnew e he

end View

/-! ## Sizing -/

/-- Sized for eight entries or more, a view that is empty gets room for them. -/
theorem presized_of_resizeView (hv : v.index < w.views.size) (hempty : (w.view v).length = 0) (hn : 8 ≤ hint.toNat)
    (hr : resizeView v hint w = (.ok (), u)) :
    v.index < u.views.size ∧ (u.view v).length = 0 ∧ ∃ heads, (u.view v).Presized hint.toNat heads := by
  unfold resizeView at hr
  cases hh : headsFor hint.toNat with
  | none =>
    rw [run_bind_error (run_chooseHeads_none hh w)] at hr
    cases hr
  | some heads =>
    rw [run_bind_ok (run_chooseHeads_some hh w), run_bind_ok (run_readView v w)] at hr
    have hmany : 1 < heads := by
      have hfits := (headsFor_fits hh).1
      simp only [overloaded, Bool.and_eq_false_iff, decide_eq_false_iff_not] at hfits
      omega
    have hrehash : ∀ {x : World ε}, v.index < x.views.size → (x.view v).length = 0 → hint.toNat ≤ (x.view v).entryCapacity →
        rehashView v heads x = (.ok (), u) →
        v.index < u.views.size ∧ (u.view v).length = 0 ∧ ∃ heads, (u.view v).Presized hint.toNat heads := by
      intro x hx hlen hroom hr
      obtain ⟨hu, block, hview⟩ := ok_rehashView hx hr
      rw [hview]
      have hkept : ((x.view v).rehashed heads block).length = (x.view v).length :=
        ((x.view v).rehashed_storage heads block).2.2.2.2
      exact ⟨hu, hkept.trans hlen, heads, View.presized_rehashed (by omega) hroom hh block⟩
    dsimp only at hr
    split at hr
    · obtain ⟨_, x, hreserved, hr⟩ := run_bind_eq_ok hr
      obtain ⟨hx, block, hview⟩ := ok_reserveEntries hv hreserved
      exact hrehash hx (by rw [hview]; exact hempty) (by rw [hview]; exact Nat.le_refl _) hr
    · rename_i hroom
      exact hrehash hv hempty (Nat.le_of_not_lt hroom) hr

/-- A view has just been sized for `hint` entries: it was made for them, or sized when it was empty. -/
inductive World.SizedView (w : World ε) (hint : UInt32) (v : ViewId) (u : World ε) : Prop
  | made : newView hint w = (.ok v, u) → SizedView w hint v u
  | sized : v.index < w.views.size → (w.view v).length = 0 → resizeView v hint w = (.ok (), u) → SizedView w hint v u

theorem World.SizedView.presized (hs : w.SizedView hint v u) (hn : 8 ≤ hint.toNat) :
    v.index < u.views.size ∧ (u.view v).length = 0 ∧ ∃ heads, (u.view v).Presized hint.toNat heads := by
  cases hs with
  | sized hv hempty hr => exact presized_of_resizeView hv hempty hn hr
  | made hr =>
    have hzero : hint ≠ 0 := by
      rintro rfl
      exact absurd hn (by decide)
    cases hsize : resizeView w.addView.1 hint w.addView.2 with
    | mk r x =>
      cases r with
      | error e => cases (run_newView_error hzero hsize).symm.trans hr
      | ok _ =>
        cases (run_newView_ok hzero hsize).symm.trans hr
        exact presized_of_resizeView (has_addView _) (congrArg View.length (view_addView _)) hn hsize

/-! ## Appending -/

/-- **Where there is room for another entry it is written**, and that is all. -/
theorem View.Presized.run_append (h : (w.view v).Presized n heads) (hlen : (w.view v).length < n) {hash : UInt32} {key : Bytes}
    (hnew : (w.view v).Lacks hash key) (value : Value) :
    appendHashed v hash key value w = (.ok (), w.modifyView v (·.push hash key value)) := by
  have hchains : overloaded (w.view v).length (w.view v).heads = false := overloaded_mono (Nat.le_of_lt hlen) h.chains
  have hentry : (w.view v).length ≠ (w.view v).entryCapacity := Nat.ne_of_lt (Nat.lt_of_lt_of_le hlen h.entries)
  have hbucket : (w.view v).used ≠ (w.view v).capacity := Nat.ne_of_lt (h.used_lt (Nat.le_of_lt hlen))
  rw [run_appendHashed_new (h.sound.find_eq_none hnew)]
  simp only [bind_assoc]
  rw [run_bind_ok (run_relieveView_idle hchains 25), run_bind_ok (run_reserveEntry_idle hentry),
    run_bind_ok (run_reserveViewBucket_idle hbucket)]
  rfl

/-- The view gets `k` more entries. Meanwhile its values may change, and whatever leaves the view as it stands may happen:
a duplicate is refused, memory is taken for something else, the allocator changes its mind. -/
inductive World.Collects (v : ViewId) (w : World ε) : Nat → World ε → Prop
  | start : Collects v w 0 w
  | append {k : Nat} {x : World ε} (hash : UInt32) (key : Bytes) (value : Value) : Collects v w k x →
    (x.view v).Lacks hash key → Collects v w (k + 1) (appendHashed v hash key value x).2
  | set {k : Nat} {x : World ε} (key : Bytes) (value : Value) : Collects v w k x →
    Collects v w k (setEntry v key value x).2
  | aside {k : Nat} {x y : World ε} : Collects v w k x → v.index < y.views.size → y.view v = x.view v → Collects v w k y

/-- The view has `k` entries, and room for `n`. -/
structure World.Spacious (w : World ε) (v : ViewId) (n heads k : Nat) : Prop where
  has : v.index < w.views.size
  presized : (w.view v).Presized n heads
  length : (w.view v).length = k

namespace World.Spacious

/-- An append leaves the room to the next one. -/
theorem append (h : w.Spacious v n heads k) (hk : k < n) {hash : UInt32} {key : Bytes} (hnew : (w.view v).Lacks hash key)
    (value : Value) : (appendHashed v hash key value w).2.Spacious v n heads (k + 1) := by
  have hlen : (w.view v).length < n := h.length.symm ▸ hk
  rw [h.presized.run_append hlen hnew value]
  have hview := view_modifyView (f := (·.push hash key value)) h.has
  refine ⟨by simpa [modifyView] using h.has, ?_, ?_⟩
  · rw [hview]
    exact h.presized.push hlen hash key value
  · rw [hview, View.length_push, h.length]

theorem set (h : w.Spacious v n heads k) (key : Bytes) (value : Value) :
    (setEntry v key value w).2.Spacious v n heads k := by
  unfold setEntry
  rw [run_bind_ok (run_readView v w)]
  cases (w.view v).find key.fnv1a key with
  | none => exact h
  | some p =>
    have hview := view_modifyView (f := (·.setValue p value)) h.has
    show (w.modifyView v (·.setValue p value)).Spacious v n heads k
    refine ⟨by simpa [modifyView] using h.has, ?_, ?_⟩
    · rw [hview]
      exact h.presized.setValue p value
    · rw [hview]
      exact (Array.size_modify ..).trans h.length

end World.Spacious

/-- **A view that has room for `n` entries still has it when it has got `n`.** -/
theorem World.Collects.spacious (hu : u.Spacious v n heads 0) (hc : u.Collects v k x) : k ≤ n → x.Spacious v n heads k := by
  induction hc with
  | start => exact fun _ => hu
  | append hash key value _ hnew ih => exact fun hk => (ih (Nat.le_of_succ_le hk)).append hk hnew value
  | set key value _ ih => exact fun hk => (ih hk).set key value
  | aside _ hy hview ih => exact fun hk => ⟨hy, hview ▸ (ih hk).presized, hview ▸ (ih hk).length⟩

/-- **A view that was sized beforehand asks for no memory.** Each of the appends that it was sized for writes its entry and
leaves the rest of the world, with its ledger of memory, as it was; and the view has the same chains all the time. -/
theorem presized_view_never_allocates (hn : 8 ≤ hint.toNat) (hs : w.SizedView hint v u) (hx : u.Collects v k x)
    (hk : k ≤ hint.toNat) :
    (x.view v).length = k ∧ (x.view v).heads = (u.view v).heads ∧
    (k < hint.toNat → ∀ hash key value, (x.view v).Lacks hash key →
      appendHashed v hash key value x = (.ok (), x.modifyView v (·.push hash key value))) := by
  obtain ⟨hv, hlen, heads, hp⟩ := hs.presized hn
  have hspacious := hx.spacious ⟨hv, hp, hlen⟩ hk
  refine ⟨hspacious.length, hspacious.presized.heads_eq.trans hp.heads_eq.symm, fun hlt hash key value hnew => ?_⟩
  exact hspacious.presized.run_append (hspacious.length.symm ▸ hlt) hnew value

instance (V : View) (hash : UInt32) (key : Bytes) : Decidable (V.Lacks hash key) :=
  inferInstanceAs (Decidable (∀ e ∈ V.entries.toList, ¬ (e.hash = hash ∧ e.key = key)))

/-- Appends of these keys under one and the same hash. -/
def colliding (v : ViewId) (keys : List Bytes) (w : World ε) : World ε :=
  keys.foldl (fun x key => (appendHashed v 0 key .none x).2) w

theorem World.Collects.colliding : ∀ (keys : List Bytes) {k : Nat} {x : World ε}, w.Collects v k x →
    (∀ i < keys.length, ((ValueCore.colliding v (keys.take i) x).view v).Lacks 0 (keys.getD i [])) →
    w.Collects v (k + keys.length) (ValueCore.colliding v keys x)
  | [], _, _, hc, _ => hc
  | key :: keys, k, _, hc, hnew => by
    have hrest := colliding keys (hc.append 0 key .none (hnew 0 (Nat.succ_pos _))) fun i hi =>
      hnew (i + 1) (Nat.succ_lt_succ hi)
    rw [List.length_cons, Nat.add_comm keys.length, ← Nat.add_assoc]
    exact hrest

/-- A view that was made for forty entries, and sized for nine before it had any. -/
def sizedDown : World Unit := (resizeView ⟨0⟩ 9 (newView 40 (World.unused ())).2).2

/-- From now on the allocator refuses whatever it is asked for. -/
def refusingAll : World Unit := { sizedDown with memory := { sizedDown.memory with refusing := true } }

def eightKeys : List Bytes := (List.range 8).map fun i => [UInt8.ofNat i]

/-- Eight of the nine are appended, and fill the bucket of their chain. -/
def crowdedView : World Unit := colliding ⟨0⟩ eightKeys refusingAll

/-- The ninth takes another bucket, of those that are there. The view still has two chains. -/
theorem presized_view_never_allocates_colliding :
    let v : ViewId := ⟨0⟩
    (crowdedView.view v).length = 8 ∧ (crowdedView.view v).heads = (sizedDown.view v).heads ∧
    (appendHashed v 0 [8] .none crowdedView = (.ok (), crowdedView.modifyView v (·.push 0 [8] .none))) ∧
    (crowdedView.view v).used = 2 ∧ ((crowdedView.modifyView v (·.push 0 [8] .none)).view v).used = 3 := by
  have hsized : (newView 40 (World.unused ())).2.SizedView 9 ⟨0⟩ sizedDown :=
    .sized (by decide +kernel) (by decide +kernel) rfl
  have hrefusing : sizedDown.Collects ⟨0⟩ 0 refusingAll := .aside .start (by decide +kernel) rfl
  have hcollects : sizedDown.Collects ⟨0⟩ 8 crowdedView := World.Collects.colliding eightKeys hrefusing (by decide +kernel)
  obtain ⟨hlen, hheads, happend⟩ := presized_view_never_allocates (by decide) hsized hcollects (by decide)
  exact ⟨hlen, hheads, happend (by decide) 0 [8] .none (by decide +kernel), by decide +kernel, by decide +kernel⟩

end ValueCore
