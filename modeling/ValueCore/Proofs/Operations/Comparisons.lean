import ValueCore.Proofs.Operations.Insertion
import ValueCore.Proofs.Operations.Values

/-!
# What happens during a scan

A scan compares the key with one candidate after the other. `scanComparisons` lists these comparisons, each
with the worlds before and after it. While they go on, the host may do anything, and scans and comparisons of
its own may hold other tables, or the same one again: `During` are the worlds that may come about meanwhile.

In all of them the table that is scanned has the keys and values that it had at the start
(`During.items_scanned`). So the slot that the scan answers with is the live entry whose comparison was the
last, and the one that said yes (`scan_safe`).
-/

namespace ValueCore

open World

variable {ε : Type} {I : Inventory ε} {w u v : World ε} {kind : KeyKind} {t : TableId kind}

/-! ## Meanwhile -/

/-- The worlds that may come about while something runs from `w`: after some steps, and while further tables
are held. -/
inductive World.During (I : Inventory ε) (w : World ε) : World ε → Prop
  | start : During I w w
  | run {u v : World ε} : During I w u → Evolves I 0 u v → During I w v
  | hold {u : World ε} {kind : KeyKind} (t : TableId kind) : During I w u → u.Has t → During I w (u.held t)

namespace World

theorem During.within (hd : During I w u) : Within w u := by
  induction hd with
  | start => exact .refl w
  | run _ he ih => exact ih.trans he.within
  | hold t _ _ ih => exact ih.trans (within_modifyTable t _)

theorem During.sound (h : w.Sound I) (hd : During I w u) : u.Sound I := by
  induction hd with
  | start => exact h
  | run _ he ih => exact he.sound ih
  | hold t _ ht ih => exact ih.held t ht

/-- A table that is frozen keeps its entries. -/
theorem During.kept_of_frozen (h : w.Sound I) (ht : w.Has t) (hf : (w.table t).frozen) (hd : During I w u) :
    (u.table t).frozen ∧ Table.Kept (w.table t) (u.table t) := by
  induction hd with
  | start => exact ⟨hf, .refl _⟩
  | run hd he ih =>
    obtain ⟨hf', hk⟩ := he.frozen (hd.sound h) (hd.within.has t ht) ih.1
    exact ⟨hf', ih.2.trans hk⟩
  | hold t' _ ht' ih => exact ⟨by rw [frozen_held t' ht']; exact ih.1, ih.2.trans (same_held t' ht' t).kept⟩

/-- As long as a table is held something besides the cursors holds it. -/
theorem During.guarded_of_held (h : w.Sound I) (ht : w.Has t) (hd : During I (w.held t) u) :
    ∃ g, Guarded I u g ∧ 0 < g ⟨kind, t⟩ := by
  have hs := h.held t ht
  induction hd with
  | start =>
    refine ⟨_, h.guarded.held t ht, ?_⟩
    rw [plus, if_pos rfl]
    omega
  | run hd he ih =>
    obtain ⟨g, hg, hpos⟩ := ih
    exact ⟨g, he.guarded (hd.sound hs) hg, hpos⟩
  | hold t' _ ht' ih =>
    obtain ⟨g, hg, hpos⟩ := ih
    exact ⟨_, hg.held t' ht', Nat.lt_of_lt_of_le hpos (Nat.le_add_right _ _)⟩

/-- A table that is held keeps its entries. -/
theorem During.kept_of_held (h : w.Sound I) (ht : w.Has t) (hd : During I (w.held t) u) :
    Table.Kept (w.table t) (u.table t) := by
  have hs := h.held t ht
  have hat := (has_modifyTable (w := w) t (fun t => { t with holds := t.holds + 1 }) t).2 ht
  induction hd with
  | start => exact (same_held t ht t).kept
  | @run u _ hd he ih =>
    obtain ⟨g, hg, hpos⟩ := hd.guarded_of_held h ht
    have hcount : (u.table t).holds = g ⟨kind, t⟩ + I.cursors u.env ⟨kind, t⟩ := hg ⟨kind, t⟩
    exact ih.trans (he.same_of_guarded (hd.sound hs) (hd.within.has t hat) (by omega)).kept
  | hold t' _ ht' ih => exact ih.trans (same_held t' ht' t).kept

/-- The world in which keys are compared: the table is held, unless it is frozen. -/
def scanned (w : World ε) (t : TableId kind) : World ε := if (w.table t).frozen then w else w.held t

theorem sound_scanned (h : w.Sound I) (ht : w.Has t) : (w.scanned t).Sound I := by
  unfold scanned
  split
  · exact h
  · exact h.held t ht

theorem within_scanned (w : World ε) (t : TableId kind) : Within w (w.scanned t) := by
  unfold scanned
  split
  · exact .refl w
  · exact within_modifyTable t _

theorem During.kept_scanned (h : w.Sound I) (ht : w.Has t) (hd : During I (w.scanned t) u) :
    Table.Kept (w.table t) (u.table t) := by
  unfold scanned at hd
  split at hd
  · rename_i hf
    exact (hd.kept_of_frozen h ht hf).2
  · exact hd.kept_of_held h ht

/-- **Nothing that happens during a scan changes the keys and values of the table.** -/
theorem During.items_scanned (h : w.Sound I) (ht : w.Has t) (hd : During I (w.scanned t) u) :
    (u.table t).items = (w.table t).items := (hd.kept_scanned h ht).items_eq

end World

/-! ## Comparisons -/

/-- A comparison of a key with a candidate. -/
structure KeyComparison (ε κ : Type) where
  slot : Nat
  key : κ
  before : World ε
  verdict : Except Failure Bool
  after : World ε

/-- The comparisons that `firstEqual` makes. -/
def comparisons {κ : Type} (equal : κ → κ → Run ε Bool) (key : κ) :
    List (Nat × κ) → World ε → List (KeyComparison ε κ)
  | [], _ => []
  | (slot, k) :: rest, w =>
    ⟨slot, k, w, (equal key k w).1, (equal key k w).2⟩ ::
      match equal key k w with
      | (.ok false, v) => comparisons equal key rest v
      | _ => []

/-- The comparisons that a scan makes. -/
def scanComparisons (keying : Keying ε kind.Key) (t : TableId kind) (key : kind.Key) (hash : UInt32) (w : World ε) :
    List (KeyComparison ε kind.Key) :=
  comparisons keying.equal key ((w.table t).candidates hash) (w.scanned t)

section
variable {κ : Type} {equal : κ → κ → Run ε Bool} {key : κ}

/-- A slot that is found was compared last and said yes; those before said no. -/
theorem comparisons_found : ∀ {cands : List (Nat × κ)} {w v : World ε} {i : Nat},
    firstEqual equal key cands w = (.ok (some i), v) → ∃ cs c, comparisons equal key cands w = cs ++ [c] ∧
      c.slot = i ∧ c.verdict = .ok true ∧ (c.slot, c.key) ∈ cands ∧ ∀ d ∈ cs, d.verdict = .ok false
  | [], _, _, _, h => by cases h
  | (slot, k) :: rest, w, v, i, h => by
    unfold firstEqual at h
    unfold comparisons
    cases hr : equal key k w with
    | mk r u =>
      rcases r with e | verdict
      · rw [run_bind_error hr] at h
        cases h
      · rw [run_bind_ok hr] at h
        cases verdict with
        | true =>
          cases h
          exact ⟨[], _, rfl, rfl, rfl, List.mem_cons_self, fun d hd => by cases hd⟩
        | false =>
          obtain ⟨cs, c, hcs, hslot, hv, hm, hno⟩ := comparisons_found h
          refine ⟨_ :: cs, c, congrArg (List.cons _) hcs, hslot, hv, List.mem_cons_of_mem _ hm, fun d hd => ?_⟩
          rcases List.mem_cons.1 hd with rfl | hd
          · rfl
          · exact hno d hd

/-- If no slot is found then every candidate was compared and said no. -/
theorem comparisons_missed : ∀ {cands : List (Nat × κ)} {w v : World ε},
    firstEqual equal key cands w = (.ok none, v) →
      (comparisons equal key cands w).map (fun c => (c.slot, c.key)) = cands ∧
        ∀ c ∈ comparisons equal key cands w, c.verdict = .ok false
  | [], _, _, _ => ⟨rfl, fun c hc => by cases hc⟩
  | (slot, k) :: rest, w, v, h => by
    unfold firstEqual at h
    unfold comparisons
    cases hr : equal key k w with
    | mk r u =>
      rcases r with e | verdict
      · rw [run_bind_error hr] at h
        cases h
      · rw [run_bind_ok hr] at h
        cases verdict with
        | true => cases h
        | false =>
          obtain ⟨hcs, hno⟩ := comparisons_missed h
          refine ⟨congrArg (List.cons _) hcs, fun c hc => ?_⟩
          rcases List.mem_cons.1 hc with rfl | hc
          · rfl
          · exact hno c hc

end

/-- Each comparison starts and ends in a world of those meanwhile. -/
theorem comparisons_during {keying : Keying ε kind.Key} (hk : keying.Respects I) {key : kind.Key}
    {w₀ : World ε} (h₀ : w₀.Sound I) (hkey : w₀.OwnsKey key) : ∀ {cands : List (Nat × kind.Key)} {w : World ε},
      During I w₀ w → (∀ c ∈ cands, w₀.OwnsKey c.2) →
      ∀ c ∈ comparisons keying.equal key cands w, During I w₀ c.before ∧ During I w₀ c.after
  | [], _, _, _ => fun c hc => by cases hc
  | (slot, k) :: rest, w, hd, hcands => fun c hc => by
    have hin := hd.within
    have he : Evolves I 0 w (keying.equal key k w).2 := hk.equal key k (hd.sound h₀) (Nat.zero_le _)
      (hin.ownsKey hkey) (hin.ownsKey (hcands (slot, k) List.mem_cons_self))
    unfold comparisons at hc
    cases hr : keying.equal key k w with
    | mk r u =>
      rw [hr] at he hc
      rcases List.mem_cons.1 hc with rfl | hc
      · exact ⟨hd, hd.run he⟩
      · rcases r with e | verdict
        · cases hc
        · cases verdict with
          | true => cases hc
          | false => exact comparisons_during hk h₀ hkey (hd.run he) (fun d hm => hcands d (by simp [hm])) c hc

/-! ## Scans -/

/-- Every answer of the host to a question that is asked in one of the worlds leads to one of the worlds. -/
structure Host.Stays (host : Host ε) (P : World ε → Prop) : Prop where
  display : ∀ (i : HostId) {u : World ε}, P u → P (host.display i u).2
  hash : ∀ (i : HostId) {u : World ε}, P u → P (host.hash i u).2
  equal : ∀ (a b : HostId) (depth : Int) {u : World ε}, P u → P (host.equal a b depth u).2
  freeze : ∀ (i : HostId) {u : World ε}, P u → P (host.freeze i u).2

/-- A scan that starts in `w`, its comparisons, and what it answers. -/
structure SafeScan (I : Inventory ε) (host : Host ε) (keying : Keying ε kind.Key) (t : TableId kind) (key : kind.Key)
    (hash : UInt32) (w : World ε) : Prop where
  during : ∀ c ∈ scanComparisons keying t key hash w,
    During I (w.scanned t) c.before ∧ During I (w.scanned t) c.after
  callbacks : host.Stays (During I (w.scanned t))
  unchanged : ∀ u, During I (w.scanned t) u → (u.table t).items = (w.table t).items
  /-- The answer is the live entry that the last comparison was about, which said yes. -/
  found : ∀ i v, scan keying t key hash w = (.ok (some i), v) →
    ∃ cs c e, scanComparisons keying t key hash w = cs ++ [c] ∧ c.slot = i ∧ c.verdict = .ok true ∧
      (∀ d ∈ cs, d.verdict = .ok false) ∧ i ∈ (v.table t).order ∧ (v.table t).slot i = some e ∧ e.key = c.key
  missed : ∀ v, scan keying t key hash w = (.ok none, v) →
    (scanComparisons keying t key hash w).map (fun c => (c.slot, c.key)) = (w.table t).candidates hash ∧
      ∀ c ∈ scanComparisons keying t key hash w, c.verdict = .ok false
  ended : (((scan keying t key hash w).2).table t).items = (w.table t).items

/-- A scan answers what its comparisons come to. -/
theorem firstEqual_of_scan {keying : Keying ε kind.Key} {key : kind.Key} {hash : UInt32}
    {r : Except Failure (Option Nat)} (hr : scan keying t key hash w = (r, v)) :
    ∃ u, firstEqual keying.equal key ((w.table t).candidates hash) (w.scanned t) = (r, u) := by
  unfold scan at hr
  rw [run_bind_ok (run_readTable t w)] at hr
  unfold scanned
  cases hf : (w.table t).frozen with
  | true =>
    rw [run_holding_of_frozen hf] at hr
    exact ⟨v, hr⟩
  | false =>
    rw [run_holding hf] at hr
    have hanswer : (firstEqual keying.equal key ((w.table t).candidates hash) (w.held t)).1 = r := congrArg Prod.fst hr
    exact ⟨_, Prod.ext hanswer rfl⟩

theorem scan_watched {R : World ε → World ε → Prop} [BySteps I R] {keying : Keying ε kind.Key}
    (hk : keying.Follows I R) {key : kind.Key} (hash : UInt32) (h : w.Sound I) (ht : w.Has t) (hkey : w.OwnsKey key) :
    w.Watched (scan keying t key hash w).2 t := by
  have hcands : ∀ c ∈ (w.table t).candidates hash, w.OwnsKey c.2 := fun c hc => ownsKey_of_candidate h hc
  unfold scan
  rw [run_bind_ok (run_readTable t w)]
  cases hf : (w.table t).frozen with
  | true =>
    rw [run_holding_of_frozen hf]
    exact watched_frozen h ht hf (BySteps.evolves h (firstEqual_along hk _ h hkey hcands).ends)
  | false =>
    have hin := within_modifyTable (w := w) t fun t => { t with holds := t.holds + 1 }
    rw [run_holding hf]
    have hheld := h.held t ht
    exact watched_held h ht hf (BySteps.evolves hheld (firstEqual_along hk _ hheld (hin.ownsKey hkey)
      fun c hc => hin.ownsKey (hcands c hc)).ends)

/-- **Every scan is safe**, whatever hashing and comparing keys does. -/
theorem scan_safe {host : Host ε} (hh : host.Respects I) {keying : Keying ε kind.Key} (hk : keying.Respects I)
    {key : kind.Key} {hash : UInt32} (h : w.Sound I) (ht : w.Has t) (hkey : w.OwnsKey key) :
    SafeScan I host keying t key hash w := by
  have hs := sound_scanned h ht
  have hin := within_scanned w t
  have hw := scan_watched hk.follows hash h ht hkey
  have hsound : ∀ {u : World ε}, During I (w.scanned t) u → u.Sound I := fun hd => hd.sound hs
  refine ⟨?_, ⟨fun i _ hd => ?_, fun i _ hd => ?_, fun a b depth _ hd => ?_, fun i _ hd => ?_⟩, fun u hd => ?_,
    fun i v hr => ?_, fun v hr => ?_, hw.kept.items_eq⟩
  · exact comparisons_during hk hs (hin.ownsKey hkey) .start fun c hc => hin.ownsKey (ownsKey_of_candidate h hc)
  · exact hd.run (hh.display i (hsound hd) (Nat.zero_le _))
  · exact hd.run (hh.hash i (hsound hd) (Nat.zero_le _))
  · exact hd.run (hh.equal a b depth (hsound hd) (Nat.zero_le _))
  · exact hd.run (hh.freeze i (hsound hd) (Nat.zero_le _))
  · exact hd.items_scanned h ht
  · obtain ⟨_, hf⟩ := firstEqual_of_scan hr
    obtain ⟨cs, c, hcs, hslot, hv, hm, hno⟩ := comparisons_found hf
    obtain ⟨hi, e, he, _, hek⟩ := (h.tables t).mem_candidates.1 hm
    rw [hr] at hw
    subst hslot
    exact ⟨cs, c, e, hcs, rfl, hv, hno, hw.kept.1 ▸ hi, (hw.kept.2 _ hi).trans he, hek⟩
  · obtain ⟨_, hf⟩ := firstEqual_of_scan hr
    exact comparisons_missed hf

end ValueCore
