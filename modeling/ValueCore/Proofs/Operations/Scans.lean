import ValueCore.Proofs.World.Leads

/-!
# Scans, and when a table may be changed

A scan holds its table, or finds it frozen. Either way the table has the same entries in the same slots
afterwards, whatever ran meanwhile, so the slot that the scan answers with is live when it is written to
(`scan_along`). All that is asked of hashing and comparing keys is that they are runs of steps
(`Keying.Respects`): they may change any table, and try to change the one that is being scanned.

`Free` says when a table may be changed. It is what `checkMutable` has made sure of when it returns.
-/

namespace ValueCore

open World

variable {ε : Type} {I : Inventory ε} {n : Nat} {w w' : World ε} {kind : KeyKind} {t : TableId kind}

/-- Hashing and comparing keys are runs of steps. -/
structure Keying.Respects (I : Inventory ε) (keying : Keying ε kind.Key) : Prop where
  hash : ∀ {n : Nat} {w : World ε} (key : kind.Key), w.Sound I → n ≤ w.structs.size → w.OwnsKey key →
    Evolves I n w (keying.hash key w).2
  equal : ∀ {n : Nat} {w : World ε} (a b : kind.Key), w.Sound I → n ≤ w.structs.size → w.OwnsKey a → w.OwnsKey b →
    Evolves I n w (keying.equal a b w).2

/-- Hashing and comparing keys keep to `R`. -/
structure Keying.Follows (I : Inventory ε) (R : World ε → World ε → Prop) (keying : Keying ε kind.Key) : Prop where
  hash : ∀ {w : World ε} (key : kind.Key), w.Sound I → w.OwnsKey key → R w (keying.hash key w).2
  equal : ∀ {w : World ε} (a b : kind.Key), w.Sound I → w.OwnsKey a → w.OwnsKey b → R w (keying.equal a b w).2

theorem Keying.Respects.follows {keying : Keying ε kind.Key} (hk : keying.Respects I) : keying.Follows I (Passes I) :=
  ⟨fun key h hkey => hk.hash key h (Nat.le_refl _) hkey, fun a b h ha hb => hk.equal a b h (Nat.le_refl _) ha hb⟩

/-- Wherever keys are hashed and compared, the first `n` structs that are there are respected. -/
theorem Keying.Respects.spares {keying : Keying ε kind.Key} (hk : keying.Respects I) (n : Nat) :
    keying.Follows I (Spares I n) :=
  ⟨fun key h hkey => hk.hash key h (min_le_right n _) hkey, fun a b h ha hb => hk.equal a b h (min_le_right n _) ha hb⟩

theorem textKeying_follows {R : World ε → World ε → Prop} [Course R] : (textKeying : Keying ε _).Follows I R :=
  ⟨fun _ _ _ => Course.outside (.refl _), fun _ _ _ _ _ => Course.outside (.refl _)⟩

theorem textKeying_respects : (textKeying : Keying ε _).Respects I := ⟨fun _ _ _ _ => .refl, fun _ _ _ _ _ _ => .refl⟩

/-- A table that may be changed now. -/
structure World.Free (w : World ε) (n : Nat) (t : TableId kind) : Prop where
  has : w.Has t
  unsealed : ¬ w.Sealed n t
  unfrozen : (w.table t).frozen = false
  unheld : (w.table t).holds = 0

/-! ## Single writes -/

theorem World.Free.step (h : w.Free n t) (f : Table kind.Key → Table kind.Key)
    (hc : Table.Change (w.table t) (f (w.table t))) (hi : w.OwnsItems (f (w.table t)).items) :
    Step I n w (w.modifyTable t f) := by
  rw [modifyTable_const]
  exact .change t _ h.has h.unsealed h.unfrozen h.unheld hc hi

theorem World.Free.change (h : w.Free n t) (f : Table kind.Key → Table kind.Key)
    (hc : Table.Change (w.table t) (f (w.table t))) (hi : w.OwnsItems (f (w.table t)).items) :
    Evolves I n w (w.modifyTable t f) := .step (h.step f hc hi)

/-- A change of a free table is work. -/
theorem World.Free.work (h : w.Free n t) (hs : (w.table t).Sound) (f : Table kind.Key → Table kind.Key)
    (hc : Table.Change (w.table t) (f (w.table t))) (hi : w.OwnsItems (f (w.table t)).items) :
    Work I n w (w.modifyTable t f) := work_modifyTable h.has (h.step f hc hi) (hc.flags hs).2

/-- A run outside leaves a free table free. -/
theorem World.Free.alike (h : w.Free n t) (ha : Alike w w') : w'.Free n t := by
  have hin : Within w w' := (Step.outside (I := ⟨fun _ => [], fun _ => [], fun _ _ => 0⟩) (n := 0) ha).within
  exact ⟨hin.has t h.has, fun hs => h.unsealed (hin.sealed_of_has h.has hs), by rw [ha.table]; exact h.unfrozen,
    by rw [ha.table]; exact h.unheld⟩

theorem run_checkMutable (change : TableChange) (hf : (w.table t).frozen = false) (hh : (w.table t).holds = 0) :
    checkMutable t change w = (.ok (), w) := by
  unfold checkMutable
  rw [run_bind_ok (run_readTable t w)]
  simp [hf, hh]

theorem run_checkMutable_frozen (change : TableChange) (hf : (w.table t).frozen = true) :
    checkMutable t change w = (.error (.raised .frozen), { w with message := (Fault.frozenTable change).message }) := by
  unfold checkMutable
  rw [run_bind_ok (run_readTable t w)]
  simp only [hf, if_true]
  rfl

theorem run_checkMutable_held (change : TableChange) (hf : (w.table t).frozen = false) (hh : 0 < (w.table t).holds) :
    checkMutable t change w =
      (.error (.raised .iterating), { w with message := (Fault.iterating change).message }) := by
  unfold checkMutable
  rw [run_bind_ok (run_readTable t w)]
  simp only [hf, hh, if_true]
  rfl

theorem checkMutable_along {R : World ε → World ε → Prop} [Course R] (change : TableChange) :
    Along R w (checkMutable t change) fun _ w' =>
      w' = w ∧ (w.table t).frozen = false ∧ (w.table t).holds = 0 := by
  cases hf : (w.table t).frozen with
  | true =>
    have hr := run_checkMutable_frozen change hf
    exact ⟨by rw [hr]; exact Course.outside ⟨rfl, rfl, rfl, rfl⟩, fun _ _ he => by rw [hr] at he; cases he⟩
  | false =>
    rcases Nat.eq_zero_or_pos (w.table t).holds with hh | hh
    · have hr := run_checkMutable change hf hh
      refine ⟨by rw [hr]; exact Course.outside (.refl w), fun _ _ he => ?_⟩
      rw [hr] at he
      cases he
      exact ⟨rfl, rfl, hh⟩
    · have hr := run_checkMutable_held change hf hh
      exact ⟨by rw [hr]; exact Course.outside ⟨rfl, rfl, rfl, rfl⟩, fun _ _ he => by rw [hr] at he; cases he⟩

/-! ## Scanning -/

/-- A table after something ran while it was held or frozen. -/
structure World.Watched (w w' : World ε) (t : TableId kind) : Prop where
  kept : Table.Kept (w.table t) (w'.table t)
  frozen : (w.table t).frozen → (w'.table t).frozen
  same : (w.table t).frozen = false → Table.SameStore (w.table t) (w'.table t)

/-- Whatever runs while a table is held leaves it as it is, but for flags. -/
theorem same_of_held (h : w.Sound I) (ht : w.Has t) {v : World ε} (he : Evolves I n (w.held t) v) :
    Table.SameStore (w.table t) (v.table t) := by
  have hcount : I.cursors (w.held t).env ⟨kind, t⟩ < ((w.held t).table t).holds := by
    have henv : (w.held t).env = w.env := env_modifyTable t _
    have := h.counted ⟨kind, t⟩
    have hh := holds_held t ht ⟨kind, t⟩
    rw [if_pos rfl] at hh
    rw [henv, hh]
    omega
  exact (same_held t ht t).trans (he.same_of_guarded (h.held t ht) ((has_modifyTable t _ t).2 ht) hcount)

theorem watched_held (h : w.Sound I) (ht : w.Has t) (hf : (w.table t).frozen = false) {v : World ε}
    (he : Evolves I n (w.held t) v) : w.Watched (v.letGo t) t := by
  have htv := he.within.has t ((has_modifyTable t _ t).2 ht)
  have hs := (same_of_held h ht he).trans (same_letGo t htv t)
  refine ⟨hs.kept, fun hf' => ?_, fun _ => hs⟩
  rw [hf] at hf'
  cases hf'

theorem watched_frozen (h : w.Sound I) (ht : w.Has t) (hf : (w.table t).frozen) (he : Evolves I n w w') :
    w.Watched w' t := by
  obtain ⟨hf', hk⟩ := he.frozen h ht hf
  refine ⟨hk, fun _ => hf', fun hn => ?_⟩
  rw [hf] at hn
  cases hn

theorem ownsKey_of_candidate (h : w.Sound I) {hash : UInt32} {c : Nat × kind.Key}
    (hc : c ∈ (w.table t).candidates hash) : w.OwnsKey c.2 := by
  obtain ⟨e, _, _, hk, hm⟩ := (h.tables t).item_of_candidate hc
  rw [← hk]
  exact (h.items t _ hm).1

section
variable {R : World ε → World ε → Prop} [BySteps I R] {keying : Keying ε kind.Key} {key : kind.Key}

theorem firstEqual_along (hk : keying.Follows I R) : ∀ (cands : List (Nat × kind.Key)) {w : World ε}, w.Sound I →
    w.OwnsKey key → (∀ c ∈ cands, w.OwnsKey c.2) →
      Along R w (firstEqual keying.equal key cands) fun found _ => ∀ i ∈ found, i ∈ cands.map (·.1)
  | [], _, _, _, _ => .pure fun _ hi => by cases hi
  | (slot, k) :: rest, w, h, hkey, hcands => by
    have hl : Along R w (keying.equal key k) fun _ _ => True :=
      .answer (hk.equal key k h hkey (hcands (slot, k) List.mem_cons_self))
    refine hl.bind fun verdict v hv _ => ?_
    cases verdict with
    | true =>
      refine .pure fun i hi => ?_
      cases hi
      simp
    | false =>
      have he := BySteps.evolves h hv
      have hin := he.within
      refine (firstEqual_along hk rest (he.sound h) (hin.ownsKey hkey) fun c hc =>
        hin.ownsKey (hcands c (by simp [hc]))).weaken fun found _ _ hp i hi => ?_
      exact List.mem_cons_of_mem _ (hp i hi)

/-- **A scan leaves its table as it was**, and answers with a live slot. -/
theorem scan_along (hk : keying.Follows I R) (hash : UInt32) (h : w.Sound I) (ht : w.Has t) (hkey : w.OwnsKey key) :
    Along R w (scan keying t key hash) fun found w' =>
      w.Watched w' t ∧ ∀ i ∈ found, i ∈ (w.table t).order := by
  have hlive : ∀ i, i ∈ ((w.table t).candidates hash).map (·.1) → i ∈ (w.table t).order := fun i hi => by
    obtain ⟨c, hc, rfl⟩ := List.mem_map.1 hi
    exact ((h.tables t).mem_candidates.1 hc).1
  unfold scan
  refine .read (run_readTable t w) (.holding ht (fun hf => ?_) fun hf => ?_)
  · have hl := firstEqual_along hk _ h hkey fun c (hc : c ∈ (w.table t).candidates hash) => ownsKey_of_candidate h hc
    exact hl.weaken fun found v hv hp => ⟨watched_frozen h ht hf (BySteps.evolves h hv), fun i hi => hlive i (hp i hi)⟩
  · have hin := within_modifyTable (w := w) t fun t => { t with holds := t.holds + 1 }
    have hheld := h.held t ht
    have hl := firstEqual_along hk _ hheld (hin.ownsKey hkey)
      fun c (hc : c ∈ (w.table t).candidates hash) => hin.ownsKey (ownsKey_of_candidate h hc)
    exact hl.weaken fun found v hv hp =>
      ⟨watched_held h ht hf (BySteps.evolves hheld hv), fun i hi => hlive i (hp i hi)⟩

end

end ValueCore
