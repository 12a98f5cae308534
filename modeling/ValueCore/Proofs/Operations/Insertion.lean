import ValueCore.Proofs.Operations.Denials

/-!
# How an insertion ends

An insertion scans, and when the table is overloaded it grows it and scans again. `Rounds` are the scans that
were in vain, each followed by growth; `Concludes` is what follows from the last scan. `insertHashed_concludes`
says that every insertion is some rounds and a conclusion, and that the table has the same records when the
last scan starts as when the first one did.

What hashing and comparing do is left open: `Steady` is all that is needed of them. It speaks of the worlds
`J` that an insertion goes through, and asks that a scan leads from such a world to such a world and leaves
the table as it was.
-/

namespace ValueCore

open World

variable {ε : Type} {w w' : World ε} {kind : KeyKind} {t : TableId kind} {keying : Keying ε kind.Key}
  {key : kind.Key} {value : Value} {hash : UInt32}

/-- The scans that found nothing in a table that then had to grow. -/
inductive Rounds (keying : Keying ε kind.Key) (t : TableId kind) (key : kind.Key) (hash : UInt32) :
    World ε → World ε → Prop
  | done {w : World ε} : Rounds keying t key hash w w
  | again {w v u w' : World ε} : scan keying t key hash w = (.ok none, v) → (v.table t).frozen = false →
    (v.table t).holds = 0 → overloaded (v.table t).length (v.table t).heads = true →
    growTable t v = (.ok (), u) → Rounds keying t key hash u w' → Rounds keying t key hash w w'

/-- How an insertion ends whose last scan starts in `w`. -/
inductive Concludes (keying : Keying ε kind.Key) (t : TableId kind) (key : kind.Key) (value : Value) (hash : UInt32)
    (w : World ε) : Except Failure Unit × World ε → Prop
  | failed {e : Failure} {v : World ε} : scan keying t key hash w = (.error e, v) →
    Concludes keying t key value hash w (.error e, v)
  | frozen {found : Option Nat} {v : World ε} : scan keying t key hash w = (.ok found, v) →
    (v.table t).frozen = true → Concludes keying t key value hash w
      (.error (.raised .frozen), { v with message := (Fault.frozenTable .insert).message })
  | held {found : Option Nat} {v : World ε} : scan keying t key hash w = (.ok found, v) →
    (v.table t).frozen = false → 0 < (v.table t).holds → Concludes keying t key value hash w
      (.error (.raised .iterating), { v with message := (Fault.iterating .insert).message })
  | overwrites {i : Nat} {v : World ε} : scan keying t key hash w = (.ok (some i), v) → (v.table t).frozen = false →
    (v.table t).holds = 0 → i ∈ (v.table t).order →
    Concludes keying t key value hash w (.ok (), v.modifyTable t (·.overwrite i value))
  | refused {v u : World ε} : scan keying t key hash w = (.ok none, v) → (v.table t).frozen = false →
    (v.table t).holds = 0 → Alike v u →
    (Memory.tooBig (v.table t).grownCapacity kind.bucketBytes = false → v.Denied t hash u) →
    Concludes keying t key value hash w (.error (.raised .memory), u)
  | appends {v u : World ε} {t' : Table kind.Key} : scan keying t key hash w = (.ok none, v) →
    (v.table t).frozen = false → (v.table t).holds = 0 → overloaded (v.table t).length (v.table t).heads = false →
    Alike v u → Table.Placed (v.table t) hash key value t' →
    Concludes keying t key value hash w (.ok (), u.modifyTable t fun _ => t')

/-- The worlds `J` that an insertion may go through. -/
structure Steady (keying : Keying ε kind.Key) (t : TableId kind) (key : kind.Key) (hash : UInt32)
    (J : World ε → Prop) : Prop where
  sound : ∀ {w : World ε}, J w → (w.table t).Sound
  has : ∀ {w : World ε}, J w → w.Has t
  scan : ∀ {w : World ε}, J w → J (scan keying t key hash w).2
  watched : ∀ {w : World ε}, J w → w.Watched (ValueCore.scan keying t key hash w).2 t
  found : ∀ {w w' : World ε} {i : Nat}, J w → ValueCore.scan keying t key hash w = (.ok (some i), w') →
    i ∈ (w.table t).order
  alike : ∀ {w w' : World ε}, J w → Alike w w' → J w'
  grown : ∀ {w : World ε} (block : Option Block), J w → (w.table t).frozen = false → (w.table t).holds = 0 →
    overloaded (w.table t).length (w.table t).heads = true → (w.table t).heads < maxHeads →
    J (w.modifyTable t (·.grown block))

/-- More may be asked of the worlds that an insertion goes through, if scanning and growing keep it. -/
theorem Steady.and {J P : World ε → Prop} (hJ : Steady keying t key hash J)
    (hscan : ∀ {u}, J u → P u → P (ValueCore.scan keying t key hash u).2)
    (halike : ∀ {u v}, P u → Alike u v → P v)
    (hgrown : ∀ {u : World ε} (block : Option Block), J u → P u → (u.table t).heads < maxHeads →
      P (u.modifyTable t (·.grown block))) : Steady keying t key hash fun u => J u ∧ P u := by
  refine ⟨fun h => hJ.sound h.1, fun h => hJ.has h.1, fun h => ⟨hJ.scan h.1, hscan h.1 h.2⟩, fun h => hJ.watched h.1,
    fun h hs => hJ.found h.1 hs, fun h ha => ⟨hJ.alike h.1 ha, halike h.2 ha⟩, fun block h hf hh ho hmax => ?_⟩
  exact ⟨hJ.grown block h.1 hf hh ho hmax, hgrown block h.1 h.2 hmax⟩

/-- A round doubles the number of chains and leaves the records as they are. -/
theorem Steady.round {J : World ε → Prop} (hJ : Steady keying t key hash J) {v u : World ε} (hj : J w)
    (hs : ValueCore.scan keying t key hash w = (.ok none, v)) (hf : (v.table t).frozen = false)
    (hh : (v.table t).holds = 0) (ho : overloaded (v.table t).length (v.table t).heads = true)
    (hg : growTable t v = (.ok (), u)) :
    J u ∧ (u.table t).records = (w.table t).records ∧ (u.table t).heads = 2 * (w.table t).heads := by
  have hjv := hJ.scan hj
  have hw := hJ.watched hj
  rw [hs] at hjv hw
  rcases run_growTable t v with ⟨x, _, hr⟩ | ⟨x, y, block, hmax, hx, hy, hr⟩
  · rw [hr] at hg
    cases hg
  · rw [hr] at hg
    cases hg
    have hjx := hJ.alike hjv hx
    have htx := hx.table t
    have hself := table_modifyTable t (·.grown block) (hJ.has hjx)
    have hgrown := (hJ.sound hjx).grown (by rw [htx]; exact hmax) block
    -- the table was not frozen, so it was held during the scan and has as many chains as before
    have hwf : (w.table t).frozen = false := by
      cases hwf : (w.table t).frozen with
      | false => rfl
      | true => rw [hw.frozen hwf] at hf; cases hf
    refine ⟨hJ.alike (hJ.grown block hjx (htx ▸ hf) (htx ▸ hh) (htx ▸ ho) (htx ▸ hmax)) hy, ?_, ?_⟩
    · rw [hy.table t, hself, hgrown.2.2.1, htx, hw.kept.records_eq]
    · rw [hy.table t, hself, hgrown.2.2.2.1, htx, hw.same hwf]

theorem Steady.rounds {J : World ε → Prop} (hJ : Steady keying t key hash J) (hr : Rounds keying t key hash w w') :
    J w → J w' ∧ (w'.table t).records = (w.table t).records := by
  induction hr with
  | done => exact fun hj => ⟨hj, rfl⟩
  | again hs hf hh ho hg _ ih =>
    intro hj
    obtain ⟨hju, hrec, _⟩ := hJ.round hj hs hf hh ho hg
    exact ⟨(ih hju).1, (ih hju).2.trans hrec⟩

/-- There is fuel for another scan as long as there is some for each doubling that the limit admits. -/
theorem Steady.fuel_ne_zero {J : World ε → Prop} (hJ : Steady keying t key hash J) {fuel k : Nat} (hj : J w)
    (hk : (w.table t).heads = 2 ^ k) (hfuel : 25 ≤ k + fuel) : fuel ≠ 0 := by
  obtain ⟨j, hle, hj'⟩ := (hJ.sound hj).heads_pow
  have : k = j := Nat.pow_right_injective (Nat.le_refl 2) (hk.symm.trans hj')
  omega

/-- **Every insertion is some rounds and a conclusion**, if it may scan once for each doubling that the limit
admits and once more. The induction is on the doublings that are left. -/
theorem insertHashed_concludes {J : World ε → Prop} (hJ : Steady keying t key hash J) (value : Value) :
    ∀ {fuel k : Nat} {w : World ε}, J w → (w.table t).heads = 2 ^ k → 25 ≤ k + fuel →
      ∃ v, Rounds keying t key hash w v ∧ J v ∧ (v.table t).records = (w.table t).records ∧
        Concludes keying t key value hash v (insertHashed keying t key value hash fuel w)
  | 0, k, w, hj, hk, hfuel => absurd rfl (hJ.fuel_ne_zero hj hk hfuel)
  | fuel + 1, k, w, hj, hk, hfuel => by
    have hjv := hJ.scan hj
    have hw := hJ.watched hj
    unfold insertHashed
    cases hs : ValueCore.scan keying t key hash w with
    | mk r v =>
      rw [hs] at hjv hw
      cases r with
      | error e =>
        rw [run_bind_error hs]
        exact ⟨w, .done, hj, rfl, .failed hs⟩
      | ok found =>
        rw [run_bind_ok hs]
        cases hf : (v.table t).frozen with
        | true =>
          rw [run_bind_error (run_checkMutable_frozen .insert hf)]
          exact ⟨w, .done, hj, rfl, .frozen hs hf⟩
        | false =>
          rcases Nat.eq_zero_or_pos (v.table t).holds with hh | hh
          · rw [run_bind_ok (run_checkMutable .insert hf hh)]
            cases found with
            | some i =>
              have hi : i ∈ (v.table t).order := hw.kept.1 ▸ hJ.found hj hs
              exact ⟨w, .done, hj, rfl, .overwrites hs hf hh hi⟩
            | none =>
              dsimp only
              rw [run_bind_ok (run_readTable t v)]
              cases ho : overloaded (v.table t).length (v.table t).heads with
              | false =>
                rw [if_neg (by simp)]
                rcases run_placed hash key value (hJ.sound hjv) (hJ.has hjv) with
                  ⟨u, hu, hr⟩ | ⟨u, t', hu, hp, hr⟩
                · rw [hr]
                  exact ⟨w, .done, hj, rfl, .refused hs hf hh hu fun _ => denied_of_placed ho hr⟩
                · rw [hr]
                  exact ⟨w, .done, hj, rfl, .appends hs hf hh ho hu hp⟩
              | true =>
                rw [if_pos rfl]
                rcases run_growTable t v with ⟨u, hu, hr⟩ | ⟨u, u', block, hmax, hu, hu', hr⟩
                · rw [run_bind_error hr]
                  exact ⟨w, .done, hj, rfl, .refused hs hf hh hu fun hbuckets => denied_of_growTable ho hbuckets hr⟩
                · rw [run_bind_ok hr]
                  obtain ⟨hju', hrec, hheads⟩ := hJ.round hj hs hf hh ho hr
                  have hk' : (u'.table t).heads = 2 ^ (k + 1) := by rw [hheads, hk, Nat.pow_succ, Nat.mul_comm]
                  obtain ⟨x, hx, hjx, hrx, hc⟩ := insertHashed_concludes hJ value hju' hk' (by omega : 25 ≤ (k + 1) + fuel)
                  exact ⟨x, .again hs hf hh ho hr hx, hjx, hrx.trans hrec, hc⟩
          · rw [run_bind_error (run_checkMutable_held .insert hf hh)]
            exact ⟨w, .done, hj, rfl, .held hs hf hh⟩

/-- The scans that an insertion may make are enough. -/
theorem insertHashed_ends {J : World ε → Prop} (hJ : Steady keying t key hash J) (value : Value) (hj : J w) :
    ∃ v, Rounds keying t key hash w v ∧ J v ∧ (v.table t).records = (w.table t).records ∧
      Concludes keying t key value hash v (insertHashed keying t key value hash 26 w) := by
  obtain ⟨k, _, hk⟩ := (hJ.sound hj).heads_pow
  exact insertHashed_concludes hJ value hj hk (by omega)

/-- A scan after some rounds that leaves a hold on the table is the last one. The insertion says that something iterates. -/
theorem insertHashed_held {J : World ε → Prop} (hJ : Steady keying t key hash J) (value : Value) {found : Option Nat}
    {v : World ε} (hr : Rounds keying t key hash w w') (hs : ValueCore.scan keying t key hash w' = (.ok found, v))
    (hf : (v.table t).frozen = false) (hh : 0 < (v.table t).holds) :
    ∀ {fuel k : Nat}, J w → (w.table t).heads = 2 ^ k → 25 ≤ k + fuel →
      (insertHashed keying t key value hash fuel w).1 = .error (.raised .iterating) := by
  induction hr with
  | done =>
    intro fuel k hj hk hfuel
    obtain ⟨fuel, rfl⟩ := Nat.exists_eq_succ_of_ne_zero (hJ.fuel_ne_zero hj hk hfuel)
    unfold insertHashed
    rw [run_bind_ok hs, run_bind_error (run_checkMutable_held .insert hf hh)]
  | @again w y u _ hs' hf' hz ho hg _ ih =>
    intro fuel k hj hk hfuel
    obtain ⟨fuel, rfl⟩ := Nat.exists_eq_succ_of_ne_zero (hJ.fuel_ne_zero hj hk hfuel)
    obtain ⟨hju, -, hheads⟩ := hJ.round hj hs' hf' hz ho hg
    have hround : insertHashed keying t key value hash (fuel + 1) w = insertHashed keying t key value hash fuel u := by
      rw [insertHashed, run_bind_ok hs', run_bind_ok (run_checkMutable .insert hf' hz)]
      dsimp only
      rw [run_bind_ok (run_readTable t y), if_pos ho, run_bind_ok hg]
    rw [hround]
    exact ih hs hju (by rw [hheads, hk, Nat.pow_succ, Nat.mul_comm] : _ = 2 ^ (k + 1)) (by omega)

/-! ## The records after a conclusion -/

theorem records_overwrites {v : World ε} (h : (v.table t).Sound) (ht : v.Has t) {a b : List Nat} {i : Nat}
    {e : Entry kind.Key} (ho : (v.table t).order = a ++ i :: b) (he : (v.table t).slot i = some e) :
    ((v.modifyTable t (·.overwrite i value)).table t).records = a.filterMap (v.table t).recordAt ++
      (e.hash, e.key, value) :: b.filterMap (v.table t).recordAt := by
  rw [table_modifyTable t _ ht]
  exact h.records_overwrite ho he value

theorem records_appends {v u : World ε} (h : (v.table t).Sound) (ht : v.Has t) (hu : Alike v u) (hhash : hash ≠ 0)
    {t' : Table kind.Key} (hp : Table.Placed (v.table t) hash key value t') :
    ((u.modifyTable t fun _ => t').table t).records = (v.table t).records ++ [(hash, key, value)] := by
  rw [table_modifyTable t _ (hu.has_iff.2 ht)]
  exact hp.records_eq h hhash

end ValueCore
