import ValueCore.Proofs.Cursors.Shelf
import ValueCore.Proofs.Operations.Seclusion

/-!
# Holds are counted exactly

The flags of the cursors agree with what the log says about who owns a hold (`World.Tallied`), and whatever a program does
keeps that up, in the middle of operations too. So between operations a table is held as often as there are holds on it that
were taken and not given back (`Played.holds_eq`). Neither freezing a table meanwhile nor an error changes anything of it.

What follows for changes of a table that is not frozen:

| the change | says that something iterates |
| --- | --- |
| `clear` | just when a hold is outstanding |
| `insert`, `erase` of a byte string | just when a hold is outstanding |
| `insert`, `erase` of a value that the host is not asked about | just when a hold is outstanding |
| `insert`, `erase` of a value, if the host never says so itself | when a hold is outstanding, at the start or after the scan |
| `insert`, `erase` of a value | likewise, or when the host says so while the key is hashed or compared |

In the last two rows the host is asked, and may start a cursor on the table and leave it behind.
-/

namespace ValueCore

open World

variable {σ : Type} {I : Inventory σ} {w w' u v : World (Shelf σ)} {kind : KeyKind} {t : TableId kind}

/-! ## No more and no fewer -/

/-- **Between operations a table is held as often as holds on it are outstanding.** -/
theorem Played.holds_eq (hp : Played I w) (t : TableId kind) : (w.table t).holds = outstanding w.env.log ⟨kind, t⟩ := by
  rw [hp.reachable.holds_eq t, hp.tallied.cursors_eq]

/-! ## No count goes below zero -/

/-- Whoever releases a table is counted there: every cursor that holds it, and everything that holds it for as long as
something else goes on. -/
structure World.ReleasesSafely (I : Inventory σ) (w : World (Shelf σ)) : Prop where
  cursors : ∀ {kind : KeyKind} (i : Nat) (c : Cursor kind), w.env.cursor? i = some ⟨kind, c⟩ → c.holding = true →
    0 < (w.table c.table).holds
  brackets : ∀ {kind : KeyKind} (t : TableId kind), w.Has t → ∀ v, During (shelved I) (w.held t) v → 0 < (v.table t).holds

theorem World.Sound.releasesSafely (h : w.Sound (shelved I)) : w.ReleasesSafely I := by
  refine ⟨fun i c hc hh => h.held_of_cursor (List.mem_of_getElem? (Shelf.getElem?_cursors hc)) hh,
    fun {kind} t ht v hd => ?_⟩
  obtain ⟨g, hg, hpos⟩ := hd.guarded_of_held h ht
  have hholds := hg ⟨kind, t⟩
  exact hholds ▸ Nat.lt_of_lt_of_le hpos (Nat.le_add_right _ _)

/-! ## Changes that are refused -/

section
variable {α : Type}

/-- The worlds that the last scan of a change may start in: the one that hashing left, or one that the table has grown in
since. -/
abbrev Scans (σ : Type) : Type := UInt32 → World (Shelf σ) → World (Shelf σ) → Prop

/-- A change that scans once. -/
def Scans.once : Scans σ := fun _ u x => x = u

section
variable (keying : Keying (Shelf σ) kind.Key) (t : TableId kind) (key : kind.Key) (scans : Scans σ)

/-- Whether a change with `key` says that something iterates. It does so at once if a hold is outstanding. Otherwise the
errors of hashing and comparing the key are passed on, and after that it depends on the holds that are outstanding then. -/
def RefusesRightly (w : World (Shelf σ)) (r : Except Failure α × World (Shelf σ)) : Prop :=
  if 0 < outstanding w.env.log ⟨kind, t⟩ then r.1 = .error (.raised .iterating)
  else
    match keying.hash key w with
    | (.error e, _) => r.1 = .error e
    | (.ok h, u) =>
      ∃ x, scans (storedHash h) u x ∧
        match scan keying t key (storedHash h) x with
        | (.error e, _) => r.1 = .error e
        | (.ok _, v) =>
          r.1 = .error (.raised .iterating) ↔ (v.table t).frozen = false ∧ 0 < outstanding v.env.log ⟨kind, t⟩

/-- The key is hashed and compared, and a hold on the table is left behind by that. -/
def LeavesHold (w : World (Shelf σ)) : Prop :=
  ∃ h u x found v, keying.hash key w = (.ok h, u) ∧ scans (storedHash h) u x ∧
    scan keying t key (storedHash h) x = (.ok found, v) ∧ (v.table t).frozen = false ∧
    0 < outstanding v.env.log ⟨kind, t⟩

end

/-- If hashing and comparing do not say that something iterates then a hold is the reason. -/
theorem RefusesRightly.reason {keying : Keying (Shelf σ) kind.Key} {key : kind.Key} {scans : Scans σ}
    {r : Except Failure α × World (Shelf σ)} (hr : RefusesRightly keying t key scans w r)
    (hhash : (keying.hash key w).1 ≠ .error (.raised .iterating))
    (hscan : ∀ {h u x}, keying.hash key w = (.ok h, u) → scans (storedHash h) u x →
      (scan keying t key (storedHash h) x).1 ≠ .error (.raised .iterating))
    (hi : r.1 = .error (.raised .iterating)) :
    0 < outstanding w.env.log ⟨kind, t⟩ ∨ LeavesHold keying t key scans w := by
  have hpassed : ∀ {e : Failure}, r.1 = .error e → e = .raised .iterating := fun he =>
    Except.error.inj (he.symm.trans hi)
  unfold RefusesRightly at hr
  split at hr
  · rename_i hheld
    exact .inl hheld
  · cases hu : keying.hash key w with
    | mk outcome u =>
    rw [hu] at hr hhash
    cases outcome with
    | error e => exact absurd (congrArg Except.error (hpassed hr)) hhash
    | ok h =>
      obtain ⟨x, hx, hend⟩ := hr
      have hnot := hscan hu hx
      cases hs : scan keying t key (storedHash h) x with
      | mk outcome v =>
      rw [hs] at hend hnot
      cases outcome with
      | error e => exact absurd (congrArg Except.error (hpassed hend)) hnot
      | ok found =>
        obtain ⟨hf, hheld⟩ := hend.1 hi
        exact .inr ⟨h, u, x, found, v, hu, hx, hs, hf, hheld⟩

/-- An outstanding hold is reason enough. -/
theorem RefusesRightly.refuses {keying : Keying (Shelf σ) kind.Key} {key : kind.Key} {scans : Scans σ}
    {r : Except Failure α × World (Shelf σ)} (hr : RefusesRightly keying t key scans w r)
    (hheld : 0 < outstanding w.env.log ⟨kind, t⟩) : r.1 = .error (.raised .iterating) := by
  unfold RefusesRightly at hr
  rwa [if_pos hheld] at hr

theorem Checked.imp {ε : Type} {v : World ε} {t : TableId kind} {l : List (kind.Key × Value)}
    {r : Except Failure α × World ε} {effect effect' : Prop} (hc : Checked t v l r effect) (h : effect → effect') :
    Checked t v l r effect' := by
  unfold Checked at *
  split
  · rename_i hf
    rwa [if_pos hf] at hc
  · rename_i hf
    rw [if_neg hf] at hc
    split
    · rename_i hh
      rwa [if_pos hh] at hc
    · rename_i hh
      rw [if_neg hh] at hc
      exact h hc

/-- A check that fails says that something iterates just if the table is not frozen and is held. -/
theorem Checked.iterating_iff {ε : Type} {v : World ε} {t : TableId kind} {l : List (kind.Key × Value)}
    {r : Except Failure α × World ε} {effect : Prop} (hc : Checked t v l r effect)
    (he : effect → r.1 ≠ .error (.raised .iterating)) :
    r.1 = .error (.raised .iterating) ↔ (v.table t).frozen = false ∧ 0 < (v.table t).holds := by
  unfold Checked at hc
  cases hf : (v.table t).frozen with
  | true =>
    rw [hf, if_pos rfl] at hc
    simp [hc.1]
  | false =>
    rw [hf, if_neg (by simp)] at hc
    by_cases hh : 0 < (v.table t).holds
    · rw [if_pos hh] at hc
      simp [hc.1, hh]
    · rw [if_neg hh] at hc
      simp [he hc, hh]

end

/-- Hashing and comparing keys keeps the flags in agreement with the log. -/
theorem Playful.follows {host : Host (Shelf σ)} (hh : Playful I host) (kind : KeyKind) :
    (keyingOf host kind).Follows (shelved I) (Carries (shelved I) World.Tallied) :=
  keyingOf_follows (hh.minds.follows hh.civil) kind

/-- The count is exact wherever no more is going on than when the program was last between operations. -/
theorem Played.holds_of_carries (hp : Played I w) (hc : Carries (shelved I) World.Tallied w v) (t : TableId kind) :
    (v.table t).holds = outstanding v.env.log ⟨kind, t⟩ := by
  have hbalanced := balanced_of_evolves hp.sound hc.1 t
  have hw := hp.reachable.holds_eq t
  have hv := (hc.2 hp.sound hp.tallied).cursors_eq (I := I) ⟨kind, t⟩
  unfold Balanced at hbalanced
  omega

section
variable {host : Host (Shelf σ)} {key : kind.Key} (hp : Played I w) (hh : Playful I host) (hf : (w.table t).frozen = false)
  (ht : w.Has t) (hkey : w.OwnsKey key)
include hp hh ht hkey

/-- Hashing and scanning leave the count exact. -/
theorem Played.steady (hash : UInt32) :
    Steady (keyingOf host kind) t key hash fun v => Carries (shelved I) World.Tallied w v :=
  steady_follows (hh.follows kind) hash hp.sound ht hkey

include hf

/-- What is known of a change by its checks. -/
theorem Played.refusesRightly {α : Type} {scans : Scans σ} {r : Except Failure α × World (Shelf σ)}
    {l : List (kind.Key × Value)}
    (hscans : ∀ {hash u x}, Carries (shelved I) World.Tallied w u → scans hash u x → Carries (shelved I) World.Tallied w x)
    (hchecked : Checked t w l r <|
      match (keyingOf host kind).hash key w with
      | (.error e, u) => r = (.error e, u)
      | (.ok h, u) =>
        ∃ x, scans (storedHash h) u x ∧
          match scan (keyingOf host kind) t key (storedHash h) x with
          | (.error e, v) => r = (.error e, v)
          | (.ok _, v) => ∃ l effect, Checked t v l r effect ∧ (effect → r.1 ≠ .error (.raised .iterating))) :
    RefusesRightly (keyingOf host kind) t key scans w r := by
  unfold Checked at hchecked
  rw [if_neg (by simp [hf]), hp.holds_eq t] at hchecked
  unfold RefusesRightly
  split
  · rename_i hheld
    rw [if_pos hheld] at hchecked
    exact hchecked.1
  · rename_i hheld
    rw [if_neg hheld] at hchecked
    have hhash := (hh.follows kind).hash key hp.sound hkey
    cases hr : (keyingOf host kind).hash key w with
    | mk outcome u =>
    rw [hr] at hchecked hhash
    cases outcome with
    | error e => exact congrArg Prod.fst hchecked
    | ok h =>
      obtain ⟨x, hx, hend⟩ := hchecked
      have hv := (hp.steady hh ht hkey (storedHash h)).scan (hscans hhash hx)
      refine ⟨x, hx, ?_⟩
      cases hs : scan (keyingOf host kind) t key (storedHash h) x with
      | mk outcome v =>
      rw [hs] at hend hv
      cases outcome with
      | error e => exact congrArg Prod.fst hend
      | ok found =>
        obtain ⟨_, _, hagain, heffect⟩ := hend
        dsimp only
        rw [← hp.holds_of_carries hv t]
        exact Checked.iterating_iff hagain heffect

theorem Played.insert_refuses (value : Value) :
    RefusesRightly (keyingOf host kind) t key (Rounds (keyingOf host kind) t key) w
      (insert (keyingOf host kind) t key value w) := by
  have hmidway : Midway (shelved I) w := ⟨w, hp.reachable, .start⟩
  have hsafe := inserts_safely hh.civil.respects (keyingOf_respects hh.civil.respects kind) hp.sound ht hkey
    hmidway.moderate value
  unfold InsertsSafely at hsafe
  refine hp.refusesRightly hh hf ht hkey (l := (w.table t).items)
    (fun {hash _ _} hu hx => ((hp.steady hh ht hkey hash).rounds hx hu).1) ?_
  refine hsafe.imp fun heffect => ?_
  cases hr : (keyingOf host kind).hash key w with
  | mk outcome u =>
  rw [hr] at heffect
  cases outcome with
  | error e => exact heffect
  | ok h =>
    obtain ⟨_, x, hx, hend⟩ := heffect
    refine ⟨x, hx, ?_⟩
    cases hs : scan (keyingOf host kind) t key (storedHash h) x with
    | mk outcome v =>
    rw [hs] at hend
    cases outcome with
    | error e => exact hend
    | ok found =>
      refine ⟨_, _, hend.2, fun hdone => ?_⟩
      cases found with
      | some i =>
        rw [hdone.1]
        simp
      | none =>
        rcases hdone with hdone | hdone
        · rw [hdone.1]
          simp
        · rw [hdone.1]
          simp

theorem Played.erase_refuses :
    RefusesRightly (keyingOf host kind) t key Scans.once w (erase (keyingOf host kind) t key w) := by
  have hsafe := erases_safely hh.civil.respects (keyingOf_respects hh.civil.respects kind) hp.sound ht hkey
  unfold ErasesSafely at hsafe
  refine hp.refusesRightly hh hf ht hkey (l := (w.table t).items) (fun hu hx => hx ▸ hu) ?_
  refine hsafe.imp fun heffect => ?_
  cases hr : (keyingOf host kind).hash key w with
  | mk outcome u =>
  rw [hr] at heffect
  cases outcome with
  | error e => exact heffect
  | ok h =>
    obtain ⟨_, hend⟩ := heffect
    refine ⟨u, rfl, ?_⟩
    cases hs : scan (keyingOf host kind) t key (storedHash h) u with
    | mk outcome v =>
    rw [hs] at hend
    cases outcome with
    | error e => exact hend
    | ok found =>
      refine ⟨_, _, hend.2, fun hdone => ?_⟩
      cases found <;> rw [hdone.1] <;> simp

/-! ## Holds that are left behind -/

/-- A hold that comparing leaves behind is in the way of the insertion. -/
theorem Played.insert_leavesHold (value : Value)
    (hleaves : LeavesHold (keyingOf host kind) t key (Rounds (keyingOf host kind) t key) w) :
    (insert (keyingOf host kind) t key value w).1 = .error (.raised .iterating) := by
  obtain ⟨h, u, x, found, v, hr, hx, hs, hfv, hheld⟩ := hleaves
  have hu := (hh.follows kind).hash key hp.sound hkey
  have hsteady := hp.steady hh ht hkey (storedHash h)
  rw [hr] at hu
  have hv := hsteady.scan (hsteady.rounds hx hu).1
  rw [hs] at hv
  rw [← hp.holds_of_carries hv t] at hheld
  obtain ⟨k, -, hk⟩ := (hsteady.sound hu).heads_pow
  unfold insert
  rcases Nat.eq_zero_or_pos (w.table t).holds with hz | hz
  · rw [run_bind_ok (run_checkMutable .insert hf hz), run_bind_ok hr]
    exact insertHashed_held hsteady value hx hs hfv hheld hu hk (by omega)
  · rw [run_bind_error (run_checkMutable_held .insert hf hz)]

/-- So it is in the way of a removal. -/
theorem Played.erase_leavesHold (hleaves : LeavesHold (keyingOf host kind) t key Scans.once w) :
    (erase (keyingOf host kind) t key w).1 = .error (.raised .iterating) := by
  obtain ⟨h, u, x, found, v, hr, rfl, hs, hfv, hheld⟩ := hleaves
  have hrefuses := hp.erase_refuses hh hf ht hkey
  by_cases hw : 0 < outstanding w.env.log ⟨kind, t⟩
  · exact hrefuses.refuses hw
  · unfold RefusesRightly at hrefuses
    rw [if_neg hw, hr] at hrefuses
    obtain ⟨x, rfl, hend⟩ := hrefuses
    rw [hs] at hend
    exact hend.2 ⟨hfv, hheld⟩

/-- Where the host never says that something iterates, an insertion says so just when a hold is outstanding, at the start
or after the last scan. -/
theorem Played.insert_iff (haverts : host.Averts .iterating) (value : Value) :
    (insert (keyingOf host kind) t key value w).1 = .error (.raised .iterating) ↔
      0 < outstanding w.env.log ⟨kind, t⟩ ∨
        LeavesHold (keyingOf host kind) t key (Rounds (keyingOf host kind) t key) w := by
  have hrefuses := hp.insert_refuses hh hf ht hkey value
  have hk := keyingOf_averts foreign_iterating haverts kind
  refine ⟨hrefuses.reason (hk.hash key w) fun _ _ => scan_averts hk t key _ _, ?_⟩
  rintro (hheld | hleaves)
  · exact hrefuses.refuses hheld
  · exact hp.insert_leavesHold hh hf ht hkey value hleaves

theorem Played.erase_iff (haverts : host.Averts .iterating) :
    (erase (keyingOf host kind) t key w).1 = .error (.raised .iterating) ↔
      0 < outstanding w.env.log ⟨kind, t⟩ ∨ LeavesHold (keyingOf host kind) t key Scans.once w := by
  have hrefuses := hp.erase_refuses hh hf ht hkey
  have hk := keyingOf_averts foreign_iterating haverts kind
  refine ⟨hrefuses.reason (hk.hash key w) fun _ _ => scan_averts hk t key _ _, ?_⟩
  rintro (hheld | hleaves)
  · exact hrefuses.refuses hheld
  · exact hp.erase_leavesHold hh hf ht hkey hleaves

/-! ## Keys that the host is not asked about -/

omit hf in
/-- Scanning for a secluded key raises nothing foreign and leaves the host's part alone. -/
theorem Played.scan_secluded (hs : w.Secluded t key) {h : UInt32} (hu : (keyingOf host kind).hash key w = (.ok h, u))
    {x : World (Shelf σ)} (hx : Rounds (keyingOf host kind) t key (storedHash h) u x) :
    (scan (keyingOf host kind) t key (storedHash h) x).1 ≠ .error (.raised .iterating) ∧
    (scan (keyingOf host kind) t key (storedHash h) x).2.env = w.env := by
  have halike := hs.hash.alike host
  rw [hu] at halike
  have hsteady := steady_secluded hh.civil.respects hp.sound ht hkey hs (storedHash h)
  have hj := (hsteady.rounds hx ⟨.step (.outside halike), .of_stores (.of_alike halike), halike.env⟩).1
  refine ⟨?_, (hsteady.scan hj).2.2⟩
  obtain ⟨hevolves, hsame, -⟩ := hj
  exact (hs.sameItems hsame).scan_averts (hevolves.sound hp.sound) (hevolves.within.ownsKey hkey) _ foreign_iterating host

omit hf in
/-- Nothing but an outstanding hold is in the way of a change with a secluded key. -/
theorem Played.secluded_refuses {α : Type} {scans : Scans σ} {r : Except Failure α × World (Shelf σ)}
    (hs : w.Secluded t key)
    (hscans : ∀ {hash u x}, scans hash u x → Rounds (keyingOf host kind) t key hash u x)
    (hr : RefusesRightly (keyingOf host kind) t key scans w r) :
    r.1 = .error (.raised .iterating) ↔ 0 < outstanding w.env.log ⟨kind, t⟩ := by
  refine ⟨fun hi => ?_, hr.refuses⟩
  have hscan := fun {h u x} hu hx => hp.scan_secluded hh ht hkey hs (h := h) (u := u) hu (hscans (x := x) hx)
  rcases hr.reason (hs.hash_averts foreign_iterating host) (fun hu hx => (hscan hu hx).1) hi with hheld | hleaves
  · exact hheld
  · obtain ⟨h, u, x, found, v, hu, hx, hv, -, hheld⟩ := hleaves
    have henv := (hscan hu hx).2
    rw [hv] at henv
    exact henv ▸ hheld

end

/-- A table is cleared at once, or not. -/
theorem Played.clear_refuses (hp : Played I w) (hf : (w.table t).frozen = false) :
    (clear t w).1 = .error (.raised .iterating) ↔ 0 < outstanding w.env.log ⟨kind, t⟩ := by
  rw [← hp.holds_eq t]
  have hchecked : Checked t w (w.table t).items (clear t w) ((clear t w).1 = .ok ()) := by
    unfold clear
    refine checked_of_run rfl fun hf hh => ?_
    rw [run_bind_ok (run_checkMutable .clear hf hh)]
    rfl
  refine (hchecked.iterating_iff fun hdone => ?_).trans ⟨fun h => h.2, fun h => ⟨hf, h⟩⟩
  rw [hdone]
  simp

/-! ## The count -/

/-- **Holds are counted exactly.** In every world that a program with cursors comes to:

* every table is held as often as holds on it were taken and not given back;
* whoever releases a table, from now on to the end of the next operation, finds itself counted;
* a change of a table that is not frozen says that something iterates just when a hold is outstanding: so do `clear`, and
  `insert` and `erase` with a byte string or with a value that the host is not asked about; where the host is asked, a hold
  that it leaves behind counts too; if the host itself says that something iterates then that is passed on, and nothing else
  is;
* an operation leaves no table held for its own sake, be it a comparison or a display, whether it returns or fails. -/
theorem iteration_counting_exact (hp : Played I w) :
    (∀ {kind : KeyKind} (t : TableId kind), (w.table t).holds = outstanding w.env.log ⟨kind, t⟩) ∧
    (∀ u, During (shelved I) w u → u.ReleasesSafely I) ∧
    (∀ {kind : KeyKind} (t : TableId kind), w.Has t → (w.table t).frozen = false →
      ((clear t w).1 = .error (.raised .iterating) ↔ 0 < outstanding w.env.log ⟨kind, t⟩) ∧
      ∀ (host : Host (Shelf σ)) (key : kind.Key) (value : Value), Playful I host → w.OwnsKey key →
        (w.Secluded t key →
          ((insert (keyingOf host kind) t key value w).1 = .error (.raised .iterating) ↔
            0 < outstanding w.env.log ⟨kind, t⟩) ∧
          ((erase (keyingOf host kind) t key w).1 = .error (.raised .iterating) ↔
            0 < outstanding w.env.log ⟨kind, t⟩)) ∧
        (host.Averts .iterating →
          ((insert (keyingOf host kind) t key value w).1 = .error (.raised .iterating) ↔
            0 < outstanding w.env.log ⟨kind, t⟩ ∨
              LeavesHold (keyingOf host kind) t key (Rounds (keyingOf host kind) t key) w) ∧
          ((erase (keyingOf host kind) t key w).1 = .error (.raised .iterating) ↔
            0 < outstanding w.env.log ⟨kind, t⟩ ∨ LeavesHold (keyingOf host kind) t key Scans.once w)) ∧
        RefusesRightly (keyingOf host kind) t key (Rounds (keyingOf host kind) t key) w
          (insert (keyingOf host kind) t key value w) ∧
        RefusesRightly (keyingOf host kind) t key Scans.once w (erase (keyingOf host kind) t key w)) ∧
    ∀ (host : Host (Shelf σ)) (op : Operation), Playful I host → op.Valid w →
      ∀ {kind : KeyKind} (t : TableId kind),
        ((op.run host w).2.table t).holds = outstanding (op.run host w).2.env.log ⟨kind, t⟩ := by
  refine ⟨fun t => hp.holds_eq t, fun u hd => (hd.sound hp.sound).releasesSafely, fun {kind} t ht hf => ?_,
    fun host op hh hv {kind} t => ?_⟩
  · refine ⟨hp.clear_refuses hf, fun host key value hh hkey => ?_⟩
    have hinsert := hp.insert_refuses hh hf ht hkey value
    have herase := hp.erase_refuses hh hf ht hkey
    have honce : ∀ {hash u x}, Scans.once (σ := σ) hash u x → Rounds (keyingOf host kind) t key hash u x :=
      fun hx => hx ▸ .done
    refine ⟨fun hs => ⟨?_, ?_⟩, fun ha => ⟨?_, ?_⟩, hinsert, herase⟩
    · exact hp.secluded_refuses hh ht hkey hs id hinsert
    · exact hp.secluded_refuses hh ht hkey hs honce herase
    · exact hp.insert_iff hh hf ht hkey ha value
    · exact hp.erase_iff hh hf ht hkey ha
  · exact (hp.plays (.call host op .refl hh hv)).holds_eq t

/-! ## Hosts that raise errors -/

/-- A host whose values collide, and whose comparisons raise an error. On the way a cursor on the first table may be started
and left behind. -/
def quarrelsome (leaves : Bool) (status : Status) : Host (Shelf Unit) where
  typeName _ _ := ascii "quarrelsome"
  sameClass _ _ _ := true
  display _ := pure (ascii "quarrelsome")
  hash _ := pure 7
  equal _ _ _ := fun w =>
    raise (.reported status (ascii "cannot compare"))
      (if leaves && decide (@Has _ w .any ⟨0⟩) then ((@CursorCall.start .any ⟨0⟩).run w).2 else w)
  freeze _ := pure ()

theorem quarrelsome_playful (leaves : Bool) (status : Status) : Playful .nothing (quarrelsome leaves status) := by
  refine .intro (fun _ => False) (fun _ h => h.elim) (fun _ _ _ => .refl) (fun _ _ _ => .refl) (fun w _ _ _ _ => ?_)
    fun _ _ _ => .refl
  have hleft : Plays .nothing (fun _ => False) w
      (if leaves && decide (@Has _ w .any ⟨0⟩) then ((@CursorCall.start .any ⟨0⟩).run w).2 else w) := by
    split
    · rename_i h
      have ht : @Has _ w .any ⟨0⟩ := of_decide_eq_true (Bool.and_eq_true_iff.1 h).2
      exact Plays.refl.cursor _ ht
    · exact .refl
  exact hleft.outside ⟨rfl, rfl, rfl, rfl⟩

theorem quarrelsome_averts (leaves : Bool) {status : Status} (h : status ≠ .iterating) :
    (quarrelsome leaves status).Averts .iterating :=
  ⟨fun _ _ => nofun, fun _ _ _ _ he => h (Failure.raised.inj (Except.error.inj he)), fun _ _ => nofun⟩

/-- A table with a value of the host in it. A cursor on it was moved, and the one that stayed behind was finished. -/
def heldOnce : List (Operation ⊕ CursorCall) :=
  [.inl (.newTable .any 0), .inl (@Operation.insert .any ⟨0⟩ (.host ⟨0⟩) (.int 1)), .inr (@CursorCall.start .any ⟨0⟩),
    .inr (.move 0), .inr (.finish 0)]

def worldHeldOnce : World (Shelf Unit) := playOut (quarrelsome true .runtime) heldOnce unplayed

/-- Then the other one was finished too, and again. On an insertion the host left a cursor behind and raised an error; the
table was frozen then. -/
def heldAgain : List (Operation ⊕ CursorCall) :=
  heldOnce ++ [.inr (.finish 1), .inr (.finish 1), .inl (@Operation.insert .any ⟨0⟩ (.host ⟨1⟩) (.int 2)),
    .inl (@Operation.freezeTable .any ⟨0⟩)]

def worldHeldAgain : World (Shelf Unit) := playOut (quarrelsome true .runtime) heldAgain unplayed

/-- The moved cursor holds the table, so an insertion is refused, be it of a value that the host is asked about or of a
number; so does the cursor that was left behind by the host, until it is destroyed. -/
theorem iteration_counting_exact_moved :
    (worldHeldOnce.table (⟨0⟩ : TableId .any)).holds = 1 ∧
    (@insert _ .any (valueKeying (quarrelsome true .runtime)) ⟨0⟩ (.host ⟨1⟩) (.int 2) worldHeldOnce).1 =
      .error (.raised .iterating) ∧
    (@insert _ .any (valueKeying (quarrelsome true .runtime)) ⟨0⟩ (.int 1) (.int 2) worldHeldOnce).1 =
      .error (.raised .iterating) ∧
    (worldHeldAgain.table (⟨0⟩ : TableId .any)).holds = outstanding worldHeldAgain.env.log ⟨.any, ⟨0⟩⟩ ∧
    outstanding worldHeldAgain.env.log ⟨.any, ⟨0⟩⟩ = 1 ∧
    outstanding ((CursorCall.destroy 2).run worldHeldAgain).2.env.log ⟨.any, ⟨0⟩⟩ = 0 := by
  have hhost := quarrelsome_playful true .runtime
  have hw : Played .nothing worldHeldOnce := played_playOut hhost (by decide +kernel)
  have hv : Played .nothing worldHeldAgain := played_playOut hhost (by decide +kernel)
  have hone : outstanding worldHeldOnce.env.log ⟨.any, ⟨0⟩⟩ = 1 := by decide +kernel
  have hhas : worldHeldOnce.Has (⟨0⟩ : TableId .any) := by decide +kernel
  have hunfrozen : (worldHeldOnce.table (⟨0⟩ : TableId .any)).frozen = false := by decide +kernel
  have hheld : 0 < outstanding worldHeldOnce.env.log ⟨.any, ⟨0⟩⟩ := hone ▸ Nat.one_pos
  obtain ⟨hcount, _, hchange, _⟩ := iteration_counting_exact hw
  obtain ⟨-, hrefuses⟩ := hchange (⟨0⟩ : TableId .any) hhas hunfrozen
  obtain ⟨-, hasked, -⟩ := hrefuses _ (.host ⟨1⟩) (.int 2) hhost trivial
  obtain ⟨hunasked, -⟩ := hrefuses _ (.int 1) (.int 2) hhost trivial
  refine ⟨(hcount (⟨0⟩ : TableId .any)).trans hone, ?_, ?_, ?_, by decide +kernel, by decide +kernel⟩
  · exact (hasked (quarrelsome_averts true nofun)).1.2 (.inl hheld)
  · exact (hunasked (secluded_scalar trivial)).1.2 hheld
  · exact (iteration_counting_exact hv).1 (⟨0⟩ : TableId .any)

/-- A table with a value of a host in it whose comparisons say that something iterates. -/
def worldAtOdds : World (Shelf Unit) :=
  playOut (quarrelsome false .iterating)
    [.inl (.newTable .any 0), .inl (@Operation.insert .any ⟨0⟩ (.host ⟨0⟩) (.int 1))] unplayed

/-- **What the host raises is passed on**, also if it says that something iterates: nothing holds the table, it is not
frozen, and an insertion says so nevertheless. -/
theorem iterating_raised_by_host :
    Playful .nothing (quarrelsome false .iterating) ∧ Played .nothing worldAtOdds ∧
    (worldAtOdds.table (⟨0⟩ : TableId .any)).frozen = false ∧
    ¬ ((@insert _ .any (valueKeying (quarrelsome false .iterating)) ⟨0⟩ (.host ⟨1⟩) (.int 2) worldAtOdds).1 =
        .error (.raised .iterating) ↔ 0 < outstanding worldAtOdds.env.log ⟨.any, ⟨0⟩⟩) := by
  have hhost := quarrelsome_playful false .iterating
  have hplayed : Played .nothing worldAtOdds := played_playOut hhost (by decide +kernel)
  have hnone : outstanding worldAtOdds.env.log ⟨.any, ⟨0⟩⟩ = 0 := by decide +kernel
  have hraised : (@insert _ .any (valueKeying (quarrelsome false .iterating)) ⟨0⟩ (.host ⟨1⟩) (.int 2) worldAtOdds).1 =
      .error (.raised .iterating) := by decide +kernel
  refine ⟨hhost, hplayed, by decide +kernel, fun h => ?_⟩
  have hpos := h.1 hraised
  rw [hnone] at hpos
  exact absurd hpos (Nat.lt_irrefl 0)

end ValueCore
