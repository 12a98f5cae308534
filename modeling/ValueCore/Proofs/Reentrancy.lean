import ValueCore.Proofs.Moderation

/-!
# Operations on a table whose keys meddle with it

Hashing and comparing keys may run anything, on the same table too. For insertions, removals and lookups this
module says what becomes of the list of keys and values (`reentrant_operations`), in four parts that follow an
operation as it goes on.

* It is checked that the table may be changed (`Checked`).
* The key is hashed. The host may change the table now, and the list that counts is the one it leaves.
* The chain is scanned, which is safe (`SafeScan`): nothing that happens meanwhile changes the list. An
  insertion may have to grow the table and to scan again.
* It is checked again that the table may be changed, since hashing or comparing may have frozen it or left a
  cursor on it. If it may, the operation has its effect on just that list. Only a new key may be denied then, because
  the allocator refuses a request or the table is at the limit on its size (`World.Denied`).

The operation may itself be one that was attempted by the host in the middle of another one (`Midway`).
-/

namespace ValueCore

open World

variable {ε : Type} {I : Inventory ε} {w u v : World ε} {kind : KeyKind} {t : TableId kind}

/-! ## Lists after a change -/

namespace Table

variable {κ : Type} {T T' : Table κ} {i : Nat}

/-- The keys and values, with another value in slot `i`. -/
def replaced (T : Table κ) (i : Nat) (value : Value) : List (κ × Value) :=
  T.order.filterMap fun j => (T.slot j).map fun e => (e.key, if j = i then value else e.value)

/-- The keys and values without those of slot `i`. -/
def without (T : Table κ) (i : Nat) : List (κ × Value) :=
  (T.order.filter (· ≠ i)).filterMap fun j => (T.slot j).map fun e => (e.key, e.value)

/-- The value in a slot. -/
def valueIn (T : Table κ) (i : Nat) : Option Value := (T.slot i).map (·.value)

theorem items_eq_filterMap (T : Table κ) :
    T.items = T.order.filterMap fun j => (T.slot j).map fun e => (e.key, e.value) := by
  rw [items, entries, List.map_filterMap]

theorem Sound.items_overwrite (h : Sound T) (i : Nat) (value : Value) :
    (T.overwrite i value).items = T.replaced i value := by
  rw [items_eq_filterMap, (h.overwrite i value).2, replaced]
  refine List.filterMap_congr fun j _ => ?_
  rw [Table.overwrite, slot_modifySlot]
  by_cases hj : j = i
  · rw [if_pos hj, ← hj, Option.map_map]
    simp only [if_true]
    rfl
  · simp only [hj, if_false]

theorem Sound.items_remove (h : Sound T) (hi : i ∈ T.order) : (T.remove i).items = T.without i := by
  obtain ⟨a, b, ho⟩ := List.append_of_mem hi
  obtain ⟨e, he⟩ := h.slot_of_mem hi
  have hnot := (List.nodup_cons.1 (List.nodup_middle.1 (ho ▸ h.nodup))).1
  have hfilter : T.order.filter (· ≠ i) = a ++ b := by
    rw [ho, List.filter_append, List.filter_cons_of_neg (by simp), ← List.filter_append]
    refine List.filter_eq_self.2 fun j hj => ?_
    simpa using ne_of_mem_of_not_mem hj hnot
  rw [items_eq, h.records_remove ho he, without, hfilter, ← List.filterMap_append, List.map_filterMap]
  refine List.filterMap_congr fun j _ => ?_
  rw [recordAt, Option.map_map]
  rfl

end Table

/-! ## Operations -/

/-- After a check in `v`: the operation ends with an error that tells why the table cannot be changed, leaving
the list `l`, or it goes on to its effect. -/
def Checked {α : Type} (t : TableId kind) (v : World ε) (l : List (kind.Key × Value))
    (r : Except Failure α × World ε) (effect : Prop) : Prop :=
  if (v.table t).frozen then r.1 = .error (.raised .frozen) ∧ (r.2.table t).items = l
  else if 0 < (v.table t).holds then r.1 = .error (.raised .iterating) ∧ (r.2.table t).items = l
  else effect

/-- From `w` to `v` the table came to be held by as many more as there are more active cursors on it. -/
def Balanced (I : Inventory ε) (t : TableId kind) (w v : World ε) : Prop :=
  (v.table t).holds + I.cursors w.env ⟨kind, t⟩ = (w.table t).holds + I.cursors v.env ⟨kind, t⟩

section
variable (I) (host : Host ε) (keying : Keying ε kind.Key) (t : TableId kind) (key : kind.Key)

/-- What becomes of an insertion in `w`. -/
def InsertsSafely (value : Value) (w : World ε) (r : Except Failure Unit × World ε) : Prop :=
  Checked t w (w.table t).items r <|
    match keying.hash key w with
    | (.error e, u) => r = (.error e, u)
    | (.ok h, u) =>
      -- every scan of the insertion is safe and finds the list that hashing left
      (∀ y, Rounds keying t key (storedHash h) u y →
        (y.table t).items = (u.table t).items ∧ SafeScan I host keying t key (storedHash h) y) ∧
      ∃ x, Rounds keying t key (storedHash h) u x ∧
        match scan keying t key (storedHash h) x with
        | (.error e, v) => r = (.error e, v)
        | (.ok found, v) =>
          Balanced I t w v ∧ Checked t v (u.table t).items r (
            match found with
            | some i => r.1 = .ok () ∧ (r.2.table t).items = (v.table t).replaced i value
            | none =>
              (r.1 = .ok () ∧ (r.2.table t).items = (u.table t).items ++ [(key, value)]) ∨
              (r.1 = .error (.raised .memory) ∧ (r.2.table t).items = (u.table t).items ∧
                v.Denied t (storedHash h) r.2))

/-- What becomes of a removal in `w`. -/
def ErasesSafely (w : World ε) (r : Except Failure (Option Value) × World ε) : Prop :=
  Checked t w (w.table t).items r <|
    match keying.hash key w with
    | (.error e, u) => r = (.error e, u)
    | (.ok h, u) =>
      SafeScan I host keying t key (storedHash h) u ∧
        match scan keying t key (storedHash h) u with
        | (.error e, v) => r = (.error e, v)
        | (.ok found, v) =>
          Balanced I t w v ∧ Checked t v (u.table t).items r (
            match found with
            | some i => r.1 = .ok ((v.table t).valueIn i) ∧ (r.2.table t).items = (v.table t).without i
            | none => r.1 = .ok none ∧ (r.2.table t).items = (u.table t).items)

/-- What becomes of a lookup in `w`. -/
def LooksUpSafely (w : World ε) (r : Except Failure (Option Value) × World ε) : Prop :=
  match keying.hash key w with
  | (.error e, u) => r = (.error e, u)
  | (.ok h, u) =>
    SafeScan I host keying t key (storedHash h) u ∧
      match scan keying t key (storedHash h) u with
      | (.error e, v) => r = (.error e, v)
      | (.ok found, v) => r = (.ok (found.bind (v.table t).valueIn), v)

end

/-- A check that is made is the check that is told of. -/
theorem checked_of_run {α : Type} {change : TableChange} {f : Unit → Run ε α} {effect : Prop}
    {l : List (kind.Key × Value)} (hl : (v.table t).items = l)
    (he : (v.table t).frozen = false → (v.table t).holds = 0 → effect) :
    Checked t v l ((checkMutable t change >>= f) v) effect := by
  unfold Checked
  cases hf : (v.table t).frozen with
  | true =>
    rw [if_pos rfl, run_bind_error (run_checkMutable_frozen change hf)]
    exact ⟨rfl, hl⟩
  | false =>
    rw [if_neg (by simp)]
    split
    · rename_i hh
      rw [run_bind_error (run_checkMutable_held change hf hh)]
      exact ⟨rfl, hl⟩
    · rename_i hh
      exact he hf (Nat.eq_zero_of_not_pos hh)

theorem balanced_of_evolves (h : w.Sound I) (he : Evolves I 0 w v) (t : TableId kind) : Balanced I t w v := by
  let g : TableRef → Nat := fun r => (w.table r.2).holds - I.cursors w.env r
  have hw : (w.table t).holds = g ⟨kind, t⟩ + I.cursors w.env ⟨kind, t⟩ := h.guarded ⟨kind, t⟩
  have hv : (v.table t).holds = g ⟨kind, t⟩ + I.cursors v.env ⟨kind, t⟩ := he.guarded h h.guarded ⟨kind, t⟩
  unfold Balanced
  omega

/-- An insertion keeps to what hashing and comparing keys keep to, scan by scan. -/
theorem steady_follows {R : World ε → World ε → Prop} [Changing I 0 R] {keying : Keying ε kind.Key}
    (hk : keying.Follows I R) {key : kind.Key} (hash : UInt32) (h : w.Sound I) (ht : w.Has t) (hkey : w.OwnsKey key) :
    Steady keying t key hash fun v => R w v := by
  have he : ∀ {v : World ε}, R w v → Evolves I 0 w v := fun hv => BySteps.evolves h hv
  have hscan := fun {v : World ε} (hv : R w v) => scan_along hk hash ((he hv).sound h) ((he hv).within.has t ht)
    ((he hv).within.ownsKey hkey)
  refine ⟨fun hv => ((he hv).sound h).tables t, fun hv => (he hv).within.has t ht,
    fun hv => Course.trans hv (hscan hv).ends,
    fun hv => scan_watched hk hash ((he hv).sound h) ((he hv).within.has t ht) ((he hv).within.ownsKey hkey),
    fun hv hs => ((hscan hv).post _ _ hs).2 _ rfl, fun hv ha => Course.trans hv (Course.outside ha),
    fun {v} block hv hf hh ho hmax => Course.trans hv (Changing.change ?_)⟩
  have hfree : World.Free v 0 t := ⟨(he hv).within.has t ht, not_sealed_zero, hf, hh⟩
  refine hfree.work (((he hv).sound h).tables t) (fun t => t.grown block) (.grow block ho hmax) ?_
  rw [Table.items_eq, ((((he hv).sound h).tables t).grown hmax block).2.2.1, ← Table.items_eq]
  exact ((he hv).sound h).items t

/-- An insertion is a run of steps, whatever hashing and comparing keys does. -/
theorem steady_respects {keying : Keying ε kind.Key} (hk : keying.Respects I) {key : kind.Key} (hash : UInt32)
    (h : w.Sound I) (ht : w.Has t) (hkey : w.OwnsKey key) :
    Steady keying t key hash fun v => Evolves I 0 w v :=
  steady_follows ⟨fun key h hkey => hk.hash key h (Nat.zero_le _) hkey,
    fun a b h ha hb => hk.equal a b h (Nat.zero_le _) ha hb⟩ hash h ht hkey

/-- What a conclusion comes to, told by its scan. -/
theorem Concludes.safely {keying : Keying ε kind.Key} {J : World ε → Prop} {key : kind.Key} {value : Value}
    {hash : UInt32} (hJ : Steady keying t key hash J) (hhash : hash ≠ 0) {r : Except Failure Unit × World ε}
    (hj : J w) (hm : ∀ v, J v → (v.table t).Moderate) (hc : Concludes keying t key value hash w r) :
    match scan keying t key hash w with
    | (.error e, v) => r = (.error e, v)
    | (.ok found, v) =>
      Checked t v (w.table t).items r <|
        match found with
        | some i => r.1 = .ok () ∧ (r.2.table t).items = (v.table t).replaced i value
        | none =>
          (r.1 = .ok () ∧ (r.2.table t).items = (w.table t).items ++ [(key, value)]) ∨
          (r.1 = .error (.raised .memory) ∧ (r.2.table t).items = (w.table t).items ∧ v.Denied t hash r.2) := by
  have hw := hJ.watched hj
  have hjv := hJ.scan hj
  cases hc with
  | failed hs => rw [hs]
  | @frozen _ v hs hf =>
    rw [hs] at hw ⊢
    dsimp only
    rw [Checked, if_pos hf]
    exact ⟨rfl, (congrArg Table.items (table_congr rfl rfl t)).trans hw.kept.items_eq⟩
  | @held _ v hs hf hh =>
    rw [hs] at hw ⊢
    dsimp only
    rw [Checked, if_neg (by simp [hf]), if_pos hh]
    exact ⟨rfl, (congrArg Table.items (table_congr rfl rfl t)).trans hw.kept.items_eq⟩
  | @overwrites i v hs hf hh hi =>
    rw [hs] at hjv ⊢
    dsimp only
    rw [Checked, if_neg (by simp [hf]), if_neg (by omega)]
    refine ⟨rfl, ?_⟩
    rw [table_modifyTable t _ (hJ.has hjv), (hJ.sound hjv).items_overwrite]
  | @refused v z hs hf hh ha hdenied =>
    rw [hs] at hw hjv ⊢
    dsimp only
    rw [Checked, if_neg (by simp [hf]), if_neg (by omega)]
    exact .inr ⟨rfl, by rw [ha.table t, hw.kept.items_eq], hdenied ((hm v hjv).tooBig_grown (hJ.sound hjv))⟩
  | @appends v z t' hs hf hh ho ha hp =>
    rw [hs] at hw hjv ⊢
    dsimp only
    rw [Checked, if_neg (by simp [hf]), if_neg (by omega)]
    refine .inl ⟨rfl, ?_⟩
    rw [Table.items_eq, records_appends (hJ.sound hjv) (hJ.has hjv) ha hhash hp, List.map_append, ← Table.items_eq,
      hw.kept.items_eq]
    rfl

section
variable {host : Host ε} (hh : host.Respects I) {keying : Keying ε kind.Key} (hk : keying.Respects I) {key : kind.Key}
  (h : w.Sound I) (ht : w.Has t) (hkey : w.OwnsKey key)
include hh hk h ht hkey

theorem inserts_safely (hm : w.Moderate) (value : Value) :
    InsertsSafely I host keying t key value w (insert keying t key value w) := by
  unfold InsertsSafely insert
  refine checked_of_run rfl fun hf hz => ?_
  rw [run_bind_ok (run_checkMutable .insert hf hz)]
  have hu : Evolves I 0 w (keying.hash key w).2 := hk.hash key h (Nat.zero_le _) hkey
  cases hr : keying.hash key w with
  | mk r u =>
  rw [hr] at hu
  cases r with
  | error e => exact run_bind_error hr _
  | ok hash =>
    rw [run_bind_ok hr]
    have hj := steady_respects hk (storedHash hash) h ht hkey
    refine ⟨fun y hy => ?_, ?_⟩
    · obtain ⟨he, hrec⟩ := hj.rounds hy hu
      refine ⟨?_, scan_safe hh hk (he.sound h) (he.within.has t ht) (he.within.ownsKey hkey)⟩
      rw [Table.items_eq, hrec, ← Table.items_eq]
    · obtain ⟨x, hx, he, hrec, hc⟩ := insertHashed_ends hj value hu
      refine ⟨x, hx, ?_⟩
      have hitems : (x.table t).items = (u.table t).items := by rw [Table.items_eq, hrec, ← Table.items_eq]
      have hsafe := hc.safely hj (storedHash_ne_zero hash) he fun v hv => hv.moderate h hm ⟨kind, t⟩
      have hv := balanced_of_evolves h (hj.scan he) t
      cases hs : scan keying t key (storedHash hash) x with
      | mk r v =>
      rw [hs] at hsafe hv
      cases r with
      | error e => exact hsafe
      | ok found => exact ⟨hv, hitems ▸ hsafe⟩

theorem erases_safely : ErasesSafely I host keying t key w (erase keying t key w) := by
  unfold ErasesSafely erase findSlot
  refine checked_of_run rfl fun hf hz => ?_
  rw [run_bind_ok (run_checkMutable .erase hf hz), bind_assoc]
  have hu : Evolves I 0 w (keying.hash key w).2 := hk.hash key h (Nat.zero_le _) hkey
  cases hr : keying.hash key w with
  | mk r u =>
  rw [hr] at hu
  cases r with
  | error e => exact run_bind_error hr _
  | ok hash =>
    rw [run_bind_ok hr]
    have hj := steady_respects hk (storedHash hash) h ht hkey
    refine ⟨scan_safe hh hk (hu.sound h) (hj.has hu) (hu.within.ownsKey hkey), ?_⟩
    have hv := hj.scan hu
    have hw := hj.watched hu
    cases hs : scan keying t key (storedHash hash) u with
    | mk r v =>
    rw [hs] at hv hw
    cases r with
    | error e => exact run_bind_error hs _
    | ok found =>
      rw [run_bind_ok hs]
      refine ⟨balanced_of_evolves h hv t, checked_of_run hw.kept.items_eq fun hf hz => ?_⟩
      rw [run_bind_ok (run_checkMutable .erase hf hz)]
      cases found with
      | none => exact ⟨rfl, hw.kept.items_eq⟩
      | some i =>
        have hi : i ∈ (v.table t).order := hw.kept.1 ▸ hj.found hu hs
        refine ⟨rfl, ?_⟩
        show ((v.modifyTable t (·.remove i)).table t).items = _
        rw [table_modifyTable t _ (hj.has hv), (hj.sound hv).items_remove hi]

theorem looks_up_safely : LooksUpSafely I host keying t key w (lookup keying t key w) := by
  unfold LooksUpSafely lookup findSlot
  rw [bind_assoc]
  have hhash : Evolves I 0 w (keying.hash key w).2 := hk.hash key h (Nat.zero_le _) hkey
  cases hr : keying.hash key w with
  | mk r u =>
  rw [hr] at hhash
  cases r with
  | error e => exact run_bind_error hr _
  | ok hash =>
    rw [run_bind_ok hr]
    refine ⟨scan_safe hh hk (hhash.sound h) (hhash.within.has t ht) (hhash.within.ownsKey hkey), ?_⟩
    cases hs : scan keying t key (storedHash hash) u with
    | mk r v =>
    cases r with
    | error e => exact run_bind_error hs _
    | ok found =>
      rw [run_bind_ok hs]
      cases found <;> rfl

end

/-- Between operations a table is held by its active cursors and by nothing else. -/
theorem Reachable.holds_eq (h : Reachable I w) (t : TableId kind) : (w.table t).holds = I.cursors w.env ⟨kind, t⟩ := by
  obtain ⟨w₀, hb, ha⟩ := h
  have hbare : Guarded I w₀ fun _ => 0 := fun r => by
    have hnone : w₀.table r.2 = Table.empty := hb.table_eq r.2
    rw [hnone, hb.cursors r]
    rfl
  have := (ha.evolves (fun _ hc => hc.respects) hb.sound).guarded hb.sound hbare ⟨kind, t⟩
  rw [this, Nat.zero_add]

/-- **Operations on a table whose keys meddle with it**, for every civil host and in every world, be it in the
middle of other operations. Between operations what holds the table are its active cursors, so the second check
fails just when the table was frozen or a cursor was left on it. -/
theorem reentrant_operations {host : Host ε} (hc : Civil I host) (hw : Midway I w) {m : TableId .any} (hm : w.Has m)
    {key : Value} (hkey : w.Owns key) :
    (∀ value, InsertsSafely I host (valueKeying host) m key value w (insert (valueKeying host) m key value w)) ∧
    ErasesSafely I host (valueKeying host) m key w (erase (valueKeying host) m key w) ∧
    LooksUpSafely I host (valueKeying host) m key w (lookup (valueKeying host) m key w) ∧
    (Reachable I w → (w.table m).holds = I.cursors w.env ⟨.any, m⟩) := by
  have hh := hc.respects
  have hk := valueKeying_respects hh
  exact ⟨inserts_safely hh hk hw.sound hm hkey hw.moderate, erases_safely hh hk hw.sound hm hkey,
    looks_up_safely hh hk hw.sound hm hkey, fun hr => hr.holds_eq m⟩

/-- The second value collides with the first, and on being compared tries to insert: it does not get its way. -/
theorem reentrant_operations_meddled :
    let w := insertHost 0 noted
    let r := @insert _ .any (valueKeying meddler) ⟨0⟩ (.host ⟨1⟩) (.int 2) w
    @InsertsSafely _ oneTable .any meddler (valueKeying meddler) ⟨0⟩ (.host ⟨1⟩) (.int 2) w r ∧
    r.1 = .ok () ∧ (@World.table _ r.2 .any ⟨0⟩).items = [(.host ⟨0⟩, .int 1), (.host ⟨1⟩, .int 2)] := by
  have hr : Reachable oneTable (insertHost 0 noted) := reachable_insertHost reachable_noted (by decide +kernel) 0
  have hm : @Has _ (insertHost 0 noted) .any ⟨0⟩ := by decide +kernel
  have hkey : (insertHost 0 noted).Owns (.host ⟨1⟩) := trivial
  exact ⟨(reentrant_operations meddler_civil ⟨_, hr, .start⟩ hm hkey).1 (.int 2), by decide +kernel, by decide +kernel⟩

end ValueCore
