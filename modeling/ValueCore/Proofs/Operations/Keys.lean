import ValueCore.Proofs.Operations.Comparisons
import ValueCore.Proofs.Operations.Reads
import ValueCore.Proofs.Reachable

/-!
# What operations do to the keys of dicts

Without values of the host, only an insertion brings a key into a dict, and it has compared the key with every
key that is stored under the same hash (`insert_inserted`). All other operations take keys away at most
(`Operation.prunes`).
-/

namespace ValueCore

open World

variable {ε : Type} {I : Inventory ε} {w w' v u : World ε} {kind : KeyKind} {t : TableId kind} {host : Host ε}

/-- Without operations the stores stay as they are. -/
theorem Attempts.same (ha : Attempts I (fun _ => False) w w') : SameStores w w' := by
  have henv : ∀ (v : World ε) (e : ε), SameStores v { v with env := e } := by
    intro v e
    refine ⟨fun t => ?_, rfl⟩
    rw [show ({ v with env := e } : World ε).table t = v.table t from table_congr rfl rfl t]
    exact .refl _
  induction ha with
  | refl => exact .refl w
  | call _ _ _ hf => exact hf.elim
  | outside _ hv ih => exact ih.alike hv
  | aside e _ _ _ ih => exact ih.trans (henv _ e)
  | @start v v' _ t c e _ _ hc _ _ ih =>
    refine (ih.trans ?_).trans (henv _ e)
    rcases run_start hc with ⟨_, rfl⟩ | ⟨_, rfl⟩
    · exact .refl _
    · exact (SameStores.refl v).held t
  | @finish v _ c e _ _ _ ih =>
    refine (ih.trans ?_).trans (henv _ e)
    rcases run_finish c v with ⟨_, hr⟩ | ⟨_, hr⟩
    · rw [hr]
      exact .refl v
    · rw [hr]
      exact .flags c.table (fun t => { t with holds := t.holds - 1 }) fun _ => .flags _ _ _

/-- The keys of a table in order, each with the hash it is stored under. -/
def Table.storedKeys {κ : Type} (T : Table κ) : List (UInt32 × κ) := T.records.map fun r => (r.1, r.2.1)

theorem Table.storedKeys_of_records {κ : Type} {T T' : Table κ} (h : T'.records = T.records) :
    T'.storedKeys = T.storedKeys := by rw [storedKeys, h, storedKeys]

/-- Another value leaves the keys as they are. -/
theorem Table.Sound.storedKeys_overwrite {κ : Type} {T : Table κ} (h : T.Sound) {i : Nat} (hi : i ∈ T.order)
    (value : Value) : (T.overwrite i value).storedKeys = T.storedKeys := by
  obtain ⟨a, b, ho⟩ := List.append_of_mem hi
  obtain ⟨e, he⟩ := h.slot_of_mem hi
  simp only [storedKeys, h.records_overwrite ho he, records_split ho he, List.map_append, List.map_cons]

/-- A stored key is the key of an item. -/
theorem Table.item_of_stored {κ : Type} {T : Table κ} {r : UInt32 × κ} (hr : r ∈ T.storedKeys) :
    ∃ item ∈ T.items, item.1 = r.2 := by
  obtain ⟨s, hs, rfl⟩ := List.mem_map.1 hr
  rw [items_eq]
  exact ⟨s.2, List.mem_map_of_mem hs, rfl⟩

theorem ownsKey_of_stored (h : w.Sound I) {r : UInt32 × kind.Key} (hr : r ∈ (w.table t).storedKeys) :
    w.OwnsKey r.2 := by
  obtain ⟨item, hm, heq⟩ := Table.item_of_stored hr
  exact heq ▸ (h.items t item hm).1

/-- Without values of the host: none comes in, and dicts lose keys at most. -/
structure World.Pruned (w w' : World ε) : Prop where
  plain : w'.Plain
  keys : ∀ t : TableId .any, (w'.table t).storedKeys.Sublist (w.table t).storedKeys

/-- If there are no values of the host then none comes in, and dicts lose keys at most. -/
def Prunes (w w' : World ε) : Prop := w.Plain → w.Pruned w'

/-- If there are no values of the host then all stores are as before. -/
def Retains (w w' : World ε) : Prop := w.Plain → SameStores w w'

theorem retains_drift : Drift (Retains (ε := ε)) := by
  refine ⟨fun ha _ => .of_alike ha, fun h h' hw => ?_⟩
  have hs := h hw
  exact hs.trans (h' (hw.same hs))

theorem Retains.prunes (h : Retains w w') : Prunes w w' := by
  intro hw
  have hs := h hw
  refine ⟨hw.same hs, fun t => ?_⟩
  rw [Table.storedKeys, (hs.tables t).kept.records_eq]
  exact .refl _

theorem Calm.prunes (h : Calm w w') : Prunes w w' := Retains.prunes fun hw => .of_alike (h hw)

theorem prunes_drift : Drift (Prunes (ε := ε)) := by
  refine ⟨fun ha => Calm.prunes fun _ => ha, fun h h' hw => ?_⟩
  have hp := h hw
  have hp' := h' hp.plain
  exact ⟨hp'.plain, fun t => (hp'.keys t).trans (hp.keys t)⟩

/-- After a calm computation the world is alike. -/
theorem prunes_bind {α β : Type} {x : Run ε α} {f : α → Run ε β} (hx : Calm w (x w).2)
    (hf : ∀ a v, x w = (.ok a, v) → Alike w v → v.Plain → Prunes v (f a v).2) : Prunes w ((x >>= f) w).2 := by
  intro hw
  refine prunes_drift.bind hx.prunes (fun a v hr _ => ?_) hw
  have hv := hx.of_run hr hw
  exact hf a v hr hv (hw.alike hv)

theorem drift_checkMutable {R : World ε → World ε → Prop} (hR : Drift R) (change : TableChange) :
    R w (checkMutable t change w).2 := by
  cases hf : (w.table t).frozen with
  | true =>
    rw [run_checkMutable_frozen change hf]
    exact hR.alike ⟨rfl, rfl, rfl, rfl⟩
  | false =>
    rcases Nat.eq_zero_or_pos (w.table t).holds with hh | hh
    · rw [run_checkMutable change hf hh]
      exact hR.alike (.refl w)
    · rw [run_checkMutable_held change hf hh]
      exact hR.alike ⟨rfl, rfl, rfl, rfl⟩

/-! ## A table is changed -/

/-- A plain world that is `w` but for one table. -/
structure World.PlainBeside {kind : KeyKind} (t : TableId kind) (w w' : World ε) : Prop extends Beside t w w' where
  plain : w'.Plain
  has : w'.Has t

theorem World.PlainBeside.alike (h : PlainBeside t w v) (ha : Alike v u) : PlainBeside t w u :=
  ⟨h.toBeside.alike ha, h.plain.alike ha, ha.has_iff.2 h.has⟩

theorem World.PlainBeside.modify (h : PlainBeside t w v) (f : Table kind.Key → Table kind.Key)
    (hs : (f (v.table t)).Sound) (hi : ∀ r ∈ (f (v.table t)).records, PlainItem r.2) :
    PlainBeside t w (v.modifyTable t f) := by
  have htable := table_modifyTable t f h.has
  refine ⟨h.toBeside.modify f, h.plain.beside ((Beside.refl t v).modify f) (htable ▸ hs) ?_, (has_modifyTable t f t).2 h.has⟩
  rw [htable, Table.items_eq]
  intro item hm
  obtain ⟨r, hr, rfl⟩ := List.mem_map.1 hm
  exact hi r hr

theorem World.Plain.record (h : w.Plain) (t : TableId kind) : ∀ r ∈ (w.table t).records, PlainItem r.2 := by
  intro r hr
  refine h.items t r.2 ?_
  rw [Table.items_eq]
  exact List.mem_map_of_mem hr

/-- A change that takes keys away at most. -/
theorem prunes_modifyTable (ht : w.Has t) (f : Table kind.Key → Table kind.Key)
    (hf : (w.table t).Sound → (f (w.table t)).Sound ∧ (f (w.table t)).records.Sublist (w.table t).records) :
    Prunes w (w.modifyTable t f) := by
  intro hw
  obtain ⟨hs, hsub⟩ := hf (hw.tables t)
  have hbeside : PlainBeside t w w := ⟨Beside.refl t w, hw, ht⟩
  have hb := hbeside.modify f hs fun r hr => hw.record t r (hsub.subset hr)
  refine ⟨hb.plain, fun d => ?_⟩
  by_cases hd : (⟨.any, d⟩ : TableRef) = ⟨kind, t⟩
  · cases hd
    rw [table_modifyTable d f ht]
    exact hsub.map _
  · rw [hb.table d hd]

/-! ## Insertions -/

/-- Hashing the key and comparing it with others changes nothing. -/
structure Keying.Quiet (keying : Keying ε kind.Key) (key : kind.Key) : Prop where
  hash : ∀ w : World ε, Calm w (keying.hash key w).2
  equal : ∀ (k : kind.Key) (w : World ε), Calm w (keying.equal key k w).2

theorem textKeying_quiet (key : Bytes) : (textKeying : Keying ε _).Quiet key :=
  ⟨fun w _ => .refl w, fun _ w _ => .refl w⟩

theorem valueKeying_quiet {key : Value} (hk : key.Plain) : (valueKeying host).Quiet key :=
  ⟨fun w hw => (yields_hashValue (hw.region.not_hosted hk)).alike w (.refl w),
    fun _ w hw => (yields_equalWithin hw.region hk id fullBudget).alike w (.refl w)⟩

theorem keyingOf_quiet : ∀ {kind : KeyKind} {key : kind.Key}, PlainKey key → (keyingOf host kind).Quiet key
  | .any, _, hk => valueKeying_quiet hk
  | .text, key, _ => textKeying_quiet key

section
variable {keying : Keying ε kind.Key} {key : kind.Key} {hash : UInt32}

theorem calm_firstEqual (hq : keying.Quiet key) : ∀ (cands : List (Nat × kind.Key)) (w : World ε),
    Calm w (firstEqual keying.equal key cands w).2
  | [], _ => calm_drift.pure _
  | (slot, k) :: rest, w => by
    refine calm_drift.bind (hq.equal k w) fun verdict v _ _ => ?_
    cases verdict with
    | true => exact calm_drift.pure _
    | false => exact calm_firstEqual hq rest v

theorem calm_scan (hq : keying.Quiet key) : Calm w (scan keying t key hash w).2 :=
  calm_drift.bind (calm_drift.alike (.refl w)) fun _ _ _ _ => calm_holding fun u _ => calm_firstEqual hq _ u

/-- The slot that a scan answers with is live. -/
theorem live_of_scan (h : (w.table t).Sound) {i : Nat} (hr : scan keying t key hash w = (.ok (some i), v)) :
    i ∈ (w.table t).order := by
  obtain ⟨_, hf⟩ := firstEqual_of_scan hr
  obtain ⟨_, c, _, hslot, _, hm, _⟩ := comparisons_found hf
  exact hslot ▸ (h.mem_candidates.1 hm).1

/-- An insertion goes through plain worlds only. -/
theorem steady_quiet (hq : keying.Quiet key) (w₀ : World ε) : Steady keying t key hash (PlainBeside t w₀) := by
  refine ⟨fun h => h.plain.tables t, fun h => h.has, fun h => ?_, fun h => ?_, fun h hr => ?_, fun h ha => h.alike ha,
    fun block h _ _ _ hmax => ?_⟩
  · exact h.alike (calm_scan hq h.plain)
  · have hcalm : ∀ u : World ε, Calm u (scan keying t key hash u).2 := fun _ => calm_scan hq
    have htable := (hcalm _ h.plain).table t
    exact ⟨htable ▸ .refl _, fun hf => htable ▸ hf, fun _ => htable ▸ .refl _⟩
  · exact live_of_scan (h.plain.tables t) hr
  · obtain ⟨hs, _, hrec, _⟩ := (h.plain.tables t).grown hmax block
    exact h.modify _ hs (hrec ▸ h.plain.record t)

/-- What an insertion comes to: it leaves the keys as they are, or it adds the key at the end, after a scan of
the same records that has found no key equal to it. -/
inductive Inserted (keying : Keying ε kind.Key) (t : TableId kind) (key : kind.Key) (w w' : World ε) : Prop
  | keeps : (w'.table t).storedKeys = (w.table t).storedKeys → Inserted keying t key w w'
  | adds {hash : UInt32} {u : World ε} : (keying.hash key w).1 = .ok hash → PlainBeside t w u →
    (u.table t).records = (w.table t).records → (scan keying t key (storedHash hash) u).1 = .ok none →
    (w'.table t).storedKeys = (w.table t).storedKeys ++ [(storedHash hash, key)] → Inserted keying t key w w'

theorem insertHashed_inserted (hq : keying.Quiet key) {value : Value} (hi : PlainItem (key, value)) {hash : UInt32}
    (hhash : (keying.hash key w).1 = .ok hash) (hv : PlainBeside t w v) (hrec : (v.table t).records = (w.table t).records) :
    PlainBeside t w (insertHashed keying t key value (storedHash hash) 26 v).2 ∧
      Inserted keying t key w (insertHashed keying t key value (storedHash hash) 26 v).2 := by
  obtain ⟨x, _, hx, hrx, hc⟩ := insertHashed_ends (steady_quiet hq w) value hv
  replace hrx := hrx.trans hrec
  have hsx := hx.plain.tables t
  have hkeeps : ∀ {y : World ε}, Alike x y → PlainBeside t w y ∧ Inserted keying t key w y := by
    intro y hy
    refine ⟨hx.alike hy, .keeps ?_⟩
    rw [hy.table t, Table.storedKeys, hrx, Table.storedKeys]
  have hscan : ∀ {r : Except Failure (Option Nat)} {y : World ε},
      scan keying t key (storedHash hash) x = (r, y) → Alike x y := by
    exact fun hr => (calm_scan hq).of_run hr hx.plain
  generalize insertHashed keying t key value (storedHash hash) 26 v = res at hc ⊢
  cases hc with
  | failed hs => exact hkeeps (hscan hs)
  | frozen hs _ => exact hkeeps ((hscan hs).trans ⟨rfl, rfl, rfl, rfl⟩)
  | held hs _ _ => exact hkeeps ((hscan hs).trans ⟨rfl, rfl, rfl, rfl⟩)
  | refused hs _ _ hu => exact hkeeps ((hscan hs).trans hu)
  | @overwrites i y hs _ _ hi' =>
    have hy := hx.alike (hscan hs)
    have hsy := hy.plain.tables t
    obtain ⟨a, b, hab⟩ := List.append_of_mem hi'
    obtain ⟨e, he⟩ := hsy.slot_of_mem hi'
    have hnew := hsy.records_overwrite hab he value
    have hold := Table.records_split hab he
    refine ⟨hy.modify _ (hsy.overwrite i value).1 ?_, .keeps ?_⟩
    · have hplain := hy.plain.record t
      rw [hold] at hplain
      rw [hnew]
      intro r hr
      rcases List.mem_append.1 hr with hr | hr
      · exact hplain r (List.mem_append_left _ hr)
      rcases List.mem_cons.1 hr with rfl | hr
      · exact ⟨(hplain (e.hash, e.key, e.value) (by simp)).1, hi.2⟩
      · exact hplain r (by simp [hr])
    · rw [Table.storedKeys, records_overwrites hsy hy.has hab he, Table.storedKeys, ← hrx,
        ← (congrArg Table.records ((hscan hs).table t) :), hold]
      simp
  | @appends y z t' hs _ _ ho hz hp =>
    have hy := hx.alike (hscan hs)
    have hsy := hy.plain.tables t
    have hrec' := hp.records_eq hsy (storedHash_ne_zero hash)
    have hzb := hy.alike hz
    refine ⟨hzb.modify _ (hp.sound hsy (storedHash_ne_zero hash) ho).1 ?_, .adds hhash hx hrx (by rw [hs]) ?_⟩
    · rw [hrec']
      intro r hr
      rcases List.mem_append.1 hr with hr | hr
      · exact hy.plain.record t r hr
      · rw [List.mem_singleton.1 hr]
        exact hi
    · rw [Table.storedKeys, records_appends hsy hy.has hz (storedHash_ne_zero hash) hp, (hscan hs).table t, hrx,
        List.map_append, Table.storedKeys]
      rfl

/-- **An insertion adds a key only if no key is equal to it** among those stored under its hash. -/
theorem insert_inserted (hq : keying.Quiet key) {value : Value} (hi : PlainItem (key, value)) (hw : w.Plain)
    (ht : w.Has t) : PlainBeside t w (insert keying t key value w).2 ∧
      Inserted keying t key w (insert keying t key value w).2 := by
  have hself : PlainBeside t w w := ⟨.refl t w, hw, ht⟩
  have hkeeps : ∀ {v : World ε}, Alike w v → PlainBeside t w v ∧ Inserted keying t key w v := fun hv =>
    ⟨hself.alike hv, .keeps (by rw [hv.table t])⟩
  unfold insert
  cases hf : (w.table t).frozen with
  | true =>
    rw [run_bind_error (run_checkMutable_frozen .insert hf)]
    exact hkeeps ⟨rfl, rfl, rfl, rfl⟩
  | false =>
    rcases Nat.eq_zero_or_pos (w.table t).holds with hh | hh
    · rw [run_bind_ok (run_checkMutable .insert hf hh)]
      cases hr : keying.hash key w with
      | mk r v =>
        have halike := (hq.hash w).of_run hr hw
        cases r with
        | error e =>
          rw [run_bind_error hr]
          exact hkeeps halike
        | ok hash =>
          rw [run_bind_ok hr]
          exact insertHashed_inserted hq hi (by rw [hr]) (hself.alike halike) (by rw [halike.table t])
    · rw [run_bind_error (run_checkMutable_held .insert hf hh)]
      exact hkeeps ⟨rfl, rfl, rfl, rfl⟩

end

end ValueCore
