import ValueCore.Proofs.Refinement
import ValueCore.Proofs.Verdict.Orderly

/-!
# Pure keys among others

A dict may have keys of all kinds, also some whose comparison is the business of the host. A byte string that is looked up
in it is nevertheless compared with none of them by asking: it is told from whatever is not a scalar by its type alone
(`Unasked`). So a scan for it leaves the world as it is, be the table frozen or held (`run_scan_unasked`).

It finds the entry if the pure keys of the table, among the others, are stored under their own hashes and are pairwise
different (`Table.Files`). They are in every orderly world (`World.Orderly.files_text`, `World.Orderly.files_scalar`), and an
insertion of such a key keeps it up (`Stores.run_insert`).
-/

namespace ValueCore

open World MapCall

variable {ε : Type} {I : Inventory ε} {w w₀ v : World ε} {kind : KeyKind} {t : TableId kind} {K : PureKeys kind.Key}
  {keying : Keying ε kind.Key} {key : kind.Key} {value : Value} {l : List (kind.Key × Value)}

/-- The pure keys are stored under their hashes and pairwise different. The others may be any. -/
structure Table.Files {κ : Type} (K : PureKeys κ) (T : Table κ) : Prop where
  sound : T.Sound
  hashed : ∀ r ∈ T.storedKeys, K.keys r.2 → r.1 = storedHash (K.hash r.2)
  distinct : T.storedKeys.Pairwise fun r s => K.keys r.2 → K.keys s.2 → K.same r.2 s.2 = false

/-- The key is hashed, and compared with any other, without a look at the world. Only pure keys are equal to it. -/
structure Unasked (keying : Keying ε kind.Key) (K : PureKeys kind.Key) (key : kind.Key) : Prop where
  pure : K.keys key
  hash : ∀ w, keying.hash key w = (.ok (K.hash key), w)
  equal : ∀ k w, keying.equal key k w = (.ok (K.same key k), w)
  only : ∀ {k}, K.same key k = true → K.keys k

theorem unasked_text (name : Bytes) : Unasked (textKeying : Keying ε _) textKeys name :=
  ⟨trivial, fun _ => rfl, fun _ _ => rfl, fun _ => trivial⟩

theorem unasked_scalar (host : Host ε) {x : Value} (hx : x.Scalar) : @Unasked _ .any (valueKeying host) scalarKeys x :=
  ⟨hx, run_hashValue_scalar hx, fun _ => run_equal_apart (apart_of_scalar hx),
    fun h => (scalar_of_same (apart_of_scalar hx) h).2⟩

/-! ## Scanning -/

/-- The slot of a pure key. -/
def Table.slotOf {κ : Type} (T : Table κ) (K : PureKeys κ) (key : κ) : Option Nat :=
  ((T.candidates (storedHash (K.hash key))).find? fun c => K.same key c.2).map (·.1)

theorem run_scan_unasked (hu : Unasked keying K key) (t : TableId kind) (w : World ε) :
    scan keying t key (storedHash (K.hash key)) w = (.ok ((w.table t).slotOf K key), w) := by
  have hfirst : ∀ (cands : List (Nat × kind.Key)) (v : World ε), firstEqual keying.equal key cands v =
      (.ok ((cands.find? fun c => K.same key c.2).map (·.1)), v) := by
    intro cands v
    induction cands with
    | nil => rfl
    | cons c cands ih =>
      obtain ⟨slot, k⟩ := c
      unfold firstEqual
      rw [run_bind_ok (hu.equal k v), List.find?_cons]
      cases K.same key k with
      | true => rfl
      | false => exact ih
  unfold scan
  rw [run_bind_ok (run_readTable t w)]
  cases hf : (w.table t).frozen with
  | true => rw [run_holding_of_frozen hf, hfirst]; rfl
  | false => rw [run_holding hf, hfirst, held_undone]; rfl

namespace Table.Files

variable {κ : Type} {K : PureKeys κ} {T : Table κ} {key : κ} {value : Value}

/-- A pure key is found in its place, or no key is equal to it. -/
theorem slotOf_cases (h : T.Files K) (hkey : K.keys key) (honly : ∀ {k}, K.same key k = true → K.keys k) :
    (∃ i a b e, T.slotOf K key = some i ∧ T.order = a ++ i :: b ∧ T.slot i = some e ∧ K.same key e.key = true ∧
      ∀ r ∈ a.filterMap T.recordAt, K.same key r.2.1 = false) ∨
    T.slotOf K key = none ∧ ∀ r ∈ T.records, K.same key r.2.1 = false := by
  cases hfind : (T.candidates (storedHash (K.hash key))).find? fun c => K.same key c.2 with
  | some c =>
    obtain ⟨i, k⟩ := c
    have hsame : K.same key k = true := by simpa using List.find?_some hfind
    obtain ⟨hi, e, he, -, rfl⟩ := h.sound.mem_candidates.1 (List.mem_of_find?_eq_some hfind)
    obtain ⟨a, b, ho⟩ := List.append_of_mem hi
    refine .inl ⟨i, a, b, e, by rw [slotOf, hfind]; rfl, ho, he, hsame, fun r hr => Bool.eq_false_iff.2 fun hs => ?_⟩
    -- an equal key before this one would be equal to it
    have hk := honly hsame
    have hkr := honly hs
    have hd := h.distinct
    rw [storedKeys, records_split ho he, List.map_append, List.pairwise_append] at hd
    have hne := hd.2.2 (r.1, r.2.1) (List.mem_map.2 ⟨r, hr, rfl⟩) (e.hash, e.key) (by simp) hkr hk
    rw [K.trans hkr hkey hk (K.symm hkey hkr hs) hsame] at hne
    cases hne
  | none =>
    refine .inr ⟨by rw [slotOf, hfind]; rfl, fun r hr => Bool.eq_false_iff.2 fun hs => ?_⟩
    -- an equal key would have the same hash and be among the candidates
    have hkr := honly hs
    have hhash : r.1 = storedHash (K.hash key) :=
      (h.hashed (r.1, r.2.1) (List.mem_map.2 ⟨r, hr, rfl⟩) hkr).trans (congrArg _ (K.hash_eq hkey hkr hs).symm)
    obtain ⟨i, hi, e, he, rfl⟩ := mem_records.1 hr
    exact List.find?_eq_none.1 hfind (i, e.key) (h.sound.mem_candidates.2 ⟨hi, e, he, hhash, rfl⟩) hs

theorem of_records (h : T.Files K) {T' : Table κ} (hs : T'.Sound) (hr : T'.records = T.records) : T'.Files K := by
  have hstored := storedKeys_of_records hr
  exact ⟨hs, hstored ▸ h.hashed, hstored ▸ h.distinct⟩

theorem overwrite (h : T.Files K) {i : Nat} (hi : i ∈ T.order) (value : Value) : (T.overwrite i value).Files K := by
  have hstored := h.sound.storedKeys_overwrite hi value
  exact ⟨(h.sound.overwrite i value).1, hstored ▸ h.hashed, hstored ▸ h.distinct⟩

/-- A pure key that is new goes to the end. -/
theorem append (h : T.Files K) (hkey : K.keys key) (hnew : ∀ r ∈ T.records, K.same key r.2.1 = false) {T' : Table κ}
    (hs : T'.Sound) (hr : T'.records = T.records ++ [(storedHash (K.hash key), key, value)]) : T'.Files K := by
  have hstored : T'.storedKeys = T.storedKeys ++ [(storedHash (K.hash key), key)] := by
    rw [storedKeys, hr, List.map_append]
    rfl
  refine ⟨hs, ?_, ?_⟩ <;> rw [hstored]
  · intro r hr hk
    rcases List.mem_append.1 hr with hr | hr
    · exact h.hashed r hr hk
    · rw [List.mem_singleton.1 hr]
  · refine List.pairwise_append.2 ⟨h.distinct, List.pairwise_singleton _ _, fun r hr s hs hkr _ => ?_⟩
    obtain rfl := List.mem_singleton.1 hs
    obtain ⟨q, hq, rfl⟩ := List.mem_map.1 hr
    refine Bool.eq_false_iff.2 fun hsame => ?_
    have hne := hnew q hq
    rw [K.symm hkr hkey hsame] at hne
    cases hne

end Table.Files

/-! ## Looking up -/

/-- **A pure key is looked up among all keys** without a trace. -/
theorem run_lookup_unasked (hu : Unasked keying K key) (h : (w.table t).Files K) :
    lookup keying t key w = (.ok (valueOf K.same key (w.table t).items), w) := by
  have hslot : findSlot keying t key w = (.ok ((w.table t).slotOf K key), w) := by
    unfold findSlot
    rw [run_bind_ok (hu.hash w), run_scan_unasked hu]
  unfold lookup
  rw [run_bind_ok hslot]
  rcases h.slotOf_cases hu.pure hu.only with ⟨i, a, b, e, hi, ho, he, hsame, hbefore⟩ | ⟨hnone, hnew⟩
  · have hitems : (w.table t).items = (a.filterMap (w.table t).recordAt).map (·.2) ++ (e.key, e.value) ::
        (b.filterMap (w.table t).recordAt).map (·.2) := by
      rw [Table.items_eq, Table.records_split ho he, List.map_append, List.map_cons]
    rw [hi, hitems, valueOf_of_found (List.forall_mem_map.2 hbefore) hsame]
    dsimp only
    rw [run_bind_ok (run_readTable t w), he]
    rfl
  · rw [hnone, Table.items_eq, valueOf_of_not_found (List.forall_mem_map.2 hnew)]
    rfl

/-! ## Inserting -/

/-- In `w` there are the items `l` in table `t`, which may be changed, its pure keys in order. The rest is as in `w₀`. -/
structure Stores (K : PureKeys kind.Key) (t : TableId kind) (w₀ : World ε) (l : List (kind.Key × Value)) (w : World ε) :
    Prop where
  files : (w.table t).Files K
  has : w.Has t
  unfrozen : (w.table t).frozen = false
  unheld : (w.table t).holds = 0
  beside : Beside t w₀ w
  items : (w.table t).items = l

theorem Stores.alike (h : Stores K t w₀ l w) (ha : Alike w v) : Stores K t w₀ l v := by
  have htable := ha.table t
  exact ⟨htable ▸ h.files, ha.has_iff.2 h.has, htable ▸ h.unfrozen, htable ▸ h.unheld, h.beside.alike ha, htable ▸ h.items⟩

theorem Stores.write (h : Stores K t w₀ l w) {f : Table kind.Key → Table kind.Key} (hfiles : (f (w.table t)).Files K)
    (hholds : (f (w.table t)).holds = (w.table t).holds) (hfrozen : (f (w.table t)).frozen = (w.table t).frozen) :
    Stores K t w₀ (f (w.table t)).items (w.modifyTable t f) := by
  have htable := table_modifyTable t f h.has
  refine ⟨?_, (has_modifyTable t _ t).2 h.has, ?_, ?_, h.beside.modify f, by rw [htable]⟩ <;> rw [htable]
  · exact hfiles
  · exact hfrozen.trans h.unfrozen
  · exact hholds.trans h.unheld

/-- An insertion goes through such worlds only. -/
theorem Stores.steady (hu : Unasked keying K key) :
    Steady keying t key (storedHash (K.hash key)) (Stores K t w₀ l) := by
  refine ⟨fun h => h.files.sound, fun h => h.has, fun h => ?_, fun _ => ?_, fun {w _ i} h hs => ?_, Stores.alike,
    fun {w} block h _ _ _ hmax => ?_⟩
  · rw [run_scan_unasked hu]
    exact h
  · rw [run_scan_unasked hu]
    exact ⟨.refl _, id, fun _ => .refl _⟩
  · rw [run_scan_unasked hu] at hs
    have hi : (w.table t).slotOf K key = some i := Except.ok.inj (congrArg Prod.fst hs)
    rcases h.files.slotOf_cases hu.pure hu.only with ⟨j, a, b, e, hj, ho, -⟩ | ⟨hnone, -⟩
    · cases hi.symm.trans hj
      rw [ho]
      simp
    · cases hi.symm.trans hnone
  · obtain ⟨hs, -, hrec, -, -, hholds, hfrozen⟩ := h.files.sound.grown hmax block
    have hgrown := h.write (f := (·.grown block)) (h.files.of_records hs hrec) hholds hfrozen
    rwa [Table.items_eq, hrec, ← Table.items_eq, h.items] at hgrown

/-- **Inserting a pure key** assigns its value in the list of items, or there is no memory and nothing has changed. -/
theorem Stores.run_insert (h : Stores K t w₀ l w) (hu : Unasked keying K key) (value : Value) :
    (∃ v, insert keying t key value w = (.error (.raised .memory), v) ∧ Stores K t w₀ l v) ∨
    ∃ v, insert keying t key value w = (.ok (), v) ∧ Stores K t w₀ (assign K.same key value l) v := by
  obtain ⟨x, -, hx, -, hcon⟩ := insertHashed_ends (Stores.steady (l := l) hu) value h
  have hscan := run_scan_unasked hu t x
  have hrun : insert keying t key value w = insertHashed keying t key value (storedHash (K.hash key)) 26 w := by
    unfold insert
    rw [run_bind_ok (run_checkMutable .insert h.unfrozen h.unheld), run_bind_ok (hu.hash w)]
  rw [hrun]
  cases hr : insertHashed keying t key value (storedHash (K.hash key)) 26 w with
  | mk r z =>
  rw [hr] at hcon
  cases hcon with
  | failed he => rw [hscan] at he; cases he
  | frozen he hf =>
    rw [hscan] at he
    cases he
    rw [hx.unfrozen] at hf
    cases hf
  | held he hf hh =>
    rw [hscan] at he
    cases he
    rw [hx.unheld] at hh
    cases hh
  | @overwrites i _ he hf hh hi =>
    rw [hscan] at he
    obtain ⟨hfound, rfl⟩ := Prod.mk.injEq .. ▸ he
    have hwrite := hx.write (f := (·.overwrite i value)) (hx.files.overwrite hi value) rfl rfl
    rcases hx.files.slotOf_cases hu.pure hu.only with ⟨j, a, b, e, hj, ho, hslot, hsame, hbefore⟩ | ⟨hnone, -⟩
    · cases (Except.ok.inj hfound).symm.trans hj
      have hl : l = (a.filterMap (x.table t).recordAt).map (·.2) ++ (e.key, e.value) ::
          (b.filterMap (x.table t).recordAt).map (·.2) := by
        rw [← hx.items, Table.items_eq, Table.records_split ho hslot, List.map_append, List.map_cons]
      rw [Table.items_eq, hx.files.sound.records_overwrite ho hslot, List.map_append, List.map_cons,
        ← assign_of_found (x := e.value) (List.forall_mem_map.2 hbefore) hsame, ← hl] at hwrite
      exact .inr ⟨_, rfl, hwrite⟩
    · cases (Except.ok.inj hfound).symm.trans hnone
  | refused he hf hh ha =>
    rw [hscan] at he
    obtain ⟨-, rfl⟩ := Prod.mk.injEq .. ▸ he
    exact .inl ⟨_, rfl, hx.alike ha⟩
  | @appends _ _ T he hf hh ho ha hp =>
    rw [hscan] at he
    obtain ⟨hfound, rfl⟩ := Prod.mk.injEq .. ▸ he
    rcases hx.files.slotOf_cases hu.pure hu.only with ⟨j, a, b, e, hj, -⟩ | ⟨-, hnew⟩
    · cases (Except.ok.inj hfound).symm.trans hj
    · have hz := hx.alike ha
      rw [← ha.table t] at hp ho hnew
      have hrec := hp.records_eq hz.files.sound (storedHash_ne_zero _)
      obtain ⟨hs, hholds, hfrozen⟩ := hp.sound hz.files.sound (storedHash_ne_zero _) ho
      have hwrite := hz.write (f := fun _ => T) (hz.files.append hu.pure hnew hs hrec) hholds hfrozen
      rw [Table.items_eq, hrec, List.map_append, ← Table.items_eq, hz.items] at hwrite
      refine .inr ⟨_, rfl, ?_⟩
      rwa [assign_of_not_found fun item hm => ?_]
      rw [← hz.items, Table.items_eq] at hm
      obtain ⟨r, hr, rfl⟩ := List.mem_map.1 hm
      exact hnew r hr

/-! ## Orderly worlds -/

/-- Tables with byte strings for keys are in order. -/
theorem World.Orderly.files_text (ho : w.Orderly) {t : TableId .text} (hs : (w.table t).Sound) :
    (w.table t).Files textKeys := by
  have harranged := ho.arranged t
  refine ⟨hs, fun r hr _ => harranged.filed r hr, harranged.unlike.imp fun {r s} hne _ _ => ?_⟩
  exact decide_eq_false fun h => hne h.symm

theorem World.not_fluid_scalar {x : Value} (hx : x.Scalar) : ¬ w.Fluid x := by
  intro h
  cases h <;> exact hx

/-- Among the keys of a dict those without parts are in order. -/
theorem World.Orderly.files_scalar (ho : w.Orderly) {t : TableId .any} (hs : (w.table t).Sound) :
    (w.table t).Files scalarKeys := by
  have harranged := ho.arranged t
  refine ⟨hs, fun r hr hx => ?_, harranged.unlike.imp fun {r s} hne hr hs => ?_⟩
  · rcases harranged.filed r hr with hhost | ⟨a, ha, hfiled⟩
    · exact absurd hhost.fluid (not_fluid_scalar hx)
    · rw [hashOf_scalar hx] at ha
      cases ha
      exact hfiled
  · rcases hne with hf | hf | hne
    · exact absurd hf (not_fluid_scalar hs)
    · exact absurd hf (not_fluid_scalar hr)
    · exact Bool.eq_false_iff.2 fun h => hne (.same (apart_of_scalar hs) (by rwa [same_comm]))

end ValueCore
