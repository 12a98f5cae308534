import ValueCore.Proofs.Operations.Insertion
import ValueCore.Proofs.Scalars

/-!
# Tables with pure keys

Keys are pure when their hash and their equality depend on the keys alone (`Keying.Computes`). All that is
asked of the two is in `PureKeys`: equality is symmetric and transitive, and equal keys hash alike. A key need
not be equal to itself.

In a table of such keys no two are equal and each is stored under its hash (`Keyed`), so a scan finds the one
entry that is equal to what is looked for, or tells that there is none (`run_scan_pure`).
-/

namespace ValueCore

open World

variable {ε : Type} {w w' v : World ε} {kind : KeyKind} {t : TableId kind}

/-- A set of keys with a hash and an equality. -/
structure PureKeys (κ : Type) where
  keys : κ → Prop
  hash : κ → UInt32
  same : κ → κ → Bool
  symm : ∀ {a b : κ}, keys a → keys b → same a b = true → same b a = true
  trans : ∀ {a b c : κ}, keys a → keys b → keys c → same a b = true → same b c = true → same a c = true
  hash_eq : ∀ {a b : κ}, keys a → keys b → same a b = true → hash a = hash b

/-- All byte strings. -/
def textKeys : PureKeys Bytes where
  keys _ := True
  hash := Bytes.fnv1a
  same a b := decide (a = b)
  symm _ _ h := by simpa using (of_decide_eq_true h).symm
  trans _ _ _ h h' := by simpa using (of_decide_eq_true h).trans (of_decide_eq_true h')
  hash_eq _ _ h := congrArg _ (of_decide_eq_true h)

/-- All values without parts. -/
def scalarKeys : PureKeys Value where
  keys := Value.Scalar
  hash := Value.hashScalar
  same := Value.same
  symm _ _ h := by rwa [same_comm]
  trans _ _ _ h h' := same_trans h h'
  hash_eq _ _ h := hashScalar_eq h

/-- Hashing and comparing the keys in `w`, and whatever becomes of table `t`, is computing with them. -/
structure Keying.Computes (keying : Keying ε kind.Key) (K : PureKeys kind.Key) (t : TableId kind) (w : World ε) :
    Prop where
  hash : ∀ {v : World ε} {key : kind.Key}, Beside t w v → K.keys key →
    ∃ v', Alike v v' ∧ keying.hash key v = (.ok (K.hash key), v')
  equal : ∀ {v : World ε} {a b : kind.Key}, Beside t w v → K.keys a → K.keys b →
    ∃ v', Alike v v' ∧ keying.equal a b v = (.ok (K.same a b), v')

theorem textKeying_computes (t : TableId .text) (w : World ε) : textKeying.Computes textKeys t w :=
  ⟨fun _ _ => ⟨_, .refl _, rfl⟩, fun _ _ _ => ⟨_, .refl _, rfl⟩⟩

theorem scalarKeying_computes (host : Host ε) (t : TableId .any) (w : World ε) :
    (valueKeying host).Computes scalarKeys t w :=
  ⟨fun _ hk => ⟨_, .refl _, run_hashValue_scalar hk _⟩, fun _ ha _ => ⟨_, .refl _, run_equal_apart (apart_of_scalar ha) _⟩⟩

/-- A table that may be changed, whose keys are pure and pairwise different, each stored under its hash. -/
structure Keyed (K : PureKeys kind.Key) (t : TableId kind) (w : World ε) : Prop where
  sound : (w.table t).Sound
  has : w.Has t
  unfrozen : (w.table t).frozen = false
  unheld : (w.table t).holds = 0
  hashed : ∀ r ∈ (w.table t).records, r.1 = storedHash (K.hash r.2.1) ∧ K.keys r.2.1
  distinct : (w.table t).keys.Pairwise fun a b => K.same a b = false

section
variable {K : PureKeys kind.Key}

theorem Keyed.alike (h : Keyed K t w) (ha : Alike w v) : Keyed K t v := by
  have htable := ha.table t
  refine ⟨?_, ha.has_iff.2 h.has, ?_, ?_, ?_, ?_⟩ <;> rw [htable]
  · exact h.sound
  · exact h.unfrozen
  · exact h.unheld
  · exact h.hashed
  · exact h.distinct

/-! ## Scanning -/

theorem run_firstEqual_pure {keying : Keying ε kind.Key} {w₀ : World ε} (hc : keying.Computes K t w₀) {key : kind.Key}
    (hkey : K.keys key) : ∀ (cands : List (Nat × kind.Key)) {w : World ε}, Beside t w₀ w → (∀ c ∈ cands, K.keys c.2) →
      ∃ v, Alike w v ∧ firstEqual keying.equal key cands w =
        (.ok ((cands.find? fun c => K.same key c.2).map (·.1)), v)
  | [], w, _, _ => ⟨w, .refl w, rfl⟩
  | (slot, k) :: rest, w, hw, hcands => by
    obtain ⟨v, hv, hr⟩ := hc.equal hw hkey (hcands (slot, k) List.mem_cons_self)
    unfold firstEqual
    rw [run_bind_ok hr]
    cases hs : K.same key k with
    | true => exact ⟨v, hv, by simp only [List.find?_cons, hs]; rfl⟩
    | false =>
      obtain ⟨u, hu, hr'⟩ := run_firstEqual_pure hc hkey rest (hw.alike hv) fun c hm => hcands c (by simp [hm])
      refine ⟨u, hv.trans hu, ?_⟩
      simp only [List.find?_cons, hs]
      exact hr'

/-- **A scan finds the one entry that is equal to the key**, or tells that there is none. -/
theorem run_scan_pure {keying : Keying ε kind.Key} {w₀ : World ε} (hc : keying.Computes K t w₀) (hw : Beside t w₀ w)
    (h : Keyed K t w) {key : kind.Key} (hkey : K.keys key) :
    ∃ v found, Alike w v ∧ scan keying t key (storedHash (K.hash key)) w = (.ok found, v) ∧
      (∀ i ∈ found, ∃ a b e, (w.table t).order = a ++ i :: b ∧ (w.table t).slot i = some e ∧
        K.same key e.key = true) ∧
      (found = none → ∀ k ∈ (w.table t).keys, K.same key k = false) := by
  have hcand : ∀ c ∈ (w.table t).candidates (storedHash (K.hash key)), c.1 ∈ (w.table t).order ∧
      ∃ e, (w.table t).slot c.1 = some e ∧ e.key = c.2 ∧ K.keys c.2 := fun c hm => by
    obtain ⟨hi, e, he, _, hk⟩ := h.sound.mem_candidates.1 hm
    exact ⟨hi, e, he, hk, hk ▸ (h.hashed _ (Table.mem_records.2 ⟨_, hi, e, he, rfl⟩)).2⟩
  obtain ⟨v, hv, hr⟩ := run_firstEqual_pure hc hkey ((w.table t).candidates (storedHash (K.hash key)))
    (hw.modify fun t => { t with holds := t.holds + 1 }) fun c hm => (hcand c hm).2.choose_spec.2.2
  generalize hfound : Option.map _ _ = found at hr
  refine ⟨v.letGo t, found, letGo_held t hv, ?_, fun i hi => ?_, fun hnone k hk => ?_⟩
  · unfold scan
    rw [run_bind_ok (run_readTable t w), run_holding h.unfrozen]
    show ((firstEqual _ _ _ (w.held t)).1, _) = _
    rw [World.held, hr]
  · obtain ⟨c, hfind, rfl⟩ := Option.map_eq_some_iff.1 (hfound.trans hi)
    obtain ⟨hmem, e, he, hek, _⟩ := hcand c (List.mem_of_find?_eq_some hfind)
    obtain ⟨a, b, hab⟩ := List.append_of_mem hmem
    have hsame : K.same key c.2 = true := by simpa using List.find?_some hfind
    exact ⟨a, b, e, hab, he, hek ▸ hsame⟩
  · -- an equal key would have the same hash and be among the candidates
    by_contra hsame
    obtain ⟨r, hr, rfl⟩ : ∃ r ∈ (w.table t).records, r.2.1 = k := by
      rw [Table.keys_eq] at hk
      exact List.mem_map.1 hk
    obtain ⟨hhash, hkr⟩ := h.hashed r hr
    obtain ⟨i, hi, e, he, rfl⟩ := Table.mem_records.1 hr
    have heq : K.same key e.key = true := by simpa using hsame
    have hstored : e.hash = storedHash (K.hash key) := hhash.trans (congrArg _ (K.hash_eq hkey hkr heq).symm)
    have hm : (i, e.key) ∈ (w.table t).candidates (storedHash (K.hash key)) :=
      h.sound.mem_candidates.2 ⟨hi, e, he, hstored, rfl⟩
    have := List.find?_eq_none.1 (Option.map_eq_none_iff.1 (hfound.trans hnone)) _ hm
    exact this heq

/-! ## Writing -/

/-- A write that keeps the table sound, its keys stored under their hashes and pairwise different. -/
theorem Keyed.write (h : Keyed K t w) (f : Table kind.Key → Table kind.Key) (hs : (f (w.table t)).Sound)
    (hflags : (f (w.table t)).holds = (w.table t).holds ∧ (f (w.table t)).frozen = (w.table t).frozen)
    (hhashed : ∀ r ∈ (f (w.table t)).records, r.1 = storedHash (K.hash r.2.1) ∧ K.keys r.2.1)
    (hdistinct : (f (w.table t)).keys.Pairwise fun a b => K.same a b = false) : Keyed K t (w.modifyTable t f) := by
  have htable := table_modifyTable t f h.has
  refine ⟨?_, (has_modifyTable t _ t).2 h.has, ?_, ?_, ?_, ?_⟩ <;> rw [htable]
  · exact hs
  · exact hflags.2.trans h.unfrozen
  · exact hflags.1.trans h.unheld
  · exact hhashed
  · exact hdistinct

theorem Keyed.grown (h : Keyed K t w) (hmax : (w.table t).heads < maxHeads) (block : Option Block) :
    Keyed K t (w.modifyTable t (·.grown block)) := by
  obtain ⟨hs, _, hrec, _, _, hholds, hfrozen⟩ := h.sound.grown hmax block
  refine h.write _ hs ⟨hholds, hfrozen⟩ ?_ ?_
  · rw [hrec]
    exact h.hashed
  · rw [Table.keys_eq, hrec, ← Table.keys_eq]
    exact h.distinct

theorem Keyed.overwrite (h : Keyed K t w) {a b : List Nat} {i : Nat} {e : Entry kind.Key}
    (ho : (w.table t).order = a ++ i :: b) (he : (w.table t).slot i = some e) (value : Value) :
    Keyed K t (w.modifyTable t (·.overwrite i value)) := by
  have hrec := h.sound.records_overwrite ho he value
  have hold := Table.records_split ho he
  refine h.write _ (h.sound.overwrite i value).1 ⟨rfl, rfl⟩ (fun r hr => ?_) ?_
  · have hmem : ∀ s ∈ (w.table t).records, s.1 = storedHash (K.hash s.2.1) ∧ K.keys s.2.1 := h.hashed
    rw [hold] at hmem
    rw [hrec] at hr
    rcases List.mem_append.1 hr with hr | hr
    · exact hmem r (List.mem_append_left _ hr)
    · rcases List.mem_cons.1 hr with rfl | hr
      · exact hmem (e.hash, e.key, e.value) (by simp)
      · exact hmem r (by simp [hr])
  · have hkeys := h.distinct
    rw [Table.keys_eq, hold] at hkeys
    rw [Table.keys_eq, hrec]
    simpa using hkeys

theorem Keyed.remove (h : Keyed K t w) {a b : List Nat} {i : Nat} {e : Entry kind.Key}
    (ho : (w.table t).order = a ++ i :: b) (he : (w.table t).slot i = some e) :
    Keyed K t (w.modifyTable t (·.remove i)) := by
  have hrec := h.sound.records_remove ho he
  have hsub : (a.filterMap (w.table t).recordAt ++ b.filterMap (w.table t).recordAt).Sublist (w.table t).records := by
    rw [Table.records_split ho he]
    exact List.Sublist.append_left (List.sublist_cons_self _ _) _
  obtain ⟨-, -, -, -, -, -, hholds, hfrozen⟩ := Table.remove_frame (t := w.table t) i
  refine h.write _ (h.sound.remove ho).1 ⟨hholds, hfrozen⟩ (fun r hr => ?_) ?_
  · rw [hrec] at hr
    exact h.hashed r (hsub.subset hr)
  · have hkeys := h.distinct
    rw [Table.keys_eq] at hkeys
    rw [Table.keys_eq, hrec]
    exact hkeys.sublist (hsub.map _)

theorem Keyed.placed (h : Keyed K t w) {key : kind.Key} {value : Value} (hkey : K.keys key)
    (hnew : ∀ k ∈ (w.table t).keys, K.same key k = false) (ho : overloaded (w.table t).length (w.table t).heads = false)
    {t' : Table kind.Key} (hp : Table.Placed (w.table t) (storedHash (K.hash key)) key value t') :
    Keyed K t (w.modifyTable t fun _ => t') := by
  have hrec := hp.records_eq h.sound (storedHash_ne_zero _)
  obtain ⟨hs, hflags⟩ := hp.sound h.sound (storedHash_ne_zero _) ho
  refine h.write _ hs hflags (fun r hr => ?_) ?_
  · rw [hrec] at hr
    rcases List.mem_append.1 hr with hr | hr
    · exact h.hashed r hr
    · rw [List.mem_singleton.1 hr]
      exact ⟨rfl, hkey⟩
  · rw [Table.keys_eq, hrec, List.map_append, ← Table.keys_eq, List.pairwise_append]
    refine ⟨h.distinct, List.pairwise_singleton _ _, fun a ha b hb => ?_⟩
    obtain rfl : b = key := by simpa using hb
    -- the new key was compared from its side
    rw [Table.keys_eq] at ha
    obtain ⟨r, hr, rfl⟩ := List.mem_map.1 ha
    refine Bool.eq_false_iff.2 fun hsame => ?_
    have := hnew r.2.1 (by rw [Table.keys_eq]; exact ha)
    rw [K.symm (h.hashed r hr).2 hkey hsame] at this
    cases this

theorem Keyed.cleared (h : Keyed K t w) : Keyed K t (w.modifyTable t (·.cleared)) := by
  obtain ⟨hs, ho⟩ := h.sound.cleared
  refine h.write _ hs ⟨rfl, rfl⟩ ?_ ?_
  · rw [Table.records_of_order_nil ho]
    simp
  · rw [Table.keys_eq, Table.records_of_order_nil ho]
    exact .nil

/-- The entries before the one that is equal to a key are not equal to it. -/
theorem Keyed.not_same_before (h : Keyed K t w) {key : kind.Key} (hkey : K.keys key) {a b : List Nat} {i : Nat}
    {e : Entry kind.Key} (ho : (w.table t).order = a ++ i :: b) (he : (w.table t).slot i = some e)
    (hsame : K.same key e.key = true) :
    ∀ r ∈ a.filterMap (w.table t).recordAt, K.same key r.2.1 = false := by
  intro r hr
  have hsplit := Table.records_split ho he
  have hmem : r ∈ (w.table t).records := hsplit ▸ List.mem_append_left _ hr
  have hself : (e.hash, e.key, e.value) ∈ (w.table t).records := hsplit ▸ by simp
  have hkr := (h.hashed r hmem).2
  refine Bool.eq_false_iff.2 fun hs => ?_
  have hre := K.trans hkr hkey (h.hashed _ hself).2 (K.symm hkey hkr hs) hsame
  have hd := h.distinct
  rw [Table.keys_eq, hsplit, List.map_append, List.pairwise_append] at hd
  have := hd.2.2 r.2.1 (List.mem_map.2 ⟨r, hr, rfl⟩) e.key (by simp)
  rw [hre] at this
  cases this

/-- An insertion of a pure key goes through such tables only. -/
theorem steady_pure {keying : Keying ε kind.Key} {w₀ : World ε} (hc : keying.Computes K t w₀) {key : kind.Key}
    (hkey : K.keys key) :
    Steady keying t key (storedHash (K.hash key)) fun w => Beside t w₀ w ∧ Keyed K t w := by
  have hscan := fun {w : World ε} (h : Beside t w₀ w ∧ Keyed K t w) => run_scan_pure hc h.1 h.2 hkey
  refine ⟨fun h => h.2.sound, fun h => h.2.has, fun h => ?_, fun h => ?_, fun h hs => ?_, fun h ha => ?_,
    fun block h _ _ _ hmax => ?_⟩
  · obtain ⟨v, found, hv, hr, _⟩ := hscan h
    rw [hr]
    exact ⟨h.1.alike hv, h.2.alike hv⟩
  · obtain ⟨v, found, hv, hr, _⟩ := hscan h
    rw [hr]
    have htable := hv.table t
    exact ⟨htable ▸ .refl _, fun hf => htable ▸ hf, fun _ => htable ▸ .refl _⟩
  · obtain ⟨v, found, hv, hr, hfound, _⟩ := hscan h
    rw [hr] at hs
    cases hs
    obtain ⟨a, b, e, hab, _, _⟩ := hfound _ rfl
    rw [hab]
    simp
  · exact ⟨h.1.alike ha, h.2.alike ha⟩
  · exact ⟨h.1.modify _, h.2.grown hmax block⟩

end

end ValueCore
