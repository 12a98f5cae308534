import ValueCore.Proofs.Operations.Pruning
import ValueCore.Proofs.Verdict.Laws

/-!
# Keys stay distinct

A key is compared with the keys of a table once, when it is inserted. That it differs from them for good rests
on three things that are settled at that time: its hash, which never looks at constructors; its fields, which
never change; and the verdicts on it, as long as they do not depend on what a dict contains (`World.Meets`).

A struct whose field is a dict has no hash, but a struct whose constructor is one does. So two keys may well
come to be equal while they are in a table: two structs of the same fields with different dicts as
constructors, once the dicts are made equal (`keys_may_become_equal`). Growth, which does not compare keys
again, keeps both. It only ever happens by constructors (`keys_distinct`).
-/

namespace ValueCore

open World

variable {ε : Type} {I : Inventory ε} {w w' v : World ε} {host : Host ε}

/-! ## Programs without values of their own -/

/-- A run of operations none of which is given a value of the host. In between the program may do what needs no
operation: start and release cursors, and rearrange what it keeps. -/
inductive PlainRun (I : Inventory ε) (w : World ε) : World ε → Prop
  | start : PlainRun I w w
  | call {v : World ε} (host : Host ε) (op : Operation) : PlainRun I w v → Civil I host → op.Valid v → op.Plain →
    PlainRun I w (op.run host v).2
  | between {v v' : World ε} : PlainRun I w v → Attempts I (fun _ => False) v v' → PlainRun I w v'

/-- Such a run is one that a program may make. -/
theorem PlainRun.reachable (hb : w.Bare I) (hr : PlainRun I w v) : Reachable I v := by
  refine ⟨w, hb, ?_⟩
  induction hr with
  | start => exact .refl
  | call host op _ hc hv _ ih => exact ih.call host op hc hv
  | between _ ha ih => exact ih.trans (ha.mono fun _ hf => hf.elim)

/-! ## The invariant -/

/-- Two keys, the first of them stored before the other. If they are stored under the same hash then the later
one is not equal to the earlier one, unless comparing them comes to two different dicts. -/
def World.Differ (w : World ε) (a b : UInt32 × Value) : Prop :=
  a.1 = b.1 → ¬ w.Meets b.2 a.2 → w.verdict (comparisonFuel w fullBudget) fullBudget b.2 a.2 = some false

/-- **The invariant.** Each key is stored under its hash and differs from those before it. -/
structure World.Distinct (w : World ε) : Prop where
  hashed : ∀ (t : TableId .any), ∀ r ∈ (w.table t).storedKeys,
    ∃ h, w.hashOf (w.structs.size + 2) r.2 = some h ∧ r.1 = storedHash h
  differ : ∀ t : TableId .any, (w.table t).storedKeys.Pairwise w.Differ

theorem comparisonFuel_mono {depth : Int} (h : w.structs.size ≤ w'.structs.size) :
    comparisonFuel w depth ≤ comparisonFuel w' depth := by
  unfold comparisonFuel
  omega

/-- What is known of two keys stays so as the world goes on. -/
theorem World.Differ.stands {C : Value → Prop} (hw : World.Stands C w w') (hsize : w.structs.size ≤ w'.structs.size)
    {a b : UInt32 × Value} (ha : C a.2) (hb : C b.2) (hd : w.Differ a b) : w'.Differ a b := by
  intro heq hm
  have hm' : ¬ w.Meets b.2 a.2 := fun h => hm (h.stands hw hb ha)
  exact verdict_stands hw hb ha hm' (comparisonFuel_mono hsize) (hd heq hm')

/-- What is known of the keys of a world stays so as the world goes on. -/
theorem World.Distinct.stands (hd : w.Distinct) (h : w.Sound I) (he : Evolves I w.structs.size w w')
    (t : TableId .any) :
    (∀ r ∈ (w.table t).storedKeys, ∃ h, w'.hashOf (w'.structs.size + 2) r.2 = some h ∧ r.1 = storedHash h) ∧
      (w.table t).storedKeys.Pairwise w'.Differ := by
  have hw := stands_of_evolves h he
  have hsize := he.within.size_le
  refine ⟨fun r hr => ?_, ?_⟩
  · obtain ⟨a, ha, hra⟩ := hd.hashed t r hr
    exact ⟨a, hashOf_stands hw (ownsKey_of_stored h hr) (by omega) ha, hra⟩
  · refine (hd.differ t).imp_of_mem ?_
    intro a b ha hb hab
    exact hab.stands hw hsize (ownsKey_of_stored h ha) (ownsKey_of_stored h hb)

/-- An operation that takes keys away at most keeps the others distinct. -/
theorem World.Distinct.pruned (hd : w.Distinct) (h : w.Sound I) (he : Evolves I w.structs.size w w')
    (hp : w.Pruned w') : w'.Distinct := by
  refine ⟨fun t r hr => ?_, fun t => ?_⟩
  · exact (hd.stands h he t).1 r ((hp.keys t).subset hr)
  · exact (hd.stands h he t).2.sublist (hp.keys t)

/-! ## Insertions -/

/-- A key that a scan has not found differs from all keys that the scan may have met. -/
theorem differ_of_scan {t : TableId .any} {key : Value} (hkey : key.Plain) {hash : UInt32} (hw : w.Plain)
    (hscan : (scan (valueKeying host) t key hash w).1 = .ok none) :
    ∀ a ∈ (w.table t).storedKeys, w.Differ a (hash, key) := by
  intro a ha heq _
  have hnone : firstVerdict (w.verdict (comparisonFuel w fullBudget) fullBudget key) ((w.table t).candidates hash) =
      some none := (yields_scan t hash fun _ _ => yields_equalWithin hw.region hkey id fullBudget).value hscan
  obtain ⟨r, hr, rfl⟩ := List.mem_map.1 ha
  obtain ⟨i, hi, e, he, rfl⟩ := Table.mem_records.1 hr
  have hcand : (i, e.key) ∈ (w.table t).candidates hash := (hw.tables t).mem_candidates.2 ⟨hi, e, he, heq, rfl⟩
  exact firstVerdict_eq_none hnone _ hcand

/-- **An insertion keeps keys distinct.** -/
theorem distinct_insert (hh : host.Respects I) (h : w.Sound I) (hw : w.Plain) (hd : w.Distinct) {t : TableId .any}
    (ht : w.Has t) {key value : Value} (hi : key.Plain ∧ value.Plain) (hkey : w.Owns key) (hvalue : w.Owns value) :
    (insert (valueKeying host) t key value w).2.Plain ∧ (insert (valueKeying host) t key value w).2.Distinct := by
  have he : Evolves I w.structs.size w (insert (valueKeying host) t key value w).2 :=
    (insert_leads (valueKeying_respects hh) h (Nat.le_refl _) ht id hkey hvalue).evolves
  obtain ⟨hb, hins⟩ : PlainBeside t w (insert (valueKeying host) t key value w).2 ∧
      Inserted (valueKeying host) t key w (insert (valueKeying host) t key value w).2 :=
    insert_inserted (valueKeying_quiet hi.1) hi hw ht
  generalize (insert (valueKeying host) t key value w).2 = w' at he hb hins ⊢
  refine ⟨hb.plain, ?_⟩
  have hother : ∀ d : TableId .any, d ≠ t → w'.table d = w.table d := fun d hne =>
    hb.table d fun heq => hne (by cases heq; rfl)
  cases hins with
  | keeps hkeys =>
    refine hd.pruned h he ⟨hb.plain, fun d => ?_⟩
    by_cases hdt : d = t
    · rw [hdt, hkeys]
    · rw [hother d hdt]
  | @adds hash u hhash hu hrec hscan hkeys =>
    have hstands := hd.stands h he
    -- the scan was in `u`, whose structs are those of `w'`
    have hub : Beside t u w' := hu.toBeside.symm.trans hb.toBeside
    have hnew : ∀ a ∈ (w.table t).storedKeys, w'.Differ a (storedHash hash, key) := by
      intro a ha
      rw [Table.storedKeys, ← hrec] at ha
      refine (differ_of_scan hi.1 hu.plain hscan a ha).stands (stands_of_beside hub) ?_ trivial trivial
      rw [hub.structs]
    refine ⟨fun d r hr => ?_, fun d => ?_⟩
    · by_cases hdt : d = t
      · rw [hdt, hkeys] at hr
        rcases List.mem_append.1 hr with hr | hr
        · exact (hstands t).1 r hr
        · obtain rfl := List.mem_singleton.1 hr
          have hof : w.hashOf (w.structs.size + 2) key = some hash := (yields_hashValue (hw.region.not_hosted hi.1)).value hhash
          have hsize := he.within.size_le
          exact ⟨hash, hashOf_stands (stands_of_evolves h he) hkey (by omega) hof, rfl⟩
      · rw [hother d hdt] at hr
        exact (hstands d).1 r hr
    · by_cases hdt : d = t
      · rw [hdt, hkeys, List.pairwise_append]
        refine ⟨(hstands t).2, List.pairwise_singleton _ _, fun a ha b hb => ?_⟩
        rw [List.mem_singleton.1 hb]
        exact hnew a ha
      · rw [hother d hdt]
        exact (hstands d).2

/-- The fields of a struct are inserted one after the other, and each insertion keeps the invariants. -/
theorem distinct_intoDict (hh : host.Respects I) (h : w.Sound I) (hw : w.Plain) (hd : w.Distinct) (s : StructId)
    {d : TableId .any} (hhas : w.Has d) :
    (structIntoDict host s d w).2.Plain ∧ (structIntoDict host s d w).2.Distinct := by
  have hloop := forM_keeps (P := fun v => (v.Sound I ∧ Within w v) ∧ v.Plain ∧ v.Distinct)
    (f := fun field : Field => insert (valueKeying host) d (.str field.1) field.2) (w.table (w.struct s).fields).items
    ⟨⟨h, .refl w⟩, hw, hd⟩ ?_
  · exact hloop.2
  · intro (name, value) hm v ⟨⟨hs, hin⟩, hw', hd'⟩
    have hhas' : v.Has d := hin.has d hhas
    have hname : v.Owns (.str name) := trivial
    have hvalue : v.Owns value := hin.owns (h.items (w.struct s).fields (name, value) hm).2
    have hplain : (Value.str name).Plain ∧ value.Plain := ⟨trivial, (hw.items (w.struct s).fields (name, value) hm).2⟩
    have hl : Leads I v.structs.size v (insert (valueKeying host) d (.str name) value) fun _ _ => True :=
      insert_leads (valueKeying_respects hh) hs (Nat.le_refl _) hhas' id hname hvalue
    exact ⟨⟨hl.evolves.sound hs, hin.trans hl.evolves.within⟩, distinct_insert hh hs hw' hd' hhas' hplain hname hvalue⟩

/-- Whether an operation adds keys or takes them away, they stay distinct. -/
theorem distinct_operation (hh : host.Respects I) (h : w.Sound I) (hw : w.Plain) (hd : w.Distinct) (op : Operation)
    (hv : op.Valid w) (hp : op.Plain) : (op.run host w).2.Plain ∧ (op.run host w).2.Distinct := by
  by_cases ha : op.AddsKeys
  · cases op with
    | @insert kind t key value =>
      cases kind with
      | any => exact distinct_insert hh h hw hd hv.1.1 hp hv.2.1 hv.2.2
      | text => exact False.elim ha
    | intoDict s d => exact distinct_intoDict hh h hw hd s hv.2
    | _ => exact False.elim ha
  · have hpruned : w.Pruned (op.run host w).2 := op.prunes hv hp ha hw
    exact ⟨hpruned.plain, hd.pruned h (op.evolves hh h hv) hpruned⟩

/-! ## Runs -/

/-- The invariants hold along every run. -/
theorem PlainRun.distinct (hb : w.Bare I) (hr : PlainRun I w v) : v.Sound I ∧ v.Plain ∧ v.Distinct := by
  induction hr with
  | start =>
    have hrec : ∀ {kind : KeyKind} (t : TableId kind), (w.table t).records = [] := fun t => by
      rw [hb.table_eq t]
      exact Table.records_of_order_nil (Table.sound_empty.order_eq_nil rfl)
    refine ⟨hb.sound, ⟨fun t => hb.sound.tables t, fun t => ?_, fun s => ?_⟩, ⟨fun t => ?_, fun t => ?_⟩⟩
    · rw [Table.items_eq, hrec]
      intro item hm
      cases hm
    · simp only [World.struct, hb.structs]
      exact trivial
    · rw [Table.storedKeys, hrec]
      intro r hm
      cases hm
    · rw [Table.storedKeys, hrec]
      exact .nil
  | call host op _ hc hv hp ih =>
    obtain ⟨h, hw, hd⟩ := ih
    exact ⟨(op.evolves hc.respects h hv).sound h, distinct_operation hc.respects h hw hd op hv hp⟩
  | between _ ha ih =>
    obtain ⟨h, hw, hd⟩ := ih
    have he := ha.evolves (fun _ hf => hf.elim) h
    have hs : Retains _ _ := fun _ => ha.same
    exact ⟨he.sound h, hw.same ha.same, hd.pruned h he (hs.prunes hw)⟩

/-- **Keys stay distinct.** Two live entries of a table never have keys that compare equal, unless constructors
come to two different dicts. -/
theorem keys_distinct {w₀ : World ε} (hb : w₀.Bare I) (hr : PlainRun I w₀ w) (host : Host ε) (t : TableId .any)
    {i j : Nat} {a b : Value} (hij : i ≠ j) (hi : (w.table t).keys[i]? = some a) (hj : (w.table t).keys[j]? = some b)
    (hm : ¬ w.ConstructorsMeet a b) : (equal host a b w).1 ≠ .ok true := by
  intro hequal
  obtain ⟨_, hw, hd⟩ := hr.distinct hb
  have hkeys : (w.table t).keys = (w.table t).storedKeys.map (·.2) := by
    rw [Table.keys_eq, Table.storedKeys, List.map_map]
    rfl
  rw [hkeys, List.getElem?_map, Option.map_eq_some_iff] at hi hj
  obtain ⟨r, hri, rfl⟩ := hi
  obtain ⟨s, hsj, rfl⟩ := hj
  obtain ⟨hlti, rfl⟩ := List.getElem?_eq_some_iff.1 hri
  obtain ⟨hltj, rfl⟩ := List.getElem?_eq_some_iff.1 hsj
  have hdiffer := List.pairwise_iff_getElem.1 (hd.differ t)
  obtain ⟨c, hc, hrc⟩ := hd.hashed t _ (List.getElem_mem hlti)
  obtain ⟨e, he, hse⟩ := hd.hashed t _ (List.getElem_mem hltj)
  have hplain : ((w.table t).storedKeys[i].2).Plain := by
    obtain ⟨q, hq, hqi⟩ := List.mem_map.1 (List.getElem_mem hlti)
    rw [← hqi]
    exact (hw.record t q hq).1
  have hverdict := (yields_equalWithin hw.region hplain id fullBudget).value hequal
  -- both keys have a hash, so that dicts could only meet by constructors
  have hmeets : ¬ w.Meets (w.table t).storedKeys[i].2 (w.table t).storedKeys[j].2 := fun h => hm (h.constructors hc)
  have hhash := hash_eq_of_verdict (fun t => hw.tables t) hverdict hc he
  rcases Nat.lt_or_gt_of_ne hij with hlt | hlt
  · have hback := hdiffer i j hlti hltj hlt (by rw [hrc, hse, hhash]) fun h => hmeets h.symm
    have := verdict_comm (fun t => hw.tables t) hmeets hverdict hback
    cases this
  · have hback := hdiffer j i hltj hlti hlt (by rw [hrc, hse, hhash]) hmeets
    rw [hback] at hverdict
    cases hverdict

/-! ## Constructors that become equal -/

/-- The operations may be done one after the other, and none is given a value of the host. -/
def PlainInTurn (w : World ε) : List Operation → Prop
  | [] => True
  | op :: ops => op.Valid w ∧ op.Plain ∧ PlainInTurn (op.run mute w).2 ops

theorem PlainRun.inTurn : ∀ {ops : List Operation} {v : World ε}, PlainRun I w v → PlainInTurn v ops →
    PlainRun I w (inTurn ops v)
  | [], _, hr, _ => hr
  | op :: _, _, hr, ⟨hv, hp, hrest⟩ => (hr.call mute op mute_civil hv hp).inTurn hrest

instance plainInTurnDecidable : (ops : List Operation) → (w : World ε) → Decidable (PlainInTurn w ops)
  | [], _ => .isTrue trivial
  | op :: ops, w =>
    have := plainInTurnDecidable ops (op.run mute w).2
    inferInstanceAs (Decidable (op.Valid w ∧ op.Plain ∧ PlainInTurn (op.run mute w).2 ops))

/-- Where they lead from the state that a program starts in. -/
theorem reachable_inTurn {e : ε} {ops : List Operation} (h : PlainInTurn (.unused e) ops) :
    Reachable .nothing (inTurn ops (.unused e)) ∧ (inTurn ops (.unused e)).Plain := by
  have hrun : PlainRun .nothing (.unused e) (inTurn ops (.unused e)) := PlainRun.start.inTurn h
  exact ⟨hrun.reachable (bare_unused e), (hrun.distinct (bare_unused e)).2.1⟩

/-- A struct with one field. -/
def oneField (ctor : Value) : Operation := .createStruct ctor [(ascii "a", .int 1)]

/-- Three structs of the same fields are made keys of a table. Their constructors are an empty dict, a dict with
an item and a string. Then the second dict is cleared. -/
def keyedThenCleared : List Operation :=
  [.newDict 0, .newDict 0, @Operation.insert .any ⟨1⟩ (.int 1) (.int 1), oneField (.dict ⟨0⟩), oneField (.dict ⟨1⟩),
    oneField (.str (ascii "a")), .newTable .any 0, @Operation.insert .any ⟨2⟩ (.struct ⟨0⟩) (.int 1),
    @Operation.insert .any ⟨2⟩ (.struct ⟨1⟩) (.int 2), @Operation.insert .any ⟨2⟩ (.struct ⟨2⟩) (.int 3),
    @Operation.clear .any ⟨1⟩]

/-- The world after that. -/
def clearedWorld : World (Option (TableId .any)) := inTurn keyedThenCleared untouched

theorem plainRun_clearedWorld : PlainRun oneTable untouched clearedWorld := PlainRun.start.inTurn (by decide +kernel)

/-- The struct with the string is as different from the others as when it was inserted. -/
theorem keys_distinct_cleared :
    (@World.table _ clearedWorld .any ⟨2⟩).keys = [.struct ⟨0⟩, .struct ⟨1⟩, .struct ⟨2⟩] ∧
    (equal mute (.struct ⟨1⟩) (.struct ⟨2⟩) clearedWorld).1 ≠ .ok true := by
  have hkeys : (@World.table _ clearedWorld .any ⟨2⟩).keys = [.struct ⟨0⟩, .struct ⟨1⟩, .struct ⟨2⟩] := by
    decide +kernel
  refine ⟨hkeys, @keys_distinct _ oneTable _ _ bare_untouched plainRun_clearedWorld mute ⟨2⟩ 1 2 _ _ (by decide)
    (by rw [hkeys]; rfl) (by rw [hkeys]; rfl) ?_⟩
  intro hm
  have hfirst : (clearedWorld.struct ⟨1⟩).ctor = .dict ⟨1⟩ := by decide +kernel
  have hsecond : (clearedWorld.struct ⟨2⟩).ctor = .str (ascii "a") := by decide +kernel
  have hfields : (clearedWorld.table (clearedWorld.struct ⟨1⟩).fields).items.zip
      (clearedWorld.table (clearedWorld.struct ⟨2⟩).fields).items = [((ascii "a", .int 1), (ascii "a", .int 1))] := by
    decide +kernel
  cases hm with
  | here hm =>
    rw [hfirst, hsecond] at hm
    cases hm
  | fields hz hm =>
    rw [hfields, List.mem_singleton] at hz
    cases hz
    cases hm

/-- Without that condition keys may come to be equal. -/
theorem keys_may_become_equal :
    PlainRun oneTable untouched clearedWorld ∧ untouched.Bare oneTable ∧
    (@World.table _ clearedWorld .any ⟨2⟩).keys = [.struct ⟨0⟩, .struct ⟨1⟩, .struct ⟨2⟩] ∧
    (equal mute (.struct ⟨0⟩) (.struct ⟨1⟩) clearedWorld).1 = .ok true :=
  ⟨plainRun_clearedWorld, bare_untouched, by decide +kernel, by decide +kernel⟩

end ValueCore
