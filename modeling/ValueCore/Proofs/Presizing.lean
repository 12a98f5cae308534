import Mathlib.Order.Bounds.Basic
import ValueCore.Proofs.Operations.Building
import ValueCore.Proofs.Operations.Filling
import ValueCore.Proofs.Operations.Sizing
import ValueCore.Proofs.Peaks

/-!
# Tables that were sized beforehand

A table that is sized for `n` entries gets the least power of two of chains that is not too few for them. As a table grows
only when it has too many entries already, this one does not grow before it has more than `n`
(`presized_table_keeps_its_chains`). It does not matter what is done with it meanwhile, how keys are hashed, or what fails.

Hashing and comparing keys may come back to the table. So what is asked is that it has no more than `n` entries after each
operation, whether the program attempts it or a value of the program that is being asked (`Fills`, `Sober`). In between it has
no more either: an operation adds an entry with the last thing that it does. A host that would put in one more may be taken
for one that fails instead, as the two answer alike in a run in which the table never has more.
-/

namespace ValueCore

open World

variable {ε α : Type} {I : Inventory ε} {w w' u v : World ε} {kind k : KeyKind} {t : TableId kind} {host : Host ε}
  {n heads : Nat}

/-! ## How many chains -/

/-- The limit is 6.5 entries for each of the chains that there can be. -/
theorem overloaded_maxHeads (count : Nat) : overloaded count maxHeads = false ↔ 2 * count < 13 * 2 ^ 24 := by
  have hmax : maxHeads = 2 ^ 24 := rfl
  simp only [overloaded, Bool.and_eq_false_iff, decide_eq_false_iff_not]
  omega

/-- The doubling stops at the first number of chains that will do. -/
theorem headsFrom_least {hint heads : Nat} : ∀ {fuel start : Nat}, headsFrom hint fuel start = some heads →
    ∀ j, overloaded hint (2 ^ j * start) = false → heads ≤ 2 ^ j * start
  | 0, start, h, j, _ => by
    unfold headsFrom at h
    split at h
    · cases h
    · cases h
      exact Nat.le_mul_of_pos_left _ (Nat.two_pow_pos j)
  | fuel + 1, start, h, j, hj => by
    unfold headsFrom at h
    split at h
    · rename_i hstart
      cases j with
      | zero =>
        rw [Nat.pow_zero, Nat.one_mul, hstart] at hj
        cases hj
      | succ j =>
        have heq : 2 ^ (j + 1) * start = 2 ^ j * (2 * start) := by rw [Nat.pow_succ, Nat.mul_assoc]
        rw [heq] at hj ⊢
        exact headsFrom_least h j hj
    · cases h
      exact Nat.le_mul_of_pos_left _ (Nat.two_pow_pos j)

/-- The powers of two of chains that are not too few for `count` entries. -/
def Suffices (count heads : Nat) : Prop := (∃ j, heads = 2 ^ j) ∧ overloaded count heads = false

theorem headsFor_least {hint heads : Nat} (h : headsFor hint = some heads) : IsLeast {k | Suffices hint k} heads := by
  obtain ⟨j, _, hj⟩ := Table.headsFor_pow h
  refine ⟨⟨⟨j, hj⟩, (headsFor_fits h).1⟩, ?_⟩
  rintro _ ⟨⟨i, rfl⟩, hi⟩
  have hle := headsFrom_least h i (by rwa [Nat.mul_one])
  rwa [Nat.mul_one] at hle

/-- The limit admits as many entries as the greatest number of chains takes. -/
theorem headsFor_isSome (hint : Nat) : (headsFor hint).isSome ↔ 2 * hint < 13 * 2 ^ 24 := by
  rw [← overloaded_maxHeads]
  constructor
  · intro h
    obtain ⟨heads, hh⟩ := Option.isSome_iff_exists.1 h
    obtain ⟨ho, hle⟩ := headsFor_fits hh
    exact overloaded_of_le hle ho
  · intro ho
    obtain ⟨heads, hh⟩ := headsFor_of_fits ho
    rw [hh]
    rfl

/-! ## Sizing -/

/-- Sizing for `hint` entries fails if the limit does not admit so many, and otherwise only if memory is refused. -/
structure World.Sizes (w : World ε) (hint : Nat) (act : Run ε α) : Prop where
  accepts : 2 * hint < 13 * 2 ^ 24 → w.Spends act
  rejects : ¬ 2 * hint < 13 * 2 ^ 24 →
    act w = (.error (.raised .memory), { w with message := Fault.tableOverflow.message })

/-- What begins with choosing the chains. -/
theorem sizes_of_chosen {hint : UInt32} {f : Nat → Run ε α}
    (hf : ∀ heads, headsFor hint.toNat = some heads → w.Spends (f heads)) : w.Sizes hint.toNat (chooseHeads hint >>= f) := by
  refine ⟨fun hlt => ?_, fun hlt => ?_⟩
  · obtain ⟨heads, h⟩ := Option.isSome_iff_exists.1 ((headsFor_isSome _).2 hlt)
    exact .read (run_chooseHeads_some h w) (hf heads h)
  · have h : headsFor hint.toNat = none := Option.not_isSome_iff_eq_none.1 fun hs => hlt ((headsFor_isSome _).1 hs)
    exact run_bind_error (run_chooseHeads_none h w) f

theorem newTable_sizes (kind : KeyKind) (hint : UInt32) (w : World ε) : w.Sizes hint.toNat (newTable kind hint) :=
  sizes_of_chosen fun _ h => (spends_allocateHeads h).bind fun block v _ =>
    .of_ok (run_modifyGet _ v) (by cases kind <;> rfl)

theorem resizeTable_sizes (t : TableId kind) (hint : UInt32) (w : World ε) : w.Sizes hint.toNat (resizeTable t hint) :=
  sizes_of_chosen fun heads h => (spends_allocateHeads h).bind fun block v _ => .read (run_readTable t v) <|
    .bind ⟨Memory.later_releaseOption _ _, fun _ he => by cases he⟩ fun _ u _ =>
      .of_ok (run_updateTable t _ u) (memory_modifyTable t _)

/-! ## A table that has as many entries as it was sized for -/

/-- The table is there, has at most `n` entries, and has these chains. -/
structure World.Presized (w : World ε) (t : TableId kind) (n heads : Nat) : Prop where
  has : w.Has t
  length : (w.table t).length ≤ n
  heads : (w.table t).heads = heads

namespace World.Presized

theorem alike (h : w.Presized t n heads) (ha : Alike w v) : v.Presized t n heads :=
  ⟨ha.has_iff.2 h.has, ha.table t ▸ h.length, ha.table t ▸ h.heads⟩

theorem same (h : w.Presized t n heads) (hin : Within w v) (hs : Table.SameStore (w.table t) (v.table t)) :
    v.Presized t n heads := by
  refine ⟨hin.has t h.has, ?_, ?_⟩
  · rw [hs]
    exact h.length
  · rw [hs]
    exact h.heads

/-- A write that leaves the chains as many, and that leaves no more than `n` entries if it is to the table. -/
theorem modifyTable (h : w.Presized t n heads) {d : TableId k} (hd : w.Has d) {f : Table k.Key → Table k.Key}
    (hheads : (f (w.table d)).heads = (w.table d).heads)
    (hlength : (⟨k, d⟩ : TableRef) = ⟨kind, t⟩ → (f (w.table d)).length ≤ n) : (w.modifyTable d f).Presized t n heads := by
  by_cases hdt : (⟨k, d⟩ : TableRef) = ⟨kind, t⟩
  · have hlength := hlength hdt
    cases hdt
    have heq := table_modifyTable t f hd
    exact ⟨(has_modifyTable t f t).2 hd, heq ▸ hlength, heq ▸ hheads.trans h.heads⟩
  · have heq := table_modifyTable_of_ne (w := w) f (Ne.symm hdt)
    exact ⟨(has_modifyTable d f t).2 h.has, heq ▸ h.length, heq ▸ h.heads⟩

/-- Whatever becomes of another table. -/
theorem modify_other (h : w.Presized t n heads) {d : TableId k} (hdt : (⟨k, d⟩ : TableRef) ≠ ⟨kind, t⟩)
    (f : Table k.Key → Table k.Key) : (w.modifyTable d f).Presized t n heads := by
  have heq := table_modifyTable_of_ne (w := w) f (Ne.symm hdt)
  exact ⟨(has_modifyTable d f t).2 h.has, heq ▸ h.length, heq ▸ h.heads⟩

/-- More tables may be made. -/
theorem addTable (h : w.Presized t n heads) (k : KeyKind) (T : Table k.Key) : (w.addTable k T).2.Presized t n heads := by
  have hne : (⟨kind, t⟩ : TableRef) ≠ ⟨k, (w.addTable k T).1⟩ := fun heq => by
    have hhas := h.has
    cases heq
    exact not_has_addTable kind T hhas
  have heq := table_addTable_of_ne k T t hne
  exact ⟨has_addTable k T t h.has, heq ▸ h.length, heq ▸ h.heads⟩

end World.Presized

/-- From the one world to the other goes a run of steps, after which the table has as many entries as it was sized for, and
the same number of chains, if it had so before. -/
structure World.Stays (I : Inventory ε) (t : TableId kind) (n heads : Nat) (w v : World ε) : Prop where
  evolves : Evolves I 0 w v
  presized : w.Presized t n heads → v.Presized t n heads

instance : BySteps I (Stays I t n heads) where
  outside h := ⟨.step (.outside h), fun hp => hp.alike h⟩
  trans h h' := ⟨h.evolves.trans h'.evolves, fun hp => h'.presized (h.presized hp)⟩
  bracket {w w' _} d hd hf h := by
    have hheld := within_modifyTable (w := w) d fun T => { T with holds := T.holds + 1 }
    have hlet := within_modifyTable (w := w') d fun T => { T with holds := T.holds - 1 }
    have hd' : w'.Has d := h.evolves.within.has d ((has_modifyTable d _ d).2 hd)
    exact ⟨.bracket d hd hf h.evolves, fun hp =>
      (h.presized (hp.same hheld (same_held d hd t))).same hlet (same_letGo d hd' t)⟩
  evolves _ h := h.evolves

instance : Building I (Stays I t n heads) where
  same hp h := ⟨Evolves.le hp (Nat.zero_le _), fun hs => hs.same (Evolves.within hp) (h.tables t)⟩
  filled {w ctor} hint {fields} h hctor hown _ := by
    have he : Evolves I 0 w (filledStruct ctor hint fields w).2 :=
      (filledStruct_along (R := Evolves I 0) h (Nat.zero_le _) hctor hint hown).ends
    refine ⟨he, fun hp => ?_⟩
    rcases filledStruct_leaves ctor hint fields w with hv | ⟨s, done, _, hadds⟩
    · exact hp.alike hv
    · generalize (filledStruct ctor hint fields w).2 = v at he hadds ⊢
      -- the table is not that of the new struct, which was not there before
      have hne : (⟨kind, t⟩ : TableRef) ≠ ⟨.text, (v.struct s).fields⟩ := fun heq => by
        have hhas := hp.has
        cases heq
        exact he.within.fresh s (Nat.le_of_eq hadds.index.symm) (by rw [hadds.index, hadds.size]; omega) hhas
      exact hp.same he.within (hadds.table t hne ▸ .refl _)

/-! ## Operations -/

section
variable {d : TableId k} {keying : Keying ε k.Key} {key : k.Key} {value : Value} {hash : UInt32}

/-- The scans of an insertion leave the table as many chains. It does not grow, as it is not overloaded. -/
theorem steady_stays (hover : overloaded n heads = false) (hr : keying.Respects I) (hf : keying.Follows I (Stays I t n heads))
    (hash : UInt32) (h : w.Sound I) (hd : w.Has d) (hkey : w.OwnsKey key) :
    Steady keying d key hash fun u => Evolves I 0 w u ∧ u.Presized t n heads := by
  have hJ := steady_respects hr hash h hd hkey
  refine ⟨fun hu => hJ.sound hu.1, fun hu => hJ.has hu.1, fun {u} hu => ⟨hJ.scan hu.1, ?_⟩, fun hu => hJ.watched hu.1,
    fun hu hs => hJ.found hu.1 hs, fun hu ha => ⟨hJ.alike hu.1 ha, hu.2.alike ha⟩,
    fun {u} block hu hfrozen hz ho hmax => ⟨hJ.grown block hu.1 hfrozen hz ho hmax, ?_⟩⟩
  · have hin := hu.1.within
    exact (scan_along hf hash (hu.1.sound h) (hin.has d hd) (hin.ownsKey hkey)).ends.presized hu.2
  · by_cases hdt : (⟨k, d⟩ : TableRef) = ⟨kind, t⟩
    · cases hdt
      rw [hu.2.heads, overloaded_mono hu.2.length hover] at ho
      cases ho
    · exact hu.2.modify_other hdt _

/-- Nor does its conclusion, if the table has no more entries than it was sized for when it is over. -/
theorem Concludes.presized (hhash : hash ≠ 0) {J : World ε → Prop} (hJ : Steady keying d key hash J)
    (hp : ∀ {u}, J u → u.Presized t n heads) (hj : J w) {r : Except Failure Unit × World ε}
    (hc : Concludes keying d key value hash w r) (hn : (⟨k, d⟩ : TableRef) = ⟨kind, t⟩ → (r.2.table d).length ≤ n) :
    r.2.Presized t n heads := by
  have hscan : ∀ {y : World ε}, (scan keying d key hash w).2 = y → J y := fun hy => hy ▸ hJ.scan hj
  cases hc with
  | failed hs => exact hp (hscan (congrArg Prod.snd hs))
  | frozen hs _ => exact (hp (hscan (congrArg Prod.snd hs))).alike ⟨rfl, rfl, rfl, rfl⟩
  | held hs _ _ => exact (hp (hscan (congrArg Prod.snd hs))).alike ⟨rfl, rfl, rfl, rfl⟩
  | refused hs _ _ ha _ => exact (hp (hscan (congrArg Prod.snd hs))).alike ha
  | @overwrites i v hs _ _ _ =>
    have hv := hscan (congrArg Prod.snd hs)
    refine (hp hv).modifyTable (hJ.has hv) rfl fun hdt => ?_
    cases hdt
    exact (hp hv).length
  | @appends v u d' hs _ _ _ ha hplaced =>
    have hv := hscan (congrArg Prod.snd hs)
    have hd : u.Has d := ha.has_iff.2 (hJ.has hv)
    refine ((hp hv).alike ha).modifyTable hd ?_ fun hdt => ?_
    · rw [ha.table d]
      exact (hplaced.writtenOnce (hJ.sound hv) hhash).heads_eq
    · have hn := hn hdt
      rwa [table_modifyTable d _ hd] at hn

/-- **An insertion after which the table has no more entries than it was sized for leaves it as many chains.** -/
theorem insert_stays (hover : overloaded n heads = false) (hr : keying.Respects I) (hf : keying.Follows I (Stays I t n heads))
    (h : w.Sound I) (hd : w.Has d) (hkey : w.OwnsKey key) (hvalue : w.Owns value)
    (hn : (⟨k, d⟩ : TableRef) = ⟨kind, t⟩ → ((insert keying d key value w).2.table d).length ≤ n) :
    Along (Stays I t n heads) w (insert keying d key value) fun _ _ => True := by
  refine insert_along_of hf h hkey fun {hash v} hv _ hrun => ?_
  rw [hrun] at hn
  have hin := hv.evolves.within
  have hs := hv.evolves.sound h
  have hd' := hin.has d hd
  have hkey' := hin.ownsKey hkey
  have he := (insertHashed_along (hr.spares 0) (storedHash_ne_zero hash) 26 hs hd' not_sealed_zero hkey'
    (hin.owns hvalue)).upTo (Nat.zero_le _)
  refine ⟨he.ends, fun hp => ?_⟩
  have hJ := steady_stays hover hr hf (storedHash hash) hs hd' hkey'
  obtain ⟨x, _, hx, _, hconcludes⟩ := insertHashed_ends hJ value ⟨.refl, hp⟩
  exact hconcludes.presized (storedHash_ne_zero hash) hJ (fun hu => hu.2) hx hn

/-- A removal takes an entry out at most. -/
theorem erase_stays (hf : keying.Follows I (Stays I t n heads)) (h : w.Sound I) (hd : w.Has d) (hkey : w.OwnsKey key) :
    Along (Stays I t n heads) w (erase keying d key) fun _ _ => True := by
  refine erase_along_of hf h hd hkey fun {v i} hv hfrozen hz hi => ?_
  have hs := hv.evolves.sound h
  have hfree := free_of_checked hd not_sealed_zero hv.evolves.within hfrozen hz
  refine ⟨.step (remove_work hs hfree hi).step, fun hp => ?_⟩
  refine hp.modifyTable hfree.has (Table.remove_frame i).1 fun hdt => ?_
  cases hdt
  obtain ⟨e, he⟩ := (hs.tables t).slot_of_mem hi
  have hlength := hp.length
  rw [(Table.remove_ends he).2.2]
  omega

theorem clear_stays (h : w.Sound I) (hd : w.Has d) : Along (Stays I t n heads) w (clear d) fun _ _ => True := by
  refine clear_along_of fun hfrozen hz => ⟨.step (clear_work h ⟨hd, not_sealed_zero, hfrozen, hz⟩).step, fun hp => ?_⟩
  exact hp.modifyTable hd rfl fun _ => Nat.zero_le n

/-- Another table may be sized. -/
theorem resizeTable_stays (hint : UInt32) (hd : w.Has d) (hlen : (w.table d).length = 0) (hz : (w.table d).holds = 0)
    (hdt : (⟨k, d⟩ : TableRef) ≠ ⟨kind, t⟩) : Along (Stays I t n heads) w (resizeTable d hint) fun _ _ => True := by
  refine .answer ⟨(resizeTable_along (R := Evolves I 0) hint hd not_sealed_zero hlen hz).ends, fun hp => ?_⟩
  rcases run_resizeTable d hint w with ⟨v, hv, hr⟩ | ⟨v, heads', block, hv, _, hr⟩
  · rw [hr]
    exact hp.alike hv
  · rw [hr]
    exact (hp.alike hv).modify_other hdt _

theorem newTable_stays (k : KeyKind) (hint : UInt32) : Along (Stays I t n heads) w (newTable k hint) fun _ _ => True := by
  refine .answer ⟨(newTable_along (R := Evolves I 0) k hint).ends, fun hp => ?_⟩
  rcases run_newTable k hint w with ⟨v, hv, hr⟩ | ⟨v, heads', block, hv, _, hr⟩
  · rw [hr]
    exact hp.alike hv
  · rw [hr]
    exact (hp.alike hv).addTable k _

end

/-- The entries of a struct may be put into another dict. -/
theorem structIntoDict_stays (hover : overloaded n heads = false) (hr : host.Respects I)
    (hf : host.Follows I (Stays I t n heads)) (h : w.Sound I) (s : StructId) {d : TableId .any} (hd : w.Has d)
    (hdt : (⟨.any, d⟩ : TableRef) ≠ ⟨kind, t⟩) : Along (Stays I t n heads) w (structIntoDict host s d) fun _ _ => True :=
  structIntoDict_along_of h hd fun _ hs hd hvalue =>
    insert_stays hover (valueKeying_respects hr) (valueKeying_follows hf) hs hd True.intro hvalue fun heq => absurd heq hdt

/-- The operation does not size the table, and does not fill it with many entries at once. -/
def Operation.Piecemeal (t : TableId kind) : Operation → Prop
  | @resize k d _ => (⟨k, d⟩ : TableRef) ≠ ⟨kind, t⟩
  | .intoDict _ d => (⟨.any, d⟩ : TableRef) ≠ ⟨kind, t⟩
  | _ => True

/-- **Every operation after which the table has no more entries than it was sized for leaves it as many chains.** -/
theorem Operation.stays (hover : overloaded n heads = false) (hr : host.Respects I)
    (hf : host.Follows I (Stays I t n heads)) (hz : host.Freezes I (Stays I t n heads)) (h : w.Sound I) (op : Operation)
    (hv : op.Valid w) (hp : op.Piecemeal t) (hn : ((op.run host w).2.table t).length ≤ n) :
    Stays I t n heads w (op.run host w).2 := by
  by_cases hc : op.Changes
  · cases op with
    | newTable k hint => exact (newTable_stays k hint).discard
    | newDict hint => exact (Along.newObject (Q := fun _ _ => True) fun v _ => newTable_stays .any hint).discard
    | resize d hint => exact (resizeTable_stays hint hv.1.1 hv.2.1 hv.2.2 hp).ends
    | @insert k d key value =>
      refine (insert_stays hover (keyingOf_respects hr k) (keyingOf_follows hf k) h hv.1.1 hv.2.1 hv.2.2 fun hdt => ?_).ends
      cases hdt
      exact hn
    | erase d key => exact (erase_stays (keyingOf_follows hf _) h hv.1.1 hv.2).discard
    | clear d => exact (clear_stays h hv.1).ends
    | createStruct ctor fields => exact (createStruct_builds h hv.1 hv.2).discard
    | makeStruct positional fields => exact (makeStruct_builds h positional hv).discard
    | mergeStructs x y => exact (mergeStructs_builds hf h hv.1 hv.2).discard
    | intoDict s d => exact (structIntoDict_stays hover hr hf h s hv.2 hp).ends
    | _ => exact hc.elim
  · exact op.along hf h hv hc (op.freezes_along hz h hv)

/-! ## Programs and hosts -/

/-- What is attempted when the table is not sized again, and has at most `n` entries after each operation. -/
inductive Fills (I : Inventory ε) (t : TableId kind) (n : Nat) (hosts : Host ε → Prop) (w : World ε) : World ε → Prop
  | refl : Fills I t n hosts w w
  | call {v : World ε} (host : Host ε) (op : Operation) : Fills I t n hosts w v → hosts host → op.Valid v →
    op.Piecemeal t → ((op.run host v).2.table t).length ≤ n → Fills I t n hosts w (op.run host v).2
  | outside {v v' : World ε} : Fills I t n hosts w v → Alike v v' → Fills I t n hosts w v'
  | aside {v : World ε} (e : ε) : Fills I t n hosts w v → I.cursors e = I.cursors v.env → v.Keeps I e →
    Fills I t n hosts w { v with env := e }
  | start {v v' : World ε} {k : KeyKind} (d : TableId k) (c : Cursor k) (e : ε) : Fills I t n hosts w v →
    v.Has d → Cursor.start d v = (.ok c, v') →
    I.cursors e = (if c.holding then plus (I.cursors v.env) ⟨k, d⟩ else I.cursors v.env) → v.Keeps I e →
    Fills I t n hosts w { v' with env := e }
  | finish {v : World ε} {k : KeyKind} (c : Cursor k) (e : ε) : Fills I t n hosts w v →
    I.cursors v.env = (if c.holding then plus (I.cursors e) ⟨k, c.table⟩ else I.cursors e) → v.Keeps I e →
    Fills I t n hosts w { (c.finish v).2 with env := e }

/-- A civil host that puts no more than `n` entries into the table when it is asked while there are no more. -/
inductive Sober (I : Inventory ε) (t : TableId kind) (n : Nat) : Host ε → Prop
  | intro {host : Host ε} (inner : Host ε → Prop) : Civil I host → (∀ h, inner h → Sober I t n h) →
    (∀ w i, w.Sound I → w.Has t → (w.table t).length ≤ n → Fills I t n inner w (host.display i w).2) →
    (∀ w i, w.Sound I → w.Has t → (w.table t).length ≤ n → Fills I t n inner w (host.hash i w).2) →
    (∀ w a b depth, w.Sound I → w.Has t → (w.table t).length ≤ n → Fills I t n inner w (host.equal a b depth w).2) →
    (∀ w i, w.Sound I → w.Has t → (w.table t).length ≤ n → Fills I t n inner w (host.freeze i w).2) → Sober I t n host

theorem Sober.civil (hs : Sober I t n host) : Civil I host := by
  cases hs with
  | intro _ hc => exact hc

/-- **What is attempted leaves the table as many chains**, if operations do. -/
theorem Fills.stays (hover : overloaded n heads = false) {hosts : Host ε → Prop}
    (hh : ∀ host, hosts host → host.Respects I ∧ host.Follows I (Stays I t n heads) ∧ host.Freezes I (Stays I t n heads))
    (h : w.Sound I) (hf : Fills I t n hosts w v) : Stays I t n heads w v := by
  -- what needs no operation is something that may be attempted without any host
  have hidle : ∀ {v v' : World ε}, Stays I t n heads w v → Attempts I (fun _ => False) v v' → Stays I t n heads w v' :=
    fun hs ha => Course.trans hs (ha.builds (fun _ hf => hf.elim) (hs.evolves.sound h))
  induction hf with
  | refl => exact Course.outside (.refl w)
  | call host op _ hin hv hp hn ih =>
    obtain ⟨hr, hf, hz⟩ := hh host hin
    exact Course.trans ih (op.stays hover hr hf hz (ih.evolves.sound h) hv hp hn)
  | outside _ hv ih => exact Course.trans ih (Course.outside hv)
  | aside e _ he hk ih => exact hidle ih (.aside e .refl he hk)
  | start d c e _ hd hc he hk ih => exact hidle ih (.start d c e .refl hd hc he hk)
  | finish c e _ he hk ih => exact hidle ih (.finish c e .refl he hk)

/-- **So does what a sober host does when it is asked.** The induction is on how deep calls nest. -/
theorem Sober.stays (hover : overloaded n heads = false) (hs : Sober I t n host) :
    host.Respects I ∧ host.Follows I (Stays I t n heads) ∧ host.Freezes I (Stays I t n heads) := by
  induction hs with
  | intro inner hcivil _ hdisplay hhash hequal hfreeze ih =>
    have hr := hcivil.respects
    have hanswer : ∀ {w v : World ε}, w.Sound I → Evolves I 0 w v →
        (w.Has t → (w.table t).length ≤ n → Fills I t n inner w v) → Stays I t n heads w v := fun h he hf =>
      ⟨he, fun hp => ((hf hp.has hp.length).stays hover ih h).presized hp⟩
    refine ⟨hr, ⟨fun i h => ?_, fun i h => ?_, fun a b depth h => ?_⟩, ⟨fun i h => ?_, fun d _ hd => ?_⟩⟩
    · exact hanswer h (hr.display i h (Nat.zero_le _)) (hdisplay _ i h)
    · exact hanswer h (hr.hash i h (Nat.zero_le _)) (hhash _ i h)
    · exact hanswer h (hr.equal a b depth h (Nat.zero_le _)) (hequal _ a b depth h)
    · exact hanswer h (hr.freeze i h (Nat.zero_le _)) (hfreeze _ i h)
    · exact Building.same (.step (.freeze d hd)) (.flags d (fun T => { T with frozen := true }) fun _ => .flags _ _ _)

/-! ## No growth -/

/-- A table has just been sized for `hint` entries: it was made for them, or sized when it was empty and not held. -/
inductive World.SizedFor (w : World ε) (hint : UInt32) {kind : KeyKind} (t : TableId kind) (u : World ε) : Prop
  | made : newTable kind hint w = (.ok t, u) → SizedFor w hint t u
  | sized : w.Has t → (w.table t).length = 0 → (w.table t).holds = 0 → resizeTable t hint w = (.ok (), u) →
    SizedFor w hint t u

/-- A table that has just been sized has the chains that were chosen for its entries. -/
theorem World.SizedFor.presized {hint : UInt32} (hs : w.SizedFor hint t u) :
    ∃ heads, headsFor hint.toNat = some heads ∧ u.Presized t hint.toNat heads := by
  cases hs with
  | made hr =>
    have hlt : (headsFor hint.toNat).isSome := by
      cases hh : headsFor hint.toNat with
      | some heads => rfl
      | none =>
        rw [newTable, run_bind_error (run_chooseHeads_none hh w)] at hr
        cases hr
    obtain ⟨heads, hh⟩ := Option.isSome_iff_exists.1 hlt
    obtain ⟨v, block, hv⟩ := (spends_newTable hh).2 t u hr
    obtain rfl : t = (v.addTable kind (.withStorage heads heads block)).1 := congrArg Prod.fst hv
    obtain rfl : u = (v.addTable kind (.withStorage heads heads block)).2 := congrArg Prod.snd hv
    have htable := table_addTable_self (w := v) kind (.withStorage heads heads block)
    refine ⟨heads, hh, has_addTable_self kind _, ?_, ?_⟩
    · rw [htable]
      exact Nat.zero_le _
    · rw [htable]
      rfl
  | sized ht hlen _ hr =>
    rcases run_resizeTable t hint w with ⟨v, _, he⟩ | ⟨v, heads, block, hv, hh, he⟩
    · rw [he] at hr
      cases hr
    · rw [he] at hr
      cases hr
      have htable := table_modifyTable t (·.resized heads block) (hv.has_iff.2 ht)
      refine ⟨heads, hh, (has_modifyTable t _ t).2 (hv.has_iff.2 ht), ?_, by rw [htable]; rfl⟩
      rw [htable]
      show (v.table t).length ≤ _
      rw [hv.table t, hlen]
      exact Nat.zero_le _

/-- **A table that was sized beforehand does not grow.** -/
theorem presized_table_keeps_its_chains (hw : Midway I w) (hint : UInt32) :
    (∀ kind, w.Sizes hint.toNat (newTable kind hint)) ∧
    (∀ {kind : KeyKind} (t : TableId kind), w.Sizes hint.toNat (resizeTable t hint)) ∧
    ∀ {kind : KeyKind} (t : TableId kind) (u : World ε), w.SizedFor hint t u →
      IsLeast {heads | (∃ j, heads = 2 ^ j) ∧ overloaded hint.toNat heads = false} (u.table t).heads ∧
      ∀ v, Fills I t hint.toNat (Sober I t hint.toNat) u v → (v.table t).heads = (u.table t).heads := by
  refine ⟨fun kind => newTable_sizes kind hint w, fun t => resizeTable_sizes t hint w, fun {kind} t u hs => ?_⟩
  obtain ⟨heads, hh, hp⟩ := hs.presized
  refine ⟨hp.heads ▸ headsFor_least hh, fun v hv => ?_⟩
  have hsound : u.Sound I := by
    have h := hw.sound
    cases hs with
    | made hr =>
      have he := (newTable_along (R := Evolves I 0) (w := w) kind hint).ends
      rw [hr] at he
      exact he.sound h
    | sized ht hlen hz hr =>
      have he := (resizeTable_along (R := Evolves I 0) hint ht not_sealed_zero hlen hz).ends
      rw [hr] at he
      exact he.sound h
  have hstays := hv.stays (headsFor_fits hh).1 (fun _ hs => hs.stays (headsFor_fits hh).1) hsound
  rw [hp.heads, (hstays.presized hp).heads]

/-- A host that clears the table it keeps in mind whenever it is asked for a hash. -/
def sweeper : Host (Option (TableId .any)) where
  typeName _ _ := ascii "sweeper"
  sameClass _ _ _ := true
  display _ := pure (ascii "sweeper")
  hash _ := fun w => (.ok 7, w.env.elim w fun t => ((Operation.clear t).run mute w).2)
  equal a b _ := pure (a == b)
  freeze _ := pure ()

theorem sweeper_civil : Civil oneTable sweeper := by
  refine .intro (· = mute) (fun _ h => h ▸ mute_civil) (fun _ _ _ => .refl) (fun w i h => ?_) (fun _ _ _ _ _ => .refl)
    fun _ _ _ => .refl
  show Attempts _ _ w (w.env.elim w fun t => ((Operation.clear t).run mute w).2)
  cases he : w.env with
  | none => exact .refl
  | some d => exact .call mute (.clear d) .refl rfl (h.kept.tables ⟨.any, d⟩ (by simp [oneTable, he]))

theorem mute_sober : Sober I t n mute :=
  .intro (fun _ => False) mute_civil (fun _ h => h.elim) (fun _ _ _ _ _ => .refl) (fun _ _ _ _ _ => .refl)
    (fun _ _ _ _ _ _ _ => .refl) fun _ _ _ _ _ => .refl

theorem sweeper_sober {t : TableId kind} : Sober oneTable t n sweeper := by
  refine .intro (· = mute) sweeper_civil (fun _ h => h ▸ mute_sober) (fun _ _ _ _ _ => .refl) (fun w i h ht hn => ?_)
    (fun _ _ _ _ _ _ _ => .refl) fun _ _ _ _ _ => .refl
  show Fills _ t n _ w (w.env.elim w fun t => ((Operation.clear t).run mute w).2)
  cases he : w.env with
  | none => exact .refl
  | some d =>
    have hd : w.Open d := h.kept.tables ⟨.any, d⟩ (by simp [oneTable, he])
    have hp : w.Presized t n (w.table t).heads := ⟨ht, hn, rfl⟩
    exact .call mute (.clear d) .refl rfl hd True.intro ((clear_stays h hd.1).ends.presized hp).length

/-- A table sized for nine entries, which the host keeps in mind. -/
def sizedForNine : World (Option (TableId .any)) := (newTable .any 9 untouched).2

/-- Nine entries, all on one of the two chains. -/
def nineEvens : List Operation := (List.range 9).map fun i => @Operation.insert .any ⟨0⟩ (.int (.ofNat (2 * i))) .none

def filledWithNine : World (Option (TableId .any)) := inTurn nineEvens { sizedForNine with env := some ⟨0⟩ }

/-- The tenth entry has a key of the host, which clears the table while it is hashed. -/
def sweptAndFilled : World (Option (TableId .any)) :=
  ((@Operation.insert .any ⟨0⟩ (.host ⟨0⟩) .none).run sweeper filledWithNine).2

theorem Fills.inTurn {hosts : Host ε → Prop} (hm : hosts mute) : ∀ {ops : List Operation} {v : World ε},
    Fills I t n hosts w v → ValidInTurn v ops → (∀ op ∈ ops, op.Piecemeal t) →
    (∀ i < ops.length, ((ValueCore.inTurn (ops.take (i + 1)) v).table t).length ≤ n) →
    Fills I t n hosts w (ValueCore.inTurn ops v)
  | [], _, hf, _, _, _ => hf
  | op :: _, _, hf, ⟨hv, hrest⟩, hp, hn =>
    (hf.call mute op hm hv (hp op List.mem_cons_self) (hn 0 (Nat.succ_pos _))).inTurn hm hrest
      (fun x hx => hp x (List.mem_cons_of_mem _ hx)) fun i hi => hn (i + 1) (Nat.succ_lt_succ hi)

/-- The table has its nine entries, then none, then one, and its two chains all the time. -/
theorem presized_table_keeps_its_chains_swept :
    IsLeast {heads | (∃ j, heads = 2 ^ j) ∧ overloaded 9 heads = false} (sizedForNine.table (⟨0⟩ : TableId .any)).heads ∧
    (filledWithNine.table (⟨0⟩ : TableId .any)).length = 9 ∧ (sweptAndFilled.table (⟨0⟩ : TableId .any)).length = 1 ∧
    (sweptAndFilled.table (⟨0⟩ : TableId .any)).heads = (sizedForNine.table (⟨0⟩ : TableId .any)).heads := by
  have hm : Midway oneTable untouched := ⟨_, ⟨_, bare_untouched, .refl⟩, .start⟩
  have hs : untouched.SizedFor 9 (⟨0⟩ : TableId .any) sizedForNine := .made rfl
  obtain ⟨hleast, hkeeps⟩ := (presized_table_keeps_its_chains hm 9).2.2 _ _ hs
  have hopen : sizedForNine.Open (⟨0⟩ : TableId .any) := open_any.2 (by decide +kernel)
  have hnoted : Fills oneTable (⟨0⟩ : TableId .any) 9 (Sober oneTable (⟨0⟩ : TableId .any) 9) sizedForNine
      { sizedForNine with env := some ⟨0⟩ } := by
    refine Fills.refl.aside _ rfl ⟨by simp [oneTable], fun r hr => ?_⟩
    obtain rfl : r = ⟨.any, ⟨0⟩⟩ := by simpa [oneTable] using hr
    exact hopen
  have hfilled : Fills oneTable (⟨0⟩ : TableId .any) 9 (Sober oneTable (⟨0⟩ : TableId .any) 9) sizedForNine filledWithNine :=
    hnoted.inTurn mute_sober (by decide +kernel) (by simp [nineEvens, Operation.Piecemeal]) (by decide +kernel)
  have hswept := hfilled.call sweeper (@Operation.insert .any ⟨0⟩ (.host ⟨0⟩) .none) sweeper_sober (by decide +kernel)
    True.intro (by decide +kernel)
  exact ⟨hleast, by decide +kernel, by decide +kernel, hkeeps _ hswept⟩

end ValueCore
