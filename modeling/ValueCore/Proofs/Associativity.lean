import ValueCore.Proofs.Equivalence
import ValueCore.Proofs.Immutability
import ValueCore.Proofs.Merging

/-!
# Merging is associative

Three structs are merged in two ways, and the two compare different pairs of constructors:

| | compares | and then | which is like |
| --- | --- | --- | --- |
| `mergeLeft`, the first two first | those of `x` and `y` | that of the result and that of `z` | those of `x` and `z` |
| `mergeRight`, the last two first | those of `y` and `z` | that of `x` and that of the result | those of `x` and `y` |

The second merge takes place in a later world, and one of its structs is new. It comes to the same verdict all the same, if
neither constructor can change (`World.Compares.later`). As equality is a partial equivalence, either way comes to
nothing but yeses if the other does (`World.Compares.transfer`). The fields are associative as lists (`mergeFields_assoc`).

Either way may be refused memory where the other is not, as they build different structs on the way.
-/

namespace ValueCore

open World

variable {ε : Type} {I : Inventory ε} {w u : World ε} {host : Host ε} {x y z s s' : StructId} {a b c r : Bool}

/-- Merges the first two of three structs first. -/
def mergeLeft (host : Host ε) (x y z : StructId) : Run ε StructId := do
  let xy ← mergeStructs host x y
  mergeStructs host xy z

/-- Merges the last two of three structs first. -/
def mergeRight (host : Host ε) (x y z : StructId) : Run ε StructId := do
  let yz ← mergeStructs host y z
  mergeStructs host x yz

/-! ## Constructors that cannot change -/

/-- None of the host's values is reached, and no dict. -/
structure World.Fixed (w : World ε) (v : Value) : Prop where
  free : w.HostFree v
  dicts : ∀ t, ¬ w.Reaches v (.dict t)

namespace World.Fixed

variable {v : Value}

theorem still (hv : w.Fixed v) (ho : w.Owns v) : w.Still v := ⟨ho, hv.free, fun t ht => absurd ht (hv.dicts t)⟩

theorem comparable (hv : w.Fixed v) : w.Comparable v :=
  ⟨hv.free, fun s hs t ht => hv.dicts t ((hs.tail (.ctor s)).trans ht)⟩

theorem lasts (hv : w.Fixed v) (ho : w.Owns v) (h : w.Sound I) (hl : w.Lasts u) : u.Fixed v :=
  ⟨((hv.still ho).lasts h hl).free, fun t ht => hv.dicts t (hl.reaches_back h (hv.still ho) ht).1⟩

/-- Nothing else is reached from a scalar. -/
theorem of_scalar (hv : v.Scalar) : w.Fixed v := by
  have hself : ∀ {y : Value}, w.Reaches v y → y = v := by
    intro y hy
    rcases hy.cases_head with heq | ⟨z, hp, _⟩
    · exact heq.symm
    · cases hp <;> exact hv.elim
  refine ⟨fun y hy => ?_, fun t ht => ?_⟩
  · cases hself hy
    cases v <;> first | exact trivial | exact hv.elim
  · cases hself ht
    exact hv

end World.Fixed

/-- The constructors of the two structs cannot change, and comparing them returns the verdict. -/
structure World.Compares (w : World ε) (host : Host ε) (x y : StructId) (verdict : Bool) : Prop where
  owns : w.Owns (.struct x) ∧ w.Owns (.struct y)
  fixed : w.Fixed (w.struct x).ctor ∧ w.Fixed (w.struct y).ctor
  verdict : (equal host (w.struct x).ctor (w.struct y).ctor w).1 = .ok verdict

namespace World.Compares

theorem told (h : w.Compares host x y r) : w.Says fullBudget (w.struct x).ctor (w.struct y).ctor r :=
  ⟨host, w, .refl w, h.verdict⟩

/-- **Later the verdict on structs of these constructors is the same.** -/
theorem later (h : w.Compares host x y r) (hw : w.Sound I) (he : Evolves I w.structs.size w u)
    (ho : u.Owns (.struct s) ∧ u.Owns (.struct s')) (hs : (u.struct s).ctor = (w.struct x).ctor)
    (hs' : (u.struct s').ctor = (w.struct y).ctor) : u.Compares host s s' r := by
  have hl := lasts_of_evolves hw he
  have hx := hw.ctors x h.owns.1
  have hy := hw.ctors y h.owns.2
  refine ⟨ho, ?_, ?_⟩
  · rw [hs, hs']
    exact ⟨h.fixed.1.lasts hx hw hl, h.fixed.2.lasts hy hw hl⟩
  · rw [hs, hs']
    exact verdict_lasts hw (he.sound hw) hl (h.fixed.1.still hx) (h.fixed.2.still hy) host host fullBudget r h.verdict

/-- Of structs with equal constructors either or none has the constructor of a third one. -/
theorem transfer (hr : Reachable I w) (hxy : w.Compares host x y true) (hyz : w.Compares host y z b)
    (hxz : w.Compares host x z c) : b = c := by
  have htables := fun {kind : KeyKind} (t : TableId kind) => hr.sound.tables t
  have htidy : w.Tidy w.Comparable := hr.orderly.tidy htables
  have hx := hxy.fixed.1.comparable
  have hy := hxy.fixed.2.comparable
  have hz := hyz.fixed.2.comparable
  have hequal : w.Equal (w.struct x).ctor (w.struct y).ctor := (htidy.says_iff hx hy hxy.told).1 rfl
  rw [Bool.eq_iff_iff, htidy.says_iff hy hz hyz.told, htidy.says_iff hx hz hxz.told]
  constructor
  · intro h
    exact hequal.trans htables h
  · intro h
    exact (htidy.symm hequal hx hy).trans htables h

end World.Compares

theorem World.Compares.of_scalars (hx : w.Owns (.struct x) ∧ (w.struct x).ctor.Scalar)
    (hy : w.Owns (.struct y) ∧ (w.struct y).ctor.Scalar)
    (hr : (equal host (w.struct x).ctor (w.struct y).ctor w).1 = .ok r) : w.Compares host x y r :=
  ⟨⟨hx.1, hy.1⟩, ⟨.of_scalar hx.2, .of_scalar hy.2⟩, hr⟩

/-! ## One merge -/

/-- In `u`, where the program goes on, the struct `s` is what `x` and `y` were merged to. -/
structure World.Yielded (I : Inventory ε) (w : World ε) (x y s : StructId) (u : World ε) : Prop where
  reachable : Reachable I u
  evolves : Evolves I w.structs.size w u
  owns : u.Owns (.struct s)
  ctor : (u.struct s).ctor = (w.struct x).ctor
  fields : u.fields s = mergeFields (w.fields x) (w.fields y)

theorem World.Compares.protected (h : w.Compares host x y r) :
    ∃ v, protect (equal host (w.struct x).ctor (w.struct y).ctor) w = (.ok (.ok r), v) := by
  unfold protect
  rw [run_eq_of_answer h.verdict]
  exact ⟨_, rfl⟩

/-- A merge that succeeds was given the verdict yes. -/
theorem merge_ok (hr : Reachable I w) (hc : Civil I host) (h : w.Compares host x y r)
    (hrun : mergeStructs host x y w = (.ok s, u)) : r = true ∧ w.Yielded I x y s u := by
  obtain ⟨hx, hy⟩ := h.owns
  obtain ⟨v, hv⟩ := h.protected
  cases r with
  | true =>
    have halong := mergeStructs_along (hc.respects.spares w.structs.size) hr.sound (Nat.le_refl _) hx hy
    have he := (halong.upTo (Nat.le_refl _)).evolves
    rw [hrun] at he
    have hreach : Reachable I u := by
      obtain ⟨w₀, hb, ha⟩ := hr
      have hend : ((Operation.mergeStructs x y).run host w).2 = u := by
        show (discard (mergeStructs host x y) w).2 = u
        rw [run_discard, hrun]
      exact ⟨w₀, hb, hend ▸ ha.call host (.mergeStructs x y) hc ⟨hx, hy⟩⟩
    rcases run_mergeStructs_merged hr hc hx hy hv with ⟨s', u', hrun', hmerged⟩ | ⟨u', hrun', _⟩
    · rw [hrun] at hrun'
      cases hrun'
      have hunion := unionOf_mergeFields (hr.collated x hx) (hr.collated y hy)
      exact ⟨rfl, hreach, he, halong.post s u hrun, hmerged.ctor, hmerged.union.eq hunion⟩
    · rw [hrun] at hrun'
      cases hrun'
  | false =>
    rw [run_mergeStructs_false hv, run_bind] at hrun
    split at hrun <;> cases hrun

/-- A merge that fails was given the verdict no, or refused memory. -/
theorem merge_error {e : Failure} (hr : Reachable I w) (hc : Civil I host) (h : w.Compares host x y r)
    (hrun : mergeStructs host x y w = (.error e, u)) : r = false ∨ e = .raised .memory := by
  cases r with
  | false => exact .inl rfl
  | true =>
    obtain ⟨v, hv⟩ := h.protected
    rcases run_mergeStructs_merged hr hc h.owns.1 h.owns.2 hv with ⟨s, u', hrun', _⟩ | ⟨u', hrun', _⟩
    · rw [hrun] at hrun'
      cases hrun'
    · rw [hrun] at hrun'
      cases hrun'
      exact .inr rfl

/-- Every request is granted. -/
structure Memory.Generous (m : Memory) : Prop where
  willing : m.refusing = false
  grants : ∀ serial bytes, m.grants serial bytes = true

namespace Memory

variable {m m' : Memory}

theorem Generous.granting (hg : m.Generous) : m.Granting :=
  ⟨hg.willing, fun serial length => hg.grants serial (length * trailEntryBytes)⟩

theorem Generous.same (hg : m.Generous) (h : SamePolicy m m') : m'.Generous :=
  ⟨h.refusing.trans hg.willing, fun serial bytes => by rw [h.grants]; exact hg.grants serial bytes⟩

theorem Generous.not_refused (hg : m.Generous) : ¬ m.Refused m' := by
  rintro ⟨serial, bytes, -, -, hno | hno⟩
  · exact Bool.false_ne_true (hg.willing.symm.trans hno)
  · exact Bool.false_ne_true (hno.symm.trans (hg.grants serial bytes))

end Memory

/-- With all memory granted and room for the fields the merge is not refused memory, and leaves the allocator as it was. -/
theorem merge_granted (hs : w.Sound I) (h : w.Compares host x y r) (hg : w.memory.Generous) (hfit : ¬ w.Oversized x y) :
    (mergeStructs host x y w).1 ≠ .error (.raised .memory) ∧
    ∀ s u, mergeStructs host x y w = (.ok s, u) → u.memory.Generous := by
  obtain ⟨hx, hy⟩ := h.owns
  have hfree : ∀ {s : StructId}, w.Owns (.struct s) → w.Fixed (w.struct s).ctor →
      w.HostFree (w.struct s).ctor ∧ w.Owns (w.struct s).ctor := fun ho hf => ⟨hf.free, hs.ctors _ ho⟩
  obtain ⟨v, hv⟩ := h.protected
  obtain ⟨halike, hpolicy⟩ := protect_equal_spares hs (hfree hx h.fixed.1) (hfree hy h.fixed.2) hv
  have hgv := hg.same hpolicy
  cases r with
  | true =>
    have hfields : ∀ t, v.fields t = w.fields t := fun t => by
      unfold World.fields
      rw [halike.table, halike.struct]
    have hroom : overloaded ((v.fields x).length + (v.fields y).length) maxHeads = false := by
      rw [hfields, hfields]
      exact Bool.not_eq_true _ ▸ hfit
    have hspends := spends_filledStruct (w.struct x).ctor hroom (length_mergeFields_le (v.fields x) (v.fields y)) v
    rw [run_mergeStructs_true hv]
    refine ⟨fun he => hgv.not_refused (hspends.refused _ he), fun s u hrun => ?_⟩
    have hlater := hspends.later
    rw [hrun] at hlater
    exact hgv.same hlater.toSamePolicy
  | false =>
    obtain ⟨q, hq⟩ := run_quote_free hs (hfree hx h.fixed.1) (hfree hy h.fixed.2) hg.granting
      (answers_equal_free hs (hfree hx h.fixed.1) (hfree hy h.fixed.2)) hv
    rw [run_mergeStructs_false hv, run_bind_ok hq]
    exact ⟨nofun, nofun⟩

/-! ## Two merges -/

section
variable {f g : StructId → StructId} (hr : Reachable I w) (hc : Civil I host) (h : w.Compares host x y a)
  (hnext : ∀ s v, w.Yielded I x y s v → v.Compares host (f s) (g s) b)
include hr hc h hnext

/-- Both verdicts were yes if two merges, one after the other, succeed. -/
theorem merges_ok (hrun : (mergeStructs host x y >>= fun s => mergeStructs host (f s) (g s)) w = (.ok s', u)) :
    (a = true ∧ b = true) ∧ ∃ s v, w.Yielded I x y s v ∧ v.Yielded I (f s) (g s) s' u := by
  cases hfirst : mergeStructs host x y w with
  | mk out v =>
    cases out with
    | error e =>
      rw [run_bind_error hfirst] at hrun
      cases hrun
    | ok s =>
      rw [run_bind_ok hfirst] at hrun
      obtain ⟨ha, hm⟩ := merge_ok hr hc h hfirst
      obtain ⟨hb, hm'⟩ := merge_ok hm.reachable hc (hnext s v hm) hrun
      exact ⟨⟨ha, hb⟩, s, v, hm, hm'⟩

/-- If they fail, then one of the verdicts was no or memory was refused. -/
theorem merges_error {e : Failure}
    (hrun : (mergeStructs host x y >>= fun s => mergeStructs host (f s) (g s)) w = (.error e, u)) :
    (a = false ∨ b = false) ∨ e = .raised .memory := by
  cases hfirst : mergeStructs host x y w with
  | mk out v =>
    cases out with
    | error e' =>
      rw [run_bind_error hfirst] at hrun
      cases hrun
      exact (merge_error hr hc h hfirst).imp_left .inl
    | ok s =>
      rw [run_bind_ok hfirst] at hrun
      obtain ⟨_, hm⟩ := merge_ok hr hc h hfirst
      exact (merge_error hm.reachable hc (hnext s v hm) hrun).imp_left .inr

/-- Not being refused memory, they succeed just if both verdicts were yes. -/
theorem merges_succeed_iff
    (hno : ((mergeStructs host x y >>= fun s => mergeStructs host (f s) (g s)) w).1 ≠ .error (.raised .memory)) :
    (∃ s, ((mergeStructs host x y >>= fun s => mergeStructs host (f s) (g s)) w).1 = .ok s) ↔ a = true ∧ b = true := by
  constructor
  · rintro ⟨s, hs⟩
    exact (merges_ok hr hc h hnext (run_eq_of_answer hs)).1
  · rintro ⟨rfl, rfl⟩
    cases hrun : (mergeStructs host x y >>= fun s => mergeStructs host (f s) (g s)) w with
    | mk out u =>
      cases out with
      | ok s => exact ⟨s, rfl⟩
      | error e =>
        obtain (hne | hne) | rfl := merges_error hr hc h hnext hrun
        · cases hne
        · cases hne
        · exact absurd (congrArg Prod.fst hrun) hno

/-- Where every request is granted and there is room, they are not refused memory. -/
theorem merges_granted (hg : w.memory.Generous) (hfit : ¬ w.Oversized x y)
    (hfit' : ∀ s v, w.Yielded I x y s v → ¬ v.Oversized (f s) (g s)) :
    ((mergeStructs host x y >>= fun s => mergeStructs host (f s) (g s)) w).1 ≠ .error (.raised .memory) := by
  obtain ⟨hfine, hgenerous⟩ := merge_granted hr.sound h hg hfit
  cases hfirst : mergeStructs host x y w with
  | mk out v =>
    cases out with
    | error e =>
      rw [hfirst] at hfine
      rw [run_bind_error hfirst]
      exact hfine
    | ok s =>
      obtain ⟨_, hm⟩ := merge_ok hr hc h hfirst
      rw [run_bind_ok hfirst]
      exact (merge_granted hm.reachable.sound (hnext s v hm) (hgenerous s v hfirst) (hfit' s v hm)).1

end

section
variable (hr : Reachable I w)
include hr

/-- What the first two were merged to compares with the third struct as the first did. -/
theorem World.Yielded.compares_left (hm : w.Yielded I x y s u) (hxz : w.Compares host x z c) :
    w.SameStruct u z ∧ u.Compares host s z c := by
  have hz := sameStruct_of_evolves hr.sound hm.evolves hxz.owns.2
  have howns : u.Owns (.struct z) := hm.evolves.within.owns hxz.owns.2
  exact ⟨hz, hxz.later hr.sound hm.evolves ⟨hm.owns, howns⟩ hm.ctor (by rw [hz.struct])⟩

/-- The first struct compares with what the last two were merged to as with the second. -/
theorem World.Yielded.compares_right (hm : w.Yielded I y z s u) (hxy : w.Compares host x y a) :
    w.SameStruct u x ∧ u.Compares host x s a := by
  have hx := sameStruct_of_evolves hr.sound hm.evolves hxy.owns.1
  have howns : u.Owns (.struct x) := hm.evolves.within.owns hxy.owns.1
  exact ⟨hx, hxy.later hr.sound hm.evolves ⟨howns, hm.owns⟩ (by rw [hx.struct]) hm.ctor⟩

end

/-- There is room for the fields of the three, however they are merged. -/
def World.Roomy (w : World ε) (x y z : StructId) : Prop :=
  overloaded ((w.fields x).length + (w.fields y).length + (w.fields z).length) maxHeads = false

instance (w : World ε) (x y z : StructId) : Decidable (w.Roomy x y z) := inferInstanceAs (Decidable (_ = _))

theorem World.Roomy.fits {n : Nat} (h : w.Roomy x y z)
    (hn : n ≤ (w.fields x).length + (w.fields y).length + (w.fields z).length) : overloaded n maxHeads = false :=
  overloaded_mono hn h

/-- **Merging is associative.** Let three structs have constructors that reach none of the host's values and no dict, and
comparing these with each other return verdicts. Unless one of the two ways of merging the three is refused memory, the one
succeeds if and only if the other does. If both succeed then what they make has one and the same constructor and the same
list of fields. Neither is refused memory if every request is granted and no table gets too big. -/
theorem merge_associative (hr : Reachable I w) (hc : Civil I host) (hxy : w.Compares host x y a)
    (hyz : w.Compares host y z b) (hxz : w.Compares host x z c) :
    ((mergeLeft host x y z w).1 ≠ .error (.raised .memory) → (mergeRight host x y z w).1 ≠ .error (.raised .memory) →
      ((∃ s, (mergeLeft host x y z w).1 = .ok s) ↔ ∃ s, (mergeRight host x y z w).1 = .ok s)) ∧
    (∀ s s' v u, mergeLeft host x y z w = (.ok s, v) → mergeRight host x y z w = (.ok s', u) →
      (v.struct s).ctor = (u.struct s').ctor ∧ v.fields s = u.fields s') ∧
    (w.memory.Generous → w.Roomy x y z → (mergeLeft host x y z w).1 ≠ .error (.raised .memory) ∧
      (mergeRight host x y z w).1 ≠ .error (.raised .memory)) := by
  have hleft : ∀ s v, w.Yielded I x y s v → v.Compares host s z c := fun s v hm => (hm.compares_left hr hxz).2
  have hright : ∀ s v, w.Yielded I y z s v → v.Compares host x s a := fun s v hm => (hm.compares_right hr hxy).2
  refine ⟨fun hno hno' => ?_, fun s s' v u hrun hrun' => ?_, fun hg hfit => ⟨?_, ?_⟩⟩
  · -- each succeeds just if its verdicts are yes, and those of `x` and `z` and of `y` and `z` then agree
    have hverdicts : (a = true ∧ c = true) ↔ (a = true ∧ b = true) := by
      refine and_congr_right fun ha => ?_
      subst ha
      rw [hxy.transfer hr hyz hxz]
    have hiff := merges_succeed_iff (f := id) (g := fun _ => z) hr hc hxy hleft hno
    have hiff' := merges_succeed_iff (f := fun _ => x) (g := id) hr hc hyz hright hno'
    exact hiff.trans (hverdicts.trans (and_comm.trans hiff'.symm))
  · obtain ⟨-, t, m, hm, hm'⟩ := merges_ok (f := id) (g := fun _ => z) hr hc hxy hleft hrun
    obtain ⟨-, t', m', hn, hn'⟩ := merges_ok (f := fun _ => x) (g := id) hr hc hyz hright hrun'
    have hz := (hm.compares_left hr hxz).1
    have hx := (hn.compares_right hr hxy).1
    refine ⟨?_, ?_⟩
    · rw [hm'.ctor, hn'.ctor, hx.struct]
      exact hm.ctor
    · rw [hm'.fields, hn'.fields]
      show mergeFields (m.fields t) (m.fields z) = mergeFields (m'.fields x) (m'.fields t')
      rw [hm.fields, hn.fields, hz.fields, hx.fields]
      exact mergeFields_assoc (hr.collated x hxy.owns.1) (hr.collated y hyz.owns.1) (hr.collated z hyz.owns.2)
  · refine merges_granted (f := id) (g := fun _ => z) hr hc hxy hleft hg ?_ fun s v hm => ?_
    · exact Bool.not_eq_true _ ▸ hfit.fits (by omega)
    · have hle := length_mergeFields_le (w.fields x) (w.fields y)
      have hz := (hm.compares_left hr hxz).1
      refine Bool.not_eq_true _ ▸ hfit.fits ?_
      rw [id_eq, hm.fields, hz.fields]
      omega
  · refine merges_granted (f := fun _ => x) (g := id) hr hc hyz hright hg ?_ fun s v hm => ?_
    · exact Bool.not_eq_true _ ▸ hfit.fits (by omega)
    · have hle := length_mergeFields_le (w.fields y) (w.fields z)
      have hx := (hm.compares_right hr hxy).1
      refine Bool.not_eq_true _ ▸ hfit.fits ?_
      rw [id_eq, hm.fields, hx.fields]
      omega

/-! ## Three points -/

/-- Three structs whose constructors are one number, and one with another constructor. -/
def trio : List Operation :=
  [.createStruct (.int 1) [(ascii "a", .int 1), (ascii "b", .int 1)],
    .createStruct (.float ⟨0x3FF0000000000000⟩) [(ascii "b", .int 2), (ascii "c", .int 2)],
    .createStruct (.int 1) [(ascii "c", .int 3), (ascii "d", .int 3)],
    .createStruct (.str (ascii "point")) [(ascii "a", .int 4)]]

def trioWorld : World Unit := (inTurn trio (.unused ())).allocating true

theorem reachable_trioWorld : Reachable .nothing trioWorld := by
  have hrun : PlainInTurn (.unused ()) trio := by decide +kernel
  obtain ⟨⟨w₀, hb, ha⟩, -⟩ := reachable_inTurn hrun
  exact ⟨w₀, hb, ha.outside (alike_allocating _ true)⟩

/-- All four structs are there, with scalars for constructors. -/
theorem trioWorld_scalars : ∀ i < 4, trioWorld.Owns (.struct ⟨i⟩) ∧ (trioWorld.struct ⟨i⟩).ctor.Scalar := by
  decide +kernel

/-- The three can be merged in both ways, with one result. With the other struct as the last they cannot. -/
theorem merge_associative_trio :
    (∃ s s' v u, mergeLeft mute ⟨0⟩ ⟨1⟩ ⟨2⟩ trioWorld = (.ok s, v) ∧ mergeRight mute ⟨0⟩ ⟨1⟩ ⟨2⟩ trioWorld = (.ok s', u) ∧
      (v.struct s).ctor = (u.struct s').ctor ∧ v.fields s = u.fields s') ∧
    ¬ ∃ s, (mergeRight mute ⟨0⟩ ⟨1⟩ ⟨3⟩ trioWorld).1 = .ok s := by
  have hgenerous : trioWorld.memory.Generous := ⟨rfl, fun _ _ => rfl⟩
  have hthere := trioWorld_scalars
  have hxy : trioWorld.Compares mute ⟨0⟩ ⟨1⟩ true :=
    .of_scalars (hthere 0 (by decide)) (hthere 1 (by decide)) (by decide +kernel)
  have hyz : trioWorld.Compares mute ⟨1⟩ ⟨2⟩ true :=
    .of_scalars (hthere 1 (by decide)) (hthere 2 (by decide)) (by decide +kernel)
  have hxz : trioWorld.Compares mute ⟨0⟩ ⟨2⟩ true :=
    .of_scalars (hthere 0 (by decide)) (hthere 2 (by decide)) (by decide +kernel)
  have hyp : trioWorld.Compares mute ⟨1⟩ ⟨3⟩ false :=
    .of_scalars (hthere 1 (by decide)) (hthere 3 (by decide)) (by decide +kernel)
  have hxp : trioWorld.Compares mute ⟨0⟩ ⟨3⟩ false :=
    .of_scalars (hthere 0 (by decide)) (hthere 3 (by decide)) (by decide +kernel)
  obtain ⟨hiff, hsame, hgranted⟩ := merge_associative reachable_trioWorld mute_civil hxy hyz hxz
  obtain ⟨hiff', -, hgranted'⟩ := merge_associative reachable_trioWorld mute_civil hxy hyp hxp
  obtain ⟨hno, hno'⟩ := hgranted hgenerous (by decide +kernel)
  obtain ⟨hdiffer, hdiffer'⟩ := hgranted' hgenerous (by decide +kernel)
  refine ⟨?_, fun hok => ?_⟩
  · have hleft : (mergeLeft mute ⟨0⟩ ⟨1⟩ ⟨2⟩ trioWorld).1 = .ok ⟨5⟩ := by decide +kernel
    obtain ⟨s', hright⟩ := (hiff hno hno').1 ⟨_, hleft⟩
    have hrun := run_eq_of_answer hleft
    have hrun' := run_eq_of_answer hright
    exact ⟨_, _, _, _, hrun, hrun', hsame _ _ _ _ hrun hrun'⟩
  · obtain ⟨s, hs⟩ := (hiff' hdiffer hdiffer').2 hok
    have hfails : (mergeLeft mute ⟨0⟩ ⟨1⟩ ⟨3⟩ trioWorld).1 = .error (.raised .constructorMismatch) := by decide +kernel
    rw [hfails] at hs
    cases hs

end ValueCore
