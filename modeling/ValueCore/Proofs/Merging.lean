import ValueCore.Proofs.Collation
import ValueCore.Proofs.Distinctness
import ValueCore.Proofs.Operations.Sizing
import ValueCore.Proofs.Operations.Union
import ValueCore.Proofs.World.Parts

/-!
# Merging structs

What merging two structs comes to depends on what the comparison of their constructors comes to:

| the comparison | merging |
| --- | --- |
| says yes | makes a struct of the union of the fields, or there was no memory (`run_mergeStructs_true`) |
| says no | raises `constructorMismatch`, quoting the two (`run_mergeStructs_false`) |
| raises an error | raises it again with the same status, quoting the two (`run_mergeStructs_error`) |

Quoting takes memory and may come to the host, so a report may fail in turn, and that is then the error. Nothing of the
kind happens with memory granted to constructors that hold none of the host's values.

That there was no memory means that the allocator refused a request of this very run, or that the two structs together
have more fields than a table may be sized for.
-/

namespace ValueCore

open World

variable {ε : Type} {I : Inventory ε} {w v u : World ε} {host : Host ε} {x y s : StructId}

/-- The fields of a struct in order. -/
def World.fields (w : World ε) (s : StructId) : List Field := (w.table (w.struct s).fields).items

/-- The struct reads as it did in `w`. -/
structure World.SameStruct (w u : World ε) (s : StructId) : Prop where
  struct : u.struct s = w.struct s
  fields : u.fields s = w.fields s

theorem sameStruct_of_evolves (h : w.Sound I) (he : Evolves I w.structs.size w u) (hs : w.Owns (.struct s)) :
    w.SameStruct u s := by
  have hstruct := he.within.struct_eq s hs
  refine ⟨hstruct, ?_⟩
  unfold World.fields
  rw [hstruct, (he.same_of_sealed h (h.fields s hs) ⟨s, hs, hs, rfl⟩).kept.items_eq]

/-- The texts of two values, the one after the other. -/
def quote (host : Host ε) (a b : Value) : Run ε (Bytes × Bytes) := do
  let left ← display host a
  let right ← display host b
  return (left, right)

/-- With memory granted both texts are there, if they come to none of the host's values. -/
theorem answers_quote {C : Value → Prop} (hC : w.Region C) (hown : ∀ z, C z → w.Owns z) {a b : Value} (ha : C a)
    (hb : C b) : w.Answers (quote host a b) (.ok (w.shown a, w.shown b)) :=
  (answers_display hC hown ha).after ((answers_display hC hown hb).after (.pure _))

theorem memory_protect {α : Type} (act : Run ε α) : (protect act w).2.memory = (act w).2.memory := by
  unfold protect
  cases act w with
  | mk r v => rcases r with (status | _ | _ | reason) | a <;> rfl

/-- What answers alike in all worlds with the same containers leaves the allocator as it was, and the world but for memory and
message. -/
theorem World.Answers.protect_spares {α : Type} {act : Run ε α} {o : Judged α} {answer : Except Status α}
    (h : w.Answers act o) (hv : protect act w = (.ok answer, v)) : Alike w v ∧ w.memory.SamePolicy v.memory := by
  have halike := (h.alike w (.refl w)).trans (alike_protect act)
  have hpolicy := h.policy w (.refl w)
  rw [← memory_protect] at hpolicy
  rw [hv] at halike hpolicy
  exact ⟨halike, hpolicy⟩

theorem answers_equal_free (h : w.Sound I) {a b : Value} (ha : w.HostFree a ∧ w.Owns a) (hb : w.HostFree b ∧ w.Owns b) :
    w.Answers (equal host a b) (w.judged (comparisonFuel w fullBudget) fullBudget a b) :=
  answers_equalWithin (region_free h) (fun _ hz => hz.2) ha hb fullBudget

theorem protect_equal_spares (h : w.Sound I) {a b : Value} (ha : w.HostFree a ∧ w.Owns a) (hb : w.HostFree b ∧ w.Owns b)
    {answer : Except Status Bool} (hv : protect (equal host a b) w = (.ok answer, v)) :
    Alike w v ∧ w.memory.SamePolicy v.memory :=
  (answers_equal_free h ha hb).protect_spares hv

/-- So both texts are there after the two values were compared, or after anything of the kind. -/
theorem run_quote_free (h : w.Sound I) {a b : Value} (ha : w.HostFree a ∧ w.Owns a) (hb : w.HostFree b ∧ w.Owns b)
    (hgrant : w.memory.Granting) {α : Type} {act : Run ε α} {o : Judged α} (hact : w.Answers act o)
    {answer : Except Status α} (hv : protect act w = (.ok answer, v)) :
    ∃ u, quote host a b v = (.ok (w.shown a, w.shown b), u) := by
  obtain ⟨halike, hpolicy⟩ := hact.protect_spares hv
  have hanswers : w.Answers (quote host a b) (.ok (w.shown a, w.shown b)) :=
    answers_quote (region_free h) (fun _ hz => hz.2) ha hb
  have hquote := (hanswers.returns ((Mirrors.refl w).alike halike)).resolve_right fun ⟨hno, _⟩ => hno (hgrant.same hpolicy)
  exact ⟨_, run_eq_of_answer hquote⟩

/-! ## What follows from the comparison -/

section
variable {a b : Value} {use : ConstructorUse} {equal : Value → Value → Run ε Bool}

/-- A comparison of constructors that is refused an answer is reported with both of them. -/
theorem run_sameConstructor_error {status : Status} (h : protect (equal a b) w = (.ok (.error status), v)) :
    sameConstructor equal host use a b w =
      (quote host a b >>= fun q => raise (.constructorComparison use status q.1 q.2 v.message)) v := by
  unfold sameConstructor
  rw [run_bind_ok h]
  dsimp only
  rw [run_bind_ok (run_get v)]
  unfold quote
  simp only [bind_assoc, pure_bind]

theorem run_sameConstructor_ok {verdict : Bool} (h : protect (equal a b) w = (.ok (.ok verdict), v)) :
    sameConstructor equal host use a b w = (.ok verdict, v) := by
  unfold sameConstructor
  rw [run_bind_ok h]
  rfl

end

theorem run_mergeStructs (w : World ε) : mergeStructs host x y w =
    (sameConstructor (equal host) host .merge (w.struct x).ctor (w.struct y).ctor >>= fun same =>
      if same then do
        let xs ← fieldsOf x
        let ys ← fieldsOf y
        filledStruct (w.struct x).ctor (xs.length + ys.length) (mergeFields xs ys)
      else quote host (w.struct x).ctor (w.struct y).ctor >>= fun q => raise (.constructorMismatch q.1 q.2)) w := by
  unfold mergeStructs
  rw [run_bind_ok (run_get w), run_bind_ok (run_get w)]
  refine congrArg (fun f : Bool → Run ε StructId =>
    (sameConstructor (equal host) host .merge (w.struct x).ctor (w.struct y).ctor >>= f) w) (funext fun same => ?_)
  cases same with
  | true => rfl
  | false =>
    unfold quote
    simp only [Bool.false_eq_true, if_false, bind_assoc, pure_bind]

/-- The comparison said yes. -/
theorem run_mergeStructs_true (h : protect (equal host (w.struct x).ctor (w.struct y).ctor) w = (.ok (.ok true), v)) :
    mergeStructs host x y w = filledStruct (w.struct x).ctor ((v.fields x).length + (v.fields y).length)
      (mergeFields (v.fields x) (v.fields y)) v := by
  rw [run_mergeStructs, run_bind_ok (run_sameConstructor_ok h), if_pos rfl, run_bind_ok (run_fieldsOf x v),
    run_bind_ok (run_fieldsOf y v)]
  rfl

/-- The comparison said no. -/
theorem run_mergeStructs_false (h : protect (equal host (w.struct x).ctor (w.struct y).ctor) w = (.ok (.ok false), v)) :
    mergeStructs host x y w = (quote host (w.struct x).ctor (w.struct y).ctor >>= fun q =>
      raise (.constructorMismatch q.1 q.2)) v := by
  rw [run_mergeStructs, run_bind_ok (run_sameConstructor_ok h)]
  rfl

/-- The comparison failed. -/
theorem run_mergeStructs_error {status : Status}
    (h : protect (equal host (w.struct x).ctor (w.struct y).ctor) w = (.ok (.error status), v)) :
    mergeStructs host x y w = (quote host (w.struct x).ctor (w.struct y).ctor >>= fun q =>
      raise (.constructorComparison .merge status q.1 q.2 v.message)) v := by
  rw [run_mergeStructs, run_bind, run_sameConstructor_error h, run_bind, run_bind]
  cases quote host (w.struct x).ctor (w.struct y).ctor v with
  | mk r u => cases r <;> rfl

/-! ## The union -/

/-- In `u` there is a new struct `s` with the constructor of `x` and the fields of `x` and `y`. -/
structure World.Merged (w : World ε) (x y s : StructId) (u : World ε) : Prop where
  fresh : w.structs.size ≤ s.index
  ctor : (u.struct s).ctor = (w.struct x).ctor
  union : UnionOf (w.fields x) (w.fields y) (u.fields s)

/-- How much the two structs have together is more than a table may be sized for. -/
def World.Oversized (w : World ε) (x y : StructId) : Prop :=
  overloaded ((w.fields x).length + (w.fields y).length) maxHeads = true

/-- **What filling a struct with the union comes to.** -/
theorem run_filledStruct_union (hx : StrictlyAscending (v.fields x)) (hy : StrictlyAscending (v.fields y)) (ctor : Value) :
    (∃ s u, filledStruct ctor ((v.fields x).length + (v.fields y).length) (mergeFields (v.fields x) (v.fields y)) v =
        (.ok s, u) ∧ s.index = v.structs.size ∧ (u.struct s).ctor = ctor ∧
        u.fields s = mergeFields (v.fields x) (v.fields y)) ∨
    ∃ u, filledStruct ctor ((v.fields x).length + (v.fields y).length) (mergeFields (v.fields x) (v.fields y)) v =
        (.error (.raised .memory), u) ∧ (v.memory.Refused u.memory ∨ v.Oversized x y) := by
  have hrefused : ∀ u, filledStruct ctor ((v.fields x).length + (v.fields y).length)
      (mergeFields (v.fields x) (v.fields y)) v = (.error (.raised .memory), u) →
      v.memory.Refused u.memory ∨ v.Oversized x y := by
    intro u hr
    unfold Oversized
    cases hfit : overloaded ((v.fields x).length + (v.fields y).length) maxHeads with
    | true => exact .inr rfl
    | false =>
      have hspends := (spends_filledStruct ctor hfit (length_mergeFields_le _ _) v).refused (.raised .memory)
      rw [hr] at hspends
      exact .inl (hspends rfl)
  rcases run_filledStruct ctor _ (mergeFields (v.fields x) (v.fields y)) v with ⟨u, _, hr⟩ | ⟨s, u, done, _, hadds, hend⟩
  · exact .inr ⟨u, hr, hrefused u hr⟩
  · rcases hend with ⟨hr, rfl⟩ | hr
    · refine .inl ⟨s, u, hr, hadds.index, hadds.ctor, ?_⟩
      exact hadds.items.trans (strict_mergeFields hx hy).setFields_nil
    · exact .inr ⟨u, hr, hrefused u hr⟩

/-- What merging comes to when the comparison said yes. -/
theorem run_mergeStructs_merged (hr : Reachable I w) (hc : Civil I host) (hx : w.Owns (.struct x))
    (hy : w.Owns (.struct y))
    (hv : protect (equal host (w.struct x).ctor (w.struct y).ctor) w = (.ok (.ok true), v)) :
    (∃ s u, mergeStructs host x y w = (.ok s, u) ∧ w.Merged x y s u) ∨
    ∃ u, mergeStructs host x y w = (.error (.raised .memory), u) ∧ (v.memory.Refused u.memory ∨ w.Oversized x y) := by
  have hs := hr.sound
  -- the comparison leaves both structs as they were
  have hcompare : Evolves I w.structs.size w v := by
    have hlead := (equal_handles (hc.respects.spares w.structs.size) _ _ hs (hs.ctors x hx)
      (hs.ctors y hy)).protect.upTo (Nat.le_refl _)
    have he := hlead.evolves
    rwa [hv] at he
  obtain ⟨hstructx, hfieldsx⟩ := sameStruct_of_evolves hs hcompare hx
  obtain ⟨hstructy, hfieldsy⟩ := sameStruct_of_evolves hs hcompare hy
  have hascx : StrictlyAscending (v.fields x) := hfieldsx ▸ hr.collated x hx
  have hascy : StrictlyAscending (v.fields y) := hfieldsy ▸ hr.collated y hy
  rw [run_mergeStructs_true hv]
  refine (run_filledStruct_union hascx hascy (w.struct x).ctor).imp ?_ ?_
  · rintro ⟨s, u, hrun, hindex, hctor, hitems⟩
    refine ⟨s, u, hrun, hindex ▸ hcompare.within.size_le, hctor, ?_⟩
    rw [hitems, ← hfieldsx, ← hfieldsy]
    exact unionOf_mergeFields hascx hascy
  · rintro ⟨u, hrun, hwhy⟩
    refine ⟨u, hrun, hwhy.imp_right fun ho => ?_⟩
    unfold Oversized at ho ⊢
    rwa [hfieldsx, hfieldsy] at ho

/-- **Merging is the right-biased union.** Whatever merging comes to, the two structs are as they were. If their
constructors compare equal then the result is a struct with the constructor of the first and the union of the fields,
unless there is no memory for it, because a request made in merging them was refused or because they have too many fields.
If they do not compare equal that is an error, and if they cannot be compared it is an error of the same status; these
errors quote the constructors, and where quoting them fails that is the error. With memory granted it does not fail if they
hold none of the host's values. -/
theorem merge_right_biased_union (hr : Reachable I w) (hc : Civil I host) (hx : w.Owns (.struct x))
    (hy : w.Owns (.struct y)) :
    (w.SameStruct (mergeStructs host x y w).2 x ∧ w.SameStruct (mergeStructs host x y w).2 y) ∧
    (∀ v, protect (equal host (w.struct x).ctor (w.struct y).ctor) w = (.ok (.ok true), v) →
      (∃ s u, mergeStructs host x y w = (.ok s, u) ∧ w.Merged x y s u) ∨
      ∃ u, mergeStructs host x y w = (.error (.raised .memory), u) ∧ (v.memory.Refused u.memory ∨ w.Oversized x y)) ∧
    (∀ v, protect (equal host (w.struct x).ctor (w.struct y).ctor) w = (.ok (.ok false), v) →
      (∀ q u, quote host (w.struct x).ctor (w.struct y).ctor v = (.ok q, u) →
        mergeStructs host x y w = (.error (.raised .constructorMismatch),
          { u with message := (Fault.constructorMismatch q.1 q.2).message })) ∧
      ∀ e u, quote host (w.struct x).ctor (w.struct y).ctor v = (.error e, u) → mergeStructs host x y w = (.error e, u)) ∧
    (∀ status v, protect (equal host (w.struct x).ctor (w.struct y).ctor) w = (.ok (.error status), v) →
      (∀ q u, quote host (w.struct x).ctor (w.struct y).ctor v = (.ok q, u) →
        mergeStructs host x y w = (.error (.raised status),
          { u with message := (Fault.constructorComparison .merge status q.1 q.2 v.message).message })) ∧
      ∀ e u, quote host (w.struct x).ctor (w.struct y).ctor v = (.error e, u) → mergeStructs host x y w = (.error e, u)) ∧
    (w.HostFree (w.struct x).ctor → w.HostFree (w.struct y).ctor → w.memory.Granting →
      ∀ answer v, protect (equal host (w.struct x).ctor (w.struct y).ctor) w = (.ok answer, v) →
        ∃ u, quote host (w.struct x).ctor (w.struct y).ctor v =
          (.ok (w.shown (w.struct x).ctor, w.shown (w.struct y).ctor), u)) := by
  have hs := hr.sound
  have hh := hc.respects
  have hcx := hs.ctors x hx
  have hcy := hs.ctors y hy
  have hmerge : Evolves I w.structs.size w (mergeStructs host x y w).2 :=
    ((mergeStructs_along (hh.spares w.structs.size) hs (Nat.le_refl _) hx hy).upTo (Nat.le_refl _)).evolves
  refine ⟨⟨sameStruct_of_evolves hs hmerge hx, sameStruct_of_evolves hs hmerge hy⟩,
    fun v hv => run_mergeStructs_merged hr hc hx hy hv, fun v hv => ?_, fun status v hv => ?_,
    fun hfx hfy hgrant answer v hv => ?_⟩
  · rw [run_mergeStructs_false hv]
    exact ⟨fun q u hq => run_bind_ok hq _, fun e u hq => run_bind_error hq _⟩
  · rw [run_mergeStructs_error hv]
    exact ⟨fun q u hq => run_bind_ok hq _, fun e u hq => run_bind_error hq _⟩
  · exact run_quote_free hs ⟨hfx, hcx⟩ ⟨hfy, hcy⟩ hgrant (answers_equal_free hs ⟨hfx, hcx⟩ ⟨hfy, hcy⟩) hv

theorem World.Plain.ctor_hostFree (h : w.Plain) (s : StructId) : w.HostFree (w.struct s).ctor := h.hostFree (h.ctors s)

/-! ## Points, and dicts that contain themselves -/

/-- Two structs whose constructors are one number, one with another constructor, and two whose constructors contain
themselves. -/
def points : List Operation :=
  [.createStruct (.int 1) [(ascii "b", .int 2), (ascii "a", .int 1)],
    .createStruct (.float ⟨0x3FF0000000000000⟩) [(ascii "c", .int 4), (ascii "b", .int 3)],
    .createStruct (.str (ascii "point")) [(ascii "a", .none)], .newDict 0, .newDict 0,
    @Operation.insert .any ⟨0⟩ (.int 1) (.dict ⟨0⟩), @Operation.insert .any ⟨1⟩ (.int 1) (.dict ⟨1⟩),
    .createStruct (.dict ⟨0⟩) [(ascii "a", .int 1)], .createStruct (.dict ⟨1⟩) [(ascii "a", .int 2)]]

/-- A world with them, in which all memory is granted or none. -/
def pointWorld (grants : Bool) : World Unit := (inTurn points (.unused ())).allocating grants

theorem reachable_pointWorld (grants : Bool) :
    Reachable .nothing (pointWorld grants) ∧ (pointWorld grants).Plain := by
  have hrun : PlainInTurn (.unused ()) points := by decide +kernel
  obtain ⟨⟨w₀, hb, ha⟩, hplain⟩ := reachable_inTurn hrun
  exact ⟨⟨w₀, hb, ha.outside (alike_allocating _ grants)⟩, hplain.alike (alike_allocating _ grants)⟩

/-- The first two are merged, the others are not, for the reasons told. -/
theorem merge_right_biased_union_points :
    (∃ s u, mergeStructs mute ⟨0⟩ ⟨1⟩ (pointWorld true) = (.ok s, u) ∧ (pointWorld true).Merged ⟨0⟩ ⟨1⟩ s u) ∧
    (∃ u, mergeStructs mute ⟨0⟩ ⟨2⟩ (pointWorld true) = (.error (.raised .constructorMismatch), u) ∧
      u.message = (Fault.constructorMismatch (ascii "1") (ascii "\"point\"")).message) ∧
    ∃ u, mergeStructs mute ⟨3⟩ ⟨4⟩ (pointWorld true) = (.error (.raised .depthExceeded), u) ∧
      u.message = (Fault.constructorComparison .merge .depthExceeded (ascii "\x7b1: \x7b...\x7d\x7d")
        (ascii "\x7b1: \x7b...\x7d\x7d") Fault.depthExceeded.message).message := by
  obtain ⟨hr, hplain⟩ := reachable_pointWorld true
  have hgrant : (pointWorld true).memory.Granting := granting_allocating _
  have hfree := fun s => hplain.ctor_hostFree s
  have hthere : ∀ i < 5, (pointWorld true).Owns (.struct ⟨i⟩) := by decide +kernel
  obtain ⟨-, hyes, -⟩ :=
    merge_right_biased_union hr mute_civil (hthere 0 (by decide)) (hthere 1 (by decide))
  obtain ⟨-, -, hno, -, hquote⟩ :=
    merge_right_biased_union hr mute_civil (hthere 0 (by decide)) (hthere 2 (by decide))
  obtain ⟨-, -, -, herror, hquote'⟩ :=
    merge_right_biased_union hr mute_civil (hthere 3 (by decide)) (hthere 4 (by decide))
  refine ⟨?_, ?_, ?_⟩
  · rcases hyes _ (run_eq_of_answer (by decide +kernel)) with h | ⟨u, h, _⟩
    · exact h
    · have hok : (mergeStructs mute ⟨0⟩ ⟨1⟩ (pointWorld true)).1 = .ok ⟨5⟩ := by decide +kernel
      rw [h] at hok
      cases hok
  · obtain ⟨v, hv⟩ : ∃ v, protect (equal mute ((pointWorld true).struct ⟨0⟩).ctor ((pointWorld true).struct ⟨2⟩).ctor)
        (pointWorld true) = (.ok (.ok false), v) := ⟨_, run_eq_of_answer (by decide +kernel)⟩
    obtain ⟨u, hu⟩ := hquote (hfree _) (hfree _) hgrant _ v hv
    have hleft : (pointWorld true).shown ((pointWorld true).struct ⟨0⟩).ctor = ascii "1" := by decide +kernel
    have hright : (pointWorld true).shown ((pointWorld true).struct ⟨2⟩).ctor = ascii "\"point\"" := by decide +kernel
    rw [hleft, hright] at hu
    exact ⟨_, (hno v hv).1 _ u hu, rfl⟩
  · obtain ⟨v, hv, hinner⟩ : ∃ v, protect (equal mute ((pointWorld true).struct ⟨3⟩).ctor ((pointWorld true).struct ⟨4⟩).ctor)
        (pointWorld true) = (.ok (.error .depthExceeded), v) ∧ v.message = Fault.depthExceeded.message :=
      ⟨_, run_eq_of_answer (by decide +kernel), by decide +kernel⟩
    obtain ⟨u, hu⟩ := hquote' (hfree _) (hfree _) hgrant _ v hv
    have hleft : (pointWorld true).shown ((pointWorld true).struct ⟨3⟩).ctor = ascii "\x7b1: \x7b...\x7d\x7d" := by
      decide +kernel
    have hright : (pointWorld true).shown ((pointWorld true).struct ⟨4⟩).ctor = ascii "\x7b1: \x7b...\x7d\x7d" := by
      decide +kernel
    rw [hleft, hright] at hu
    have hraised := (herror _ v hv).1 _ u hu
    rw [hinner] at hraised
    exact ⟨_, hraised, rfl⟩

/-- Without memory it is not told that the constructors of two structs differ. -/
theorem merge_refused_without_memory :
    ¬ ∀ (w : World Unit) (x y : StructId), Reachable .nothing w → w.Owns (.struct x) → w.Owns (.struct y) →
      (equal mute (w.struct x).ctor (w.struct y).ctor w).1 = .ok false →
      (mergeStructs mute x y w).1 = .error (.raised .constructorMismatch) := by
  intro h
  have hraised := h (pointWorld false) ⟨0⟩ ⟨3⟩ (reachable_pointWorld false).1 (by decide +kernel) (by decide +kernel)
    (by decide +kernel)
  have hmemory : (mergeStructs mute ⟨0⟩ ⟨3⟩ (pointWorld false)).1 = .error (.raised .memory) := by decide +kernel
  rw [hmemory] at hraised
  cases hraised

end ValueCore
