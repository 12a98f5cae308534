import ValueCore.Struct
import ValueCore.Proofs.Operations.Values

/-!
# Operations on structs and dicts

A struct comes into being together with its field table, which is then filled. The insertions into the field
table are the only ones it will ever see: the table belongs to no struct that was there before, and from the
next operation on it is sealed.
-/

namespace ValueCore

open World

variable {ε : Type} {I : Inventory ε} {n : Nat} {w w' : World ε} {host : Host ε} {R : World ε → World ε → Prop}

/-! ## Making structs -/

/-- The field table of a struct that was just added belongs to no other. -/
theorem not_sealed_addStruct (h : w.Sound I) (ctor : Value) (T : Table Bytes) :
    ¬ (w.addStruct ctor T).Sealed w.structs.size (w.addTable .text T).1 := by
  rintro ⟨s, hs, _, hf⟩
  rw [(within_addStruct ctor T).struct_eq s hs] at hf
  exact not_has_addTable .text T (hf ▸ h.fields s hs)

/-- What is known of a struct that was just made: its field table may still be filled. -/
structure World.Fresh (w : World ε) (n : Nat) (s : StructId) : Prop where
  index : s.index < w.structs.size
  has : w.Has (w.struct s).fields
  unsealed : ¬ w.Sealed n (w.struct s).fields

/-- A struct that was just made stays so until it is finished. -/
theorem World.Fresh.within {s : StructId} (hf : w.Fresh n s) (hin : Within w w') : w'.Fresh n s := by
  have hst := hin.struct_eq s hf.index
  refine ⟨Nat.lt_of_lt_of_le hf.index hin.size_le, by rw [hst]; exact hin.has _ hf.has, fun hs => ?_⟩
  rw [hst] at hs
  exact hf.unsealed (hin.sealed_of_has hf.has hs)

/-- A new struct is there at once with its field table, or nothing is. -/
theorem run_newStruct (ctor : Value) (hint : Nat) (w : World ε) :
    (∃ v, Alike w v ∧ newStruct ctor hint w = (.error (.raised .memory), v)) ∨
    ∃ v u heads block, Alike w v ∧ (∃ k ≤ 24, heads = 2 ^ k) ∧
      Alike (v.addStruct ctor (.withStorage heads heads block)) u ∧ newStruct ctor hint w = (.ok ⟨v.structs.size⟩, u) := by
  unfold newStruct newObject
  rcases (asks_allocate structBytes).outcome with ⟨v, hv, ha⟩ | ⟨v, b, hv, ha⟩
  · exact .inl ⟨v, hv, run_bind_error ha _⟩
  rw [run_bind_ok ha]
  unfold madeIn
  rcases run_newTable .text hint.toUInt32 v with ⟨u, hu, hr⟩ | ⟨u, heads, block, hu, hp, hr⟩
  · rw [run_bind_error hr]
    exact .inl ⟨_, (hv.trans hu).trans (alike_freed _ _), rfl⟩
  · rw [run_bind_ok hr, run_modifyGet]
    refine .inr ⟨u, _, heads, block, hv.trans hu, hp, ?_, rfl⟩
    exact ⟨rfl, rfl, rfl, rfl⟩

theorem newStruct_along [Working I n R] (h : w.Sound I) (hn : n ≤ w.structs.size) {ctor : Value} (hctor : w.Owns ctor)
    (hint : Nat) : Along R w (newStruct ctor hint) fun s w' => w'.Fresh n s := by
  rcases run_newStruct ctor hint w with ⟨v, hv, hr⟩ | ⟨v, u, heads, block, hv, hp, hu, hr⟩
  · exact ⟨by rw [hr]; exact Course.outside hv, fun _ _ he => by rw [hr] at he; cases he⟩
  · have hsv : v.Sound I := Step.sound (n := n) h (.outside hv)
    have hsize : v.structs.size = w.structs.size := by rw [hv.structs]
    have hown : v.Owns ctor := ((Step.outside (I := I) (n := n) hv).within).owns hctor
    have hwork := Working.work (R := R) (work_addStruct block hp hown)
    refine ⟨by rw [hr]; exact Course.trans (Course.outside hv) (Course.trans hwork (Course.outside hu)), fun _ _ he => ?_⟩
    rw [hr] at he
    cases he
    have hself := struct_addStruct_self (w := v) ctor (.withStorage heads heads block)
    refine World.Fresh.within ⟨?_, ?_, fun hs => ?_⟩ (Step.outside (I := I) (n := n) hu).within
    · rw [size_addStruct]
      exact Nat.lt_succ_self _
    · rw [hself, has_addStruct]
      exact has_addTable_self .text _
    · rw [hself] at hs
      exact not_sealed_addStruct hsv ctor _ (hs.le (hsize ▸ hn))

/-- The values of fields are there. -/
def OwnsFields (w : World ε) (fields : List Field) : Prop := ∀ field ∈ fields, w.Owns field.2

instance (w : World ε) (fields : List Field) : Decidable (OwnsFields w fields) :=
  inferInstanceAs (Decidable (∀ field ∈ fields, w.Owns field.2))

theorem fillFields_along [Changing I n R] {t : TableId .text} {fields : List Field} (h : w.Sound I) (ht : w.Has t)
    (hseal : ¬ w.Sealed n t) (hown : OwnsFields w fields) : Along R w (fillFields t fields) fun _ _ => True := by
  unfold fillFields
  refine forM_along fields h fun (name, value) hm v hin hs => ?_
  exact insert_along textKeying_follows hs (hin.has t ht) (fun hs => hseal (hin.sealed_of_has ht hs)) trivial
    (hin.owns (hown (name, value) hm))

/-- Making a struct of given fields, apart from the memory that the work takes. -/
def filledStruct (ctor : Value) (hint : Nat) (fields : List Field) : Run ε StructId := do
  let s ← newStruct ctor hint
  fillFields ((← get).struct s).fields fields
  return s

theorem filledStruct_along [Working I n R] (h : w.Sound I) (hn : n ≤ w.structs.size) {ctor : Value}
    (hctor : w.Owns ctor) (hint : Nat) {fields : List Field} (hown : OwnsFields w fields) :
    Along R w (filledStruct ctor hint fields) fun s w' => w'.Owns (.struct s) := by
  unfold filledStruct
  refine (newStruct_along h hn hctor hint).bind fun s v hv hf => .read (run_get v) ?_
  have he := BySteps.evolves h hv
  have hs := he.sound h
  refine (fillFields_along hs hf.has hf.unsealed fun field hm =>
    he.within.owns (hown field hm)).bind fun _ u hu _ => .pure ?_
  exact (BySteps.evolves hs hu).within.owns (v := .struct s) hf.index

theorem mem_insertBy {α : Type} {name : α → Bytes} {x y : α} : ∀ {l : List α}, y ∈ insertBy name x l → y = x ∨ y ∈ l
  | [], hm => .inl (List.mem_singleton.1 hm)
  | z :: l, hm => by
    unfold insertBy at hm
    split at hm
    · exact List.mem_cons.1 hm
    · rcases List.mem_cons.1 hm with rfl | hm
      · exact .inr List.mem_cons_self
      · rcases mem_insertBy hm with rfl | hm
        · exact .inl rfl
        · exact .inr (List.mem_cons_of_mem _ hm)

theorem mem_sortBy {α : Type} {name : α → Bytes} {y : α} : ∀ {l : List α}, y ∈ sortBy name l → y ∈ l
  | x :: l, hm => by
    rcases mem_insertBy (l := sortBy name l) hm with rfl | hm
    · exact List.mem_cons_self
    · exact List.mem_cons_of_mem _ (mem_sortBy hm)

theorem createStruct_along [Working I n R] (h : w.Sound I) (hn : n ≤ w.structs.size) {ctor : Value}
    (hctor : w.Owns ctor) {fields : List Field} (hown : OwnsFields w fields) :
    Along R w (createStruct ctor fields) fun s w' => w'.Owns (.struct s) := by
  unfold createStruct
  refine (Along.withScratch (Q := fun s w' => w'.Owns (.struct s)) fun v hv => ?_).weaken ?_
  · have hin := (Step.outside (I := I) (n := n) hv).within
    exact filledStruct_along (Step.sound (n := n) h (.outside hv)) (Nat.le_trans hn hin.size_le) (hin.owns hctor) _
      fun field hm => hin.owns (hown field (mem_sortBy hm))
  · rintro s w' _ ⟨v, hs, hv⟩
    exact (Step.outside (I := I) (n := n) hv).within.owns hs

theorem makeStruct_along [Working I n R] (h : w.Sound I) (hn : n ≤ w.structs.size) (positional : List Value)
    {fields : List Field} (hown : OwnsFields w fields) :
    Along R w (makeStruct positional fields) fun s w' => w'.Owns (.struct s) := by
  unfold makeStruct
  dsimp only
  split
  · exact Along.raise.bind (P := fun _ _ => False) fun _ _ _ hf => hf.elim
  · have hctor : w.Owns defaultConstructor := trivial
    exact createStruct_along h hn hctor hown

/-! ## Reading structs -/

theorem fieldNames_along [Course R] (s : StructId) : Along R w (fieldNames s) fun _ _ => True :=
  .read (run_get w) (keyList_along _)

section
variable [BySteps I R]

theorem field?_along (h : w.Sound I) {s : StructId} (hs : w.Owns (.struct s)) (name : Bytes) :
    Along R w (field? s name) fun found w' => ∀ v ∈ found, w'.Owns v := by
  unfold field?
  exact .read (run_get w) (lookup_along textKeying_follows h (h.fields s hs) trivial)

theorem requireField_along (hh : host.Follows I R) (h : w.Sound I) {s : StructId} (hs : w.Owns (.struct s))
    (name : Bytes) : Along R w (requireField host s name) fun v w' => w'.Owns v := by
  unfold requireField
  refine (field?_along h hs name).bind fun found v hv hfound => ?_
  cases found with
  | some x => exact .pure (hfound x rfl)
  | none =>
    have he := BySteps.evolves h hv
    refine .read (run_get v) ?_
    dsimp only
    split
    · exact .read (run_pure _ v) .raise
    · have hown := (he.sound h).ctors s (he.within.owns hs)
      exact ((display_handles hh _ (he.sound h) hown).map (Q := fun _ _ => True) some).bind fun _ _ _ _ => .raise

theorem hasField_along (h : w.Sound I) {s : StructId} (hs : w.Owns (.struct s)) (name : Bytes) :
    Along R w (hasField s name) fun _ _ => True :=
  (field?_along h hs name).bind fun _ _ _ _ => .pure trivial

theorem displayStruct_along (hh : host.Follows I R) (h : w.Sound I) {s : StructId} (hs : w.Owns (.struct s)) :
    Along R w (displayStruct host s) fun _ _ => True := by
  have hstep : Step I 0 w w.newTrail := .outside (alike_newTrail w)
  exact (Along.onTrail (Q := fun _ _ => True) <| .read (run_get _) <|
    structText_along (writeAt_handles hh _ _) (hstep.sound h) (hstep.within.owns hs)).trivial

theorem dictsEqualWithin_along (hh : host.Follows I R) (h : w.Sound I) (depth : Int) {x y : TableId .any}
    (hx : w.Has x) (hy : w.Has y) : Along R w (dictsEqualWithin host depth x y) fun _ _ => True :=
  dictsEqual_along (valueKeying_follows hh) (equalWithin_handles hh (depth - 1)) h hx hy

theorem structsEqualWithin_along (hh : host.Follows I R) (h : w.Sound I) (depth : Int) {x y : StructId}
    (hx : w.Owns (.struct x)) (hy : w.Owns (.struct y)) :
    Along R w (structsEqualWithin host depth x y) fun _ _ => True :=
  structsEqual_along (equal_handles hh) (equalWithin_handles hh (depth - 1)) hh h hx hy

end

/-! ## Merging, and dicts -/

theorem mem_weave {x f : Field} {rest : List Field → List Field} {P : Field → Prop} (hx : P x)
    (hrest : ∀ ys, (∀ y ∈ ys, P y) → ∀ g ∈ rest ys, P g) : ∀ ys, (∀ y ∈ ys, P y) → f ∈ weave x rest ys → P f
  | [], hys, hm => by
    rcases List.mem_cons.1 hm with rfl | hm
    · exact hx
    · exact hrest [] hys f hm
  | y :: ys, hys, hm => by
    have htail : ∀ z ∈ ys, P z := fun z hz => hys z (List.mem_cons_of_mem _ hz)
    unfold weave at hm
    split at hm <;> rcases List.mem_cons.1 hm with rfl | hm
    · exact hx
    · exact hrest _ hys f hm
    · exact hys _ List.mem_cons_self
    · exact hrest ys htail f hm
    · exact hys _ List.mem_cons_self
    · exact mem_weave hx hrest ys htail hm

/-- Every field of a merge is a field of one of the lists. -/
theorem mem_mergeFields {P : Field → Prop} : ∀ (xs ys : List Field), (∀ x ∈ xs, P x) → (∀ y ∈ ys, P y) →
    ∀ f ∈ mergeFields xs ys, P f
  | [], _, _, hys, f, hm => hys f hm
  | x :: xs, ys, hxs, hys, _, hm =>
    mem_weave (hxs x List.mem_cons_self)
      (fun zs hzs g hg => mem_mergeFields xs zs (fun z hz => hxs z (List.mem_cons_of_mem _ hz)) hzs g hg) ys hys hm

theorem run_fieldsOf (s : StructId) (w : World ε) :
    fieldsOf s w = (.ok (w.table (w.struct s).fields).items, w) := rfl

theorem ownsFields_of_sound (h : w.Sound I) (s : StructId) : OwnsFields w (w.table (w.struct s).fields).items :=
  fun field hm => (h.items (w.struct s).fields field hm).2

/-- Merging keeps to a course if filling a struct with the fields of the two does. -/
theorem mergeStructs_along_of [BySteps I R] (hh : host.Follows I R) (h : w.Sound I) {x y : StructId}
    (hx : w.Owns (.struct x)) (hy : w.Owns (.struct y)) {Q : StructId → World ε → Prop}
    (hfill : ∀ {v : World ε}, R w v → ∀ hint, Along R v (filledStruct (w.struct x).ctor hint
      (mergeFields (v.table (v.struct x).fields).items (v.table (v.struct y).fields).items)) Q) :
    Along R w (mergeStructs host x y) Q := by
  unfold mergeStructs
  refine .read (run_get w) (.read (run_get w) ?_)
  have hcx := h.ctors x hx
  have hcy := h.ctors y hy
  refine (sameConstructor_handles (equal_handles hh) hh .merge _ _ h hcx hcy).bind fun verdict v hv _ => ?_
  split
  · exact .read (run_fieldsOf x v) (.read (run_fieldsOf y v) (hfill hv _))
  · have he := BySteps.evolves h hv
    have hs := he.sound h
    refine (display_handles hh _ hs (he.within.owns hcx)).bind fun left u hu _ => ?_
    have he' := BySteps.evolves hs hu
    exact (display_handles hh _ (he'.sound hs) (he'.within.owns (he.within.owns hcy))).bind fun _ _ _ _ => .raise

theorem mergeStructs_along [Working I n R] (hh : host.Follows I R) (h : w.Sound I) (hn : n ≤ w.structs.size)
    {x y : StructId} (hx : w.Owns (.struct x)) (hy : w.Owns (.struct y)) :
    Along R w (mergeStructs host x y) fun s w' => w'.Owns (.struct s) := by
  refine mergeStructs_along_of hh h hx hy fun {v} hv hint => ?_
  have he := BySteps.evolves h hv
  have hs := he.sound h
  have hmerged := mem_mergeFields _ _ (ownsFields_of_sound hs x) (ownsFields_of_sound hs y)
  exact filledStruct_along hs (Nat.le_trans hn he.within.size_le) (he.within.owns (h.ctors x hx)) hint hmerged

theorem newDict_along [Working I n R] (hint : UInt32) : Along R w (newDict hint) fun d w' => w'.Owns (.dict d) := by
  unfold newDict
  refine (Along.newObject (Q := fun d w' => w'.Has d) fun v _ => (newTable_along .any hint).weaken ?_).weaken ?_
  · exact fun _ _ _ hd => hd.2
  rintro d w' _ ⟨v, hd, hv⟩
  exact (Step.outside (I := I) (n := n) hv).within.has d hd

/-- Putting the fields of a struct into a dict keeps to a course if each insertion does. -/
theorem structIntoDict_along_of [BySteps I R] (h : w.Sound I) {s : StructId} {d : TableId .any} (hd : w.Has d)
    (hinsert : ∀ {v : World ε} {value : Value} (name : Bytes), v.Sound I → v.Has d → v.Owns value →
      Along R v (insert (valueKeying host) d (.str name) value) fun _ _ => True) :
    Along R w (structIntoDict host s d) fun _ _ => True := by
  unfold structIntoDict
  refine .read (run_fieldsOf s w) (forM_along _ h fun (name, value) hm v hin hs => ?_)
  exact hinsert name hs (hin.has d hd) (hin.owns (ownsFields_of_sound h s (name, value) hm))

theorem structIntoDict_along [Changing I n R] (hh : host.Follows I R) (h : w.Sound I) {s : StructId} {d : TableId .any}
    (hd : w.Has d) : Along R w (structIntoDict host s d) fun _ _ => True :=
  structIntoDict_along_of h hd fun _ hs hd hvalue => insert_along (valueKeying_follows hh) hs hd id trivial hvalue

end ValueCore
