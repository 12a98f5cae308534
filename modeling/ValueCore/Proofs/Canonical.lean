import ValueCore.Proofs.Collation
import ValueCore.Proofs.Operations.Outcomes
import ValueCore.Proofs.Verdict.Persistence
import ValueCore.Proofs.World.Parts

/-!
# Structs are canonical

What is in a new struct depends on nothing but the last value that was given to each name (`run_createStruct`). So fields
may be given in another order, as long as those of one name stay in theirs: making the struct is then one and the same
computation (`createStruct_congr`). And of two structs that were made so, no matter when, one is as good as the other
(`World.ReadAlike`): they have the same fields, hash alike and are written alike.

When a value is written then containers that are reached again are left out. A struct that is reached from its own
fields, through a dict that it was put into later on, is left out there, but its twin is not. That is the one thing
which can tell two such structs apart, so it is excluded where values are written (`World.Matching.display`). It does not
matter where a struct is written that is not counted among the containers being written (`World.Matching.displayStruct`).
-/

namespace ValueCore

open World

variable {ε : Type} {I : Inventory ε} {n : Nat} {w w' v : World ε} {host : Host ε} {s s' : StructId}

/-! ## What a struct is made of -/

/-- The distinct names of a list of fields in ascending order, each with the value of its last occurrence. -/
structure CanonicalFor (fields items : List Field) : Prop where
  ascending : StrictlyAscending items
  names : ∀ name, name ∈ items.map (·.1) ↔ name ∈ fields.map (·.1)
  values : ∀ name value, (name, value) ∈ items ↔ fields.reverse.lookup name = some value

theorem canonicalFor_canonicalFields (fields : List Field) : CanonicalFor fields (canonicalFields fields) := by
  have hascending := strict_canonicalFields fields
  refine ⟨hascending, fun name => ?_, fun name value => ?_⟩
  · rw [mem_names_iff, lookup_canonicalFields, ← mem_names_iff, List.map_reverse, List.mem_reverse]
  · rw [hascending.mem_iff, lookup_canonicalFields]

/-- The struct has this constructor and just the fields that these come to. -/
structure World.Made (w : World ε) (s : StructId) (ctor : Value) (fields : List Field) : Prop where
  ctor : (w.struct s).ctor = ctor
  items : (w.table (w.struct s).fields).items = canonicalFields fields

/-- **What making a struct comes to**, in whatever world. -/
theorem run_createStruct (ctor : Value) (fields : List Field) (w : World ε) :
    (createStruct ctor fields w).1 = .error (.raised .memory) ∨
    ∃ s v, createStruct ctor fields w = (.ok s, v) ∧ v.Made s ctor fields := by
  unfold createStruct withScratch
  rcases (asks_allocateElements (w := w) fields.length fieldBytes).outcome with ⟨v, _, hr⟩ | ⟨v, b, _, hr⟩
  · exact .inl (by rw [run_bind_error hr])
  rw [run_bind_ok hr, run_afterwards]
  change (filledStruct ctor fields.length (sortFields fields) v).1 = _ ∨ ∃ s u, ((filledStruct ctor fields.length
    (sortFields fields) v).1, (filledStruct ctor fields.length (sortFields fields) v).2.freed b _) = _ ∧ _
  rcases run_filledStruct ctor fields.length (sortFields fields) v with
    ⟨u, _, hr⟩ | ⟨s, u, done, _, hadds, ⟨hr, rfl⟩ | hr⟩
  · exact .inl (by rw [hr])
  · exact .inr ⟨s, u.freed b (fields.length * fieldBytes), by rw [hr], ⟨hadds.ctor, hadds.items⟩⟩
  · exact .inl (by rw [hr])

/-! ## Fields in another order -/

/-- The same fields, perhaps in another order; but those of one name are in the same order. -/
def Reordered (a b : List Field) : Prop := ∀ name, a.filter (·.1 = name) = b.filter (·.1 = name)

instance (a b : List Field) : Decidable (Reordered a b) := by
  refine decidable_of_iff (∀ name ∈ (a ++ b).map Prod.fst, a.filter (·.1 = name) = b.filter (·.1 = name))
    ⟨fun h name => ?_, fun h name _ => h name⟩
  by_cases hm : name ∈ (a ++ b).map Prod.fst
  · exact h name hm
  · -- a name that does not occur at all
    have hnone : ∀ item ∈ a ++ b, ¬ item.1 = name := fun item hi heq => hm (heq ▸ List.mem_map_of_mem hi)
    rw [List.filter_eq_nil_iff.2 fun item hi => by simpa using hnone item (List.mem_append_left b hi),
      List.filter_eq_nil_iff.2 fun item hi => by simpa using hnone item (List.mem_append_right a hi)]

theorem Reordered.perm {a b : List Field} (h : Reordered a b) : a.Perm b := by
  have hsort : sortBy (·.1) a = sortBy (·.1) b := sortBy_congr h
  exact (perm_sortBy a).symm.trans (hsort ▸ perm_sortBy b)

/-- **The order of the fields does not matter** but for those of one name. -/
theorem createStruct_congr {a b : List Field} (h : Reordered a b) (ctor : Value) :
    (createStruct ctor a : Run ε StructId) = createStruct ctor b := by
  have hsort : sortFields a = sortFields b := sortBy_congr h
  unfold createStruct
  rw [h.perm.length_eq, hsort]

/-! ## Structs of the same fields -/

/-- Two structs with the same constructor and the same fields. -/
structure World.Matching (w : World ε) (s s' : StructId) : Prop where
  ctor : (w.struct s).ctor = (w.struct s').ctor
  items : (w.table (w.struct s).fields).items = (w.table (w.struct s').fields).items

/-- Hashing one is hashing the other. -/
theorem World.Matching.hash (ht : w.Matching s s') (host : Host ε) :
    hashValue host (.struct s) w = hashValue host (.struct s') w := by
  have hfields : hashFields (hashAt host (w.structs.size + 1)) (w.table (w.struct s).fields).items {} w =
      hashFields (hashAt host (w.structs.size + 1)) (w.table (w.struct s').fields).items {} w := by rw [ht.items]
  exact hfields

/-- Writing one is writing the other. The constructor comes first; meanwhile the host may do anything, but the fields
are sealed. -/
theorem World.Matching.structText (ht : w.Matching s s') {write : Value → Run ε Bytes} (hwrite : Handles I (Passes I) write)
    (h : w.Sound I) (hs : w.Owns (.struct s)) (hs' : w.Owns (.struct s')) :
    structText write s w = ValueCore.structText write s' w := by
  have hbody : ∀ {v : World ε} (head : Bytes), Passes I w v → (do
      let fields ← (← readTable (w.struct s).fields).items.mapM fun field => do
        return field.1 ++ ascii " = " ++ (← write field.2)
      return head ++ ascii "(" ++ Bytes.joined (ascii ", ") fields ++ ascii ")" : Run ε Bytes) v = (do
      let fields ← (← readTable (w.struct s').fields).items.mapM fun field => do
        return field.1 ++ ascii " = " ++ (← write field.2)
      return head ++ ascii "(" ++ Bytes.joined (ascii ", ") fields ++ ascii ")" : Run ε Bytes) v := by
    intro v head hpass
    have hkept : ∀ {s : StructId}, w.Owns (.struct s) →
        (v.table (w.struct s).fields).items = (w.table (w.struct s).fields).items := fun {s} hs =>
      (Evolves.same_of_sealed hpass h (h.fields s hs) ⟨s, hs, hs, rfl⟩).kept.items_eq
    rw [run_bind_ok (run_readTable _ v), run_bind_ok (run_readTable _ v), hkept hs, hkept hs', ht.items]
  unfold ValueCore.structText
  rw [run_bind_ok (run_get w), run_bind_ok (run_get w)]
  dsimp only
  rw [ht.ctor]
  split
  · exact hbody _ (Course.outside (.refl w))
  · have hpass := (hwrite _ h (h.ctors s' hs')).ends
    cases hr : write (w.struct s').ctor w with
    | mk r v =>
      rw [hr] at hpass
      cases r with
      | error e => rw [run_bind_error hr, run_bind_error hr]
      | ok head =>
        rw [run_bind_ok hr, run_bind_ok hr]
        exact hbody _ hpass

theorem World.Matching.displayStruct (ht : w.Matching s s') (hh : host.Respects I) (h : w.Sound I) (hs : w.Owns (.struct s))
    (hs' : w.Owns (.struct s')) : displayStruct host s w = ValueCore.displayStruct host s' w := by
  have hstep : Step I 0 w w.newTrail := .outside (alike_newTrail w)
  have ht' : w.newTrail.Matching s s' := ⟨ht.ctor, ht.items⟩
  have hwrite : Handles I (Passes I) (writeAt host (w.newTrail.containers + 2) []) := writeAt_handles hh.follows _ _
  have hsame : (do ValueCore.structText (writeAt host ((← get).containers + 2) []) s : Run ε Bytes) w.newTrail =
      (do ValueCore.structText (writeAt host ((← get).containers + 2) []) s' : Run ε Bytes) w.newTrail := by
    rw [run_bind_ok (run_get _), run_bind_ok (run_get _)]
    exact ht'.structText hwrite (hstep.sound h) (hstep.within.owns hs) (hstep.within.owns hs')
  unfold ValueCore.displayStruct
  rw [run_onTrail, run_onTrail, hsame]

/-! ## Texts of values -/

/-- The text of a value depends on which of the containers that are being written can be reached from it. -/
theorem text_congr : ∀ (fuel : Nat) {p q : List Value} {x : Value}, (∀ y, w.Reaches x y → (y ∈ p ↔ y ∈ q)) →
    w.text fuel p x = w.text fuel q x
  | 0, _, _, _, _ => rfl
  | fuel + 1, p, q, x, h => by
    have hself := h x .refl
    have hpart : ∀ y, w.Part x y → w.text fuel (x :: p) y = w.text fuel (x :: q) y := fun y hy =>
      text_congr fuel fun z hz => by rw [List.mem_cons, List.mem_cons, h z (.head hy hz)]
    unfold World.text
    cases x with
    | none | bool | int | float | str | host => rfl
    | dict t =>
      simp only [hself]
      split
      · rfl
      · exact dictWritten_congr fun item hm => ⟨hpart _ (.key hm), hpart _ (.value hm)⟩
    | struct s =>
      simp only [hself]
      split
      · rfl
      · exact structWritten_congr (hpart _ (.ctor s)) fun field hm => hpart _ (.field hm)

/-- None of the parts of the first struct comes to one of the two. -/
def World.Unlooped (w : World ε) (s s' : StructId) : Prop :=
  ∀ y, w.Part (.struct s) y → ¬ w.Reaches y (.struct s) ∧ ¬ w.Reaches y (.struct s')

theorem World.Matching.symm (ht : w.Matching s s') : w.Matching s' s := ⟨ht.ctor.symm, ht.items.symm⟩

theorem World.Matching.part (ht : w.Matching s s') {y : Value} (hp : w.Part (.struct s) y) : w.Part (.struct s') y := by
  rw [← mem_parts] at hp ⊢
  rw [parts, ht.ctor, ht.items] at hp
  exact hp

/-- They have the same text, unless one of them is written within it. -/
theorem World.Matching.shown (ht : w.Matching s s') (hs : w.Unlooped s s') :
    w.shown (.struct s) = w.shown (.struct s') := by
  have hpart : ∀ y, w.Part (.struct s) y →
      w.text (w.containers + 1) [.struct s'] y = w.text (w.containers + 1) [.struct s] y := fun y hy =>
    text_congr _ fun z hz => by
      have hne : z ≠ .struct s := fun heq => (hs y hy).1 (heq ▸ hz)
      have hne' : z ≠ .struct s' := fun heq => (hs y hy).2 (heq ▸ hz)
      simp [hne, hne']
  show structWritten (w.text (w.containers + 1) [.struct s]) _ _ =
    structWritten (w.text (w.containers + 1) [.struct s']) _ _
  rw [← ht.ctor, ← ht.items]
  exact (structWritten_congr (hpart _ (.ctor s)) fun field hm => hpart _ (.field hm)).symm

/-- Writing either comes to the same text. -/
theorem World.Matching.display (ht : w.Matching s s') (host : Host ε) (h : w.Sound I) (hown : w.Owns (.struct s))
    (hown' : w.Owns (.struct s')) (hfree : w.HostFree (.struct s)) (hs : w.Unlooped s s') :
    ∃ text, w.Answers (display host (.struct s)) (.ok text) ∧
      w.Answers (ValueCore.display host (.struct s')) (.ok text) := by
  have hfree' : w.HostFree (.struct s') := fun y hr => by
    rcases Relation.ReflTransGen.cases_head hr with heq | ⟨z, hz, hr⟩
    · rw [← heq]
      trivial
    · exact hfree y (.head (ht.symm.part hz) hr)
  refine ⟨w.shown (.struct s), answers_display (region_free h) (fun _ hx => hx.2) ⟨hfree, hown⟩, ?_⟩
  rw [ht.shown hs]
  exact answers_display (region_free h) (fun _ hx => hx.2) ⟨hfree', hown'⟩

/-! ## Structs, no matter when they were made -/

/-- Two structs that read alike. Only `display` asks for more: that they hold none of the host's values, which may look at
both, and that neither is written within the other, where it would be left out as reached again. -/
structure World.ReadAlike (I : Inventory ε) (w : World ε) (s s' : StructId) : Prop where
  matching : w.Matching s s'
  hash : ∀ host : Host ε, hashValue host (.struct s) w = hashValue host (.struct s') w
  displayStruct : ∀ host : Host ε, Civil I host → displayStruct host s w = ValueCore.displayStruct host s' w
  display : ∀ host : Host ε, w.HostFree (.struct s) → w.Unlooped s s' → ∃ text,
    w.Answers (display host (.struct s)) (.ok text) ∧ w.Answers (ValueCore.display host (.struct s')) (.ok text)

/-- What a struct is made of stays. -/
theorem World.Made.attempts {hosts : Host ε → Prop} {ctor : Value} {fields : List Field} (hm : v.Made s ctor fields)
    (hi : ∀ h, hosts h → h.Respects I) (h : v.Sound I) (hs : v.Owns (.struct s)) (ha : Attempts I hosts v w) :
    w.Made s ctor fields := by
  have he := ha.evolves hi h
  have hstruct := he.within.struct_eq s hs
  refine ⟨by rw [hstruct]; exact hm.ctor, ?_⟩
  rw [hstruct, (he.same_of_sealed h (h.fields s hs) ⟨s, hs, hs, rfl⟩).kept.items_eq]
  exact hm.items

theorem createStruct_made {ctor : Value} {fields : List Field} (h : w.Sound I) (hctor : w.Owns ctor)
    (hown : OwnsFields w fields) (hr : createStruct ctor fields w = (.ok s, v)) :
    v.Made s ctor fields ∧ v.Owns (.struct s) ∧ Evolves I 0 w v := by
  have hgo := createStruct_along (R := Evolves I 0) h (Nat.zero_le _) hctor hown
  have he := hgo.ends
  rw [hr] at he
  refine ⟨?_, hgo.post _ _ hr, he⟩
  rcases run_createStruct ctor fields w with hm | ⟨s', v', hr', hmade⟩
  · rw [hr] at hm
    cases hm
  · rw [hr] at hr'
    cases hr'
    exact hmade

theorem attempts_createStruct {ctor : Value} {fields : List Field} (hctor : w.Owns ctor) (hown : OwnsFields w fields)
    (hr : createStruct ctor fields w = (.ok s, v)) : Attempts I (Civil I) w v := by
  have hend : ((Operation.createStruct ctor fields).run mute w).2 = v := by
    simp only [Operation.run, run_discard, hr]
  exact hend ▸ (Attempts.refl).call mute (.createStruct ctor fields) mute_civil ⟨hctor, hown⟩

/-- **Two structs made of the same fields read alike**, whatever was attempted between making one and the other, and
whatever was attempted since. -/
theorem readAlike_of_created {u x y : World ε} {ctor : Value} {a b : List Field} (h : w.Sound I) (hctor : w.Owns ctor)
    (hown : OwnsFields w a) (hab : Reordered a b) (hr : createStruct ctor a w = (.ok s, v))
    (hvu : Attempts I (Civil I) v u) (hr' : createStruct ctor b u = (.ok s', x)) (hxy : Attempts I (Civil I) x y) :
    y.ReadAlike I s s' := by
  obtain ⟨hmade, hs, hwv⟩ := createStruct_made h hctor hown hr
  have hcivil : ∀ h : Host ε, Civil I h → h.Respects I := fun _ hc => hc.respects
  have hv := hwv.sound h
  have hwu := hwv.trans ((hvu.evolves hcivil hv).le (Nat.zero_le _))
  have hu := hwu.sound h
  have hctoru := hwu.within.owns hctor
  have hownb : OwnsFields u b := fun field hm => hwu.within.owns (hown field (hab.perm.mem_iff.2 hm))
  obtain ⟨hmade', hs', hux⟩ := createStruct_made hu hctoru hownb hr'
  have hx := hux.sound hu
  -- making the second struct is one of the things that were attempted since the first was made
  have hvy : Attempts I (Civil I) v y := (hvu.trans (attempts_createStruct hctoru hownb hr')).trans hxy
  have hy := (hvy.evolves hcivil hv).sound hv
  have hsy : y.Owns (.struct s) := (hvy.evolves hcivil hv).within.owns hs
  have hsy' : y.Owns (.struct s') := (hxy.evolves hcivil hx).within.owns hs'
  have hfirst := hmade.attempts hcivil hv hs hvy
  have hsecond := hmade'.attempts hcivil hx hs' hxy
  have hsort : canonicalFields a = canonicalFields b := congrArg (setFields · []) (sortBy_congr hab)
  have ht : y.Matching s s' := ⟨hfirst.ctor.trans hsecond.ctor.symm, by rw [hfirst.items, hsecond.items, hsort]⟩
  exact ⟨ht, ht.hash, fun host hc => ht.displayStruct hc.respects hy hsy hsy', fun host => ht.display host hy hsy hsy'⟩

/-- **Structs are canonical.** In every reachable world the names of the fields of every struct are in strictly ascending
order, whether the struct was created, made or merged. A list of fields comes to its distinct names, each with its last
value, in whatever world. In what order the fields are given does not matter, but for those of one name: making the struct
is the same computation, so whatever is done with it afterwards is the same as well. And two structs that are made so at any
time, and are both there, read alike from then on. -/
theorem structs_canonical {I : Inventory ε} :
    (∀ {w : World ε}, Reachable I w → w.Collated) ∧
    (∀ (ctor : Value) (fields : List Field) (w : World ε), (createStruct ctor fields w).1 = .error (.raised .memory) ∨
      ∃ s v, createStruct ctor fields w = (.ok s, v) ∧ (v.struct s).ctor = ctor ∧
        CanonicalFor fields (v.table (v.struct s).fields).items) ∧
    (∀ (fields : List Field) (w : World ε), (makeStruct [] fields w).1 = .error (.raised .memory) ∨
      ∃ s v, makeStruct [] fields w = (.ok s, v) ∧ (v.struct s).ctor = defaultConstructor ∧
        CanonicalFor fields (v.table (v.struct s).fields).items) ∧
    (∀ (ctor : Value) (a b : List Field), Reordered a b → (createStruct ctor a : Run ε StructId) = createStruct ctor b) ∧
    ∀ {w v u x y : World ε} {s s' : StructId} {ctor : Value} {a b : List Field}, Reachable I w → w.Owns ctor →
      OwnsFields w a → Reordered a b → createStruct ctor a w = (.ok s, v) → Attempts I (Civil I) v u →
      createStruct ctor b u = (.ok s', x) → Attempts I (Civil I) x y → y.ReadAlike I s s' := by
  have hcreate : ∀ (ctor : Value) (fields : List Field) (w : World ε),
      (createStruct ctor fields w).1 = .error (.raised .memory) ∨
      ∃ s v, createStruct ctor fields w = (.ok s, v) ∧ (v.struct s).ctor = ctor ∧
        CanonicalFor fields (v.table (v.struct s).fields).items := by
    intro ctor fields w
    refine (run_createStruct ctor fields w).imp_right ?_
    rintro ⟨s, v, hr, hmade⟩
    exact ⟨s, v, hr, hmade.ctor, hmade.items ▸ canonicalFor_canonicalFields fields⟩
  refine ⟨Reachable.collated, hcreate, hcreate defaultConstructor, fun ctor a b h => createStruct_congr h ctor, ?_⟩
  intro w v u x y s s' ctor a b hr hctor hown hab hs hvu hs' hxy
  exact readAlike_of_created hr.sound hctor hown hab hs hvu hs' hxy

/-! ## A point, made twice -/

/-- Fields whose names begin each other, contain a NUL and have bytes of any value. One name occurs twice. -/
def pointFields : List Field :=
  [([0x62], .int 1), ([0x61, 0xFF], .int 2), ([0x62], .int 3), ([0x61], .none), ([0x61, 0], .bool true)]

/-- The same, in another order. -/
def shuffledFields : List Field :=
  [([0x61, 0], .bool true), ([0x62], .int 1), ([0x61], .none), ([0x62], .int 3), ([0x61, 0xFF], .int 2)]

/-- A world with a struct of the first fields. -/
def onePoint : World Unit := (createStruct .none pointFields (.unused ())).2

/-- Something else is made. -/
def meanwhile : World Unit := inTurn [.newDict 0, .createStruct .none [([0x61], .int 7), ([0x63], .dict ⟨0⟩)]] onePoint

/-- A struct of the other fields is added. -/
def twoPoints : World Unit := (createStruct .none shuffledFields meanwhile).2

/-- The structs are merged, and what comes of it is merged again. -/
def mergedPoints : World Unit := inTurn [.mergeStructs ⟨1⟩ ⟨0⟩, .mergeStructs ⟨2⟩ ⟨3⟩] twoPoints

theorem structs_canonical_points :
    (mergedPoints.table (mergedPoints.struct ⟨0⟩).fields).items =
      [([0x61], .none), ([0x61, 0], .bool true), ([0x61, 0xFF], .int 2), ([0x62], .int 3)] ∧
    (mergedPoints.table (mergedPoints.struct ⟨4⟩).fields).items =
      [([0x61], .none), ([0x61, 0], .bool true), ([0x61, 0xFF], .int 2), ([0x62], .int 3), ([0x63], .dict ⟨0⟩)] ∧
    mergedPoints.Collated ∧ mergedPoints.ReadAlike .nothing ⟨0⟩ ⟨2⟩ := by
  obtain ⟨hcollated, -, -, -, hread⟩ := structs_canonical (ε := Unit) (I := .nothing)
  have hnone : ∀ w : World Unit, w.Owns .none := fun _ => trivial
  have hbare : Reachable .nothing (World.unused ()) := ⟨_, bare_unused (), .refl⟩
  have hfirst : createStruct .none pointFields (.unused ()) = (.ok ⟨0⟩, onePoint) :=
    run_eq_of_answer (by decide +kernel)
  have hsecond : createStruct .none shuffledFields meanwhile = (.ok ⟨2⟩, twoPoints) :=
    run_eq_of_answer (by decide +kernel)
  have hafter : Attempts .nothing (Civil .nothing) onePoint meanwhile := .inTurn mute_civil .refl (by decide +kernel)
  have hmerged : Attempts .nothing (Civil .nothing) twoPoints mergedPoints := .inTurn mute_civil .refl (by decide +kernel)
  have hreach : Reachable .nothing mergedPoints := by
    have hone : Attempts .nothing (Civil .nothing) (.unused ()) onePoint :=
      attempts_createStruct (hnone _) (by decide +kernel) hfirst
    have htwo : Attempts .nothing (Civil .nothing) meanwhile twoPoints :=
      attempts_createStruct (hnone _) (by decide +kernel) hsecond
    exact ⟨_, bare_unused (), ((hone.trans hafter).trans htwo).trans hmerged⟩
  exact ⟨by decide +kernel, by decide +kernel, hcollated hreach,
    hread hbare (hnone _) (by decide +kernel) (by decide +kernel) hfirst hafter hsecond hmerged⟩

end ValueCore
