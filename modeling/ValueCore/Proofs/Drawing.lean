import ValueCore.Proofs.Distinctness
import ValueCore.Proofs.Operations.Outcomes
import ValueCore.Proofs.World.Parts

/-!
# What is written of a cyclic value

What is written of a value is a tree (`Drawing`): each value in it is written either in full, with its parts below it, or
as an ellipsis. Two things make it the drawing of a value (`World.Faithful`). What is written in full has below it what is
in the value, all of it and in order. And a value is written as an ellipsis exactly where it is already being written
further out.

There is one such drawing of each value, and it is what displaying the value spells out (`display_marks_cycles`). It is
finite because the values on a branch are different containers. A container that occurs twice, but not inside of itself, is
drawn twice in full; where no container is inside of itself there is no ellipsis at all.

Displaying needs memory for each container that is being written. If some is refused then it fails, but either way the tables
are as before, and what was held is held.
-/

namespace ValueCore

open World
open Relation (ReflTransGen TransGen)

variable {ε : Type} {I : Inventory ε} {w : World ε} {x y : Value} {outer path : List Value}

/-! ## Drawings -/

/-- A tree of values. -/
inductive Drawing
  /-- In place of a value. -/
  | ellipsis (x : Value)
  | full (x : Value) (parts : List Drawing)

namespace Drawing

/-- The value that is drawn. -/
def value : Drawing → Value
  | .ellipsis x | .full x _ => x

/-- Is it only marked that there is a value? -/
def IsEllipsis : Drawing → Prop
  | .ellipsis _ => True
  | .full .. => False

/-- In a drawing inside of the values `outer`, the drawing `e` occurs inside of the values `path`, nearest first. -/
inductive Occurs : List Value → Drawing → List Value → Drawing → Prop
  | here {outer : List Value} {d : Drawing} : Occurs outer d outer d
  | inside {outer path : List Value} {x : Value} {parts : List Drawing} {d e : Drawing} : d ∈ parts →
    Occurs (x :: outer) d path e → Occurs outer (.full x parts) path e

end Drawing

namespace World

/-- **A drawing of what there is**, inside of the values `outer`: what is written in full has its parts below it, and an
ellipsis is where a value is inside of itself. -/
structure Faithful (w : World ε) (outer : List Value) (d : Drawing) : Prop where
  parts : ∀ path x parts, d.Occurs outer path (.full x parts) → parts.map Drawing.value = w.parts x
  ellipsis : ∀ path e, d.Occurs outer path e → (e.IsEllipsis ↔ e.value ∈ path)

theorem faithful_ellipsis : w.Faithful outer (.ellipsis x) ↔ x ∈ outer := by
  constructor
  · exact fun h => (h.ellipsis outer _ .here).1 trivial
  · refine fun hx => ⟨fun path y parts ho => ?_, fun path e ho => ?_⟩
    · cases ho
    · cases ho
      exact ⟨fun _ => hx, fun _ => trivial⟩

theorem faithful_full {parts : List Drawing} : w.Faithful outer (.full x parts) ↔
    x ∉ outer ∧ parts.map Drawing.value = w.parts x ∧ ∀ d ∈ parts, w.Faithful (x :: outer) d := by
  constructor
  · refine fun h => ⟨fun hx => (h.ellipsis outer _ .here).2 hx, h.parts outer x parts .here, fun d hd => ⟨?_, ?_⟩⟩
    · exact fun path y ps ho => h.parts path y ps (.inside hd ho)
    · exact fun path e ho => h.ellipsis path e (.inside hd ho)
  · rintro ⟨hx, hparts, hall⟩
    refine ⟨fun path y ps ho => ?_, fun path e ho => ?_⟩
    · cases ho with
      | here => exact hparts
      | inside hd ho => exact (hall _ hd).parts path y ps ho
    · cases ho with
      | here => exact ⟨False.elim, fun h => hx h⟩
      | inside hd ho => exact (hall _ hd).ellipsis path e ho

/-! ## One drawing for each value -/

/-- Two lists of drawings of the same values are the same if each drawing is the only one of its value. -/
theorem eq_of_values_eq : ∀ {ds es : List Drawing}, ds.map Drawing.value = es.map Drawing.value →
    (∀ d ∈ ds, ∀ e ∈ es, d.value = e.value → d = e) → ds = es
  | [], [], _, _ => rfl
  | [], _ :: _, h, _ => by cases h
  | _ :: _, [], h, _ => by cases h
  | d :: ds, e :: es, h, hall => by
    obtain ⟨hhead, htail⟩ := List.cons.inj h
    rw [hall d List.mem_cons_self e List.mem_cons_self hhead, eq_of_values_eq htail fun d hd e he =>
      hall d (List.mem_cons_of_mem _ hd) e (List.mem_cons_of_mem _ he)]

/-- **There is no more than one drawing of a value.** -/
theorem Faithful.unique : ∀ {d e : Drawing} {outer : List Value}, w.Faithful outer d → w.Faithful outer e →
    d.value = e.value → d = e
  | .ellipsis x, .ellipsis y, outer, _, _, h => congrArg Drawing.ellipsis h
  | .ellipsis x, .full y _, outer, hd, he, h => by
    obtain rfl : x = y := h
    exact absurd (faithful_ellipsis.1 hd) (faithful_full.1 he).1
  | .full x _, .ellipsis y, outer, hd, he, h => by
    obtain rfl : x = y := h
    exact absurd (faithful_ellipsis.1 he) (faithful_full.1 hd).1
  | .full x ds, .full y es, outer, hd, he, h => by
    obtain rfl : x = y := h
    obtain ⟨_, hds, hd⟩ := faithful_full.1 hd
    obtain ⟨_, hes, he⟩ := faithful_full.1 he
    rw [eq_of_values_eq (hds.trans hes.symm) fun d hm e hm' => Faithful.unique (hd d hm) (he e hm')]

/-- The drawing of a value inside of the containers of `path`, in `fuel` nested steps. -/
def drawing (w : World ε) : Nat → List Value → Value → Drawing
  | 0, _, x => .ellipsis x
  | fuel + 1, path, x => if x ∈ path then .ellipsis x else .full x ((w.parts x).map (w.drawing fuel (x :: path)))

theorem value_drawing (fuel : Nat) (path : List Value) (x : Value) : (w.drawing fuel path x).value = x := by
  cases fuel with
  | zero => rfl
  | succ fuel =>
    unfold drawing
    split <;> rfl

/-- Only containers have parts. -/
theorem Part.container (h : w.Part x y) : x.Container := by cases h <;> exact trivial

/-- **There is a drawing of each value.** There is enough fuel, as the containers on a branch are different ones. -/
theorem faithful_drawing (h : w.Sound I) : ∀ (fuel : Nat) (path : List Value) (x : Value), w.Owns x → w.Path path →
    w.containers + 2 ≤ fuel + path.length → w.Faithful path (w.drawing fuel path x)
  | 0, path, x, _, hp, hfuel => by
    have := hp.length_le
    omega
  | fuel + 1, path, x, hx, hp, hfuel => by
    unfold drawing
    split
    · rename_i hm
      exact faithful_ellipsis.2 hm
    · rename_i hm
      refine faithful_full.2 ⟨hm, ?_, List.forall_mem_map.2 fun y hy => ?_⟩
      · rw [List.map_map]
        exact List.map_id'' (fun y => value_drawing fuel _ y) _
      · have hpart := mem_parts.1 hy
        exact faithful_drawing h fuel (x :: path) y (hpart.owns h hx) (hp.cons hpart.container hx hm)
          (by rw [List.length_cons]; omega)

end World

/-! ## Where there is no cycle -/

namespace Drawing

/-- What occurs in a drawing is reached from the value drawn, and so is what it is inside of, which leads on to it. -/
theorem Occurs.reaches {d e : Drawing} (ho : d.Occurs outer path e) : w.Faithful outer d →
    w.Reaches d.value e.value ∧ ∀ y ∈ path, y ∈ outer ∨ w.Reaches d.value y ∧ TransGen w.Part y e.value := by
  induction ho with
  | here => exact fun _ => ⟨.refl, fun y hy => .inl hy⟩
  | @inside outer path x parts d e hd _ ih =>
    intro hf
    obtain ⟨_, hparts, hall⟩ := World.faithful_full.1 hf
    have hpart : w.Part x d.value := World.mem_parts.1 (hparts ▸ List.mem_map_of_mem hd)
    obtain ⟨hreach, hpath⟩ := ih (hall d hd)
    refine ⟨.head hpart hreach, fun y hy => ?_⟩
    rcases hpath y hy with hy | ⟨hdy, hye⟩
    · rcases List.mem_cons.1 hy with rfl | hy
      · exact .inr ⟨.refl, .head' hpart hreach⟩
      · exact .inl hy
    · exact .inr ⟨.head hpart hdy, hye⟩

end Drawing

/-- **Where nothing is inside of itself there is no ellipsis.** -/
theorem World.Faithful.no_ellipsis {d : Drawing} (hf : w.Faithful [] d)
    (hacyclic : ∀ y, w.Reaches d.value y → ¬ TransGen w.Part y y) {e : Drawing} (ho : d.Occurs [] path e) :
    ¬ e.IsEllipsis := by
  intro he
  have hm := (hf.ellipsis path e ho).1 he
  obtain ⟨hreach, hpath⟩ := ho.reaches hf
  rcases hpath _ hm with hm | ⟨_, hcycle⟩
  · exact absurd hm List.not_mem_nil
  · exact hacyclic _ hreach hcycle

/-! ## Spelling a drawing -/

/-- Text of a value without parts. -/
def Value.scalarText : Value → Bytes
  | .none => ascii "None"
  | .bool b => if b then ascii "True" else ascii "False"
  | .int i => Bytes.decimal i.toInt
  | .float x => x.display
  | .str s => quoted s
  | .dict _ | .struct _ | .host _ => []

/-- What is written in place of a container. -/
def Value.ellipsisText : Value → Bytes
  | .dict _ => ascii "\x7b...\x7d"
  | .struct _ => ascii "struct(...)"
  | _ => []

/-- Texts of keys and values in turn make the texts of items. -/
def itemTexts : List Bytes → List Bytes
  | key :: value :: rest => (key ++ ascii ": " ++ value) :: itemTexts rest
  | _ => []

namespace World

/-- Text of a value that is written in full, whose parts have the texts `texts`. The default constructor is written by
name. -/
def spelling (w : World ε) : Value → List Bytes → Bytes
  | .dict _, texts => ascii "\x7b" ++ Bytes.joined (ascii ", ") (itemTexts texts) ++ ascii "\x7d"
  | .struct s, head :: texts =>
    (if (w.struct s).ctor = defaultConstructor then ascii "struct" else head) ++ ascii "(" ++
      Bytes.joined (ascii ", ") (List.zipWith (fun field text => field.1 ++ ascii " = " ++ text)
        (w.table (w.struct s).fields).items texts) ++ ascii ")"
  | x, _ => x.scalarText

mutual

/-- Text of a drawing. -/
def spelt (w : World ε) : Drawing → Bytes
  | .ellipsis x => x.ellipsisText
  | .full x parts => w.spelling x (w.speltAll parts)

/-- Texts of drawings, one after the other. -/
def speltAll (w : World ε) : List Drawing → List Bytes
  | [] => []
  | d :: ds => w.spelt d :: w.speltAll ds

end

theorem speltAll_eq_map : ∀ ds : List Drawing, w.speltAll ds = ds.map w.spelt
  | [] => rfl
  | d :: ds => congrArg (w.spelt d :: ·) (speltAll_eq_map ds)

theorem itemTexts_parts (text : Value → Bytes) : ∀ items : List (Value × Value),
    itemTexts ((items.flatMap fun item => [item.1, item.2]).map text) =
      items.map fun item => text item.1 ++ ascii ": " ++ text item.2
  | [] => rfl
  | item :: items => congrArg ((text item.1 ++ ascii ": " ++ text item.2) :: ·) (itemTexts_parts text items)

/-- Spelling a container is what writing it comes to. -/
theorem spelling_dict (text : Value → Bytes) (t : TableId .any) :
    w.spelling (.dict t) ((w.parts (.dict t)).map text) = dictWritten text (w.table t).items := by
  show ascii "\x7b" ++ Bytes.joined (ascii ", ") (itemTexts _) ++ ascii "\x7d" = _
  rw [parts, itemTexts_parts, dictWritten]

theorem spelling_struct (text : Value → Bytes) (s : StructId) :
    w.spelling (.struct s) ((w.parts (.struct s)).map text) =
      structWritten text (w.struct s).ctor (w.table (w.struct s).fields).items := by
  rw [parts, List.map_cons, List.map_map, spelling, structWritten, List.zipWith_map_right, List.zipWith_self]
  rfl

/-- **The text of a value is its drawing spelt out.** -/
theorem spelt_drawing (h : w.Sound I) : ∀ (fuel : Nat) (path : List Value) (x : Value), w.Owns x → w.Path path →
    w.containers + 2 ≤ fuel + path.length → w.spelt (w.drawing fuel path x) = w.text fuel path x
  | 0, path, x, _, hp, hfuel => by
    have := hp.length_le
    omega
  | fuel + 1, path, x, hx, hp, hfuel => by
    have hnew : x ∉ path → w.speltAll ((w.parts x).map (w.drawing fuel (x :: path))) =
        (w.parts x).map (w.text fuel (x :: path)) := by
      intro hm
      rw [speltAll_eq_map, List.map_map]
      refine List.map_congr_left fun y hy => ?_
      have hpart := mem_parts.1 hy
      exact spelt_drawing h fuel (x :: path) y (hpart.owns h hx) (hp.cons hpart.container hx hm)
        (by rw [List.length_cons]; omega)
    have hscalar : ¬ x.Container → x ∉ path := fun hc hm => hc (hp.container x hm)
    unfold drawing text
    cases x with
    | none | bool | int | float | str | host =>
      rw [if_neg (hscalar id)]
      rfl
    | dict t =>
      dsimp only
      split
      · rfl
      · rename_i hm
        rw [spelt, hnew hm, spelling_dict]
    | struct s =>
      dsimp only
      split
      · rfl
      · rename_i hm
        rw [spelt, hnew hm, spelling_struct]

end World

/-! ## Displaying -/

/-- **What is displayed is the drawing of the value, and it marks what is inside of itself.** If memory is granted then the
text of a value that reaches none of the host's is its only drawing, spelt out. In this there is an ellipsis exactly where a
value is already being written further out, and none if nothing that is reached is inside of itself. Otherwise displaying
raises an error for want of memory. It always ends, as does displaying a struct apart, and leaves all tables as they were. -/
theorem display_marks_cycles (h : w.Sound I) (hx : w.Owns x) (hfree : w.HostFree x) (host : Host ε) :
    (∃ d : Drawing, d.value = x ∧ w.Faithful [] d ∧ (∀ e : Drawing, e.value = x → w.Faithful [] e → e = d) ∧
      ((∀ y, w.Reaches x y → ¬ TransGen w.Part y y) → ∀ path e, d.Occurs [] path e → ¬ e.IsEllipsis) ∧
      ((display host x w).1 = .ok (w.spelt d) ∨
        ¬ w.memory.Granting ∧ (display host x w).1 = .error (.raised .memory))) ∧
    Alike w (display host x w).2 ∧
    ∀ s, x = .struct s →
      ((displayStruct host s w).1 = .ok (structWritten w.shown (w.struct s).ctor (w.table (w.struct s).fields).items) ∨
        ¬ w.memory.Granting ∧ (displayStruct host s w).1 = .error (.raised .memory)) ∧
      Alike w (displayStruct host s w).2 := by
  have hregion : w.Region fun y => w.HostFree y ∧ w.Owns y := region_free h
  have hdisplay : w.Answers (display host x) (.ok (w.shown x)) :=
    answers_display hregion (fun _ hy => hy.2) ⟨hfree, hx⟩
  let d := w.drawing (w.containers + 2) [] x
  have hvalue : d.value = x := value_drawing _ _ _
  have hfaithful : w.Faithful [] d := faithful_drawing h _ [] x hx (.nil w) (Nat.le_refl _)
  have hspelt : w.spelt d = w.shown x := spelt_drawing h _ [] x hx (.nil w) (Nat.le_refl _)
  refine ⟨⟨d, hvalue, hfaithful, fun e he hf => hf.unique hfaithful (he.trans hvalue.symm), fun hacyclic path e => ?_, ?_⟩,
    hdisplay.alike w (.refl w), fun s hs => ?_⟩
  · exact hfaithful.no_ellipsis (hvalue ▸ hacyclic)
  · rw [hspelt]
    exact hdisplay.returns (.refl w)
  · subst hs
    have hstruct : w.Answers (displayStruct host s)
        (.ok (structWritten w.shown (w.struct s).ctor (w.table (w.struct s).fields).items)) := by
      refine .onTrail (.get fun v hv => ?_)
      rw [hv.containers]
      exact answers_structText hregion (fun y hy =>
        answers_writeAt hregion (fun _ hz => hz.2) _ [] y hy (.nil w) (Nat.le_refl _)) ⟨hfree, hx⟩
    exact ⟨hstruct.returns (.refl w), hstruct.alike w (.refl w)⟩

/-- The first dict contains itself, twice the second, which is empty, and a struct whose constructor is the first dict. -/
def knot : List Operation :=
  [.newDict 0, .newDict 0, .createStruct (.dict ⟨0⟩) [(ascii "a", .dict ⟨1⟩)],
    @Operation.insert .any ⟨0⟩ (.int 1) (.dict ⟨0⟩), @Operation.insert .any ⟨0⟩ (.int 2) (.dict ⟨1⟩),
    @Operation.insert .any ⟨0⟩ (.int 3) (.dict ⟨1⟩), @Operation.insert .any ⟨0⟩ (.int 4) (.struct ⟨0⟩)]

/-- The same world with an allocator that grants `count` more requests and then none. -/
def World.allotting (w : World ε) (count : Nat) : World ε :=
  { w with memory := { w.memory with grants := fun serial _ => serial < w.memory.requests + count } }

theorem alike_allotting (w : World ε) (count : Nat) : Alike w (w.allotting count) := ⟨rfl, rfl, rfl, rfl⟩

def knotted (count : Nat) : World Unit := (inTurn knot (.unused ())).allotting count

theorem sound_knotted (count : Nat) : (knotted count).Sound .nothing ∧ (knotted count).HostFree (.dict ⟨0⟩) ∧
    (knotted count).HostFree (.struct ⟨0⟩) := by
  obtain ⟨hr, hplain⟩ : Reachable .nothing (inTurn knot (.unused ())) ∧ (inTurn knot (.unused ())).Plain :=
    reachable_inTurn (by decide +kernel)
  have halike : Alike (inTurn knot (.unused ())) (knotted count) := alike_allotting _ count
  have hplain' : (knotted count).Plain := hplain.alike halike
  exact ⟨Step.sound (n := 0) hr.sound (.outside halike), hplain'.hostFree trivial, hplain'.hostFree trivial⟩

/-- Inside of itself a container is an ellipsis, the empty dict is written in full each time. Where memory is refused inside
of the first dict, this is no longer held in place. -/
theorem display_marks_cycles_knotted :
    (∃ d : Drawing, d.value = .dict ⟨0⟩ ∧ (knotted 9).Faithful [] d ∧
      (knotted 9).spelt d = ascii "\x7b1: \x7b...\x7d, 2: \x7b\x7d, 3: \x7b\x7d, 4: \x7b...\x7d(a = \x7b\x7d)\x7d") ∧
    (∃ text, (displayStruct mute ⟨0⟩ (knotted 9)).1 = .ok text) ∧
    (display mute (.dict ⟨0⟩) (knotted 1)).1 = .error (.raised .memory) ∧
    Alike (knotted 1) (display mute (.dict ⟨0⟩) (knotted 1)).2 := by
  obtain ⟨hsound, hdict, hstruct⟩ := sound_knotted 9
  have htext : (display mute (.dict ⟨0⟩) (knotted 9)).1 =
      .ok (ascii "\x7b1: \x7b...\x7d, 2: \x7b\x7d, 3: \x7b\x7d, 4: \x7b...\x7d(a = \x7b\x7d)\x7d") := by decide +kernel
  obtain ⟨⟨d, hvalue, hfaithful, _, _, hspelt⟩, _⟩ := display_marks_cycles hsound (by decide +kernel) hdict mute
  obtain ⟨_, _, hstructs⟩ := display_marks_cycles hsound (by decide +kernel) hstruct mute
  obtain ⟨hsound', hdict', _⟩ := sound_knotted 1
  have hrefused : (display mute (.dict ⟨0⟩) (knotted 1)).1 = .error (.raised .memory) := by decide +kernel
  refine ⟨⟨d, hvalue, hfaithful, ?_⟩, ?_, hrefused, (display_marks_cycles hsound' (by decide +kernel) hdict' mute).2.1⟩
  · rcases hspelt with hspelt | ⟨_, hspelt⟩
    · exact Except.ok.inj (hspelt.symm.trans htext)
    · cases hspelt.symm.trans htext
  · rcases (hstructs ⟨0⟩ rfl).1 with hs | ⟨_, hs⟩
    · exact ⟨_, hs⟩
    · have hnot : (displayStruct mute ⟨0⟩ (knotted 9)).1 ≠ .error (.raised .memory) := by decide +kernel
      exact absurd hs hnot

end ValueCore
