import ValueCore.Proofs.Drawing
import ValueCore.Proofs.Quoting
import ValueCore.Proofs.Verdict.Persistence

/-!
# Texts that only one value has

Values made of `None`, truth values, integers, strings and dicts that do not contain themselves are trees, and a tree can
be read off its text: two such values with the same text are the same tree, with the same entries in the same order
(`display_uniquely_readable`). This is not so of other values: floats that are no number are all written alike, an
ellipsis does not say of which container it is, and the names of fields are not in quotes.

Such a tree apart from all worlds is a `Literal`. It `Denotes` the values that are this tree, and its text is theirs. That
no other literal has this text is shown along the grammar. The first byte tells of what type a literal is (`kindOfByte`).
In a dict a literal is followed by a colon, a comma or a brace, none of which goes on with an integer, and so each text ends
in one place only (`Literal.Delimited`).
-/

namespace ValueCore

open World
open Relation (TransGen)

variable {ε : Type} {I : Inventory ε} {w : World ε} {x y : Value} {r r' : Bytes}

/-! ## Trees -/

/-- A tree of `None`, truth values, integers, strings and dicts. -/
inductive Literal
  | none
  | bool (b : Bool)
  | int (i : Int64)
  | str (s : Bytes)
  | dict (entries : List (Literal × Literal))

/-- Items with a separator are the first one and then each of the others after a separator. -/
theorem Bytes.joined_cons (separator item : Bytes) : ∀ items : List Bytes,
    Bytes.joined separator (item :: items) = item ++ items.flatMap (separator ++ ·)
  | [] => rfl
  | next :: items => by
    rw [List.flatMap_cons, List.append_assoc, ← Bytes.joined_cons separator next items]
    rfl

namespace Literal

mutual

/-- Text of a literal. -/
def text : Literal → Bytes
  | .none => ascii "None"
  | .bool b => if b then ascii "True" else ascii "False"
  | .int i => Bytes.decimal i.toInt
  | .str s => quoted s
  | .dict entries => ascii "\x7b" ++ Bytes.joined (ascii ", ") (entryTexts entries) ++ ascii "\x7d"

/-- Texts of the entries of a dict. -/
def entryTexts : List (Literal × Literal) → List Bytes
  | [] => []
  | (key, value) :: rest => (key.text ++ ascii ": " ++ value.text) :: entryTexts rest

end

/-- Text of an entry. -/
def entryText (entry : Literal × Literal) : Bytes := entry.1.text ++ ascii ": " ++ entry.2.text

theorem entryTexts_eq_map : ∀ entries : List (Literal × Literal), entryTexts entries = entries.map entryText
  | [] => rfl
  | entry :: entries => congrArg (entryText entry :: ·) (entryTexts_eq_map entries)

theorem text_dict (entries : List (Literal × Literal)) : (dict entries).text =
    ascii "\x7b" ++ Bytes.joined (ascii ", ") (entries.map entryText) ++ ascii "\x7d" := by
  rw [← entryTexts_eq_map]
  rfl

/-- Of a dict it is to be shown from its keys and values. -/
theorem induction {P : Literal → Prop} (none : P .none) (bool : ∀ b, P (.bool b)) (int : ∀ i, P (.int i))
    (str : ∀ s, P (.str s)) (dict : ∀ entries, (∀ entry ∈ entries, P entry.1 ∧ P entry.2) → P (.dict entries))
    (a : Literal) : P a :=
  @Literal.rec P (fun entries => ∀ entry ∈ entries, P entry.1 ∧ P entry.2) (fun entry => P entry.1 ∧ P entry.2)
    none bool int str dict nofun (fun _ _ hentry hentries => List.forall_mem_cons.2 ⟨hentry, hentries⟩)
    (fun _ _ hkey hvalue => ⟨hkey, hvalue⟩) a

end Literal

/-! ## Values that are trees -/

/-- `None`, a truth value, an integer, a string or a dict. -/
def Value.Basic : Value → Prop
  | .none | .bool _ | .int _ | .str _ | .dict _ => True
  | .float _ | .struct _ | .host _ => False

instance : DecidablePred Value.Basic
  | .none | .bool _ | .int _ | .str _ | .dict _ => isTrue trivial
  | .float _ | .struct _ | .host _ => isFalse id

/-- All that is reached is one of these, and none of it inside of itself. -/
structure World.Treelike (w : World ε) (x : Value) : Prop where
  basic : ∀ y, w.Reaches x y → y.Basic
  acyclic : ∀ y, w.Reaches x y → ¬ TransGen w.Part y y

namespace World

theorem Treelike.part (h : w.Treelike x) (hp : w.Part x y) : w.Treelike y :=
  ⟨fun z hz => h.basic z (.head hp hz), fun z hz => h.acyclic z (.head hp hz)⟩

theorem Treelike.hostFree (h : w.Treelike x) : w.HostFree x := by
  intro y hy
  have hbasic := h.basic y hy
  cases y with
  | host i => exact hbasic
  | none | bool | int | float | str | dict | struct => trivial

/-- Values are treelike if they can be ranked below what they are parts of. -/
theorem treelike_of_rank (rank : Value → Nat) {l : List Value} (hbasic : ∀ z ∈ l, z.Basic)
    (hl : ∀ z ∈ l, ∀ p ∈ w.parts z, p ∈ l ∧ rank p < rank z) (hx : x ∈ l) : w.Treelike x := by
  have hmem : ∀ y, w.Reaches x y → y ∈ l := fun y hy => Reaches.mem (fun z hz p hp => (hl z hz p hp).1) hx hy
  have hlt : ∀ {y z}, TransGen w.Part y z → y ∈ l → z ∈ l ∧ rank z < rank y := by
    intro y z hyz hy
    induction hyz with
    | single hp => exact hl _ hy _ (mem_parts.2 hp)
    | tail _ hp ih =>
      obtain ⟨hmem, hrank⟩ := hl _ ih.1 _ (mem_parts.2 hp)
      exact ⟨hmem, hrank.trans ih.2⟩
  exact ⟨fun y hy => hbasic y (hmem y hy), fun y hy hcycle => Nat.lt_irrefl _ (hlt hcycle (hmem y hy)).2⟩

/-- The value is this tree, the items of each dict in order. -/
inductive Denotes (w : World ε) : Literal → Value → Prop
  | none : Denotes w .none .none
  | bool (b : Bool) : Denotes w (.bool b) (.bool b)
  | int (i : Int64) : Denotes w (.int i) (.int i)
  | str (s : Bytes) : Denotes w (.str s) (.str s)
  | dict {entries : List (Literal × Literal)} {t : TableId .any} : entries.length = (w.table t).items.length →
    (∀ p ∈ entries.zip (w.table t).items, Denotes w p.1.1 p.2.1) →
    (∀ p ∈ entries.zip (w.table t).items, Denotes w p.1.2 p.2.2) → Denotes w (.dict entries) (.dict t)

/-- A value is no more than one tree. -/
theorem Denotes.unique {a b : Literal} (ha : w.Denotes a x) (hb : w.Denotes b x) : a = b := by
  induction ha generalizing b with
  | none | bool | int | str =>
    cases hb
    rfl
  | @dict entries t hl _ _ ihkey ihvalue =>
    cases hb with
    | @dict entries' _ hl' hkey hvalue =>
      have hitem : ∀ {es : List (Literal × Literal)} {i : Nat} (hi : i < es.length) (hi' : i < (w.table t).items.length),
          (es[i], (w.table t).items[i]) ∈ es.zip (w.table t).items := fun hi hi' => by
        rw [← List.getElem_zip (h := by rw [List.length_zip]; exact Nat.lt_min.2 ⟨hi, hi'⟩)]
        exact List.getElem_mem _
      refine congrArg Literal.dict (List.ext_getElem (hl.trans hl'.symm) fun i hi hi' => ?_)
      have hm := hitem hi (hl ▸ hi)
      have hm' := hitem hi' (hl ▸ hi)
      exact Prod.ext (ihkey _ hm (hkey _ hm')) (ihvalue _ hm (hvalue _ hm'))

/-- The tree that a value is, in `fuel` nested steps. -/
def literal (w : World ε) : Nat → Value → Literal
  | _, .bool b => .bool b
  | _, .int i => .int i
  | _, .str s => .str s
  | fuel + 1, .dict t => .dict ((w.table t).items.map fun item => (w.literal fuel item.1, w.literal fuel item.2))
  | _, _ => .none

/-- **A value that is treelike is a tree, with the same text.** There is enough fuel, as the containers on a branch are
different ones. -/
theorem denotes_literal (h : w.Sound I) : ∀ (fuel : Nat) (path : List Value) (x : Value), w.Owns x → w.Treelike x →
    w.Path path → (∀ z ∈ path, TransGen w.Part z x) → w.containers + 2 ≤ fuel + path.length →
      w.Denotes (w.literal fuel x) x ∧ w.text fuel path x = (w.literal fuel x).text
  | 0, path, x, _, _, hp, _, hfuel => by
    have := hp.length_le
    omega
  | fuel + 1, path, x, hx, ht, hp, hinside, hfuel => by
    have hbasic := ht.basic x .refl
    cases x with
    | none => exact ⟨.none, rfl⟩
    | bool b => exact ⟨.bool b, rfl⟩
    | int i => exact ⟨.int i, rfl⟩
    | str s => exact ⟨.str s, rfl⟩
    | float | struct | host => exact hbasic.elim
    | dict t =>
      have hnew : .dict t ∉ path := fun hm => ht.acyclic _ .refl (hinside _ hm)
      have hpart : ∀ y, w.Part (.dict t) y → w.Denotes (w.literal fuel y) y ∧
          w.text fuel (.dict t :: path) y = (w.literal fuel y).text := fun y hy =>
        denotes_literal h fuel (.dict t :: path) y (hy.owns h hx) (ht.part hy) (hp.cons trivial hx hnew)
          (List.forall_mem_cons.2 ⟨.single hy, fun z hz => (hinside z hz).tail hy⟩) (by rw [List.length_cons]; omega)
      have hzip : ∀ p ∈ ((w.table t).items.map fun item => (w.literal fuel item.1, w.literal fuel item.2)).zip
          (w.table t).items, p.2 ∈ (w.table t).items ∧ p.1 = (w.literal fuel p.2.1, w.literal fuel p.2.2) := by
        intro p hm
        rw [← List.map_id (w.table t).items, List.map_map, List.zip_map'] at hm
        obtain ⟨item, hitem, rfl⟩ := List.mem_map.1 hm
        exact ⟨hitem, rfl⟩
      refine ⟨.dict (List.length_map _) (fun p hm => ?_) fun p hm => ?_, ?_⟩
      · obtain ⟨hitem, heq⟩ := hzip p hm
        rw [heq]
        exact (hpart _ (.key hitem)).1
      · obtain ⟨hitem, heq⟩ := hzip p hm
        rw [heq]
        exact (hpart _ (.value hitem)).1
      · have hwritten : dictWritten (w.text fuel (.dict t :: path)) (w.table t).items =
            dictWritten (fun y => (w.literal fuel y).text) (w.table t).items :=
          dictWritten_congr fun item hm => ⟨(hpart _ (.key hm)).2, (hpart _ (.value hm)).2⟩
        rw [text, literal, Literal.text_dict, List.map_map]
        exact (if_neg hnew).trans hwritten

end World

/-! ## The grammar of literals -/

/-- Number of the type of a literal. -/
def Literal.kind : Literal → Nat
  | .none => 0
  | .bool _ => 1
  | .int _ => 2
  | .str _ => 3
  | .dict _ => 4

/-- The type of the literals that begin with this byte. -/
def kindOfByte (c : UInt8) : Nat :=
  if c = 78 then 0
  else if c = 84 || c = 70 then 1
  else if c = 45 || isDigit c then 2
  else if c = 34 then 3
  else if c = 123 then 4
  else 5

theorem kindOfByte_number (c : UInt8) : c = 45 ∨ isDigit c = true → kindOfByte c = 2 := by
  revert c
  exact forall_byte (by decide +kernel)

namespace Literal

/-- The first byte of a text tells of what type it is. -/
theorem kind_of_text (a : Literal) (r : Bytes) : ∃ c rest, a.text ++ r = c :: rest ∧ kindOfByte c = a.kind := by
  cases a with
  | none => exact ⟨_, _, rfl, rfl⟩
  | bool b => cases b <;> exact ⟨_, _, rfl, rfl⟩
  | int i =>
    obtain ⟨c, rest, hc, hfirst⟩ := Bytes.decimal_cons i.toInt
    refine ⟨c, rest ++ r, ?_, kindOfByte_number c hfirst⟩
    show Bytes.decimal i.toInt ++ r = _
    rw [hc, List.cons_append]
  | str s => exact ⟨34, _, quoted_append s r, rfl⟩
  | dict entries => exact ⟨123, _, rfl, rfl⟩

theorem kind_eq {a b : Literal} (h : a.text ++ r = b.text ++ r') : a.kind = b.kind := by
  obtain ⟨c, _, hc, hkind⟩ := kind_of_text a r
  obtain ⟨d, _, hd, hkind'⟩ := kind_of_text b r'
  rw [← hkind, ← hkind', (List.cons.inj (hc.symm.trans (h.trans hd))).1]

/-- No literal begins with a closing brace. -/
theorem text_append_ne (a : Literal) : a.text ++ r ≠ 125 :: r' := by
  intro h
  obtain ⟨c, _, hc, hkind⟩ := kind_of_text a r
  obtain rfl : c = 125 := (List.cons.inj (hc.symm.trans h)).1
  rw [show kindOfByte 125 = 5 from rfl] at hkind
  cases a <;> cases hkind

/-- Where the text of the literal stands before something that does not go on with an integer, it is there that this ends,
and it is of no other literal. -/
def Delimited (a : Literal) : Prop := ∀ {b : Literal} {r r' : Bytes}, r.Stops → r'.Stops → a.text ++ r = b.text ++ r' →
  a = b ∧ r = r'

theorem entryText_append_inj {e e' : Literal × Literal} (hkey : e.1.Delimited) (hvalue : e.2.Delimited) (hr : r.Stops)
    (hr' : r'.Stops) (h : entryText e ++ r = entryText e' ++ r') : e = e' ∧ r = r' := by
  have hcolon : ∀ s : Bytes, (ascii ": " ++ s).Stops := fun s c hc => by
    obtain rfl : 58 = c := Option.some.inj hc
    rfl
  simp only [entryText, List.append_assoc] at h
  obtain ⟨hfst, h⟩ := hkey (hcolon _) (hcolon _) h
  obtain ⟨hsnd, h⟩ := hvalue hr hr' (List.append_cancel_left h)
  exact ⟨Prod.ext hfst hsnd, h⟩

/-- What comes after an entry: further ones, each after a comma, and the closing brace. -/
def following (entries : List (Literal × Literal)) (r : Bytes) : Bytes :=
  (entries.flatMap fun entry => ascii ", " ++ entryText entry) ++ 125 :: r

theorem following_cons (e : Literal × Literal) (es : List (Literal × Literal)) (r : Bytes) :
    following (e :: es) r = ascii ", " ++ (entryText e ++ following es r) := by
  simp only [following, List.flatMap_cons, List.append_assoc]

theorem stops_following (entries : List (Literal × Literal)) (r : Bytes) : (following entries r).Stops := by
  intro c hc
  cases entries with
  | nil =>
    obtain rfl : 125 = c := Option.some.inj hc
    rfl
  | cons e es =>
    rw [following_cons] at hc
    obtain rfl : 44 = c := Option.some.inj hc
    rfl

theorem following_inj : ∀ {es es' : List (Literal × Literal)}, (∀ e ∈ es, e.1.Delimited ∧ e.2.Delimited) →
    following es r = following es' r' → es = es' ∧ r = r'
  | [], [], _, h => ⟨rfl, (List.cons.inj h).2⟩
  | [], e' :: es', _, h => by
    rw [following_cons] at h
    exact absurd (List.cons.inj h).1 (by decide)
  | e :: es, [], _, h => by
    rw [following_cons] at h
    exact absurd (List.cons.inj h).1 (by decide)
  | e :: es, e' :: es', hall, h => by
    rw [following_cons, following_cons] at h
    obtain ⟨⟨hkey, hvalue⟩, hall⟩ := List.forall_mem_cons.1 hall
    obtain ⟨rfl, hrest⟩ := entryText_append_inj hkey hvalue (stops_following es r) (stops_following es' r')
      (List.append_cancel_left h)
    obtain ⟨rfl, rfl⟩ := following_inj hall hrest
    exact ⟨rfl, rfl⟩

theorem text_dict_cons (e : Literal × Literal) (es : List (Literal × Literal)) (r : Bytes) :
    (dict (e :: es)).text ++ r = 123 :: (entryText e ++ following es r) := by
  rw [text_dict, List.map_cons, Bytes.joined_cons, List.flatMap_map, following]
  show 123 :: (entryText e ++ _ ++ [125] ++ r) = _
  simp only [List.append_assoc, List.singleton_append]

/-- Of dicts with no entry or with some, one after the other. -/
theorem text_dict_append_inj : ∀ {es es' : List (Literal × Literal)}, (∀ e ∈ es, e.1.Delimited ∧ e.2.Delimited) →
    (dict es).text ++ r = (dict es').text ++ r' → es = es' ∧ r = r'
  | [], [], _, h => ⟨rfl, List.append_cancel_left h⟩
  | [], e' :: es', _, h => by
    rw [text_dict_cons, entryText, List.append_assoc, List.append_assoc] at h
    exact absurd (List.cons.inj h).2.symm (text_append_ne e'.1)
  | e :: es, [], _, h => by
    rw [text_dict_cons, entryText, List.append_assoc, List.append_assoc] at h
    exact absurd (List.cons.inj h).2 (text_append_ne e.1)
  | e :: es, e' :: es', hall, h => by
    rw [text_dict_cons, text_dict_cons] at h
    obtain ⟨⟨hkey, hvalue⟩, hall⟩ := List.forall_mem_cons.1 hall
    obtain ⟨rfl, hrest⟩ := entryText_append_inj hkey hvalue (stops_following es r) (stops_following es' r')
      (List.cons.inj h).2
    obtain ⟨rfl, rfl⟩ := following_inj hall hrest
    exact ⟨rfl, rfl⟩

/-- **Literals are delimited.** -/
theorem delimited (a : Literal) : a.Delimited := by
  induction a using Literal.induction with
  | none =>
    intro b r r' _ _ h
    cases b with
    | none => exact ⟨rfl, List.append_cancel_left h⟩
    | bool | int | str | dict => cases kind_eq h
  | bool b =>
    intro c r r' _ _ h
    cases c with
    | bool c =>
      cases b <;> cases c
      · exact ⟨rfl, List.append_cancel_left h⟩
      · exact absurd (List.cons.inj h).1 (by decide)
      · exact absurd (List.cons.inj h).1 (by decide)
      · exact ⟨rfl, List.append_cancel_left h⟩
    | none | int | str | dict => cases kind_eq h
  | int i =>
    intro b r r' hr hr' h
    cases b with
    | int j =>
      obtain ⟨hij, rfl⟩ := Bytes.decimal_append_inj hr hr' h
      exact ⟨congrArg int (Int64.toInt_inj.1 hij), rfl⟩
    | none | bool | str | dict => cases kind_eq h
  | str s =>
    intro b r r' _ _ h
    cases b with
    | str t =>
      obtain ⟨rfl, rfl⟩ := quoted_append_inj h
      exact ⟨rfl, rfl⟩
    | none | bool | int | dict => cases kind_eq h
  | dict es ih =>
    intro b r r' _ _ h
    cases b with
    | dict es' =>
      obtain ⟨rfl, rfl⟩ := text_dict_append_inj ih h
      exact ⟨rfl, rfl⟩
    | none | bool | int | str => cases kind_eq h

end Literal

/-! ## Displaying -/

/-- A treelike value is displayed as the text of a literal, and as nothing else. -/
theorem displayed_as_literal (h : w.Sound I) (hx : w.Owns x) (ht : w.Treelike x) (host : Host ε) :
    ∃ a, w.Denotes a x ∧
      ((display host x w).1 = .ok a.text ∨ ¬ w.memory.Granting ∧ (display host x w).1 = .error (.raised .memory)) ∧
      ∀ text, (display host x w).1 = .ok text → text = a.text := by
  obtain ⟨hdenotes, htext⟩ := denotes_literal h (w.containers + 2) [] x hx ht (.nil w) nofun (Nat.le_refl _)
  have hanswers : w.Answers (display host x) (.ok (w.literal (w.containers + 2) x).text) := by
    rw [← htext]
    exact answers_display (region_free h) (fun _ hz => hz.2) ⟨ht.hostFree, hx⟩
  have hends := hanswers.returns (.refl w)
  refine ⟨_, hdenotes, hends, fun text hok => ?_⟩
  rcases hends with he | ⟨_, he⟩
  · exact Except.ok.inj (hok.symm.trans he)
  · cases hok.symm.trans he

/-- **Display is uniquely readable.** If memory is granted then a value that is treelike is displayed as the text of the one
literal that denotes it, and every treelike value, of this or another world, that is displayed as the same text is denoted
by the same literal. Strings are written in quotes: no such text begins with another one, there is no control byte in it,
and of the quotes after the first only the last one is not escaped. -/
theorem display_uniquely_readable {ε' : Type} {I' : Inventory ε'} {w' : World ε'} (h : w.Sound I) (h' : w'.Sound I')
    (hx : w.Owns x) (hy : w'.Owns y) (htx : w.Treelike x) (hty : w'.Treelike y) (host : Host ε) (host' : Host ε') :
    (∃ a, (∀ b, w.Denotes b x ↔ b = a) ∧ ((display host x w).1 = .ok a.text ∨
      ¬ w.memory.Granting ∧ (display host x w).1 = .error (.raised .memory))) ∧
    (∀ text, (display host x w).1 = .ok text → (display host' y w').1 = .ok text → ∃ a, w.Denotes a x ∧ w'.Denotes a y) ∧
    (∀ s t, quoted s <+: quoted t → s = t) ∧
    ∀ s, (display host (.str s) w).1 = .ok (quoted s) ∧ (∀ c ∈ quoted s, 32 ≤ c ∧ c ≠ 127) ∧
      ∀ pre post, quoted s = 34 :: (pre ++ 34 :: post) → (escapes pre = true ↔ post ≠ []) := by
  obtain ⟨a, hax, hends, hall⟩ := displayed_as_literal h hx htx host
  obtain ⟨b, hby, _, hall'⟩ := displayed_as_literal h' hy hty host'
  have honly : ∀ b, w.Denotes b x ↔ b = a := fun b => ⟨fun hb => hb.unique hax, fun heq => heq ▸ hax⟩
  refine ⟨⟨a, honly, hends⟩, fun text htext htext' => ⟨a, hax, ?_⟩, fun s t hpre => ?_, fun s => ⟨rfl, fun c hc => ?_,
    fun pre post heq => ?_⟩⟩
  · have hsame : a.text ++ [] = b.text ++ [] := by rw [← hall text htext, ← hall' text htext']
    obtain ⟨rfl, _⟩ := a.delimited Bytes.stops_nil Bytes.stops_nil hsame
    exact hby
  · obtain ⟨rest, heq⟩ := hpre
    exact (quoted_append_inj (heq.trans (List.append_nil _).symm)).1
  · exact not_control_of_mem_quoted hc
  · exact escapes_iff_of_quoted heq

/-- The first dict and the second are the same tree, made in different ways. In both are a key that is a control byte, a key
that reads like the escape of that byte, and one that reads like the end of a key and the start of a value. -/
def catalogue : List Operation :=
  [.newDict 0, .newDict 100, .newDict 0, .newDict 0, @Operation.insert .any ⟨2⟩ (.int 1) .none,
    @Operation.insert .any ⟨3⟩ (.int 1) .none, @Operation.insert .any ⟨0⟩ (.str [1]) (.dict ⟨2⟩),
    @Operation.insert .any ⟨0⟩ (.str (ascii "\\x01")) (.bool true),
    @Operation.insert .any ⟨0⟩ (.str (ascii "\": \"")) (.int (-5)),
    @Operation.insert .any ⟨1⟩ (.str (ascii "\\x01")) (.bool true), @Operation.insert .any ⟨1⟩ (.str [1]) (.dict ⟨3⟩),
    @Operation.erase .any ⟨1⟩ (.str (ascii "\\x01")),
    @Operation.insert .any ⟨1⟩ (.str (ascii "\\x01")) (.bool true),
    @Operation.insert .any ⟨1⟩ (.str (ascii "\": \"")) (.int (-5))]

def catalogued : World Unit := inTurn catalogue (.unused ())

/-- The dicts that are values are those of higher number. -/
def catalogueRank : Value → Nat
  | .dict t => 4 - t.index
  | _ => 0

theorem treelike_catalogued {x : Value} (hx : x ∈ [.dict ⟨0⟩, .dict ⟨1⟩]) : catalogued.Treelike x := by
  refine treelike_of_rank catalogueRank
    (l := [.dict ⟨0⟩, .dict ⟨1⟩, .dict ⟨2⟩, .dict ⟨3⟩, .str [1], .str (ascii "\\x01"), .str (ascii "\": \""), .bool true,
      .int (-5), .int 1, .none]) (by decide) (by decide +kernel) ?_
  rcases List.mem_pair.1 hx with rfl | rfl <;> decide

theorem display_uniquely_readable_catalogued :
    (display mute (.dict ⟨0⟩) catalogued).1 =
      .ok (ascii "\x7b\"\\x01\": \x7b1: None\x7d, \"\\\\x01\": True, \"\\\": \\\"\": -5\x7d") ∧
    ∃ a, catalogued.Denotes a (.dict ⟨0⟩) ∧ catalogued.Denotes a (.dict ⟨1⟩) := by
  obtain ⟨hr, -⟩ : Reachable .nothing catalogued ∧ catalogued.Plain := reachable_inTurn (by decide +kernel)
  have hthis : (display mute (.dict ⟨0⟩) catalogued).1 =
      .ok (ascii "\x7b\"\\x01\": \x7b1: None\x7d, \"\\\\x01\": True, \"\\\": \\\"\": -5\x7d") := by decide +kernel
  have hother : (display mute (.dict ⟨1⟩) catalogued).1 = (display mute (.dict ⟨0⟩) catalogued).1 := by decide +kernel
  obtain ⟨_, hsame, _⟩ := display_uniquely_readable hr.sound hr.sound (by decide +kernel) (by decide +kernel)
    (treelike_catalogued List.mem_cons_self) (treelike_catalogued (List.mem_cons_of_mem _ List.mem_cons_self)) mute mute
  exact ⟨hthis, hsame _ hthis (hother.trans hthis)⟩

end ValueCore
