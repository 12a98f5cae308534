import ValueCore.Proofs.Reports.Values

/-!
# What every operation upholds

An operation changes a world in few ways: a table is added, written to or grown, a struct is added, a message is left, memory
is borrowed for a while or taken for an object. A relation between worlds that each of these upholds (`Routine`) is upheld by
every operation, and by every service that makes no view, whatever the host's answers do as long as they uphold it too
(`Host.Upholds`). Nothing is asked of the world or of the arguments.

Three of the ways are not relations between a world and a later one but run something in between: `scratch` and `object` have
a block in their hands meanwhile. So they are stated of the computation that is run.
-/

namespace ValueCore

open World

variable {ε α β : Type} {R : World ε → World ε → Prop} {kind : KeyKind}

/-- What holds of the world that the first part leaves, and is kept by the second part if that is reached. -/
theorem holds_bind {P : World ε → Prop} {act : Run ε α} {k : α → Run ε β} {w : World ε} (h : P (act w).2)
    (hk : ∀ a v, act w = (.ok a, v) → P v → P (k a v).2) : P ((act >>= k) w).2 := by
  rw [run_bind]
  cases hr : act w with
  | mk r v =>
    rw [hr] at h
    cases r with
    | ok a => exact hk a v hr h
    | error e => exact h

/-- From whatever world the computation starts, `R` leads to the one that it leaves. -/
def Upholds (R : World ε → World ε → Prop) (act : Run ε α) : Prop := ∀ w, R w (act w).2

/-- The same storage with no more entries. -/
structure Table.Within {κ : Type} (T T' : Table κ) : Prop where
  heads : T'.heads = T.heads
  capacity : T'.capacity = T.capacity
  block : T'.block = T.block
  length : T'.length ≤ T.length

/-- What the steps that operations are made of uphold. -/
class Routine (R : World ε → World ε → Prop) : Prop where
  refl : ∀ w, R w w
  trans : ∀ {u v w}, R u v → R v w → R u w
  message : ∀ w text, R w (w.saying text)
  write : ∀ {kind : KeyKind} (t : TableId kind) (f : Table kind.Key → Table kind.Key), (∀ T, Table.Within T (f T)) →
    ∀ w, R w (w.modifyTable t f)
  newTable : ∀ kind hint, Upholds R (newTable kind hint)
  grow : ∀ {kind : KeyKind} (t : TableId kind) w, overloaded (w.table t).length (w.table t).heads = true →
    R w (growTable t w).2
  place : ∀ {kind : KeyKind} (t : TableId kind) hash key value w,
    overloaded (w.table t).length (w.table t).heads = false →
      R w ((roomFor t hash >>= fun i => updateTable t (·.append i hash key value)) w).2
  addStruct : ∀ w s, R w { w with structs := w.structs.push s }
  trail : ∀ {α : Type} {act : Run ε α}, Upholds R act → Upholds R (onTrail act)
  extend : ∀ length, Upholds R (extendTrail length)
  scratch : ∀ {α : Type} count size {act : Run ε α}, Upholds R act → Upholds R (withScratch count size act)
  object : ∀ {α : Type} bytes {make : Run ε α}, Upholds R make → Upholds R (newObject bytes make)

/-- What the host does when it is asked. -/
structure Host.Upholds (R : World ε → World ε → Prop) (host : Host ε) : Prop where
  display : ∀ i, ValueCore.Upholds R (host.display i)
  hash : ∀ i, ValueCore.Upholds R (host.hash i)
  equal : ∀ i j depth, ValueCore.Upholds R (host.equal i j depth)
  freeze : ∀ i, ValueCore.Upholds R (host.freeze i)

/-- What hashing and comparing keys does. -/
structure Keying.Upholds {κ : Type} (R : World ε → World ε → Prop) (keying : Keying ε κ) : Prop where
  hash : ∀ key, ValueCore.Upholds R (keying.hash key)
  equal : ∀ a b, ValueCore.Upholds R (keying.equal a b)

namespace Table.Within

variable {κ : Type} {T : Table κ}

/-- Flags and the insertion order are nothing to the storage. -/
theorem flags (T : Table κ) (holds : Nat) (frozen : Bool) : Within T { T with holds, frozen } :=
  ⟨rfl, rfl, rfl, Nat.le_refl _⟩

theorem overwrite (i : Nat) (value : Value) : Within T (T.overwrite i value) := ⟨rfl, rfl, rfl, Nat.le_refl _⟩

theorem remove (i : Nat) : Within T (T.remove i) := by
  unfold Table.remove
  cases T.slot i with
  | none => exact ⟨rfl, rfl, rfl, Nat.le_refl _⟩
  | some e =>
    obtain ⟨_, before, after, _, _⟩ := e
    cases before <;> cases after <;> exact ⟨rfl, rfl, rfl, Nat.sub_le _ _⟩

theorem cleared : Within T T.cleared := ⟨rfl, rfl, rfl, Nat.zero_le _⟩

end Table.Within

namespace Upholds

variable [Routine R]

/-! ## Parts and wholes -/

theorem pure (a : α) : Upholds R (pure a : Run ε α) := fun w => Routine.refl w

theorem throw (e : Failure) : Upholds R (throw e : Run ε α) := fun w => Routine.refl w

theorem raise (f : Fault) : Upholds R (raise f : Run ε α) := fun w => Routine.message w f.message

omit [Routine R] in
theorem read {k : World ε → Run ε β} (h : ∀ w, Upholds R (k w)) : Upholds R (get >>= k) := fun w => h w w

theorem bind {act : Run ε α} {k : α → Run ε β} (h : Upholds R act) (hk : ∀ a, Upholds R (k a)) : Upholds R (act >>= k) :=
  fun w => holds_bind (h w) fun a v _ hv => Routine.trans hv (hk a v)

omit [Routine R] in
theorem ite {c : Prop} [Decidable c] {x y : Run ε α} (hx : Upholds R x) (hy : Upholds R y) :
    Upholds R (if c then x else y) := by
  split
  · exact hx
  · exact hy

/-- What is refused before the rest is done. -/
theorem refuse {c : Prop} [Decidable c] (f : Fault) {k : α → Run ε β} {rest : Run ε β} (h : Upholds R rest) :
    Upholds R (if c then ValueCore.raise f >>= k else rest) := .ite (fun w => Routine.message w f.message) h

theorem protect {act : Run ε α} (h : Upholds R act) : Upholds R (protect act) := by
  intro w
  have hw := h w
  unfold ValueCore.protect
  cases hr : act w with
  | mk r v =>
    rw [hr] at hw
    rcases r with (status | _ | _ | reason) | a
    · exact hw
    · exact Routine.trans hw (Routine.message v _)
    · exact hw
    · exact hw
    · exact Routine.trans hw (Routine.message v _)

theorem map (f : α → β) {act : Run ε α} (h : Upholds R act) : Upholds R (f <$> act) := .bind h fun _ => .pure _

theorem forM {f : α → Run ε Unit} (h : ∀ a, Upholds R (f a)) : ∀ l : List α, Upholds R (l.forM f)
  | [] => .pure ()
  | a :: l => .bind (h a) fun _ => forM h l

theorem mapMOnto {f : α → Run ε β} (h : ∀ a, Upholds R (f a)) : ∀ (l : List α) (done : List β),
    Upholds R (List.mapM.loop f l done)
  | [], _ => .pure _
  | a :: l, done => .bind (h a) fun b => mapMOnto h l (b :: done)

theorem mapM {f : α → Run ε β} (h : ∀ a, Upholds R (f a)) (l : List α) : Upholds R (l.mapM f) := mapMOnto h l []

/-! ## Tables -/

theorem readTable (t : TableId kind) : Upholds R (readTable t) := fun w => Routine.refl w

theorem write {t : TableId kind} {f : Table kind.Key → Table kind.Key} (h : ∀ T, Table.Within T (f T)) :
    Upholds R (updateTable t f) := Routine.write t f h

theorem holding (t : TableId kind) {act : Run ε α} (h : Upholds R act) : Upholds R (holding t act) := by
  intro w
  cases hf : (w.table t).frozen with
  | true =>
    rw [run_holding_of_frozen hf]
    exact h w
  | false =>
    rw [run_holding hf]
    exact Routine.trans (Routine.write t _ (fun T => .flags T _ _) w)
      (Routine.trans (h _) (Routine.write t _ (fun T => .flags T _ _) _))

theorem checkMutable (t : TableId kind) (change : TableChange) : Upholds R (checkMutable t change) :=
  .bind (.readTable t) fun _ => .refuse (.frozenTable change) (.ite (.raise _) (.pure ()))

theorem firstEqual {κ : Type} {equal : κ → κ → Run ε Bool} (h : ∀ a b, Upholds R (equal a b)) (key : κ) :
    ∀ candidates : List (Nat × κ), Upholds R (firstEqual equal key candidates)
  | [] => .pure none
  | (_, k) :: rest => .bind (h key k) fun _ => .ite (.pure _) (firstEqual h key rest)

theorem keyList (t : TableId kind) : Upholds R (keyList t) :=
  .bind (.readTable t) fun _ => Routine.scratch _ _ (.pure _)

theorem itemList (t : TableId kind) : Upholds R (itemList t) :=
  .bind (.readTable t) fun _ => Routine.scratch _ _ (.pure _)

theorem clear (t : TableId kind) : Upholds R (clear t) :=
  .bind (.checkMutable t .clear) fun _ => .write fun _ => .cleared

theorem freezeTable {freezeKey : kind.Key → Run ε Unit} {freezeValue : Value → Run ε Unit}
    (hkey : ∀ key, Upholds R (freezeKey key)) (hvalue : ∀ value, Upholds R (freezeValue value)) (t : TableId kind) :
    Upholds R (freezeTable freezeKey freezeValue t) :=
  .bind (.readTable t) fun _ => .ite (.pure ()) <| .bind (.write fun T => .flags T _ _) fun _ =>
    .forM (fun (key, value) => .bind (hkey key) fun _ => hvalue value) _

theorem textKeying_upholds : (textKeying : Keying ε _).Upholds R := ⟨fun _ => .pure _, fun _ _ => .pure _⟩

/-- A table grows in the world where it has just been found to be overloaded, and otherwise a new entry is placed. -/
theorem enter (t : TableId kind) (key : kind.Key) (value : Value) (hash : UInt32) {again : Run ε Unit} (h : Upholds R again) :
    Upholds R (ValueCore.readTable t >>= fun table =>
      if overloaded table.length table.heads then growTable t >>= fun _ => again
      else roomFor t hash >>= fun i => updateTable t (·.append i hash key value)) := by
  intro w
  rw [run_bind_ok (run_readTable t w)]
  cases ho : overloaded (w.table t).length (w.table t).heads with
  | true =>
    rw [if_pos rfl]
    exact holds_bind (Routine.grow t w ho) fun _ v _ hv => Routine.trans hv (h v)
  | false =>
    rw [if_neg Bool.false_ne_true]
    exact Routine.place t hash key value w ho

section
variable {keying : Keying ε kind.Key} (k : keying.Upholds R)
include k

theorem scan (t : TableId kind) (key : kind.Key) (hash : UInt32) : Upholds R (scan keying t key hash) :=
  .bind (.readTable t) fun _ => .holding t (.firstEqual k.equal key _)

theorem findSlot (t : TableId kind) (key : kind.Key) : Upholds R (findSlot keying t key) :=
  .bind (k.hash key) fun _ => .scan k t key _

theorem lookup (t : TableId kind) (key : kind.Key) : Upholds R (lookup keying t key) :=
  .bind (.findSlot k t key) fun
    | some _ => .bind (.readTable t) fun _ => .pure _
    | none => .pure none

theorem insertHashed (t : TableId kind) (key : kind.Key) (value : Value) (hash : UInt32) :
    ∀ fuel, Upholds R (insertHashed keying t key value hash fuel)
  | 0 => .throw _
  | fuel + 1 => .bind (.scan k t key hash) fun
    | some i => .bind (.checkMutable t .insert) fun _ => .write fun _ => .overwrite i value
    | none => .bind (.checkMutable t .insert) fun _ => .enter t key value hash (insertHashed t key value hash fuel)

theorem insert (t : TableId kind) (key : kind.Key) (value : Value) : Upholds R (insert keying t key value) :=
  .bind (.checkMutable t .insert) fun _ => .bind (k.hash key) fun _ => .insertHashed k t key value _ 26

theorem erase (t : TableId kind) (key : kind.Key) : Upholds R (erase keying t key) :=
  .bind (.checkMutable t .erase) fun _ => .bind (.findSlot k t key) fun found => .bind (.checkMutable t .erase) fun _ =>
    match found with
    | some i => .bind (.readTable t) fun _ => .bind (.write fun _ => .remove i) fun _ => .pure _
    | none => .pure none

end

theorem start (t : TableId kind) : Upholds R (Cursor.start t) :=
  .bind (.readTable t) fun _ => .ite (.pure _) <| .bind (Routine.write t _ fun T => .flags T _ _) fun _ => .pure _

theorem finish (c : Cursor kind) : Upholds R c.finish := by
  intro w
  rcases run_finish c w with ⟨_, hr⟩ | ⟨_, hr⟩
  · rw [hr]
    exact Routine.refl w
  · rw [hr]
    exact Routine.write c.table _ (fun T => .flags T _ _) w

/-! ## Reading views -/

theorem readView (v : ViewId) : Upholds R (readView v) := fun w => Routine.refl w

theorem entryAt (v : ViewId) (index : Int) : Upholds R (entryAt v index) := by
  refine .bind (.readView v) fun view => .ite (.raise _) ?_
  cases view.entries[index.toNat]? with
  | some e => exact .pure e
  | none => exact .raise _

theorem viewKeyList (v : ViewId) : Upholds R (viewKeyList v) :=
  .bind (.readView v) fun _ => Routine.scratch _ _ (.pure _)

/-! ## Values -/

variable {host : Host ε}

theorem hashFields {hash : Value → Run ε UInt32} (h : ∀ x, Upholds R (hash x)) :
    ∀ (fields : List (Bytes × Value)) (s : StructHash), Upholds R (hashFields hash fields s)
  | [], _ => .pure _
  | (_, value) :: rest, _ => .bind (h value) fun _ => hashFields h rest _

theorem dictText {write : Value → Run ε Bytes} (h : ∀ x, Upholds R (write x)) (t : TableId .any) :
    Upholds R (dictText write t) :=
  .holding t <| .bind (.readTable t) fun _ => .bind
    (.mapM (fun (key, value) => .bind (h key) fun _ => .bind (h value) fun _ => .pure _) _) fun _ => .pure _

theorem structText {write : Value → Run ε Bytes} (h : ∀ x, Upholds R (write x)) (s : StructId) :
    Upholds R (structText write s) := by
  have hfield : ∀ field : Bytes × Value, Upholds R (do return field.1 ++ ascii " = " ++ (← write field.2) : Run ε Bytes) :=
    fun field => .bind (h field.2) fun _ => .pure _
  -- the display of the constructor differs, and the rest follows in both cases
  refine .read fun _ => .ite (.bind (.pure _) fun _ => ?_) (.bind (h _) fun _ => ?_)
  all_goals exact .bind (.readTable _) fun _ => .bind (.mapM hfield _) fun _ => .pure _

theorem itemsEqual {equal : Value → Value → Run ε Bool} {get? : Value → Run ε (Option Value)}
    (h : ∀ x y, Upholds R (equal x y)) (hget : ∀ key, Upholds R (get? key)) :
    ∀ items : List (Value × Value), Upholds R (itemsEqual equal get? items)
  | [] => .pure true
  | (key, x) :: rest => .bind (hget key) fun
    | none => .pure false
    | some y => .bind (h x y) fun _ => .ite (itemsEqual h hget rest) (.pure false)

theorem dictsEqual {keying : Keying ε Value} (k : keying.Upholds R) {equal : Value → Value → Run ε Bool}
    (h : ∀ x y, Upholds R (equal x y)) (x y : TableId .any) : Upholds R (dictsEqual keying equal x y) :=
  .bind (.readTable x) fun _ => .bind (.readTable y) fun _ => .ite (.pure false) <| .holding x <|
    .bind (.readTable x) fun _ => .itemsEqual h (.lookup k y) _

theorem fieldsEqual {equal : Value → Value → Run ε Bool} (h : ∀ x y, Upholds R (equal x y)) :
    ∀ xs ys : List (Bytes × Value), Upholds R (fieldsEqual equal xs ys)
  | [], _ => .pure true
  | _ :: _, [] => .pure false
  | (_, x) :: xs, (_, y) :: ys => .ite (.pure false) <| .bind (h x y) fun _ => .ite (fieldsEqual h xs ys) (.pure false)

section
variable (h : host.Upholds R)
include h

theorem hashAt : ∀ (fuel : Nat) (x : Value), Upholds R (hashAt host fuel x)
  | 0, _ => .throw _
  | _ + 1, .none | _ + 1, .bool _ | _ + 1, .int _ | _ + 1, .float _ | _ + 1, .str _ => .pure _
  | fuel + 1, .struct _ => .read fun _ => .hashFields (hashAt fuel) _ _
  | _ + 1, .host i => h.hash i
  | _ + 1, .dict _ => .read fun _ => .raise _

theorem hashValue (x : Value) : Upholds R (hashValue host x) := .read fun _ => .hashAt h _ x

theorem writeAt : ∀ (fuel : Nat) (path : List Value) (x : Value), Upholds R (writeAt host fuel path x)
  | 0, _, _ => .throw _
  | _ + 1, _, .none | _ + 1, _, .bool _ | _ + 1, _, .int _ | _ + 1, _, .float _ | _ + 1, _, .str _ => .pure _
  | _ + 1, _, .host i => h.display i
  | fuel + 1, _, .dict t => .ite (.pure _) (.bind (Routine.extend _) fun _ => .dictText (writeAt fuel _) t)
  | fuel + 1, _, .struct s => .ite (.pure _) (.bind (Routine.extend _) fun _ => .structText (writeAt fuel _) s)

theorem display (x : Value) : Upholds R (display host x) := Routine.trail (.read fun _ => .writeAt h _ [] x)

theorem displayStruct (s : StructId) : Upholds R (displayStruct host s) :=
  Routine.trail (.read fun _ => .structText (.writeAt h _ []) s)

theorem sameConstructor {equal : Value → Value → Run ε Bool} (he : ∀ x y, Upholds R (equal x y)) (use : ConstructorUse)
    (x y : Value) : Upholds R (sameConstructor equal host use x y) :=
  .bind (.protect (he x y)) fun
    | .ok _ => .pure _
    | .error _ => .read fun _ => .bind (.display h x) fun _ => .bind (.display h y) fun _ => .raise _

theorem structsEqual {equalFully equal : Value → Value → Run ε Bool} (hfully : ∀ x y, Upholds R (equalFully x y))
    (he : ∀ x y, Upholds R (equal x y)) (x y : StructId) : Upholds R (structsEqual equalFully equal host x y) :=
  .read fun _ => .ite (.pure false) <| .bind (.sameConstructor h hfully .equality _ _) fun _ =>
    .ite (.read fun _ => .fieldsEqual he _ _) (.pure false)

theorem equalAt : ∀ (fuel : Nat) (depth : Int) (x y : Value), Upholds R (equalAt host fuel depth x y)
  | 0, _, _, _ => .throw _
  | fuel + 1, depth, x, y => by
    refine .refuse .depthExceeded ?_
    cases numbersEqual? x y with
    | some verdict => exact .pure verdict
    | none =>
      have fully := equalAt fuel fullBudget
      have below := equalAt fuel (depth - 1)
      cases x <;> cases y
      case dict.dict a b => exact .ite (.pure true) (.dictsEqual ⟨.hashValue h, fully⟩ below a b)
      case struct.struct a b => exact .structsEqual h fully below a b
      case host.host i j => exact .read fun _ => .ite (h.equal i j depth) (.pure false)
      all_goals exact .pure _

theorem equalWithin (depth : Int) (x y : Value) : Upholds R (equalWithin host depth x y) :=
  .read fun _ => .equalAt h _ depth x y

theorem equal (x y : Value) : Upholds R (equal host x y) := .equalWithin h fullBudget x y

theorem keyingOf_upholds : ∀ kind : KeyKind, (keyingOf host kind).Upholds R
  | .any => ⟨.hashValue h, .equal h⟩
  | .text => textKeying_upholds

theorem dictsEqualWithin (depth : Int) (x y : TableId .any) : Upholds R (dictsEqualWithin host depth x y) :=
  .dictsEqual (keyingOf_upholds h .any) (.equalWithin h (depth - 1)) x y

theorem structsEqualWithin (depth : Int) (x y : StructId) : Upholds R (structsEqualWithin host depth x y) :=
  .structsEqual h (.equal h) (.equalWithin h (depth - 1)) x y

theorem freezeAt : ∀ (fuel : Nat) (x : Value), Upholds R (freezeAt host fuel x)
  | 0, _ => .throw _
  | _ + 1, .none | _ + 1, .bool _ | _ + 1, .int _ | _ + 1, .float _ | _ + 1, .str _ => .pure _
  | _ + 1, .host i => h.freeze i
  | fuel + 1, .dict t => .freezeTable (freezeAt fuel) (freezeAt fuel) t
  | fuel + 1, .struct _ => .read fun _ => .freezeTable (fun _ => .pure ()) (freezeAt fuel) _

theorem freeze (x : Value) : Upholds R (freeze host x) := .read fun _ => .freezeAt h _ x

theorem freezeDeep : ∀ {kind : KeyKind} (t : TableId kind), Upholds R (freezeDeep host t)
  | .any, t => .freezeTable (.freeze h) (.freeze h) t
  | .text, t => .freezeTable (fun _ => .pure ()) (.freeze h) t

end

/-! ## Structs and dicts -/

theorem newString (s : Bytes) : Upholds R (newString s) := Routine.object _ (.pure _)

theorem newDict (hint : UInt32) : Upholds R (newDict hint) := Routine.object _ (Routine.newTable .any hint)

theorem newStruct (ctor : Value) (hint : Nat) : Upholds R (newStruct ctor hint) :=
  Routine.object _ <| .bind (Routine.newTable .text _) fun _ w => Routine.addStruct w _

/-- A new struct that is filled with fields. -/
theorem filled (ctor : Value) (hint : Nat) (fields : List Field) : Upholds R (do
    let s ← ValueCore.newStruct ctor hint
    fillFields ((← get).struct s).fields fields
    return s) :=
  .bind (.newStruct ctor hint) fun _ => .read fun _ =>
    .bind (.forM (fun (name, value) => .insert textKeying_upholds _ name value) fields) fun _ => .pure _

theorem createStruct (ctor : Value) (fields : List Field) : Upholds R (createStruct ctor fields) :=
  Routine.scratch _ _ (.filled ctor _ _)

theorem makeStruct (positional : List Value) (fields : List Field) : Upholds R (makeStruct positional fields) :=
  .refuse .positionalArguments (.createStruct _ fields)

theorem field? (s : StructId) (name : Bytes) : Upholds R (field? s name) :=
  .read fun _ => .lookup textKeying_upholds _ name

theorem hasField (s : StructId) (name : Bytes) : Upholds R (hasField s name) := .bind (.field? s name) fun _ => .pure _

theorem fieldNames (s : StructId) : Upholds R (fieldNames s) := .read fun _ => .keyList _

theorem fieldsOf (s : StructId) : Upholds R (fieldsOf s) := .read fun _ => .pure _

section
variable (h : host.Upholds R)
include h

theorem requireField (s : StructId) (name : Bytes) : Upholds R (requireField host s name) :=
  .bind (.field? s name) fun
    | some _ => .pure _
    | none => .read fun _ => .ite (.bind (.pure _) fun _ => .raise _) (.bind (.map some (.display h _)) fun _ => .raise _)

theorem structIntoDict (s : StructId) (d : TableId .any) : Upholds R (structIntoDict host s d) :=
  .bind (.fieldsOf s) fun _ => .forM (fun (name, value) => .insert (keyingOf_upholds h .any) d (.str name) value) _

theorem mergeStructs (x y : StructId) : Upholds R (mergeStructs host x y) :=
  .read fun _ => .read fun _ => .bind (.sameConstructor h (.equal h) .merge _ _) fun _ => .ite
    (.bind (.fieldsOf x) fun _ => .bind (.fieldsOf y) fun _ => .filled _ _ _)
    (.bind (.display h _) fun _ => .bind (.display h _) fun _ => .raise _)

theorem compareStructs (comparison : Comparison) (depth : Int) (x y : StructId) :
    Upholds R (compareStructs host comparison depth x y) := by
  cases comparison
  case eq => exact .structsEqualWithin h depth x y
  case ne => exact .bind (.structsEqualWithin h depth x y) fun _ => .pure _
  all_goals exact .raise _

/-! ## Dumps -/

theorem slotLine (slot : Nat) : ∀ entry : Option (Entry kind.Key), Upholds R (slotLine host slot entry)
  | none => .pure _
  | some e =>
    have key : Upholds R (displayKey host kind e.key) := match kind, e.key with
      | .any, key => .display h key
      | .text, _ => .pure _
    .bind key fun _ => .bind (.display h e.value) fun _ => .pure _

theorem dumpTable (address : Bytes) (t : TableId kind) : Upholds R (dumpTable host address t) :=
  .bind (.readTable t) fun _ => .bind
    (.mapM (fun _ => .bind (.mapM (fun _ => .bind (.mapM (fun _ => .slotLine h _ _) _) fun _ => .pure _) _) fun _ => .pure _) _)
    fun _ => .pure _

theorem viewEntryLine (view : View) (position : Nat) : Upholds R (viewEntryLine host view position) := by
  unfold ValueCore.viewEntryLine
  cases view.entries[position]? with
  | none => exact .pure _
  | some e => exact .bind (.display h e.value) fun _ => .pure _

theorem dumpView (address : Bytes) (v : ViewId) : Upholds R (dumpView host address v) :=
  .bind (.readView v) fun _ => .bind
    (.mapM (fun _ => .bind (.mapM (fun _ => .viewEntryLine h _ _) _) fun _ => .pure _) _) fun _ => .pure _

/-! ## Every operation -/

/-- An operation sizes no table that is there. Sizing one is the only thing that needs the table to be there. -/
theorem operation : ∀ op : Operation, (∀ {kind : KeyKind} (t : TableId kind) hint, op ≠ .resize t hint) →
    Upholds R (op.run host)
  | .newTable kind hint, _ => .map _ (Routine.newTable kind hint)
  | .resize t hint, hno => absurd rfl (hno t hint)
  | @Operation.insert kind t key value, _ => .insert (keyingOf_upholds h kind) t key value
  | @Operation.lookup kind t key, _ => .map _ (.lookup (keyingOf_upholds h kind) t key)
  | @Operation.erase kind t key, _ => .map _ (.erase (keyingOf_upholds h kind) t key)
  | .clear t, _ => .clear t
  | .keys t, _ => .map _ (.keyList t)
  | .items t, _ => .map _ (.itemList t)
  | .freezeTable t, _ => .freezeDeep h t
  | .newDict hint, _ => .map _ (.newDict hint)
  | .createStruct ctor fields, _ => .map _ (.createStruct ctor fields)
  | .makeStruct positional fields, _ => .map _ (.makeStruct positional fields)
  | .mergeStructs x y, _ => .map _ (.mergeStructs h x y)
  | .intoDict s d, _ => .structIntoDict h s d
  | .field s name, _ => .map _ (.requireField h s name)
  | .hasField s name, _ => .map _ (.hasField s name)
  | .fieldNames s, _ => .map _ (.fieldNames s)
  | .hash v, _ => .map _ (.hashValue h v)
  | .equal depth x y, _ => .map _ (.equalWithin h depth x y)
  | .equalDicts depth x y, _ => .map _ (.dictsEqualWithin h depth x y)
  | .equalStructs depth x y, _ => .map _ (.structsEqualWithin h depth x y)
  | .display v, _ => .map _ (.display h v)
  | .displayStruct s, _ => .map _ (.displayStruct h s)
  | .freeze v, _ => .freeze h v

end

end Upholds

end ValueCore
