import ValueCore.Dump
import ValueCore.Proofs.Reports.Tables
import ValueCore.Proofs.Reachable

/-!
# Values as programs

How hashing, writing, comparing and freezing are put together, and the operations that need them, from programs for what the
host provides. What a host provides may be put together in turn from protected calls and from operations, with a host of
their own.
-/

namespace ValueCore

variable {ε α : Type} {discreet : Prop} {host : Host ε} {kind : KeyKind}

/-- How the answers of a host are put together. -/
structure HostProgram (discreet : Prop) (host : Host ε) where
  typeName : discreet → ∀ i w text, host.typeName i (w.saying text) = host.typeName i w
  sameClass : discreet → ∀ i j w text, host.sameClass i j (w.saying text) = host.sameClass i j w
  display : ∀ i, Program discreet (host.display i)
  hash : ∀ i, Program discreet (host.hash i)
  equal : ∀ i j depth, Program discreet (host.equal i j depth)
  freeze : ∀ i, Program discreet (host.freeze i)

namespace Program

/-! ## Hashing -/

def hashFields {hash : Value → Run ε UInt32} (p : ∀ x, Program discreet (hash x)) :
    ∀ (fields : List (Bytes × Value)) (s : StructHash), Program discreet (hashFields hash fields s)
  | [], _ => .pure _
  | (_, value) :: rest, _ => .bind (p value) fun _ => hashFields p rest _

section
variable (h : HostProgram discreet host)
include h

def hashAt : ∀ (fuel : Nat) (x : Value), Program discreet (hashAt host fuel x)
  | 0, _ => .stop .exhausted nofun
  | _ + 1, .none | _ + 1, .bool _ | _ + 1, .int _ | _ + 1, .float _ | _ + 1, .str _ => .pure _
  | fuel + 1, .struct _ => .read (fun _ _ _ => rfl) fun _ => .hashFields (hashAt fuel) _ _
  | _ + 1, .host i => h.hash i
  | _ + 1, .dict _ => .read (fun _ _ _ => rfl) fun _ => .raise _

def hashValue (x : Value) : Program discreet (hashValue host x) := .read (fun _ _ _ => rfl) fun _ => .hashAt h _ x

end

/-! ## Writing -/

def dictText {write : Value → Run ε Bytes} (p : ∀ x, Program discreet (write x)) (t : TableId .any) :
    Program discreet (dictText write t) :=
  .holding t <| .bind (.readTable t) fun _ => .bind
    (.mapM (fun (key, value) => .bind (p key) fun _ => .bind (p value) fun _ => .pure _) _) fun _ => .pure _

def structText {write : Value → Run ε Bytes} (p : ∀ x, Program discreet (write x)) (s : StructId) :
    Program discreet (structText write s) := by
  have rest : ∀ (t : TableId .text) (head : Bytes), Program discreet (do
      let fields ← (← ValueCore.readTable t).items.mapM fun (name, value) => do
        return name ++ ascii " = " ++ (← write value)
      return head ++ ascii "(" ++ Bytes.joined (ascii ", ") fields ++ ascii ")" : Run ε Bytes) := fun t head =>
    .bind (.readTable t) fun _ => .bind (.mapM (fun (_, value) => .bind (p value) fun _ => .pure _) _) fun _ => .pure _
  exact .read (fun _ _ _ => rfl) fun w => .ite (.bind (.pure _) (rest _)) (.bind (p _) (rest _))

section
variable (h : HostProgram discreet host)
include h

def writeAt : ∀ (fuel : Nat) (path : List Value) (x : Value), Program discreet (writeAt host fuel path x)
  | 0, _, _ => .stop .exhausted nofun
  | _ + 1, _, .none | _ + 1, _, .bool _ | _ + 1, _, .int _ | _ + 1, _, .float _ | _ + 1, _, .str _ => .pure _
  | _ + 1, _, .host i => h.display i
  | fuel + 1, _, .dict t => .ite (.pure _) (.bind (.extendTrail _) fun _ => .dictText (writeAt fuel _) t)
  | fuel + 1, _, .struct s => .ite (.pure _) (.bind (.extendTrail _) fun _ => .structText (writeAt fuel _) s)

def display (x : Value) : Program discreet (display host x) :=
  .onTrail <| .read (fun _ _ _ => rfl) fun _ => .writeAt h _ [] x

def displayStruct (s : StructId) : Program discreet (displayStruct host s) :=
  .onTrail <| .read (fun _ _ _ => rfl) fun _ => .structText (.writeAt h _ []) s

end

/-! ## Comparing -/

/-- An error in a comparison of constructors is caught, and raised again with its message quoted. -/
def sameConstructor (h : HostProgram discreet host) {equal : Value → Value → Run ε Bool}
    (p : ∀ x y, Program discreet (equal x y)) (use : ConstructorUse) (x y : Value) :
    Program discreet (sameConstructor equal host use x y) :=
  have reported : ∀ status inner, Program discreet (do
      let left ← ValueCore.display host x
      let right ← ValueCore.display host y
      ValueCore.raise (.constructorComparison use status left right inner) : Run ε Bool) := fun _ _ =>
    .bind (.display h x) fun _ => .bind (.display h y) fun _ => .raise _
  .caught (p x y) .pure (fun _ => rfl) reported

def itemsEqual {equal : Value → Value → Run ε Bool} {get? : Value → Run ε (Option Value)}
    (p : ∀ x y, Program discreet (equal x y)) (q : ∀ key, Program discreet (get? key)) :
    ∀ items : List (Value × Value), Program discreet (itemsEqual equal get? items)
  | [] => .pure true
  | (key, x) :: rest => .bind (q key) fun
    | none => .pure false
    | some y => .bind (p x y) fun _ => .ite (itemsEqual p q rest) (.pure false)

def dictsEqual {keying : Keying ε Value} (k : KeyingProgram discreet (keying : Keying ε (KeyKind.Key .any)))
    {equal : Value → Value → Run ε Bool} (p : ∀ x y, Program discreet (equal x y)) (x y : TableId .any) :
    Program discreet (dictsEqual keying equal x y) :=
  .bind (.readTable x) fun _ => .bind (.readTable y) fun _ => .ite (.pure false) <| .holding x <|
    .bind (.readTable x) fun _ => .itemsEqual p (.lookup k y) _

def fieldsEqual {equal : Value → Value → Run ε Bool} (p : ∀ x y, Program discreet (equal x y)) :
    ∀ xs ys : List (Bytes × Value), Program discreet (fieldsEqual equal xs ys)
  | [], _ => .pure true
  | _ :: _, [] => .pure false
  | (_, x) :: xs, (_, y) :: ys => .ite (.pure false) <| .bind (p x y) fun _ => .ite (fieldsEqual p xs ys) (.pure false)

section
variable (h : HostProgram discreet host)
include h

def structsEqual {equalFully equal : Value → Value → Run ε Bool} (p : ∀ x y, Program discreet (equalFully x y))
    (q : ∀ x y, Program discreet (equal x y)) (x y : StructId) :
    Program discreet (structsEqual equalFully equal host x y) :=
  .read (fun _ _ _ => rfl) fun _ => .ite (.pure false) <| .bind (.sameConstructor h p .equality _ _) fun _ =>
    .ite (.read (fun _ _ _ => rfl) fun _ => .fieldsEqual q _ _) (.pure false)

def equalAt : ∀ (fuel : Nat) (depth : Int) (x y : Value), Program discreet (equalAt host fuel depth x y)
  | 0, _, _, _ => .stop .exhausted nofun
  | fuel + 1, depth, x, y => by
    refine .refuse .depthExceeded ?_
    cases numbersEqual? x y with
    | some verdict => exact .pure verdict
    | none =>
      have fully := equalAt fuel fullBudget
      have below := equalAt fuel (depth - 1)
      have keying : KeyingProgram discreet (⟨ValueCore.hashValue host, ValueCore.equalAt host fuel fullBudget⟩ :
        Keying ε (KeyKind.Key .any)) := ⟨.hashValue h, fully⟩
      cases x <;> cases y
      case dict.dict a b => exact .ite (.pure true) (.dictsEqual keying below a b)
      case struct.struct a b => exact .structsEqual h fully below a b
      case host.host i j =>
        exact .read (fun hd w text => by rw [h.sameClass hd]) fun _ => .ite (h.equal i j depth) (.pure false)
      all_goals exact .pure _

def equalWithin (depth : Int) (x y : Value) : Program discreet (equalWithin host depth x y) :=
  .read (fun _ _ _ => rfl) fun _ => .equalAt h _ depth x y

def equal (x y : Value) : Program discreet (equal host x y) := .equalWithin h fullBudget x y

def keyingOf : ∀ kind : KeyKind, KeyingProgram discreet (ValueCore.keyingOf host kind)
  | .any => ⟨.hashValue h, .equal h⟩
  | .text => .text

/-! ## Freezing -/

def freezeAt : ∀ (fuel : Nat) (x : Value), Program discreet (freezeAt host fuel x)
  | 0, _ => .stop .exhausted nofun
  | _ + 1, .none | _ + 1, .bool _ | _ + 1, .int _ | _ + 1, .float _ | _ + 1, .str _ => .pure _
  | _ + 1, .host i => h.freeze i
  | fuel + 1, .dict t => .freezeTable (freezeAt fuel) (freezeAt fuel) t
  | fuel + 1, .struct _ => .read (fun _ _ _ => rfl) fun _ => .freezeTable (fun _ => .pure ()) (freezeAt fuel) _

def freeze (x : Value) : Program discreet (freeze host x) := .read (fun _ _ _ => rfl) fun _ => .freezeAt h _ x

def freezeDeep : ∀ {kind : KeyKind} (t : TableId kind), Program discreet (freezeDeep host t)
  | .any, t => .freezeTable (.freeze h) (.freeze h) t
  | .text, t => .freezeTable (fun _ => .pure ()) (.freeze h) t

end

/-! ## Structs -/

def newStruct (ctor : Value) (hint : Nat) : Program discreet (newStruct ctor hint : Run ε _) :=
  .newObject _ <| .bind (.newTable .text _) fun _ => .quiet _ fun _ _ => rfl

def fillFields (t : TableId .text) (fields : List Field) : Program discreet (fillFields t fields : Run ε _) :=
  .forM (fun (name, value) => .insert .text t name value) fields

def fieldsOf (s : StructId) : Program discreet (fieldsOf s : Run ε _) := .read (fun _ _ _ => rfl) fun _ => .pure _

/-- A new struct that is filled with fields. -/
def filled (ctor : Value) (hint : Nat) (fields : List Field) : Program discreet (do
    let s ← ValueCore.newStruct ctor hint
    ValueCore.fillFields ((← get).struct s).fields fields
    return s : Run ε StructId) :=
  .bind (.newStruct ctor hint) fun _ => .read (fun _ _ _ => rfl) fun _ => .bind (.fillFields _ fields) fun _ => .pure _

def createStruct (ctor : Value) (fields : List Field) : Program discreet (createStruct ctor fields : Run ε _) :=
  .withScratch _ _ (.filled ctor _ _)

def makeStruct (positional : List Value) (fields : List Field) :
    Program discreet (makeStruct positional fields : Run ε _) :=
  .refuse .positionalArguments (.createStruct _ fields)

def field? (s : StructId) (name : Bytes) : Program discreet (field? s name : Run ε _) :=
  .read (fun _ _ _ => rfl) fun _ => .lookup .text _ name

def hasField (s : StructId) (name : Bytes) : Program discreet (hasField s name : Run ε _) :=
  .bind (.field? s name) fun _ => .pure _

def fieldNames (s : StructId) : Program discreet (fieldNames s : Run ε _) :=
  .read (fun _ _ _ => rfl) fun _ => .keyList _

def newDict (hint : UInt32) : Program discreet (newDict hint : Run ε _) := .newObject _ (.newTable .any hint)

def viewOfStruct (s : StructId) : Program discreet (viewOfStruct s : Run ε _) :=
  .read (fun _ _ _ => rfl) fun _ => .viewOfTable _

section
variable (h : HostProgram discreet host)
include h

def requireField (s : StructId) (name : Bytes) : Program discreet (requireField host s name) :=
  .bind (.field? s name) fun
    | some _ => .pure _
    | none => .read (fun _ _ _ => rfl) fun _ => .ite (.bind (.pure _) fun _ => .raise _)
      (.bind (.map some (.display h _)) fun _ => .raise _)

def structIntoDict (s : StructId) (d : TableId .any) : Program discreet (structIntoDict host s d) :=
  .bind (.fieldsOf s) fun _ => .forM (fun (name, value) => .insert (keyingOf h .any) d (.str name) value) _

def mergeStructs (x y : StructId) : Program discreet (mergeStructs host x y) :=
  .read (fun _ _ _ => rfl) fun _ => .read (fun _ _ _ => rfl) fun _ =>
    .bind (.sameConstructor h (.equal h) .merge _ _) fun _ => .ite
      (.bind (.fieldsOf x) fun _ => .bind (.fieldsOf y) fun _ => .filled _ _ _)
      (.bind (.display h _) fun _ => .bind (.display h _) fun _ => .raise _)

def dictsEqualWithin (depth : Int) (x y : TableId .any) : Program discreet (dictsEqualWithin host depth x y) :=
  .dictsEqual (keyingOf h .any) (.equalWithin h (depth - 1)) x y

def structsEqualWithin (depth : Int) (x y : StructId) : Program discreet (structsEqualWithin host depth x y) :=
  .structsEqual h (.equal h) (.equalWithin h (depth - 1)) x y

def compareStructs (comparison : Comparison) (depth : Int) (x y : StructId) :
    Program discreet (compareStructs host comparison depth x y) := by
  cases comparison
  case eq => exact .structsEqualWithin h depth x y
  case ne => exact .bind (.structsEqualWithin h depth x y) fun _ => .pure _
  all_goals exact .raise _

/-! ## Dumps -/

def slotLine (slot : Nat) : ∀ entry : Option (Entry kind.Key), Program discreet (slotLine host slot entry)
  | none => .pure _
  | some e =>
    have key : Program discreet (displayKey host kind e.key) := match kind, e.key with
      | .any, key => .display h key
      | .text, _ => .pure _
    .bind key fun _ => .bind (.display h e.value) fun _ => .pure _

def dumpTable (address : Bytes) (t : TableId kind) : Program discreet (dumpTable host address t) :=
  .bind (.readTable t) fun _ => .bind
    (.mapM (fun _ => .bind (.mapM (fun _ => .bind (.mapM (fun _ => .slotLine h _ _) _) fun _ => .pure _) _) fun _ => .pure _) _)
    fun _ => .pure _

def viewEntryLine (view : View) (position : Nat) : Program discreet (viewEntryLine host view position) := by
  unfold ValueCore.viewEntryLine
  cases view.entries[position]? with
  | none => exact .pure _
  | some e => exact .bind (.display h e.value) fun _ => .pure _

def dumpView (address : Bytes) (v : ViewId) : Program discreet (dumpView host address v) :=
  .bind (.readView v) fun _ => .bind
    (.mapM (fun _ => .bind (.mapM (fun _ => .viewEntryLine h _ _) _) fun _ => .pure _) _) fun _ => .pure _

/-! ## Every operation -/

def operation : ∀ op : Operation, Program discreet (op.run host)
  | .newTable kind hint => .map _ (.newTable kind hint)
  | .resize t hint => .resizeTable t hint
  | @Operation.insert kind t key value => .insert (keyingOf h kind) t key value
  | @Operation.lookup kind t key => .map _ (.lookup (keyingOf h kind) t key)
  | @Operation.erase kind t key => .map _ (.erase (keyingOf h kind) t key)
  | .clear t => .clear t
  | .keys t => .map _ (.keyList t)
  | .items t => .map _ (.itemList t)
  | .freezeTable t => .freezeDeep h t
  | .newDict hint => .map _ (.newDict hint)
  | .createStruct ctor fields => .map _ (.createStruct ctor fields)
  | .makeStruct positional fields => .map _ (.makeStruct positional fields)
  | .mergeStructs x y => .map _ (.mergeStructs h x y)
  | .intoDict s d => .structIntoDict h s d
  | .field s name => .map _ (.requireField h s name)
  | .hasField s name => .map _ (.hasField s name)
  | .fieldNames s => .map _ (.fieldNames s)
  | .hash v => .map _ (.hashValue h v)
  | .equal depth x y => .map _ (.equalWithin h depth x y)
  | .equalDicts depth x y => .map _ (.dictsEqualWithin h depth x y)
  | .equalStructs depth x y => .map _ (.structsEqualWithin h depth x y)
  | .display v => .map _ (.display h v)
  | .displayStruct s => .map _ (.displayStruct h s)
  | .freeze v => .freeze h v

end

end Program

/-! ## What else there is -/

/-- What the core is asked for besides the operations: strings, views, dumps, and operators on structs. -/
inductive Service
  | newString (s : Bytes)
  | newView (hint : UInt32)
  | viewOfTable (t : TableId .text)
  | viewOfStruct (s : StructId)
  | resizeView (v : ViewId) (hint : UInt32)
  | append (v : ViewId) (key : Bytes) (value : Value)
  | set (v : ViewId) (key : Bytes) (value : Value)
  | entryAt (v : ViewId) (index : Int)
  | viewKeys (v : ViewId)
  | dumpTable (address : Bytes) {kind : KeyKind} (t : TableId kind)
  | dumpView (address : Bytes) (v : ViewId)
  | compareStructs (comparison : Comparison) (depth : Int) (x y : StructId)

/-- What a service does. Its answer is left to the program. -/
def Service.run (host : Host ε) : Service → Run ε Unit
  | .newString s => discard (ValueCore.newString s)
  | .newView hint => discard (ValueCore.newView hint)
  | .viewOfTable t => discard (ValueCore.viewOfTable t)
  | .viewOfStruct s => discard (ValueCore.viewOfStruct s)
  | .resizeView v hint => ValueCore.resizeView v hint
  | .append v key value => appendEntry v key value
  | .set v key value => discard (setEntry v key value)
  | .entryAt v index => discard (ValueCore.entryAt v index)
  | .viewKeys v => discard (viewKeyList v)
  | .dumpTable address t => discard (ValueCore.dumpTable host address t)
  | .dumpView address v => discard (ValueCore.dumpView host address v)
  | .compareStructs comparison depth x y => discard (ValueCore.compareStructs host comparison depth x y)

def Program.service (h : HostProgram discreet host) : ∀ s : Service, Program discreet (s.run host)
  | .newString s => .map _ (.newString s)
  | .newView hint => .map _ (.newView hint)
  | .viewOfTable t => .map _ (.viewOfTable t)
  | .viewOfStruct s => .map _ (.viewOfStruct s)
  | .resizeView v hint => .resizeView v hint
  | .append v key value => .appendEntry v key value
  | .set v key value => .map _ (.setEntry v key value)
  | .entryAt v index => .map _ (.entryAt v index)
  | .viewKeys v => .map _ (.viewKeyList v)
  | .dumpTable address t => .map _ (.dumpTable h address t)
  | .dumpView address v => .map _ (.dumpView h address v)
  | .compareStructs comparison depth x y => .map _ (.compareStructs h comparison depth x y)

end ValueCore
