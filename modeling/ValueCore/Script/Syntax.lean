import ValueCore.World

/-!
# Scripts

A script is a list of steps that exercise the core from the outside: each makes one call of its
interface on values kept in named registers. A step is data, so that a host value can carry steps to
run when the core calls it back (`HostExpr.hook`).

The arguments of a call are expressions, which say how a value is made (`Expr`). A call is a family
over the type of its arguments, so the same call stands with expressions in a script and with values
when it is carried out: `mapM` makes the arguments, from left to right.
-/

namespace ValueCore.Script

/-- Name of a register. Values, tables, views, cursors and memory blocks have separate names. -/
abbrev Name := Bytes

/-! ## Calls on values -/

inductive ValueCall (α : Type) where
  /-- Keep a value in a register, and show it unless `quiet`. -/
  | keep (target : Name) (v : α) (quiet : Bool)
  | display (v : α)
  | describeType (v : α)
  | hash (v : α)
  | equal (x y : α) (depth : Option Int)
  | freeze (v : α)
  | isFrozen (v : α)
  /-- Order, equality and precedence of two strings. -/
  | compareStrings (x y : α)
  /-- Make a string, from the part before the first NUL if `cut`, and measure it. -/
  | measureString (s : Bytes) (cut : Bool)

/-! ## Calls on tables -/

/-- What keys a fill makes of the numbers it counts through. -/
inductive FillPattern where
  /-- A label and the number. -/
  | numbered
  | multiples (factor : Int)
  /-- Host values of one hash. -/
  | colliding (hash : UInt32)

/-- The keys of a fill. Where keys are byte strings they are numbered, whatever the pattern. -/
structure FillKeys where
  label : Bytes
  pattern : FillPattern

/-- Counting from `start` to `stop`, which is left out, in steps of `stride`. -/
structure Span where
  start : Int
  stop : Int
  stride : Int

inductive TableCall (α : Type) where
  | resize (hint : UInt32)
  | insert (key value : α)
  | get (key : α)
  | has (key : α)
  | erase (key : α) (quiet : Bool)
  | clear
  | freeze
  | length
  | isFrozen
  | shape
  | keys
  | items
  | first
  | entry (index : Int)
  | dump
  | fill (span : Span) (keys : FillKeys)
  | drain (span : Span) (keys : FillKeys)
  | startCursor (target : Name)
  | toView (target : Name)

inductive CursorCall where
  | next
  | nextKey
  | finish
  | drop
  | move (target : Name)

/-! ## Calls on views -/

inductive ViewCall (α : Type) where
  | resize (hint : UInt32)
  | append (key : Bytes) (value : α) (hash : Option UInt32)
  | fill (start stop : Int) (label : Bytes) (hash : Option UInt32)
  | get (key : Bytes)
  | has (key : Bytes)
  | set (key : Bytes) (value : α)
  | valueAt (index : Int)
  | itemAt (index : Int)
  | keyAt (index : Int)
  | length
  | keys
  | range (stop : Option Bytes)
  | dump

/-! ## Calls on structs -/

inductive StructCall (α : Type) where
  | make (positional : List α) (fields : List (Bytes × α)) (target : Option Name)
  | create (ctor : α) (fields : List (Bytes × α)) (target : Option Name)
  | merge (x y : α) (target : Option Name)
  | field (s : α) (name : Bytes) (target : Option Name)
  | hasField (s : α) (name : Bytes)
  | names (s : α)
  | equal (x y : α) (depth : Int)
  | compare (comparison : Comparison) (x y : α) (depth : Int)
  | hash (s : α)
  | freeze (s : α)
  | text (s : α)
  | dump (s : α)
  | describe (s : α)
  | intoDict (s d : α)
  | toView (s : α) (target : Name)

/-! ## Calls on memory and on the state -/

/-- Operations on one vector of integers. -/
inductive VectorOp where
  | push (x : Int)
  | pop
  | resize (count : Nat)
  | reserve (count : Nat)
  | clear
  | set (index : Nat) (x : Int)

inductive MemoryCall where
  | new (target : Name) (bytes : Nat)
  | resize (block : Name) (bytes : Nat)
  | tryResize (block : Name) (bytes : Nat)
  | free (block : Name)
  | resizeVector (block : Name) (count : Nat)
  | checkedVector (size count : Nat)
  | elements (size count : Nat)
  | tooBig
  | fail
  | vector (ops : List VectorOp)

inductive StateCall where
  | statusName (code : Int)
  | typeName (index : Int)
  | symbol (comparison : Comparison)
  | raise (code : Int) (text : Bytes)
  | raiseWith (text : Bytes) (signed : Int) (unsigned : Nat)
  | hostMemory
  | message
  /-- Open another state whose allocator grants so many requests, or every one. -/
  | openState (requests : Option Int)

/-- A call of the interface with arguments of type `α`. -/
inductive Call (α : Type) where
  | value (call : ValueCall α)
  | newTable (kind : KeyKind) (target : Name) (hint : UInt32)
  | table (name : Name) (call : TableCall α)
  | cursor (name : Name) (call : CursorCall)
  | newView (target : Name) (hint : UInt32)
  | view (name : Name) (call : ViewCall α)
  | struct (call : StructCall α)
  | memory (call : MemoryCall)
  | state (call : StateCall)

/-! ## Expressions and steps -/

/-- What accompanies a call. -/
structure Options where
  /-- A table whose shape is reported after the step. -/
  table : Option Name := none
  /-- A view whose shape is reported after the step. -/
  view : Option Name := none
  /-- Is every allocation refused while the call runs? -/
  refuse : Bool := false

mutual

/-- How a value is made. -/
inductive Expr where
  | none
  | bool (b : Bool)
  | int (i : Int64)
  | float (x : Binary64)
  | str (s : Bytes)
  | register (name : Name)
  | dict (hint : UInt32) (items : List (Expr × Expr))
  | struct (fields : List (Bytes × Expr))
  | branded (ctor : Expr) (fields : List (Bytes × Expr))
  | host (h : HostExpr)

/-- How a host value is made. -/
inductive HostExpr where
  /-- Everything as the library has it by default. -/
  | plain (name : Bytes)
  /-- Equal to symbols of the same name. -/
  | symbol (name : Bytes)
  /-- Equal to those of the same number, with a chosen hash. -/
  | colliding (id : Int) (hash : UInt32)
  /-- Fails when it is compared. -/
  | faulty (name : Bytes) (code : Int) (text : Bytes) (hash : Option UInt32)
  /-- Holds a value. -/
  | box (name : Bytes) (content : Expr) (hash : Option UInt32)
  /-- Runs steps when it is called. -/
  | hook (name : Bytes) (hash : UInt32) (verdict : Option Bool)
      (onHash onEqual onFreeze : List Step)

/-- One step of a script. -/
inductive Step where
  | call (call : Call Expr) (options : Options)
  /-- Run steps in a protected call of their own, then replace its message: first by a text, then by
  what is left of the message from a byte on. -/
  | attempt (steps : List Step) (replaceBy : Option Bytes) (cutFrom : Option Int)
      (options : Options)

end

/-! ## Making the arguments of a call -/

section
variable {m : Type → Type} [Monad m] {α β : Type} (f : α → m β)

/-- Makes the values of fields in order. -/
def mapFieldsM : List (Bytes × α) → m (List (Bytes × β))
  | [] => pure []
  | (name, x) :: rest => do
    let y ← f x
    let ys ← mapFieldsM rest
    return (name, y) :: ys

def ValueCall.mapM : ValueCall α → m (ValueCall β)
  | .keep target v quiet => return .keep target (← f v) quiet
  | .display v => return .display (← f v)
  | .describeType v => return .describeType (← f v)
  | .hash v => return .hash (← f v)
  | .equal x y depth => do
    let x ← f x
    let y ← f y
    return .equal x y depth
  | .freeze v => return .freeze (← f v)
  | .isFrozen v => return .isFrozen (← f v)
  | .compareStrings x y => do
    let x ← f x
    let y ← f y
    return .compareStrings x y
  | .measureString s cut => return .measureString s cut

def TableCall.mapM : TableCall α → m (TableCall β)
  | .resize hint => return .resize hint
  | .insert key value => do
    let key ← f key
    let value ← f value
    return .insert key value
  | .get key => return .get (← f key)
  | .has key => return .has (← f key)
  | .erase key quiet => return .erase (← f key) quiet
  | .clear => return .clear
  | .freeze => return .freeze
  | .length => return .length
  | .isFrozen => return .isFrozen
  | .shape => return .shape
  | .keys => return .keys
  | .items => return .items
  | .first => return .first
  | .entry index => return .entry index
  | .dump => return .dump
  | .fill span made => return .fill span made
  | .drain span made => return .drain span made
  | .startCursor target => return .startCursor target
  | .toView target => return .toView target

def ViewCall.mapM : ViewCall α → m (ViewCall β)
  | .resize hint => return .resize hint
  | .append key value hash => return .append key (← f value) hash
  | .fill start stop label hash => return .fill start stop label hash
  | .get key => return .get key
  | .has key => return .has key
  | .set key value => return .set key (← f value)
  | .valueAt index => return .valueAt index
  | .itemAt index => return .itemAt index
  | .keyAt index => return .keyAt index
  | .length => return .length
  | .keys => return .keys
  | .range stop => return .range stop
  | .dump => return .dump

def StructCall.mapM : StructCall α → m (StructCall β)
  | .make positional fields target => do
    let positional ← positional.mapM f
    let fields ← mapFieldsM f fields
    return .make positional fields target
  | .create ctor fields target => do
    let ctor ← f ctor
    let fields ← mapFieldsM f fields
    return .create ctor fields target
  | .merge x y target => do
    let x ← f x
    let y ← f y
    return .merge x y target
  | .field s name target => return .field (← f s) name target
  | .hasField s name => return .hasField (← f s) name
  | .names s => return .names (← f s)
  | .equal x y depth => do
    let x ← f x
    let y ← f y
    return .equal x y depth
  | .compare comparison x y depth => do
    let x ← f x
    let y ← f y
    return .compare comparison x y depth
  | .hash s => return .hash (← f s)
  | .freeze s => return .freeze (← f s)
  | .text s => return .text (← f s)
  | .dump s => return .dump (← f s)
  | .describe s => return .describe (← f s)
  | .intoDict s d => do
    let s ← f s
    let d ← f d
    return .intoDict s d
  | .toView s target => return .toView (← f s) target

def Call.mapM : Call α → m (Call β)
  | .value call => return .value (← call.mapM f)
  | .newTable kind target hint => return .newTable kind target hint
  | .table name call => return .table name (← call.mapM f)
  | .cursor name call => return .cursor name call
  | .newView target hint => return .newView target hint
  | .view name call => return .view name (← call.mapM f)
  | .struct call => return .struct (← call.mapM f)
  | .memory call => return .memory call
  | .state call => return .state call

end

end ValueCore.Script
