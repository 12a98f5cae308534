import ValueCore.Host
import ValueCore.Binary64.Decimal
import ValueCore.Table.Access

/-!
# Display

The text of a value. Dicts and structs are written with their contents in order. A container that is
reached again while it is being written is replaced by an ellipsis, so the text of a cyclic value is
finite; a container that is merely shared is written in full each time.

The text of a string is delimited by quotes, with quotes, backslashes and control bytes escaped, so
it can be read back.
-/

namespace ValueCore

/-! ## Quoted strings -/

/-- A lower-case hexadecimal digit. -/
def hexDigit (n : UInt8) : UInt8 := if n < 10 then 48 + n else 87 + n

/-- One byte inside quotes. -/
def quotedByte (c : UInt8) : Bytes :=
  if c = 34 then ascii "\\\""
  else if c = 92 then ascii "\\\\"
  else if c = 10 then ascii "\\n"
  else if c = 13 then ascii "\\r"
  else if c = 9 then ascii "\\t"
  else if c < 32 || c = 127 then ascii "\\x" ++ [hexDigit (c / 16), hexDigit (c % 16)]
  else [c]

/-- A string in quotes. -/
def quoted (s : Bytes) : Bytes := ascii "\"" ++ s.flatMap quotedByte ++ ascii "\""

/-! ## Containers -/

variable {ε : Type}

/-- The constructor of structs that were not given one. -/
def defaultConstructor : Value := .str constructorText

/-- Text of a dict whose parts are written by `write`. The dict is held in place meanwhile. -/
def dictText (write : Value → Run ε Bytes) (t : TableId .any) : Run ε Bytes :=
  holding t do
    let items ← (← readTable t).items.mapM fun (key, value) => do
      let k ← write key
      let v ← write value
      return k ++ ascii ": " ++ v
    return ascii "\x7b" ++ Bytes.joined (ascii ", ") items ++ ascii "\x7d"

/-- Text of a struct whose parts are written by `write`: its constructor, by name if it is the
default one, and its fields. -/
def structText (write : Value → Run ε Bytes) (s : StructId) : Run ε Bytes := do
  let object := (← get).struct s
  let head ← if object.ctor = defaultConstructor then pure (ascii "struct") else write object.ctor
  let fields ← (← readTable object.fields).items.mapM fun (name, value) => do
    return name ++ ascii " = " ++ (← write value)
  return head ++ ascii "(" ++ Bytes.joined (ascii ", ") fields ++ ascii ")"

/-- Text of a value inside the containers of `path`. A container is put on the trail while it is being
written. -/
def writeAt (host : Host ε) : Nat → List Value → Value → Run ε Bytes
  | 0, _, _ => throw .exhausted
  | fuel + 1, path, v =>
    match v with
    | .none => pure (ascii "None")
    | .bool b => pure (if b then ascii "True" else ascii "False")
    | .int i => pure (Bytes.decimal i.toInt)
    | .float x => pure x.display
    | .str s => pure (quoted s)
    | .host h => host.display h
    | .dict t =>
      if v ∈ path then pure (ascii "\x7b...\x7d")
      else do
        extendTrail path.length
        dictText (writeAt host fuel (v :: path)) t
    | .struct s =>
      if v ∈ path then pure (ascii "struct(...)")
      else do
        extendTrail path.length
        structText (writeAt host fuel (v :: path)) s

/-- Text of a value. A path that repeats no container is no longer than there are containers, and
one step more writes an ellipsis or a scalar. -/
def display (host : Host ε) (v : Value) : Run ε Bytes := onTrail do
  writeAt host ((← get).containers + 2) [] v

/-- Text of a struct that is not itself counted among the containers being written. -/
def displayStruct (host : Host ε) (s : StructId) : Run ε Bytes := onTrail do
  structText (writeAt host ((← get).containers + 2) []) s

/-! ## Keys and dumps -/

/-- Text of a key: a byte string is written as it is. -/
def displayKey (host : Host ε) : (kind : KeyKind) → kind.Key → Run ε Bytes
  | .any, key => display host key
  | .text, key => pure key

end ValueCore
