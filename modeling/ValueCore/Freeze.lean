import ValueCore.Hash

/-!
# Freezing

Freezing a value freezes every container that can be reached from it through keys, values and fields,
but not through the constructors of structs. A frozen table refuses every change from then on.
-/

namespace ValueCore

variable {ε : Type}

/-- Freezes a value with containers nested less than `fuel` deep. -/
def freezeAt (host : Host ε) : Nat → Value → Run ε Unit
  | 0, _ => throw .exhausted
  | fuel + 1, v =>
    match v with
    | .dict t => freezeTable (freezeAt host fuel) (freezeAt host fuel) t
    | .struct s => do
      let fields := ((← get).struct s).fields
      freezeTable (fun _ => pure ()) (freezeAt host fuel) fields
    | .host h => host.freeze h
    | _ => pure ()

/-- How deep freezing may go: a path meets no container twice, as it ends at a frozen one, and the
containers that the host makes meanwhile are allowed for. -/
def freezingFuel (w : World ε) : Nat := w.containers + 4096

/-- Freezes a value and all it leads to. -/
def freeze (host : Host ε) (v : Value) : Run ε Unit := do
  freezeAt host (freezingFuel (← get)) v

/-- Freezes a table of either kind and all it leads to. -/
def freezeDeep (host : Host ε) : {kind : KeyKind} → TableId kind → Run ε Unit
  | .any, t => freezeTable (freeze host) (freeze host) t
  | .text, t => freezeTable (fun _ => pure ()) (freeze host) t

end ValueCore
