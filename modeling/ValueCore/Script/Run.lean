import ValueCore.Close
import ValueCore.Script.Calls.Memory
import ValueCore.Script.Calls.Structs

/-!
# Running scripts

A step is run in a protected call, so a script goes on after a failed step. The host values of a
script are served by `hostWith`, on top of a host for what they may call in turn: a box asks about
its content, a hook runs steps. Hosts are stacked `nestingLimit` high, which is how deep such calls
may nest; a hook that is already running its steps runs none.
-/

namespace ValueCore.Script

/-! ## Calls on the state -/

/-- Opens another state. Its allocator grants as many requests as it is given. -/
def openAnother (requests : Option Int) : Reply :=
  let grants : Nat → Nat → Bool := fun serial _ => match requests with
    | some n => (serial : Int) < n
    | none => true
  match World.open? grants () with
  | some w => .list [.bytes constructorText, .bool requests.isSome, .bytes w.message]
  | none => .null

def runStateCall : StateCall → Act Reply
  | .statusName code => return .bytes (Status.nameOfCode code)
  | .typeName index => return .bytes (Value.typeNameAt index)
  | .symbol comparison => return .bytes comparison.symbol
  | .raise code text => raise (.reported (.ofCode code) text)
  | .raiseWith text signed unsigned => raise (.reportedWith text signed unsigned)
  | .hostMemory => throw .hostMemory
  | .message => return .bytes (← get).message
  | .openState requests => return openAnother requests

/-! ## Steps -/

variable (host : Host Session)

/-- Carries out a call whose arguments are made. -/
def runCall (refuse : Bool) : Call Value → Act Reply
  | .value call => runValueCall host refuse call
  | .newTable kind target hint => runNewTable refuse kind target hint
  | .table name call => runTableCall host refuse name call
  | .cursor name call => runCursorCall host name call
  | .newView target hint => runNewView refuse target hint
  | .view name call => runViewCall host refuse name call
  | .struct call => runStructCall host refuse call
  | .memory call => runMemoryCall refuse call
  | .state call => runStateCall call

/-- The name of the status that a protected call ended with. -/
def endName : Except Status Unit → Bytes
  | .ok () => Status.nameOfCode 0
  | .error status => status.name

/-- Replaces the message if a text is given, and answers with the message there is then. -/
def replacement (text : Option Bytes) : Act (List Reply) := do
  match text with
  | none => return []
  | some text =>
    setMessage text
    return [.bytes (← get).message]

mutual

/-- Makes the arguments of a step and carries it out. -/
def runBody : Step → Act Reply
  | .call call options => do
    let call ← call.mapM (build host)
    runCall host options.refuse call
  | .attempt steps replaceBy cutFrom _ => do
    let ending ← protect (runBodies steps)
    let message := (← get).message
    let replaced ← replacement replaceBy
    let current := (← get).message
    let cut ← replacement (cutFrom.map fun k => current.drop k.toNat)
    return .list ([.bytes (endName ending), .bytes message] ++ replaced ++ cut)

/-- Carries out steps up to the first that fails. -/
def runBodies : List Step → Act Unit
  | [] => pure ()
  | step :: rest => do
    let _ ← runBody step
    runBodies rest

end

def Step.options : Step → Options
  | .call _ options => options
  | .attempt _ _ _ options => options

/-- How a computation ends. -/
def outcomeOf (act : Act Reply) : Act Outcome := fun w =>
  match protect act w with
  | (.ok (.ok reply), w) => (.ok (.success reply), w)
  | (.ok (.error status), w) => (.ok (.failure status w.message), w)
  | (.error (.misuse reason), w) => (.ok (.misuse reason), w)
  | (.error _, w) => (.ok (.misuse (ascii "nested too deep")), w)

/-- The shape of the table or view that accompanies a step. -/
def shapeFor (w : World Session) (options : Options) : Option Reply :=
  match options.table.bind w.env.table? with
  | some ⟨_, t⟩ => some (shapeOf (w.table t))
  | none => (options.view.bind w.env.views.get?).map fun v => viewShape (w.view v)

/-- Runs a step on its own, with a trace of its own. -/
def runStep (step : Step) : Act Answer := do
  let outer := (← session).trace
  updateSession fun s => { s with trace := [] }
  let outcome ← outcomeOf (runBody host step)
  let shape := shapeFor (← get) step.options
  let trace := (← session).trace.reverse
  updateSession fun s => { s with trace := outer }
  return .step outcome shape trace

/-! ## The host -/

/-- The host value of an index. -/
def hostObject (h : HostId) : Act HostObject := return (← session).host h

/-- Runs the steps of a hook, noting their answers, unless it is running already. The allocator is
not switched off for them. -/
def runHook (h : HostId) (steps : List Step) : Act Unit := do
  unless h ∈ (← session).running do
    updateSession fun s => { s with running := h :: s.running }
    refusing false <| steps.forM fun step => do note (.nested (← runStep host step))
    updateSession fun s => { s with running := s.running.erase h }

/-- The hash given to a host value, or the refusal that is the default. -/
def givenHash (object : HostObject) : Option UInt32 → Act UInt32
  | some hash => pure hash
  | none => raise (.unhashable object.typeName)

/-- The host values of scripts; `host` serves what they call in turn. -/
def hostWith : Host Session where
  typeName h w := (w.env.host h).typeName
  sameClass a b w := (w.env.host a).typeName == (w.env.host b).typeName
  display h := do
    match ← hostObject h with
    | .box name content _ => return name ++ ascii "<" ++ (← display host content) ++ ascii ">"
    | object => return object.name
  hash h := do
    let object ← hostObject h
    note (.event (ascii "hash " ++ object.name))
    match object with
    | .plain _ => givenHash object none
    | .symbol name => return name.fnv1a
    | .colliding _ hash => return hash
    | .faulty _ _ _ hash => givenHash object hash
    | .box _ content hash =>
      match hash with
      | some hash => return hash
      | none => hashValue host content
    | .hook _ hash _ onHash _ _ =>
      runHook host h onHash
      return hash
  equal a b depth := do
    let object ← hostObject a
    let other ← hostObject b
    note (.event (ascii "eq " ++ object.name ++ ascii " " ++ other.name ++ ascii " " ++
      Bytes.decimal depth))
    match object, other with
    | .plain _, _ => return a == b
    | .symbol m, .symbol n => return m == n
    | .colliding i _, .colliding j _ => return i == j
    | .faulty _ code text _, _ =>
      if code = 2 then throw .hostMemory else raise (.reported (.ofCode code) text)
    | .box _ x _, .box _ y _ => equalWithin host (depth - 1) x y
    | .hook _ _ verdict _ onEqual _, _ =>
      runHook host a onEqual
      return verdict.getD (a == b)
    | _, _ => return false
  freeze h := do
    let object ← hostObject h
    note (.event (ascii "freeze " ++ object.name))
    match object with
    | .box _ content _ => freeze host content
    | .hook _ _ _ _ _ onFreeze => runHook host h onFreeze
    | _ => pure ()

/-- A host that serves nothing. -/
def noHost : Host Session where
  typeName h w := (w.env.host h).typeName
  sameClass _ _ _ := false
  display _ := throw .exhausted
  hash _ := throw .exhausted
  equal _ _ _ := throw .exhausted
  freeze _ := throw .exhausted

/-- Hosts stacked so high. -/
def hostStack : Nat → Host Session
  | 0 => noHost
  | n + 1 => hostWith (hostStack n)

/-- How deep calls through host values may nest. -/
def nestingLimit : Nat := 1000

/-- The host of a script. -/
def scriptHost : Host Session := hostStack nestingLimit

/-! ## Whole scripts -/

/-- Largest single request that the allocator of a script grants. -/
def requestLimit : Nat := 2 ^ 28

/-- Gives back what the registers of a script still hold. -/
def dropRegisters (w : World Session) : World Session :=
  w.env.blocks.foldl (fun w (_, raw) => w.freed raw.block raw.bytes) w

/-- Runs steps in order. -/
def runSteps (host : Host Session) : List Step → Act (List Answer)
  | [] => pure []
  | step :: rest => do
    let answer ← runStep host step
    let answers ← runSteps host rest
    return answer :: answers

/-- Runs a script in a world of its own and closes the world. -/
def run (script : List Step) : List Answer × Option Memory :=
  match World.open? (fun _ bytes => bytes ≤ requestLimit) Session.empty with
  | none => ([], none)
  | some w =>
    match runSteps scriptHost script w with
    | (.ok answers, w) => (answers, some (dropRegisters w).close)
    | (.error _, w) => ([], some (dropRegisters w).close)

end ValueCore.Script
