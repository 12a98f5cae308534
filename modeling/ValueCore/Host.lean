import ValueCore.World

/-!
# Values of the host

The host may define values of its own. The core knows them by their index and asks the host for
everything about them: `Host` is what it asks. The answers are computations on the same world, so
the host may fail, may use the core again, and may try to change what the core is working on.
-/

namespace ValueCore

/-- What the host provides for its values. -/
structure Host (ε : Type) where
  typeName : HostId → World ε → Bytes
  /-- Are the two values of the same class? Only then does the core compare them. -/
  sameClass : HostId → HostId → World ε → Bool
  display : HostId → Run ε Bytes
  hash : HostId → Run ε UInt32
  /-- Compares two values of the same class with a budget for nested comparisons. -/
  equal : HostId → HostId → Int → Run ε Bool
  freeze : HostId → Run ε Unit

/-- Name of the type of a value, in the host's words for one of its own. -/
def Host.typeNameOf {ε : Type} (host : Host ε) (w : World ε) : Value → Bytes
  | .host h => host.typeName h w
  | v => v.basicTypeName

end ValueCore
