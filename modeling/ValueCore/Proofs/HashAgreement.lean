import ValueCore.Proofs.Distinctness
import ValueCore.Proofs.Orderliness
import ValueCore.Proofs.Reentrancy
import ValueCore.Proofs.World.Parts

/-!
# Equal values hash alike

Hashing looks at less than comparing does: at numbers by what number they are, at structs by their fields in order,
never at a constructor. Whatever tells two values apart for a hash tells them apart for a comparison as well. So when a
comparison says yes, hashing the two values is one and the same computation: it gives the same hash, or it fails with
the same error and leaves the same message (`equal_values_hash_alike`).

There is just one way to fail (`HashEnds`), since structs contain each other in one direction only
(`World.Founded`) and the nesting that is allowed for is enough.
-/

namespace ValueCore

open World

variable {ε : Type} {I : Inventory ε} {w v : World ε} {host : Host ε} {x y : Value}

/-! ## How hashing ends -/

/-- The ways for hashing to end that starts in `v`: with a hash, or with the complaint that a dict has none. Apart from
the message of that nothing has changed. -/
inductive HashEnds (v : World ε) : Except Failure UInt32 × World ε → Prop
  | hashed (a : UInt32) : HashEnds v (.ok a, v)
  | refused : HashEnds v (.error (.raised .unhashable), { v with message := (Fault.unhashable (ascii "dict")).message })

theorem hashFields_ends {hash : Value → Run ε UInt32} : ∀ {fields : List (Bytes × Value)} {s : StructHash},
    (∀ field ∈ fields, HashEnds v (hash field.2 v)) → HashEnds v (hashFields hash fields s v)
  | [], s, _ => .hashed s.hash
  | (name, value) :: rest, s, h => by
    have hfirst := h (name, value) List.mem_cons_self
    have hrest : ∀ field ∈ rest, HashEnds v (hash field.2 v) := fun field hm => h field (List.mem_cons_of_mem _ hm)
    unfold hashFields
    cases hr : hash value v with
    | mk r u =>
      rw [hr] at hfirst
      cases hfirst with
      | hashed a =>
        rw [run_bind_ok hr]
        exact hashFields_ends hrest
      | refused =>
        rw [run_bind_error hr]
        exact .refused

/-- Hashing a value made of the first `n` structs does not use up more than `n` nested steps. -/
theorem hashAt_ends (hf : ∀ s : StructId, s.index < v.structs.size → v.Founded s) :
    ∀ {fuel n : Nat} {x : Value}, n < fuel → n ≤ v.structs.size → x.Below n → ¬ v.Hosted x →
      HashEnds v (hashAt host fuel x v)
  | fuel + 1, n, x, hfuel, hn, hx, hh => by
    cases x with
    | none | bool | int | float | str => exact .hashed _
    | host i => exact absurd (.host i) hh
    | dict t => exact .refused
    | struct s =>
      have hs : s.index < n := hx
      have hfields := (hf s (by omega)).fields
      show HashEnds v ((get >>= fun v => hashFields (hashAt host fuel) (v.table (v.struct s).fields).items {} : Run ε UInt32) v)
      rw [run_bind_ok (run_get v)]
      refine hashFields_ends fun field hm => ?_
      exact hashAt_ends hf (by omega : s.index < fuel) (by omega) (hfields field hm) fun h => hh (.field hm h)

theorem hashValue_ends (ho : v.Orderly) (hx : x.Below v.structs.size) (hh : ¬ v.Hosted x) :
    HashEnds v (hashValue host x v) := by
  unfold hashValue
  rw [run_bind_ok (run_get v)]
  exact hashAt_ends ho.founded (by omega : v.structs.size < v.structs.size + 2) (Nat.le_refl _) hx hh

/-! ## Equal values -/

/-- **Equal values hash alike.** If two values, with none of the host's in them, compare equal with some budget then
hashing one of them is hashing the other, in whatever world of the same tables and structs. In worlds that a program
may come to between operations both give the same hash, or both complain of a dict. -/
theorem equal_values_hash_alike (hw : Midway I w) (hx : w.HostFree x) (hy : w.HostFree y) {d : Int}
    (h : (equalWithin host d x y w).1 = .ok true) :
    SameStores w (equalWithin host d x y w).2 ∧
    (∀ (other : Host ε) v, SameStores w v → hashValue other x v = hashValue other y v) ∧
    (Reachable I w → w.Owns x → ∀ (other : Host ε) v, SameStores w v → HashEnds v (hashValue other x v)) := by
  have hs := hw.sound
  have hyields : w.Yields (equalWithin host d x y) (w.verdict (comparisonFuel w d) d x y) :=
    yields_equalInside (region_hostFree hs.tables) d x y hx hy
  have hequal : w.Equal x y := equal_of_verdict hs.tables (hyields.value h)
  refine ⟨.of_alike (hyields.alike w (.refl w)), fun other v hv => ?_, fun hr hown other v hv => ?_⟩
  · unfold hashValue
    rw [run_bind_ok (run_get v), run_bind_ok (run_get v)]
    exact (hequal.hashAt_eq hs.tables _ v hv).1
  · have hbelow : x.Below v.structs.size := hv.structs ▸ below_of_owns hown
    exact hashValue_ends (hr.orderly.same hs hv) hbelow (hx.same hv).not_hosted

/-! ## Two records of the same -/

/-- Two records of equal fields, given in different orders, as integers and as floats, and one of them merged; and two
structs with the same dict. -/
def recorded : List Operation :=
  [.createStruct (.str (ascii "point")) [(ascii "y", .float ⟨0x8000000000000000⟩), (ascii "x", .int 1)],
    .createStruct (.str (ascii "point")) [(ascii "x", .float ⟨0x3FF0000000000000⟩)],
    .createStruct (.str (ascii "point")) [(ascii "y", .int 0)],
    .mergeStructs ⟨1⟩ ⟨2⟩,
    .createStruct .none [(ascii "at", .struct ⟨0⟩), (ascii "size", .int (2 ^ 62))],
    .createStruct .none [(ascii "size", .float ⟨0x43D0000000000000⟩), (ascii "at", .struct ⟨3⟩)],
    .newDict 0,
    .createStruct .none [(ascii "d", .dict ⟨0⟩)],
    .createStruct .none [(ascii "d", .dict ⟨0⟩)]]

def recordedWorld : World Unit := inTurn recorded (.unused ())

theorem reachable_recordedWorld : Reachable .nothing recordedWorld ∧ recordedWorld.Plain := reachable_inTurn (by decide +kernel)

/-- The records have one hash, and the structs with the dict have none. -/
theorem equal_values_hash_alike_recorded :
    (equalWithin mute 2 (.struct ⟨4⟩) (.struct ⟨5⟩) recordedWorld).1 = .error (.raised .depthExceeded) ∧
    (equalWithin mute 3 (.struct ⟨4⟩) (.struct ⟨5⟩) recordedWorld).1 = .ok true ∧
    (equalWithin mute 2 (.struct ⟨6⟩) (.struct ⟨7⟩) recordedWorld).1 = .ok true ∧
    (hashValue mute (.struct ⟨4⟩) recordedWorld).1 = .ok 785521781 ∧
    (hashValue mute (.struct ⟨6⟩) recordedWorld).1 = .error (.raised .unhashable) ∧
    ∀ (host : Host Unit) v, SameStores recordedWorld v →
      hashValue host (.struct ⟨4⟩) v = hashValue host (.struct ⟨5⟩) v ∧
      HashEnds v (hashValue host (.struct ⟨4⟩) v) ∧
      hashValue host (.struct ⟨6⟩) v = hashValue host (.struct ⟨7⟩) v := by
  obtain ⟨hr, hplain⟩ := reachable_recordedWorld
  have hfree : ∀ s : StructId, recordedWorld.HostFree (.struct s) := fun s => hplain.hostFree trivial
  have hrecords : (equalWithin mute 3 (.struct ⟨4⟩) (.struct ⟨5⟩) recordedWorld).1 = .ok true := by decide +kernel
  have hdicts : (equalWithin mute 2 (.struct ⟨6⟩) (.struct ⟨7⟩) recordedWorld).1 = .ok true := by decide +kernel
  obtain ⟨_, hsame, hends⟩ := equal_values_hash_alike ⟨_, hr, .start⟩ (hfree _) (hfree _) hrecords
  obtain ⟨_, hsame', _⟩ := equal_values_hash_alike ⟨_, hr, .start⟩ (hfree _) (hfree _) hdicts
  refine ⟨by decide +kernel, hrecords, hdicts, by decide +kernel, by decide +kernel, fun host v hv => ?_⟩
  exact ⟨hsame host v hv, hends hr (by decide +kernel) host v hv, hsame' host v hv⟩

end ValueCore
