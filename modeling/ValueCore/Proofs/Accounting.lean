import ValueCore.Proofs.Closing

/-!
# Byte accounting

Memory is asked for and given back by four computations. A client of theirs (`Demand`) keeps an account of the blocks it was
answered with, and hands each one back with the size it has there; no block goes with no bytes. Whatever the allocator
refuses, the account is what the ledger says: its blocks are the live ones, and the total is what they come to
(`byte_accounting_exact`).

| what is asked for | and refused | becomes |
| --- | --- | --- |
| no bytes | never | the block that was handed in is no longer live |
| more than that | no | a block of this size, in place of the one that was handed in |
| more than that | yes | nothing: the block that was handed in is live at the size it had |

An answer without a block does not tell the first row from the last one. `tryReallocate` says `some none` in the first and
`none` in the last, where the others raise an error.

A world has a block of its own, which it asked for before it had a ledger to enter it in. It is live and not part of the total.
-/

namespace ValueCore

open World

variable {ε : Type} {w v : World ε} {held rest : Multiset Holding} {apart : Nat}

/-! ## What is asked for -/

/-- A call of the interface to the allocator. -/
inductive Demand where
  | make (bytes : Nat)
  | tryResize (b : Option Block) (old new : Nat)
  | resize (b : Option Block) (old new : Nat)
  | free (b : Option Block) (bytes : Nat)

namespace Demand

/-- The block that is handed in. -/
def block : Demand → Option Block
  | .make _ => none
  | .tryResize b _ _ | .resize b _ _ | .free b _ => b

/-- The size that this block is said to have. -/
def old : Demand → Nat
  | .make _ => 0
  | .tryResize _ old _ | .resize _ old _ => old
  | .free _ bytes => bytes

/-- The size that is wanted. -/
def new : Demand → Nat
  | .make bytes => bytes
  | .tryResize _ _ new | .resize _ _ new => new
  | .free .. => 0

/-- Answers with a block, or with `none` for a refusal that is not an error. -/
def run : Demand → Run ε (Option (Option Block))
  | .make bytes => some <$> allocate bytes
  | .tryResize b old new => tryReallocate b old new
  | .resize b old new => some <$> reallocate b old new
  | .free b bytes => (fun _ => some none) <$> release b bytes

/-- A block is handed in as it is held, together with the `rest`, and no block as one of no bytes. -/
structure Fair (d : Demand) (held rest : Multiset Holding) : Prop where
  held : held = inBlock d.block d.old + rest
  empty : d.block = none → d.old = 0

/-- Will the allocator refuse? It is not asked for no bytes. -/
def Refused (d : Demand) (m : Memory) : Prop := d.new ≠ 0 ∧ m.answer d.new = false

/-- How a refusal is reported. -/
def refusal : Demand → Except Failure (Option (Option Block))
  | .tryResize .. => .ok none
  | _ => .error (.raised .memory)

/-- The message after a refusal. -/
def notice (d : Demand) (message : Bytes) : Bytes :=
  match d with
  | .tryResize .. => message
  | _ => Fault.outOfMemory.message

/-- What is held after an answer in place of the block that was handed in. -/
def left (d : Demand) : Except Failure (Option (Option Block)) → Multiset Holding
  | .ok (some b) => inBlock b d.new
  | _ => inBlock d.block d.old

/-- A refusal leaves what was there. -/
theorem left_refusal (d : Demand) : d.left d.refusal = inBlock d.block d.old := by cases d <;> rfl

end Demand

/-! ## What the ledger makes of it -/

namespace Memory

/-- The ledger after a request that was counted and nothing more. -/
def counted (m : Memory) : Memory := { m with requests := m.requests + 1 }

variable {m : Memory} {bytes : Nat}

theorem request_refused (h : m.answer bytes = false) : m.request bytes = (none, m.counted) := by
  rw [request, if_neg (by simp [h])]
  rfl

theorem resize_refused {b : Block} {old : Nat} (h : m.answer bytes = false) : m.resize b old bytes = (false, m.counted) := by
  rw [resize, if_neg (by simp [h])]
  rfl

theorem request_granted (h : m.answer bytes ≠ false) : ∃ b, (m.request bytes).1 = some b := by
  rw [request, if_pos (by simpa using h)]
  exact ⟨_, rfl⟩

theorem resize_granted (b : Block) (old : Nat) (h : m.answer bytes ≠ false) : (m.resize b old bytes).1 = true := by
  rw [resize, if_pos (by simpa using h)]

end Memory

section
variable {b : Option Block} {old new : Nat}

/-- A block that is not wanted any more is given back, and the allocator has no say in it. -/
theorem run_tryReallocate_zero :
    tryReallocate b old 0 w = (.ok (some none), w.ledgered (w.memory.releaseOption b old) w.message) := rfl

theorem run_tryReallocate_refused (hnew : new ≠ 0) (ha : w.memory.answer new = false) :
    tryReallocate b old new w = (.ok none, w.ledgered w.memory.counted w.message) := by
  unfold tryReallocate
  rw [if_neg hnew]
  cases b with
  | none =>
    dsimp only
    rw [run_bind_ok (run_modifyGet _ w), Memory.request_refused ha]
    rfl
  | some b =>
    dsimp only
    rw [run_bind_ok (run_modifyGet _ w), Memory.resize_refused ha]
    rfl

theorem run_tryReallocate_granted (hnew : new ≠ 0) (ha : w.memory.answer new ≠ false)
    (hm : w.memory.Tallies apart (inBlock b old + rest)) :
    ∃ c m, tryReallocate b old new w = (.ok (some (some c)), w.ledgered m w.message) ∧
      m.Tallies apart ((c, new) ::ₘ rest) := by
  unfold tryReallocate
  rw [if_neg hnew]
  cases b with
  | none =>
    obtain ⟨c, hc⟩ := Memory.request_granted ha
    rw [inBlock_none, zero_add] at hm
    refine ⟨c, (w.memory.request new).2, ?_, hm.granted hc⟩
    dsimp only
    rw [run_bind_ok (run_modifyGet _ w), hc]
    rfl
  | some b =>
    have hc := Memory.resize_granted b old ha
    rw [inBlock_some, Multiset.singleton_add] at hm
    refine ⟨b, (w.memory.resize b old new).2, ?_, hm.resized hc⟩
    dsimp only
    rw [run_bind_ok (run_modifyGet _ w), hc]
    rfl

/-- To ask for a block is to ask for another size in place of no block. -/
theorem allocate_eq_reallocate (bytes : Nat) : (allocate bytes : Run ε (Option Block)) = reallocate none 0 bytes := by
  funext w
  unfold allocate reallocate tryReallocate
  split
  · rfl
  · dsimp only
    rw [bind_assoc, run_bind_ok (run_modifyGet _ w), run_bind_ok (run_modifyGet _ w)]
    cases (w.memory.request bytes).1 <;> rfl

end

namespace Demand

variable {d : Demand}

/-- A demand that is refused leaves everything but the number of requests and the message. -/
theorem run_refused (h : d.Refused w.memory) : d.run w = (d.refusal, w.ledgered w.memory.counted (d.notice w.message)) := by
  obtain ⟨hnew, ha⟩ := h
  have hresize : ∀ b old, (some <$> reallocate b old d.new) w =
      (.error (.raised .memory), w.ledgered w.memory.counted Fault.outOfMemory.message) := fun b old => by
    rw [run_map, reallocate, run_bind_ok (run_tryReallocate_refused hnew ha)]
    rfl
  cases d with
  | make bytes =>
    rw [run, allocate_eq_reallocate]
    exact hresize none 0
  | tryResize b old new => exact run_tryReallocate_refused hnew ha
  | resize b old new => exact hresize b old
  | free b bytes => exact absurd rfl hnew

/-- A demand that is not refused is answered with a block of the size that is wanted, in place of the one that was handed
in; there is a block unless none is needed. -/
theorem run_served (h : ¬ d.Refused w.memory) (hm : w.memory.Tallies apart (inBlock d.block d.old + rest)) :
    ∃ b m, d.run w = (.ok (some b), w.ledgered m w.message) ∧ m.Tallies apart (inBlock b d.new + rest) ∧
      (b = none ↔ d.new = 0) := by
  have htry : ∀ b old, w.memory.Tallies apart (inBlock b old + rest) →
      ∃ c m, tryReallocate b old d.new w = (.ok (some c), w.ledgered m w.message) ∧
        m.Tallies apart (inBlock c d.new + rest) ∧ (c = none ↔ d.new = 0) := by
    intro b old hm
    by_cases hnew : d.new = 0
    · rw [hnew]
      exact ⟨none, w.memory.releaseOption b old, run_tryReallocate_zero, by simpa using hm.releaseOption, by simp⟩
    · obtain ⟨c, m, hrun, hm⟩ := run_tryReallocate_granted hnew (fun ha => h ⟨hnew, ha⟩) hm
      exact ⟨some c, m, hrun, by rwa [inBlock_some, Multiset.singleton_add], by simp [hnew]⟩
  have hresize : ∀ b old, w.memory.Tallies apart (inBlock b old + rest) →
      ∃ c m, (some <$> reallocate b old d.new) w = (.ok (some c), w.ledgered m w.message) ∧
        m.Tallies apart (inBlock c d.new + rest) ∧ (c = none ↔ d.new = 0) := by
    intro b old hm
    obtain ⟨c, m, hrun, hm, hc⟩ := htry b old hm
    refine ⟨c, m, ?_, hm, hc⟩
    rw [run_map, reallocate, run_bind_ok hrun]
    rfl
  cases d with
  | make bytes =>
    rw [run, allocate_eq_reallocate]
    exact hresize none 0 hm
  | tryResize b old new => exact htry b old hm
  | resize b old new => exact hresize b old hm
  | free b bytes =>
    refine ⟨none, w.memory.releaseOption b bytes, rfl, ?_, by simp [new]⟩
    rw [inBlock_none, zero_add]
    exact hm.releaseOption

/-- Where no block goes with no bytes, what is held comes to the bytes. -/
theorem sum_inBlock {b : Option Block} {bytes : Nat} (h : b = none → bytes = 0) :
    ((inBlock b bytes + rest).map Prod.snd).sum = bytes + (rest.map Prod.snd).sum := by
  cases b with
  | none => rw [h rfl, inBlock_none, zero_add, Nat.zero_add]
  | some b => rw [inBlock_some, Multiset.singleton_add, Multiset.map_cons, Multiset.sum_cons]

/-- What is settled when a demand has been made. -/
structure Settled (d : Demand) (w : World ε) : Prop where
  /-- A refused demand says so, and every block is live or not as it was, at the size it had. -/
  refused : d.Refused w.memory → (d.run w).1 = d.refusal ∧ (d.run w).2.memory.total = w.memory.total ∧
    ∀ b, (d.run w).2.memory.sizeOf? b = w.memory.sizeOf? b
  /-- Any other is met, and the total follows. -/
  served : ¬ d.Refused w.memory → ∃ b, (d.run w).1 = .ok (some b) ∧ (b = none ↔ d.new = 0) ∧
    (∀ c ∈ b, (d.run w).2.memory.sizeOf? c = some d.new) ∧ (d.run w).2.memory.total = w.memory.total + d.new - d.old
  /-- To want no bytes is to free the block. -/
  freed : d.new = 0 → (d.run w).1 = .ok (some none) ∧ ∀ b ∈ d.block, (d.run w).2.memory.sizeOf? b = none

theorem settled (hm : w.memory.Tallies apart (inBlock d.block d.old + rest)) (hd : d.block = none → d.old = 0) :
    d.Settled w := by
  refine ⟨fun hr => ?_, fun hr => ?_, fun hnew => ?_⟩
  · rw [run_refused hr]
    exact ⟨rfl, rfl, fun _ => rfl⟩
  · obtain ⟨b, m, hrun, hm', hb⟩ := run_served hr hm
    rw [hrun]
    refine ⟨b, rfl, hb, ?_, ?_⟩
    · rintro c rfl
      exact (hm'.live c d.new).2 (by simp)
    · have hbefore := hm.total
      have hafter := hm'.total
      rw [sum_inBlock hd] at hbefore
      rw [sum_inBlock hb.1] at hafter
      show m.total = _
      omega
  · obtain ⟨b, m, hrun, hm', hb⟩ := run_served (fun hr => hr.1 hnew) hm
    obtain rfl := hb.2 hnew
    rw [hrun]
    refine ⟨rfl, fun c hc => ?_⟩
    rw [hc, inBlock_some, Multiset.singleton_add] at hm
    rw [inBlock_none, zero_add] at hm'
    cases hsize : m.sizeOf? c with
    | none => exact hsize
    | some size => exact absurd ((hm'.live c size).1 hsize) (hm.not_mem size)

end Demand

/-! ## Any sequence of demands -/

/-- What becomes of a world, and of the blocks of it that a client holds, in any sequence of fair demands. Between two of them
the allocator may change its mind about what it grants. -/
inductive Dealings (w₀ : World ε) (held₀ : Multiset Holding) : World ε → Multiset Holding → Prop
  | start : Dealings w₀ held₀ w₀ held₀
  | demand {v : World ε} {held : Multiset Holding} (d : Demand) (rest : Multiset Holding) (hd : d.Fair held rest)
      (before : Dealings w₀ held₀ v held) : Dealings w₀ held₀ (d.run v).2 (d.left (d.run v).1 + rest)
  | policy {v : World ε} {held : Multiset Holding} (grants : Nat → Nat → Bool) (on : Bool)
      (before : Dealings w₀ held₀ v held) :
      Dealings w₀ held₀ { v with memory := { v.memory with grants, refusing := on } } held

/-- In balance with what is held beside something else, no block of which is empty. -/
structure World.Accounted (w : World ε) (apart : Nat) (own : Holding) (held : Multiset Holding) : Prop where
  ledger : w.memory.Tallies apart (own ::ₘ held)
  filled : ∀ h ∈ held, 0 < h.2

theorem World.Accounted.demand {own : Holding} {d : Demand} (h : w.Accounted apart own (inBlock d.block d.old + rest)) :
    (d.run w).2.Accounted apart own (d.left (d.run w).1 + rest) := by
  have hm : w.memory.Tallies apart (inBlock d.block d.old + (own ::ₘ rest)) := by
    rw [Multiset.add_cons]
    exact h.ledger
  by_cases hr : d.Refused w.memory
  · rw [Demand.run_refused hr, Demand.left_refusal]
    exact ⟨⟨h.ledger.distinct, h.ledger.live, h.ledger.strays, h.ledger.total⟩, h.filled⟩
  · obtain ⟨b, m, hrun, hm', hb⟩ := Demand.run_served hr hm
    rw [hrun]
    refine ⟨by rwa [Multiset.add_cons] at hm', fun x hx => ?_⟩
    rcases Multiset.mem_add.1 hx with hx | hx
    · cases b with
      | none => cases hx
      | some c =>
        obtain rfl : x = (c, d.new) := by simpa [Demand.left] using hx
        exact Nat.pos_of_ne_zero fun hnew => by simpa using hb.2 hnew
    · exact h.filled x (Multiset.mem_add.2 (.inr hx))

theorem Dealings.accounted {w₀ : World ε} {held₀ : Multiset Holding} {own : Holding} (h₀ : w₀.Accounted apart own held₀)
    (hs : Dealings w₀ held₀ w held) : w.Accounted apart own held := by
  induction hs with
  | start => exact h₀
  | demand d rest hd _ ih => exact (hd.held ▸ ih).demand
  | policy grants on _ ih =>
    exact ⟨⟨ih.ledger.distinct, ih.ledger.live, ih.ledger.strays, ih.ledger.total⟩, ih.filled⟩

/-- A string takes a block, which joins the objects. -/
theorem World.Accounted.newString (h : w.Accounted stateBytes (w.own, stateBytes) ↑w.objects) (text : Bytes) :
    let v := (ValueCore.newString text w).2
    v.Accounted stateBytes (v.own, stateBytes) ↑v.objects := by
  have hget := obtained_allocate (stringHeaderBytes + text.length + 1) h.ledger
  unfold ValueCore.newString newObject
  rw [run_bind]
  generalize allocate (stringHeaderBytes + text.length + 1) w = r at hget
  cases hget with
  | refused e hm => exact ⟨hm, h.filled⟩
  | @granted b m hm =>
    have hall : inBlock b (stringHeaderBytes + text.length + 1) + ((w.own, stateBytes) ::ₘ ↑w.objects) = (w.own, stateBytes) ::ₘ
        ↑((b.map (·, stringHeaderBytes + text.length + 1)).toList ++ w.objects) := by
      rw [Multiset.add_cons, inBlock, ← Multiset.coe_add]
    refine ⟨hall ▸ hm, fun x hx => ?_⟩
    rcases List.mem_append.1 (Multiset.mem_coe.1 hx) with hx | hx
    · cases b with
      | none => cases hx
      | some c =>
        obtain rfl := List.mem_singleton.1 hx
        exact Nat.succ_pos _
    · exact h.filled x hx

/-- A world that was just opened holds its own block and one for the name of the default constructor. -/
theorem accounted_open {grants : Nat → Nat → Bool} {env : ε} (ho : World.open? grants env = some w) :
    w.Accounted stateBytes (w.own, stateBytes) ↑w.objects := by
  unfold World.open? at ho
  cases hr : (Memory.new grants).request stateBytes with
  | mk granted memory =>
    rw [hr] at ho
    cases granted with
    | none => cases ho
    | some own =>
      have hm := (tallies_new grants).granted (congrArg Prod.fst hr)
      rw [hr] at hm
      dsimp only at ho hm
      -- the total starts anew, without the block of the world
      have hbare : (⟨{ memory with total := 0 }, own, [], #[], #[], #[], #[], [], none, env⟩ : World ε).Accounted stateBytes
          (own, stateBytes) ↑([] : List (Block × Nat)) :=
        ⟨⟨hm.distinct, hm.live, hm.strays, by simp⟩, fun _ hx => (Multiset.notMem_zero _ hx).elim⟩
      have hnamed := hbare.newString constructorText
      generalize (⟨{ memory with total := 0 }, own, [], #[], #[], #[], #[], [], none, env⟩ : World ε) = bare at ho hnamed
      unfold protect at ho
      cases hs : newString constructorText bare with
      | mk r u =>
        rw [hs] at ho hnamed
        cases r with
        | ok _ =>
          obtain rfl := Option.some.inj ho
          exact ⟨hnamed.ledger, hnamed.filled⟩
        | error e => cases e <;> cases ho

/-- **The accounts are exact.** Whatever a client of a world asks for, hands in and is refused, the total is what the blocks
come to that it holds, and these are the live ones, besides the block of the world itself. Then any demand it may make is
settled as it should be. -/
theorem byte_accounting_exact {grants : Nat → Nat → Bool} {env : ε} {w₀ : World ε} (ho : World.open? grants env = some w₀)
    (hs : Dealings w₀ ↑w₀.objects w held) :
    w.memory.total = ((held.map Prod.snd).sum : Nat) ∧ (held.map Prod.fst).Nodup ∧ w.memory.strays = 0 ∧
      (∀ b bytes, w.memory.sizeOf? b = some bytes ↔ (b, bytes) = (w₀.own, stateBytes) ∨ (b, bytes) ∈ held) ∧
      ∀ d rest, Demand.Fair d held rest → d.Settled w := by
  have h := hs.accounted (accounted_open ho)
  refine ⟨?_, ?_, h.ledger.strays, fun b bytes => ?_, fun d rest hd => ?_⟩
  · have ht := h.ledger.total
    rw [Multiset.map_cons, Multiset.sum_cons] at ht
    omega
  · have hd := h.ledger.distinct
    rw [Multiset.map_cons, Multiset.nodup_cons] at hd
    exact hd.2
  · rw [h.ledger.live, Multiset.mem_cons]
  · have hm : w.memory.Tallies stateBytes (inBlock d.block d.old + ((w₀.own, stateBytes) ::ₘ rest)) := by
      rw [Multiset.add_cons, ← hd.held]
      exact h.ledger
    exact Demand.settled hm hd.empty

/-- The fourth request is refused: a block of 40 bytes does not become one of 100 bytes. The fifth one is granted, and at last
the block is freed. -/
theorem byte_accounting_exact_meagre :
    let made := ((Demand.make 40).run meagre).2
    let kept := ((Demand.tryResize (some 2) 40 100).run made).2
    let grown := ((Demand.resize (some 2) 40 100).run kept).2
    let gone := ((Demand.free (some 2) 100).run grown).2
    (kept.memory.total = ((Multiset.map Prod.snd {(2, 40), (1, 39)}).sum : Nat) ∧
      (∀ b bytes, kept.memory.sizeOf? b = some bytes ↔
        (b, bytes) = (0, 600) ∨ (b, bytes) ∈ ({(2, 40), (1, 39)} : Multiset Holding)) ∧
      (Demand.resize (some 2) 40 100).Settled kept) ∧
    ((Demand.tryResize (some 2) 40 100).run made).1 = .ok none ∧ grown.memory.total = 139 ∧ gone.memory.total = 39 := by
  intro made kept grown gone
  have hs : Dealings meagre ↑meagre.objects kept ({(2, 40), (1, 39)} : Multiset Holding) :=
    (Dealings.start.demand (.make 40) {(1, 39)} ⟨rfl, fun _ => rfl⟩).demand (.tryResize (some 2) 40 100) {(1, 39)}
      ⟨rfl, fun h => nomatch h⟩
  have hopen : World.open? fourthRefused () = some meagre := rfl
  obtain ⟨htotal, _, _, hlive, hdemand⟩ := byte_accounting_exact hopen hs
  exact ⟨⟨htotal, hlive, hdemand _ {(1, 39)} ⟨rfl, fun h => nomatch h⟩⟩, by decide +kernel⟩

end ValueCore
