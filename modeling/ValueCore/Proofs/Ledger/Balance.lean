import ValueCore.Proofs.Ledger.Accounts
import ValueCore.Proofs.Upkeep

/-!
# A world in balance

A world holds a block for itself, one for each object, the storage of its tables and views, and while something is displayed
the room of a trail. It is in balance with what is held beside it (`World.Tallies`) if these are all the live blocks of its
ledger. What is held beside it are blocks that some computation has in its hands, and blocks that nothing refers to any more.

Of the latter there is one kind. A view that could not be sized may have been granted its entry array before it was refused
its buckets, and the array is lost (`EntryArray`). That is all that is ever lost: `World.Conserves` relates a world to the
later ones whose balance has at most such arrays more beside it, each for as many entries as a view was to have that was
spoilt.

The balance includes bounds on the sizes of tables and views. What is to be doubled is so far from the limit of a machine word
that the size that is asked for is the one that will be given back.
-/

namespace ValueCore

variable {ε α β : Type} {kind : KeyKind}

/-! ## What a world holds -/

/-- What the elements of an array hold together. -/
def heldIn (of : α → Multiset Holding) (a : Array α) : Multiset Holding := (a.toList.map of).sum

theorem heldIn_push (of : α → Multiset Holding) (a : Array α) (x : α) :
    heldIn of (a.push x) = of x + heldIn of a := by
  simp [heldIn, add_comm]

theorem modify_of_not_lt {a : Array α} {i : Nat} (hi : ¬ i < a.size) (f : α → α) : a.modify i f = a := by
  refine Array.ext_getElem? fun j => ?_
  rw [Array.getElem?_modify]
  split
  · rename_i hij
    rw [← hij, Array.getElem?_eq_none (Nat.le_of_not_lt hi)]
    rfl
  · rfl

/-- One element aside, the others hold the same whatever becomes of it. -/
theorem heldIn_modify (of : α → Multiset Holding) {a : Array α} {i : Nat} (hi : i < a.size) (d : α) :
    ∃ rest, heldIn of a = of (a.getD i d) + rest ∧ ∀ f, heldIn of (a.modify i f) = of (f (a.getD i d)) + rest := by
  obtain ⟨l⟩ := a
  have hi : i < l.length := hi
  have hget : (Array.mk l).getD i d = l[i] := by simp [hi]
  have hsplit : l = l.take i ++ l[i] :: l.drop (i + 1) := by simp
  have hsum : ∀ x, ((l.take i ++ x :: l.drop (i + 1)).map of).sum =
      of x + (((l.take i).map of).sum + ((l.drop (i + 1)).map of).sum) := fun x => by
    rw [List.map_append, List.sum_append, List.map_cons, List.sum_cons]
    exact add_left_comm _ _ _
  refine ⟨((l.take i).map of).sum + ((l.drop (i + 1)).map of).sum, ?_, fun f => ?_⟩
  · rw [hget, ← hsum, ← hsplit]
    rfl
  · rw [hget, ← hsum, heldIn, Array.toList_modify, List.modify_eq_take_cons_drop hi]

/-- The same where the array is one of several things that hold blocks. -/
theorem heldIn_modify_among (of : α → Multiset Holding) {a : Array α} {i : Nat} (hi : i < a.size) (d : α)
    (all : Multiset Holding → Multiset Holding) (hall : ∀ x y, all (x + y) = x + all y) :
    ∃ rest, all (heldIn of a) = of (a.getD i d) + rest ∧
      ∀ f, all (heldIn of (a.modify i f)) = of (f (a.getD i d)) + rest := by
  obtain ⟨rest, hrest, hmodify⟩ := heldIn_modify of hi d
  exact ⟨all rest, by rw [hrest, hall], fun f => by rw [hmodify, hall]⟩

/-- The storage of a table. -/
def Table.holding {κ : Type} (bucketBytes : Nat) (T : Table κ) : Multiset Holding :=
  inBlock T.block (T.capacity * bucketBytes)

/-- The storage of a view. -/
def View.holding (v : View) : Multiset Holding :=
  inBlock v.bucketBlock (v.capacity * viewBucketBytes) + inBlock v.entryBlock (v.entryCapacity * viewEntryBytes)

/-- The room of a trail, if there is one. -/
def trailHolding : Option Trail → Multiset Holding
  | none => 0
  | some t => inBlock t.block (t.capacity * trailEntryBytes)

namespace World

/-- All blocks of a world, with their sizes. -/
def holdings (w : World ε) : Multiset Holding :=
  {(w.own, stateBytes)} + (↑w.objects + (trailHolding w.trail + (heldIn (Table.holding KeyKind.any.bucketBytes) w.anyTables +
    (heldIn (Table.holding KeyKind.text.bucketBytes) w.textTables + heldIn View.holding w.views))))

/-- The same world with another ledger and another message. -/
def ledgered (w : World ε) (m : Memory) (text : Bytes) : World ε := { w with memory := m, message := text }

variable {w : World ε}

theorem table_ledgered (m : Memory) (text : Bytes) (t : TableId kind) : (w.ledgered m text).table t = w.table t :=
  table_congr rfl rfl t

theorem modifyTable_ledgered (m : Memory) (text : Bytes) (t : TableId kind) (f : Table kind.Key → Table kind.Key) :
    (w.ledgered m text).modifyTable t f = (w.modifyTable t f).ledgered m text := by cases kind <;> rfl

theorem ledgered_modifyTable (t : TableId kind) (f : Table kind.Key → Table kind.Key) :
    (w.modifyTable t f).ledgered w.memory w.message = w.modifyTable t f := by cases kind <;> rfl

theorem ledgered_freed (m : Memory) (text : Bytes) (b : Option Block) (bytes : Nat) :
    (w.ledgered m text).freed b bytes = w.ledgered (m.releaseOption b bytes) text := rfl

theorem views_modifyTable (t : TableId kind) (f : Table kind.Key → Table kind.Key) : (w.modifyTable t f).views = w.views := by
  cases kind <;> rfl

/-- There is nothing to change about a table that is not there. -/
theorem modifyTable_of_not_has {t : TableId kind} (ht : ¬ w.Has t) (f : Table kind.Key → Table kind.Key) :
    w.modifyTable t f = w := by
  cases kind
  · simp only [modifyTable, modify_of_not_lt ht]
  · simp only [modifyTable, modify_of_not_lt ht]

theorem modifyView_of_not_has {v : ViewId} (hv : ¬ v.index < w.views.size) (f : View → View) : w.modifyView v f = w := by
  rw [modifyView, modify_of_not_lt hv]

theorem holdings_addTable (kind : KeyKind) (T : Table kind.Key) :
    (w.addTable kind T).2.holdings = T.holding kind.bucketBytes + w.holdings := by
  cases kind
  · simp only [holdings, addTable, heldIn_push]
    ac_rfl
  · simp only [holdings, addTable, heldIn_push]
    ac_rfl

/-- One table aside, the rest of a world holds the same whatever becomes of it. -/
theorem holdings_modifyTable (t : TableId kind) (ht : w.Has t) :
    ∃ rest, w.holdings = (w.table t).holding kind.bucketBytes + rest ∧
      ∀ f, (w.modifyTable t f).holdings = (f (w.table t)).holding kind.bucketBytes + rest := by
  cases kind with
  | any =>
    refine heldIn_modify_among (Table.holding KeyKind.any.bucketBytes) ht default (fun held => {(w.own, stateBytes)} +
      (↑w.objects + (trailHolding w.trail + (held + (heldIn (Table.holding KeyKind.text.bucketBytes) w.textTables +
        heldIn View.holding w.views))))) fun x y => ?_
    ac_rfl
  | text =>
    refine heldIn_modify_among (Table.holding KeyKind.text.bucketBytes) ht default (fun held => {(w.own, stateBytes)} +
      (↑w.objects + (trailHolding w.trail + (heldIn (Table.holding KeyKind.any.bucketBytes) w.anyTables +
        (held + heldIn View.holding w.views))))) fun x y => ?_
    ac_rfl

/-- One view aside, the rest of a world holds the same whatever becomes of it. -/
theorem holdings_modifyView (v : ViewId) (hv : v.index < w.views.size) :
    ∃ rest, w.holdings = (w.view v).holding + rest ∧ ∀ f, (w.modifyView v f).holdings = (f (w.view v)).holding + rest := by
  refine heldIn_modify_among View.holding hv default (fun held => {(w.own, stateBytes)} + (↑w.objects +
    (trailHolding w.trail + (heldIn (Table.holding KeyKind.any.bucketBytes) w.anyTables +
      (heldIn (Table.holding KeyKind.text.bucketBytes) w.textTables + held))))) fun x y => ?_
  ac_rfl

/-- The trail aside, the rest of a world holds the same whatever becomes of it. -/
theorem holdings_trail (w : World ε) : ∃ rest, ∀ t? m, ({ w with memory := m, trail := t? } : World ε).holdings =
    trailHolding t? + rest := by
  refine ⟨{(w.own, stateBytes)} + (↑w.objects + (heldIn (Table.holding KeyKind.any.bucketBytes) w.anyTables +
    (heldIn (Table.holding KeyKind.text.bucketBytes) w.textTables + heldIn View.holding w.views))), fun t? m => ?_⟩
  simp only [holdings]
  ac_rfl

end World

/-! ## Asking for a block -/

/-- How a computation ends that asks for a block, by the accounts. It is refused, and what was held `before` still is; or it
answers with a block, and that one is held together with the `rest`. -/
inductive World.Obtained (w : World ε) (before rest : Multiset Holding) (bytes : Nat) :
    Except Failure (Option Block) × World ε → Prop
  | refused (e : Failure) {m : Memory} {text : Bytes} : m.Tallies stateBytes before →
    Obtained w before rest bytes (.error e, w.ledgered m text)
  | granted (b : Option Block) {m : Memory} : m.Tallies stateBytes (inBlock b bytes + rest) →
    Obtained w before rest bytes (.ok b, w.ledgered m w.message)

namespace Memory

/-- The bytes of an array are what its size says, unless it is too big. -/
theorem arrayBytes_eq {count size : Nat} (hs : 0 < size) (hc : count + 1 < wordSpan) (h : tooBig count size = false) :
    arrayBytes count size = count * size ∧ count * size < wordSpan := by
  unfold tooBig at h
  rw [Nat.mod_eq_of_lt hc] at h
  have hle : count + 1 ≤ (wordSpan - 1) / size := Nat.not_lt.1 (of_decide_eq_false h)
  have hmul : (count + 1) * size ≤ wordSpan - 1 := (Nat.le_div_iff_mul_le hs).1 hle
  have hlt : count * size < wordSpan := by
    have hstep : count * size ≤ (count + 1) * size := Nat.mul_le_mul_right _ (Nat.le_succ _)
    have hspan : 0 < wordSpan := by decide
    omega
  exact ⟨Nat.mod_eq_of_lt hlt, hlt⟩

end Memory

section
variable {w : World ε} {rest : Multiset Holding}

theorem obtained_allocate (bytes : Nat) (h : w.memory.Tallies stateBytes rest) :
    w.Obtained rest rest bytes (allocate bytes w) := by
  unfold allocate
  split
  · exact .granted none (by rwa [inBlock_none, zero_add])
  · rw [run_bind_ok (run_modifyGet _ w)]
    dsimp only
    cases hr : (w.memory.request bytes).1 with
    | some b => exact .granted (some b) (by rw [inBlock_some, Multiset.singleton_add]; exact h.granted hr)
    | none => exact .refused _ (h.refused hr)

theorem obtained_allocateElements (count size : Nat) (h : w.memory.Tallies stateBytes rest) :
    w.Obtained rest rest (count * size) (allocateElements count size w) := by
  unfold allocateElements
  split
  · exact .refused _ h
  · exact obtained_allocate _ h

theorem obtained_allocateArray {count size : Nat} (hs : 0 < size) (hc : count + 1 < Memory.wordSpan)
    (h : w.memory.Tallies stateBytes rest) : w.Obtained rest rest (count * size) (allocateArray count size w) := by
  unfold allocateArray
  cases hbig : Memory.tooBig count size with
  | true => exact .refused _ h
  | false =>
    change w.Obtained rest rest _ (allocate (Memory.arrayBytes count size) w)
    rw [(Memory.arrayBytes_eq hs hc hbig).1]
    exact obtained_allocate _ h

/-- Asking for another size in place of a block that is held. -/
theorem obtained_reallocate {b : Option Block} {old new : Nat} (h : w.memory.Tallies stateBytes (inBlock b old + rest)) :
    w.Obtained (inBlock b old + rest) rest new (reallocate b old new w) := by
  unfold reallocate tryReallocate
  by_cases hnew : new = 0
  · rw [if_pos hnew]
    exact .granted none (by rw [inBlock_none, zero_add]; exact h.releaseOption)
  · rw [if_neg hnew]
    cases b with
    | none =>
      rw [inBlock_none, zero_add] at h ⊢
      dsimp only
      rw [bind_assoc, run_bind_ok (run_modifyGet _ w)]
      dsimp only
      cases hr : (w.memory.request new).1 with
      | some b => exact .granted (some b) (by rw [inBlock_some, Multiset.singleton_add]; exact h.granted hr)
      | none => exact .refused _ (h.refused hr)
    | some b =>
      rw [inBlock_some, Multiset.singleton_add] at h ⊢
      dsimp only
      rw [bind_assoc, run_bind_ok (run_modifyGet _ w)]
      dsimp only
      cases hr : (w.memory.resize b old new).1 with
      | true => exact .granted (some b) (by rw [inBlock_some, Multiset.singleton_add]; exact h.resized hr)
      | false => exact .refused _ (h.unresized hr)

theorem obtained_reallocateArray {b : Option Block} {old new size : Nat} (hs : 0 < size) (hold : old * size < Memory.wordSpan)
    (hc : new + 1 < Memory.wordSpan) (h : w.memory.Tallies stateBytes (inBlock b (old * size) + rest)) :
    w.Obtained (inBlock b (old * size) + rest) rest (new * size) (reallocateArray b old new size w) := by
  unfold reallocateArray
  cases hbig : Memory.tooBig new size with
  | true => exact .refused _ h
  | false =>
    have hbytes : Memory.arrayBytes old size = old * size := Nat.mod_eq_of_lt hold
    change w.Obtained _ rest _ (reallocate b (Memory.arrayBytes old size) (Memory.arrayBytes new size) w)
    rw [hbytes, (Memory.arrayBytes_eq hs hc hbig).1]
    exact obtained_reallocate h

end

/-! ## The balance -/

/-- A table whose sizes are far from the limits of a machine word. -/
structure Table.Fits {κ : Type} (T : Table κ) : Prop where
  heads : T.heads ≤ 2 * maxHeads
  length : T.length ≤ 7 * T.heads + 8
  capacity : T.capacity ≤ 4 * maxHeads

/-- A view whose arrays can be measured in a machine word. -/
structure View.Fits (v : View) : Prop where
  length : v.length ≤ v.entryCapacity
  entries : v.entryCapacity * viewEntryBytes < Memory.wordSpan
  buckets : v.capacity * viewBucketBytes < Memory.wordSpan

theorem Table.fits_withStorage {κ : Type} {heads : Nat} (h : heads ≤ maxHeads) (block : Option Block) :
    (Table.withStorage heads heads block : Table κ).Fits :=
  ⟨by show heads ≤ _; omega, Nat.zero_le _, by show heads ≤ _; omega⟩

theorem View.fits_empty : View.empty.Fits := ⟨by decide, by decide, by decide⟩

theorem Table.Fits.within {κ : Type} {T T' : Table κ} (h : T.Fits) (hw : Table.Within T T') : T'.Fits := by
  have hl := h.length
  have hn := hw.length
  exact ⟨hw.heads ▸ h.heads, by rw [hw.heads]; omega, hw.capacity ▸ h.capacity⟩

/-- The live blocks of a world are its own and those that are held beside it. -/
structure World.Tallies (w : World ε) (beside : Multiset Holding) : Prop where
  ledger : w.memory.Tallies stateBytes (w.holdings + beside)
  tables : ∀ {kind : KeyKind} (t : TableId kind), (w.table t).Fits
  views : ∀ v, (w.view v).Fits

/-- The entry array of a view that was to have as many entries, where a view for that many was spoilt. -/
def EntryArray (spoilt : UInt32 → Prop) (h : Holding) : Prop :=
  ∃ hint, spoilt hint ∧ 8 ≤ hint.toNat ∧ h.2 = hint.toNat * viewEntryBytes

/-- No view is gone, and there is no trail if there was none. -/
structure World.Retains (w v : World ε) : Prop where
  views : w.views.size ≤ v.views.size
  trail : w.trail = none → v.trail = none

/-- From one world to another nothing is lost but the entry arrays of spoilt views. -/
def World.Conserves (spoilt : UInt32 → Prop) (w v : World ε) : Prop :=
  ∀ beside, w.Tallies beside → ∃ lost, (∀ h ∈ lost, EntryArray spoilt h) ∧ v.Tallies (beside + lost) ∧ w.Retains v

namespace World

variable {spoilt : UInt32 → Prop} {u v w : World ε} {beside rest : Multiset Holding} {b : Option Block} {bytes : Nat}

namespace Retains

theorem of_eq (hviews : v.views.size = w.views.size) (htrail : v.trail = w.trail) : w.Retains v :=
  ⟨Nat.le_of_eq hviews.symm, fun h => htrail.trans h⟩

theorem trans (h : u.Retains v) (h' : v.Retains w) : u.Retains w :=
  ⟨Nat.le_trans h.views h'.views, fun ht => h'.trail (h.trail ht)⟩

theorem ledgered {m : Memory} {text : Bytes} (h : (w.ledgered m text).Retains v) : w.Retains v := ⟨h.views, h.trail⟩

theorem modifyTable (t : TableId kind) (f : Table kind.Key → Table kind.Key) : w.Retains (w.modifyTable t f) :=
  .of_eq (by rw [views_modifyTable]) (by cases kind <;> rfl)

theorem modifyView (v : ViewId) (f : View → View) : w.Retains (w.modifyView v f) := .of_eq (Array.size_modify ..) rfl

end Retains

namespace Conserves

/-- A step that loses nothing. -/
theorem keep (h : ∀ {beside}, w.Tallies beside → v.Tallies beside ∧ w.Retains v) : Conserves spoilt w v :=
  fun beside hb => ⟨0, by simp, by rw [add_zero]; exact (h hb).1, (h hb).2⟩

theorem refl (w : World ε) : Conserves spoilt w w := keep fun h => ⟨h, .of_eq rfl rfl⟩

theorem trans (h : Conserves spoilt u v) (h' : Conserves spoilt v w) : Conserves spoilt u w := by
  intro beside hb
  obtain ⟨lost, hl, hb, hv⟩ := h beside hb
  obtain ⟨lost', hl', hb, hv'⟩ := h' (beside + lost) hb
  refine ⟨lost + lost', fun x hx => (Multiset.mem_add.1 hx).elim (hl x) (hl' x), ?_, hv.trans hv'⟩
  rw [← add_assoc]
  exact hb

end Conserves

namespace Tallies

theorem message (h : w.Tallies beside) (text : Bytes) : (w.saying text).Tallies beside :=
  ⟨h.ledger, fun t => by rw [table_congr rfl rfl t]; exact h.tables t, h.views⟩

/-- Only the ledger and the message have changed. -/
theorem ledgered (h : w.Tallies beside) {m : Memory} {text : Bytes} (hm : m.Tallies stateBytes (w.holdings + rest)) :
    (w.ledgered m text).Tallies rest :=
  ⟨hm, fun t => by rw [table_ledgered]; exact h.tables t, h.views⟩

/-- A block that was just granted is held beside the world. -/
theorem granted (h : w.Tallies beside) {m : Memory} {text : Bytes}
    (hm : m.Tallies stateBytes (inBlock b bytes + (w.holdings + beside))) :
    (w.ledgered m text).Tallies (inBlock b bytes + beside) := h.ledgered (add_left_comm _ _ beside ▸ hm)

/-- A block that is held beside the world is given back. -/
theorem freed (h : w.Tallies (inBlock b bytes + beside)) : (w.freed b bytes).Tallies beside :=
  h.ledgered (Memory.Tallies.releaseOption (add_left_comm _ _ beside ▸ h.ledger))

/-- An object takes over the block that is held for it. -/
theorem adopt (h : w.Tallies (inBlock b bytes + beside)) :
    ({ w with objects := (b.map (·, bytes)).toList ++ w.objects } : World ε).Tallies beside := by
  refine ⟨?_, fun t => by rw [table_congr rfl rfl t]; exact h.tables t, h.views⟩
  have heq : ({ w with objects := (b.map (·, bytes)).toList ++ w.objects } : World ε).holdings =
      w.holdings + inBlock b bytes := by
    simp only [World.holdings, inBlock, ← Multiset.coe_add]
    ac_rfl
  rw [heq, add_assoc]
  exact h.ledger

/-- One table aside. The ledger keeps the balance if it follows what becomes of the storage of the table. -/
theorem focus (h : w.Tallies beside) {t : TableId kind} (ht : w.Has t) : ∃ rest,
    w.memory.Tallies stateBytes ((w.table t).holding kind.bucketBytes + rest) ∧
    (∀ {m text}, m.Tallies stateBytes ((w.table t).holding kind.bucketBytes + rest) → (w.ledgered m text).Tallies beside) ∧
    ∀ f m text, (f (w.table t)).Fits → m.Tallies stateBytes ((f (w.table t)).holding kind.bucketBytes + rest) →
      ((w.modifyTable t f).ledgered m text).Tallies beside := by
  obtain ⟨rest, hrest, hmodify⟩ := holdings_modifyTable t ht
  have hall := add_assoc ((w.table t).holding kind.bucketBytes) rest beside
  rw [← hrest] at hall
  refine ⟨rest + beside, hall ▸ h.ledger, fun hm => h.ledgered (hall ▸ hm), fun f m text hf hm => ⟨?_, ?_, fun v => ?_⟩⟩
  · have heq : ((w.modifyTable t f).ledgered m text).holdings = (w.modifyTable t f).holdings := rfl
    rw [heq, hmodify, add_assoc]
    exact hm
  · intro k u
    rw [table_ledgered]
    exact table_modifyTable_cases t f ht (P := fun _ T => T.Fits) hf (fun u _ => h.tables u) u
  · have heq : ((w.modifyTable t f).ledgered m text).view v = w.view v := by
      rw [view, view]
      show (w.modifyTable t f).views.getD _ _ = _
      rw [views_modifyTable]
    rw [heq]
    exact h.views v

/-- After one view was changed all fit. -/
theorem fits_modifyView (h : w.Tallies beside) {v : ViewId} {f : View → View} (hf : (f (w.view v)).Fits) (u : ViewId) :
    ((w.modifyView v f).view u).Fits := by
  by_cases hu : u.index = v.index
  · by_cases hv : v.index < w.views.size
    · have heq : (w.modifyView v f).view u = f (w.view v) := by
        rw [view, view, hu]
        exact getD_modify_self f default hv
      rw [heq]
      exact hf
    · rw [modifyView_of_not_has hv]
      exact h.views u
  · have heq : (w.modifyView v f).view u = w.view u := getD_modify_of_ne f default hu
    rw [heq]
    exact h.views u

/-- The trail aside. The ledger keeps the balance if it follows what becomes of the room of the trail. -/
theorem focusTrail (h : w.Tallies beside) : ∃ rest, w.memory.Tallies stateBytes (trailHolding w.trail + (rest + beside)) ∧
    (∀ {m text}, m.Tallies stateBytes (trailHolding w.trail + (rest + beside)) → (w.ledgered m text).Tallies beside) ∧
    ∀ m t? {beside'}, m.Tallies stateBytes (trailHolding t? + (rest + beside')) →
      ({ w with memory := m, trail := t? } : World ε).Tallies beside' := by
  obtain ⟨rest, hrest⟩ := holdings_trail w
  have hall : w.holdings + beside = trailHolding w.trail + (rest + beside) := by
    rw [← add_assoc, ← hrest w.trail w.memory]
  refine ⟨rest, hall ▸ h.ledger, fun hm => h.ledgered (hall ▸ hm), fun m t? {beside'} hm => ⟨?_, fun t => ?_, h.views⟩⟩
  · rw [hrest t? m, add_assoc]
    exact hm
  · rw [table_congr rfl rfl t]
    exact h.tables t

/-- While a trail is in use, the one before it is held beside the world. -/
theorem newTrail (h : w.Tallies beside) : w.newTrail.Tallies (trailHolding w.trail + beside) := by
  obtain ⟨rest, hrest, _, hmodify⟩ := h.focusTrail
  have hnone : trailHolding (some {}) = 0 := rfl
  refine hmodify _ _ ?_
  rw [hnone, zero_add, add_left_comm]
  exact hrest

/-- The room of a trail is given back, and the world has the one before it again. -/
theorem offTrail {outer : Option Trail} (h : w.Tallies (trailHolding outer + beside)) : (w.offTrail outer).Tallies beside := by
  obtain ⟨rest, hrest, _, hmodify⟩ := h.focusTrail
  unfold World.offTrail
  cases ht : w.trail with
  | none =>
    refine hmodify _ _ ?_
    rw [ht, show trailHolding none = 0 from rfl, zero_add, add_left_comm] at hrest
    exact hrest
  | some t =>
    refine hmodify _ _ (Memory.Tallies.releaseOption (b := t.block) ?_)
    rw [ht, add_left_comm rest] at hrest
    exact hrest

/-- One view aside. -/
theorem focusView (h : w.Tallies beside) {v : ViewId} (hv : v.index < w.views.size) : ∃ rest,
    w.memory.Tallies stateBytes ((w.view v).holding + (rest + beside)) ∧
    (∀ {m text}, m.Tallies stateBytes ((w.view v).holding + (rest + beside)) → (w.ledgered m text).Tallies beside) ∧
    ∀ f m text {beside'}, (f (w.view v)).Fits → m.Tallies stateBytes ((f (w.view v)).holding + (rest + beside')) →
      ((w.modifyView v f).ledgered m text).Tallies beside' := by
  obtain ⟨rest, hrest, hmodify⟩ := holdings_modifyView v hv
  have hall := add_assoc (w.view v).holding rest beside
  rw [← hrest] at hall
  refine ⟨rest, hall ▸ h.ledger, fun hm => h.ledgered (hall ▸ hm), fun f m text {beside'} hf hm =>
    ⟨?_, fun {k} t => ?_, h.fits_modifyView hf⟩⟩
  · have heq : ((w.modifyView v f).ledgered m text).holdings = (w.modifyView v f).holdings := rfl
    rw [heq, hmodify, add_assoc]
    exact hm
  · have heq : ((w.modifyView v f).ledgered m text).table t = w.table t := table_congr rfl rfl t
    rw [heq]
    exact h.tables t

/-- Writing to a table without touching its storage. -/
theorem write (h : w.Tallies beside) (t : TableId kind) {f : Table kind.Key → Table kind.Key}
    (hcapacity : (f (w.table t)).capacity = (w.table t).capacity) (hblock : (f (w.table t)).block = (w.table t).block)
    (hf : (f (w.table t)).Fits) : (w.modifyTable t f).Tallies beside := by
  by_cases ht : w.Has t
  · obtain ⟨rest, hrest, _, hmodify⟩ := h.focus ht
    rw [← ledgered_modifyTable]
    refine hmodify f w.memory w.message hf ?_
    rw [Table.holding, hcapacity, hblock]
    exact hrest
  · rw [modifyTable_of_not_has ht]
    exact h

end Tallies

end World

end ValueCore
