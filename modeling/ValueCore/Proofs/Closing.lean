import ValueCore.Proofs.Ledger.Views

/-!
# What is left of a world that was closed

A program makes tables, views, strings, dicts and structs, works on them in any way, fails now and then, and closes the world
(`Conducts`). Whatever the allocator refuses meanwhile, every block is given back once and at its own size, and what is still
live in the end, and in the total, are the entry arrays of spoilt views: of views for eight entries or more that could not be
sized, as a request for them was refused (`lost_at_close`). A program none of whose views is spoilt leaves nothing
(`nothing_left`).

| who holds a block | and gives it back |
| --- | --- |
| a table or a view | when it gets another one, and when it is closed or dropped |
| an object | when the world is closed |
| an object that is being made | if making it fails |
| a list that is in use for a while | at the end of its use, however that comes |
| a trail | when it needs more room, and at the end of what is displayed on it |
| a view that is being made | never, if its index is refused after its entry array was granted |

Nothing is asked of the program but that it sizes only tables that are there and empty, and works on views that are there.
The answers about its own values may be such programs in turn.
-/

namespace ValueCore

open World

variable {ε α : Type} {w v : World ε} {beside rest : Multiset Holding} {spoilt : UInt32 → Prop} {host : Host ε}

/-! ## Opening and closing -/

theorem tallies_new (grants : Nat → Nat → Bool) : (Memory.new grants).Tallies 0 0 :=
  ⟨Multiset.nodup_zero, fun b bytes => by simp [Memory.new, Memory.sizeOf?], rfl, rfl⟩

/-- Nothing is lost if no view is spoilt. -/
theorem eq_zero_of_unspoilt {lost : Multiset Holding} (h : ∀ x ∈ lost, EntryArray (fun _ => False) x) : lost = 0 :=
  Multiset.eq_zero_of_forall_notMem fun x hx => (h x hx).choose_spec.1

/-- A world starts in balance, and on no trail. -/
theorem tallies_open {grants : Nat → Nat → Bool} {env : ε} (h : World.open? grants env = some w) :
    w.Tallies 0 ∧ w.trail = none := by
  unfold World.open? at h
  cases hr : (Memory.new grants).request stateBytes with
  | mk granted memory =>
    rw [hr] at h
    cases granted with
    | none => cases h
    | some own =>
      have hmemory := (tallies_new grants).granted (congrArg Prod.fst hr)
      rw [hr] at hmemory
      dsimp only at h hmemory
      -- the total starts anew, without the block of the world
      have htallies : (⟨{ memory with total := 0 }, own, [], #[], #[], #[], #[], [], none, env⟩ : World ε).Tallies 0 := by
        refine ⟨?_, fun {kind} t => ?_, fun v => View.fits_empty⟩
        · have hall : (⟨{ memory with total := 0 }, own, [], #[], #[], #[], #[], [], none, env⟩ : World ε).holdings + 0 =
              (own, stateBytes) ::ₘ 0 := by simp [World.holdings, heldIn, trailHolding]
          rw [hall]
          exact ⟨hmemory.distinct, hmemory.live, hmemory.strays, by simp⟩
        · rw [table_of_not_has t (by cases kind <;> exact Nat.not_lt_zero _)]
          exact Table.fits_withStorage (by decide) none
      have htrail : (⟨{ memory with total := 0 }, own, [], #[], #[], #[], #[], [], none, env⟩ : World ε).trail = none := rfl
      generalize (⟨{ memory with total := 0 }, own, [], #[], #[], #[], #[], [], none, env⟩ : World ε) = bare at *
      have hnamed : Conserves (fun _ => False) bare (protect (newString constructorText) bare).2 :=
        Upholds.protect (Upholds.newString constructorText) bare
      obtain ⟨lost, hl, hv, hkept⟩ := hnamed 0 htallies
      obtain rfl := eq_zero_of_unspoilt hl
      split at h
      · rename_i hp
        cases h
        rw [hp] at hv hkept
        rw [add_zero] at hv
        exact ⟨hv, hkept.trail htrail⟩
      · cases h

/-- Giving back what the elements of a list hold, one after the other. -/
theorem tallies_foldl (of : α → Multiset Holding) {free : Memory → α → Memory} {apart : Nat}
    (hfree : ∀ {m a rest}, m.Tallies apart (of a + rest) → (free m a).Tallies apart rest) :
    ∀ (l : List α) {m : Memory}, m.Tallies apart ((l.map of).sum + rest) → (l.foldl free m).Tallies apart rest
  | [], _, h => by rwa [List.map_nil, List.sum_nil, zero_add] at h
  | a :: l, _, h => by
    rw [List.map_cons, List.sum_cons, add_assoc] at h
    exact tallies_foldl of hfree l (hfree h)

theorem tallies_freeTables {κ : Type} {bucketBytes : Nat} (tables : Array (Table κ)) {m : Memory}
    (h : m.Tallies stateBytes (heldIn (Table.holding bucketBytes) tables + rest)) :
    (freeTables bucketBytes tables m).Tallies stateBytes rest := by
  rw [freeTables, ← Array.foldl_toList]
  exact tallies_foldl (Table.holding bucketBytes) Memory.Tallies.releaseOption tables.toList h

theorem tallies_freeViews (views : Array View) {m : Memory} (h : m.Tallies stateBytes (heldIn View.holding views + rest)) :
    (freeViews views m).Tallies stateBytes rest := by
  rw [freeViews, ← Array.foldl_toList]
  refine tallies_foldl View.holding (fun {m v rest} hm => ?_) views.toList h
  rw [View.holding, add_assoc] at hm
  exact hm.releaseOption.releaseOption

theorem tallies_freeObjects (objects : List (Block × Nat)) {m : Memory} (h : m.Tallies stateBytes (↑objects + rest)) :
    (freeObjects objects m).Tallies stateBytes rest := by
  have hsum : ∀ l : List Holding, (l.map fun x => ({x} : Multiset Holding)).sum = ↑l := by
    intro l
    induction l with
    | nil => rfl
    | cons x l ih => rw [List.map_cons, List.sum_cons, ih, Multiset.singleton_add, Multiset.cons_coe]
  refine tallies_foldl (fun x => {x}) (fun {m x rest} hm => ?_) objects (hsum objects ▸ h)
  rw [Multiset.singleton_add] at hm
  exact hm.release

/-- **Closing a world** gives back all that it holds, if it is on no trail. -/
theorem World.Tallies.close (h : w.Tallies beside) (htrail : w.trail = none) : w.close.Tallies 0 beside := by
  have hall : w.holdings + beside = heldIn View.holding w.views + (heldIn (Table.holding KeyKind.any.bucketBytes)
      w.anyTables + (heldIn (Table.holding KeyKind.text.bucketBytes) w.textTables + (↑w.objects +
        ((w.own, stateBytes) ::ₘ beside)))) := by
    have hnone : trailHolding w.trail = 0 := congrArg trailHolding htrail
    rw [World.holdings, hnone, zero_add, ← Multiset.singleton_add]
    ac_rfl
  have hledger := h.ledger
  rw [hall] at hledger
  have hreleased := (tallies_freeObjects _ (tallies_freeTables _ (tallies_freeTables _ (tallies_freeViews _ hledger)))).release
  exact ⟨hreleased.distinct, hreleased.live, hreleased.strays, (Int.add_zero _).trans hreleased.total⟩

/-! ## Programs -/

/-- What a service is asked of: work on a view is for one that is there, and a view that is spoilt counts as one. -/
def Service.Apt (spoilt : UInt32 → Prop) (w : World ε) : Service → Prop
  | .newView hint => w.Spoils hint → spoilt hint
  | .viewOfTable t => w.Spoils (w.table t).length.toUInt32 → spoilt (w.table t).length.toUInt32
  | .viewOfStruct s =>
    w.Spoils (w.table (w.struct s).fields).length.toUInt32 → spoilt (w.table (w.struct s).fields).length.toUInt32
  | .resizeView v _ | .append v _ _ => v.index < w.views.size
  | _ => True

/-- Only a table is sized that is there and has no entries. -/
def Operation.Apt (w : World ε) : Operation → Prop
  | .resize t _ => w.Has t ∧ (w.table t).length = 0
  | _ => True

/-- What a program does with a world, with values answered for by one of `hosts`. What fails leaves what it did up to there,
and the program goes on. -/
inductive Conducts (spoilt : UInt32 → Prop) (hosts : Host ε → Prop) (w : World ε) : World ε → Prop
  | refl : Conducts spoilt hosts w w
  | operate {v : World ε} (host : Host ε) (op : Operation) : Conducts spoilt hosts w v → hosts host → op.Apt v →
    Conducts spoilt hosts w (op.run host v).2
  | serve {v : World ε} (host : Host ε) (service : Service) : Conducts spoilt hosts w v → hosts host →
    service.Apt spoilt v → Conducts spoilt hosts w (service.run host v).2
  | drop {v : World ε} (view : ViewId) : Conducts spoilt hosts w v → Conducts spoilt hosts w (v.dropView view)
  | start {v : World ε} {kind : KeyKind} (t : TableId kind) : Conducts spoilt hosts w v →
    Conducts spoilt hosts w (Cursor.start t v).2
  | finish {v : World ε} {kind : KeyKind} (c : Cursor kind) : Conducts spoilt hosts w v →
    Conducts spoilt hosts w (c.finish v).2
  | message {v : World ε} (text : Bytes) : Conducts spoilt hosts w v → Conducts spoilt hosts w (v.saying text)
  /-- The program arranges what it keeps on its own side. -/
  | aside {v : World ε} (e : ε) : Conducts spoilt hosts w v → Conducts spoilt hosts w { v with env := e }
  /-- The allocator changes its mind. -/
  | policy {v : World ε} (grants : Nat → Nat → Bool) (on : Bool) : Conducts spoilt hosts w v →
    Conducts spoilt hosts w { v with memory := { v.memory with grants, refusing := on } }

/-- A host whose answers are programs on top of thrifty hosts. -/
inductive Thrifty (spoilt : UInt32 → Prop) : Host ε → Prop
  | intro {host : Host ε} (inner : Host ε → Prop) : (∀ h, inner h → Thrifty spoilt h) →
    (∀ w i, Conducts spoilt inner w (host.display i w).2) → (∀ w i, Conducts spoilt inner w (host.hash i w).2) →
    (∀ w a b depth, Conducts spoilt inner w (host.equal a b depth w).2) →
    (∀ w i, Conducts spoilt inner w (host.freeze i w).2) → Thrifty spoilt host

/-! ## What every program upholds -/

/-- What all that programs do upholds: operations, and work on views. -/
class Regular (spoilt : UInt32 → Prop) (R : World ε → World ε → Prop) : Prop extends Routine R where
  resizeTable : ∀ {kind : KeyKind} (t : TableId kind) hint w, w.Has t → (w.table t).length = 0 → R w (resizeTable t hint w).2
  newView : ∀ hint w, (w.Spoils hint → spoilt hint) → R w (newView hint w).2
  viewOfTable : ∀ t w, (w.Spoils (w.table t).length.toUInt32 → spoilt (w.table t).length.toUInt32) → R w (viewOfTable t w).2
  resizeView : ∀ v hint w, v.index < w.views.size → R w (resizeView v hint w).2
  append : ∀ v hash key value w, v.index < w.views.size → R w (appendHashed v hash key value w).2
  set : ∀ v key value, Upholds R (setEntry v key value)
  dropView : ∀ v w, R w (w.dropView v)
  aside : ∀ w e, R w { w with env := e }
  policy : ∀ w grants on, R w { w with memory := { w.memory with grants, refusing := on } }

theorem snd_discard (act : Run ε α) (w : World ε) : ((discard act : Run ε Unit) w).2 = (act w).2 := by
  rw [run_discard]
  cases act w with
  | mk r v => cases r <;> rfl

section
variable {R : World ε → World ε → Prop}

theorem Operation.regular (spoilt : UInt32 → Prop) [Regular spoilt R] (hh : host.Upholds R) (op : Operation) (h : op.Apt w) :
    R w (op.run host w).2 := by
  by_cases hr : ∃ (kind : KeyKind) (t : TableId kind) (hint : UInt32), op = .resize t hint
  · obtain ⟨kind, t, hint, rfl⟩ := hr
    exact Regular.resizeTable spoilt t hint w h.1 h.2
  · exact Upholds.operation hh op (fun {kind} t hint he => hr ⟨kind, t, hint, he⟩) w

variable [Regular spoilt R]

theorem Service.regular (hh : host.Upholds R) (service : Service) (h : service.Apt spoilt w) :
    R w (service.run host w).2 := by
  cases service <;> rw [Service.run] <;> try rw [snd_discard]
  case newString s => exact Upholds.newString s w
  case newView hint => exact Regular.newView hint w h
  case viewOfTable t => exact Regular.viewOfTable t w h
  case viewOfStruct s =>
    rw [ValueCore.viewOfStruct, run_bind, run_get]
    exact Regular.viewOfTable (w.struct s).fields w h
  case resizeView v hint => exact Regular.resizeView spoilt v hint w h
  case append v key value => exact Regular.append spoilt v _ key value w h
  case set v key value => exact Regular.set spoilt v key value w
  case entryAt v index => exact Upholds.entryAt v index w
  case viewKeys v => exact Upholds.viewKeyList v w
  case dumpTable address kind t => exact Upholds.dumpTable hh address t w
  case dumpView address v => exact Upholds.dumpView hh address v w
  case compareStructs comparison depth x y => exact Upholds.compareStructs hh comparison depth x y w

/-- **What each thing that a program does upholds, the program upholds.** -/
theorem Conducts.regular {hosts : Host ε → Prop} (hh : ∀ h, hosts h → h.Upholds R) (hc : Conducts spoilt hosts w v) :
    R w v := by
  have htrans : ∀ {x y : World ε}, R w x → R x y → R w y := Routine.trans
  induction hc with
  | refl => exact Routine.refl w
  | operate host op _ hin hapt ih => exact htrans ih (op.regular spoilt (hh host hin) hapt)
  | serve host service _ hin hapt ih => exact htrans ih (service.regular (hh host hin) hapt)
  | drop view _ ih => exact htrans ih (Regular.dropView spoilt view _)
  | start t _ ih => exact htrans ih (Upholds.start t _)
  | finish c _ ih => exact htrans ih (Upholds.finish c _)
  | message text _ ih => exact htrans ih (Routine.message _ text)
  | aside e _ ih => exact htrans ih (Regular.aside spoilt _ e)
  | policy grants on _ ih => exact htrans ih (Regular.policy spoilt _ grants on)

/-- So do the answers of a host. The induction is on how deep calls nest. -/
theorem Thrifty.upholds (ht : Thrifty spoilt host) : host.Upholds R := by
  induction ht with
  | intro inner _ hdisplay hhash hequal hfreeze ih =>
    exact ⟨fun i w => (hdisplay w i).regular ih, fun i w => (hhash w i).regular ih,
      fun a b depth w => (hequal w a b depth).regular ih, fun i w => (hfreeze w i).regular ih⟩

end

/-- **Programs lose nothing but what sizing a view loses.** -/
instance regular_conserves : Regular spoilt (Conserves spoilt : World ε → World ε → Prop) where
  resizeTable _ hint _ := resizeTable_conserves hint
  newView _ _ := newView_conserves
  viewOfTable t _ := viewOfTable_conserves t
  resizeView _ hint _ hv := resizeView_conserves hv hint
  append _ hash key value _ hv := appendHashed_conserves hv hash key value
  set := setEntry_conserves
  dropView v _ := .keep fun h => ⟨h.dropView v, .of_eq (Array.size_modify ..) rfl⟩
  aside w _ := .keep fun h => ⟨⟨h.ledger, fun t => (table_congr rfl rfl t : _ = w.table t) ▸ h.tables t, h.views⟩,
    .of_eq rfl rfl⟩
  policy w _ _ := .keep fun h => ⟨⟨⟨h.ledger.distinct, h.ledger.live, h.ledger.strays, h.ledger.total⟩,
    fun t => (table_congr rfl rfl t : _ = w.table t) ▸ h.tables t, h.views⟩, .of_eq rfl rfl⟩

/-! ## What is left -/

/-- A world in balance with what was lost since it was opened. -/
theorem tallies_after {grants : Nat → Nat → Bool} {env : ε} (ho : World.open? grants env = some w)
    (hc : Conducts spoilt (Thrifty spoilt) w v) :
    ∃ lost, (∀ h ∈ lost, EntryArray spoilt h) ∧ v.Tallies lost ∧ v.trail = none := by
  have hkept : Conserves spoilt w v := hc.regular fun _ ht => ht.upholds
  obtain ⟨hopened, htrail⟩ := tallies_open ho
  obtain ⟨lost, hl, hv, hretains⟩ := hkept 0 hopened
  exact ⟨lost, hl, zero_add lost ▸ hv, hretains.trail htrail⟩

/-- **What is live when a world has been closed** are entry arrays of spoilt views, each for as many entries as one of them was
to have, and the total is what they come to. Everything else was given back once, at its size. -/
theorem lost_at_close (grants : Nat → Nat → Bool) (env : ε) (ho : World.open? grants env = some w)
    (hc : Conducts spoilt (Thrifty spoilt) w v) :
    ∃ lost, (∀ h ∈ lost, EntryArray spoilt h) ∧ v.close.Tallies 0 lost := by
  obtain ⟨lost, hl, hv, htrail⟩ := tallies_after ho hc
  exact ⟨lost, hl, hv.close htrail⟩

/-- An allocator that refuses its fourth request. The first two are for the world. -/
def fourthRefused (serial _bytes : Nat) : Bool := serial != 3

/-- A world on this allocator. -/
def meagre : World Unit := (World.open? fourthRefused ()).getD (World.unused ())

theorem mute_thrifty : Thrifty spoilt (mute : Host ε) :=
  .intro (fun _ => False) (fun _ h => h.elim) (fun _ _ => .refl) (fun _ _ => .refl) (fun _ _ _ _ => .refl) fun _ _ => .refl

/-- A view for eight entries is granted its entry array and refused its index. The array is still live in the end. -/
theorem lost_at_close_view :
    let v := ((Service.newView 8).run mute meagre).2
    (∃ lost, (∀ h ∈ lost, EntryArray (· = 8) h) ∧ v.close.Tallies 0 lost) ∧
      ((Service.newView 8).run mute meagre).1 = .error (.raised .memory) ∧ v.close.sizeOf? 2 = some 256 ∧
      v.close.total = 256 := by
  have hopen : World.open? fourthRefused () = some meagre := rfl
  exact ⟨lost_at_close fourthRefused () hopen (Conducts.refl.serve mute (.newView 8) mute_thrifty fun _ => rfl),
    by decide +kernel⟩

/-- **A program none of whose views is spoilt leaves nothing.** -/
theorem nothing_left (grants : Nat → Nat → Bool) (env : ε) (ho : World.open? grants env = some w)
    (hc : Conducts (fun _ => False) (Thrifty fun _ => False) w v) :
    (∀ b, v.close.sizeOf? b = none) ∧ v.close.strays = 0 ∧ v.close.total = 0 := by
  obtain ⟨lost, hl, hv, htrail⟩ := tallies_after ho hc
  obtain rfl := eq_zero_of_unspoilt hl
  have hclosed := hv.close htrail
  refine ⟨fun b => ?_, hclosed.strays, (Int.add_zero _).symm.trans hclosed.total⟩
  cases hb : v.close.sizeOf? b with
  | none => rfl
  | some bytes => exact absurd ((hclosed.live b bytes).1 hb) (Multiset.notMem_zero _)

end ValueCore
