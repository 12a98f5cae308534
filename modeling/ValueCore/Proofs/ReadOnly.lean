import ValueCore.Proofs.Distinctness
import ValueCore.Proofs.Operations.Hostless
import ValueCore.Proofs.Operations.ViewBuilding
import ValueCore.Proofs.Passage.Reads

/-!
# Reading changes nothing

Looking up, listing, hashing, comparing, writing and building a view of a table are done without changing what is there, if
there are no values of the host (`reads_change_nothing`). They do write: a table is held while its keys are compared or its
items are walked over, and it may be come to again while it is held.

| what is said | why |
| --- | --- |
| tables and structs are as before | every hold is let go of, whichever way a read ends (`Calm`) |
| the views that were there are as before | only the new one is written to (`World.Lends`) |
| a frozen table is not touched on the way | it is not held either (`Program.OnlyReads`) |
| that there is a host does not matter | it is not asked (`World.Unaffected`) |
-/

namespace ValueCore

open World

variable {ε : Type} {discreet : Prop} {w v : World ε} {n : Nat} {host host' : Host ε}

/-! ## What is read -/

/-- A read: an operation that is one, the first key of a table, or a view of a table of byte strings or of a struct. -/
inductive Read
  | operation (op : Operation) (h : op.Reads)
  | first {kind : KeyKind} (t : TableId kind)
  | view (t : TableId .text)
  | viewOfStruct (s : StructId)

namespace Read

/-- What a read does. Its answer is left to the program. -/
def run (host : Host ε) : Read → Run ε Unit
  | .operation op _ => op.run host
  | .first t => discard (Table.firstKey <$> readTable t)
  | .view t => discard (viewOfTable t)
  | .viewOfStruct s => discard (ValueCore.viewOfStruct s)

/-- No argument of the read is a value of the host. -/
def Plain : Read → Prop
  | .operation op _ => op.Plain
  | .first _ | .view _ | .viewOfStruct _ => True

def program (h : HostProgram discreet host) : ∀ r : Read, Program discreet (r.run host)
  | .operation op _ => .operation h op
  | .first t => .map _ (.map _ (.readTable t))
  | .view t => .map _ (.viewOfTable t)
  | .viewOfStruct s => .map _ (.viewOfStruct s)

end Read

/-! ## What is left -/

theorem calm_viewOfTable (t : TableId .text) : Calm w (viewOfTable t w).2 := by
  refine calm_drift.bind (calm_drift.alike (.refl w)) fun _ u _ _ => calm_drift.bind (calm_drift.newView _) fun v _ _ _ => ?_
  refine calm_drift.orDropView v (calm_drift.withScratch fun x _ => calm_drift.forM _ fun key _ y _ => ?_)
  exact calm_drift.bind (calm_lookup (textKeying_quiet key)) fun _ _ _ _ => calm_drift.appendEntry v key _

/-- Reading leaves tables and structs as they are. -/
theorem Read.calm (r : Read) (hr : r.Plain) : Calm w (r.run host w).2 := by
  cases r with
  | operation op h => exact op.calm hr h
  | first t => exact calm_drift.map _ (calm_drift.map _ (calm_drift.alike (.refl w)))
  | view t => exact calm_drift.map _ (calm_viewOfTable t)
  | viewOfStruct s =>
    exact calm_drift.map _ (calm_drift.bind (calm_drift.alike (.refl w)) fun _ _ _ _ => calm_viewOfTable _)

/-- On the way a read does no more than to hold tables that are not frozen. -/
theorem Read.onlyReads (h : HostProgram discreet host) (r : Read) (hr : r.Plain) (hn : n ≤ w.views.size) :
    (r.program h).OnlyReads n w := by
  cases r with
  | first t => exact .map (.map (.readTable t))
  | view t => exact .map (.viewOfTable hn t)
  | viewOfStruct s => exact .map (.viewOfStruct hn s)
  | operation op hop =>
    cases op with
    | lookup t key => exact .map (.lookup (Program.OnlyReads.keyingOf h _ key hr) t)
    | keys t => exact .map (.keyList t)
    | items t => exact .map (.itemList t)
    | field s name => exact .map (.requireField h s name)
    | hasField s name => exact .map (.hasField s name)
    | fieldNames s => exact .map (.fieldNames s)
    | hash x => exact .map (.hashValue h hr)
    | equal depth x y => exact .map (.equalWithin h depth hr.1 y)
    | equalDicts depth x y => exact .map (.dictsEqualWithin h depth x y)
    | equalStructs depth x y => exact .map (.structsEqualWithin h depth x y)
    | display x => exact .map (.display h hr)
    | displayStruct s => exact .map (.displayStruct h s)
    | _ => exact False.elim hop

/-- Reading is the same with any host. -/
theorem Read.unaffected (r : Read) (hr : r.Plain) : w.Unaffected (r.run host) (r.run host') := by
  cases r with
  | first t => exact .refl ((Read.first t).calm trivial)
  | view t => exact .refl ((Read.view t).calm trivial)
  | viewOfStruct s => exact .refl ((Read.viewOfStruct s).calm trivial)
  | operation op hop =>
    cases op with
    | lookup t key => exact .discard (lookup_keyingOf_unaffected t hr)
    | keys t => exact .discard (.refl (calm_keyList t))
    | items t => exact .discard (.refl (calm_itemList t))
    | field s name => exact .discard (requireField_unaffected s name)
    | hasField s name => exact .discard (.refl (calm_hasField s name))
    | fieldNames s => exact .discard (.refl (calm_fieldNames s))
    | hash x => exact .discard (hashValue_unaffected x w hr)
    | equal depth x y => exact .discard (equalWithin_unaffected depth x y w hr.1)
    | equalDicts depth x y =>
      exact .discard (dictsEqual_unaffected (equalWithin_unaffected _) (equalWithin_unaffected _) x y)
    | equalStructs depth x y =>
      exact .discard (structsEqual_unaffected (equalWithin_unaffected _) (equalWithin_unaffected _) x y)
    | display x => exact .discard (display_unaffected x w hr)
    | displayStruct s => exact .discard (displayStruct_unaffected s)
    | _ => exact False.elim hop

def muteProgram : HostProgram True (mute : Host ε) where
  typeName _ _ _ _ := rfl
  sameClass _ _ _ _ _ := rfl
  display _ := .pure _
  hash _ := .pure _
  equal _ _ _ := .pure _
  freeze _ := .pure _

/-- **Reading changes nothing.** Let no value be the host's, neither in the world nor in what is asked for. Then a read of
whatever depth leaves every table, struct and view as it was, storage and holds included, whether it returns or fails.

This is so at its end. On the way there it holds tables and lets go of them again, but none that is frozen: in every world
that the read goes through, from the first to the last, tables that are frozen are as they were, and the others but for how
often they are held. -/
theorem reads_change_nothing (host : Host ε) (r : Read) (hw : w.Plain) (hr : r.Plain) :
    Alike w (r.run host w).2 ∧ (∀ i < w.views.size, (r.run host w).2.views[i]? = w.views[i]?) ∧
    ∀ {discreet : Prop} (h : HostProgram discreet host), ((r.program h).worlds w).head? = some w ∧
      ((r.program h).worlds w).getLast? = some (r.run host w).2 ∧
      ∀ v ∈ (r.program h).worlds w, w.Lends w.views.size v := by
  refine ⟨r.calm hr hw, ?_, fun h => ⟨(r.program h).head?_worlds w, (r.program h).getLast?_worlds w,
    r.onlyReads h hr (Nat.le_refl _) hw⟩⟩
  have hends := (r.onlyReads muteProgram hr (Nat.le_refl _)).ends hw
  rw [((r.unaffected hr) hw).1]
  exact hends.views

/-! ## A cabinet -/

/-- Two frozen dicts, in two open ones under the same key. -/
def cabinet : World Unit :=
  inTurn [.newDict 0, .insert (⟨0⟩ : TableId .any) (.str (ascii "a")) (.int 1), .freeze (.dict ⟨0⟩),
    .newDict 0, .insert (⟨1⟩ : TableId .any) (.str (ascii "a")) (.int 1), .freeze (.dict ⟨1⟩),
    .newDict 0, .insert (⟨2⟩ : TableId .any) (.int 7) (.dict ⟨0⟩),
    .newDict 0, .insert (⟨3⟩ : TableId .any) (.int 7) (.dict ⟨1⟩)] (.unused ())

/-- Compares the open dicts, and is given up when it has come to what is in the frozen ones. -/
def cabinetRead : Read := .operation (.equal 2 (.dict ⟨2⟩) (.dict ⟨3⟩)) trivial

/-- The first of the open dicts is held on the way. -/
theorem reads_change_nothing_cabinet :
    cabinet.Plain ∧ cabinetRead.Plain ∧ (cabinetRead.run mute cabinet).1 = .error (.raised .depthExceeded) ∧
    Alike cabinet (cabinetRead.run mute cabinet).2 ∧
    (∃ v ∈ (cabinetRead.program muteProgram).worlds cabinet, (v.table (⟨2⟩ : TableId .any)).holds = 1) ∧
    ∀ v ∈ (cabinetRead.program muteProgram).worlds cabinet, v.table (⟨0⟩ : TableId .any) = cabinet.table ⟨0⟩ := by
  have hplain : cabinet.Plain := (reachable_inTurn (by decide +kernel)).2
  have hread : cabinetRead.Plain := ⟨trivial, trivial⟩
  obtain ⟨halike, -, hprogram⟩ := reads_change_nothing mute cabinetRead hplain hread
  obtain ⟨-, -, hway⟩ := hprogram muteProgram
  have hfrozen : (cabinet.table (⟨0⟩ : TableId .any)).frozen = true := by decide +kernel
  refine ⟨hplain, hread, by decide +kernel, halike, by decide +kernel, fun v hv => ?_⟩
  exact (hway v hv).frozen _ hfrozen

end ValueCore
