import ValueCore.Proofs.Reports.Program
import ValueCore.View.Access

/-!
# Tables and views as programs

How the operations on tables and views are put together. A program for one of them needs one for the hashing and comparing
of keys, which may be the host's.
-/

namespace ValueCore.Program

variable {ε α β : Type} {discreet : Prop} {kind : KeyKind}

/-! ## Combining programs -/

def ite {c : Prop} [h : Decidable c] {x y : Run ε α} (p : Program discreet x) (q : Program discreet y) :
    Program discreet (if c then x else y) :=
  match h with
  | .isTrue _ => p
  | .isFalse _ => q

/-- Two names for what runs alike. -/
def alike {act whole : Run ε α} (h : ∀ w, whole w = act w) (p : Program discreet act) : Program discreet whole := by
  refine .settled (fun a w => (a, w)) id (fun _ _ _ => rfl) (fun _ _ => rfl) (fun w => ?_) p
  rw [h]
  cases act w with
  | mk r v => cases r <;> rfl

/-- What is refused before the rest is done. -/
def refuse {c : Prop} [Decidable c] (f : Fault) {k : α → Run ε β} {rest : Run ε β} (p : Program discreet rest) :
    Program discreet (if c then ValueCore.raise f >>= k else rest) :=
  .ite (.alike (fun _ => rfl) (.raise f)) p

def map (f : α → β) {act : Run ε α} (p : Program discreet act) : Program discreet (f <$> act) :=
  .settled (fun a w => (f a, w)) id (fun _ _ _ => rfl) (fun _ _ => rfl) (run_map f act) p

def afterwards {act : Run ε α} {cleanUp : World ε → World ε}
    (h : ∀ w text, cleanUp (w.saying text) = (cleanUp w).saying text) (p : Program discreet act) :
    Program discreet (afterwards act cleanUp) := by
  refine .settled (fun a w => (a, cleanUp w)) cleanUp (fun a w text => by rw [h]) h (fun w => ?_) p
  rw [run_afterwards]
  cases act w with
  | mk r v => cases r <;> rfl

def modify {f : World ε → World ε} (h : ∀ w text, f (w.saying text) = (f w).saying text) :
    Program discreet (modify f : Run ε Unit) :=
  .quiet (fun w => ((), f w)) fun w text => by rw [h]

def forM {f : α → Run ε Unit} (p : ∀ a, Program discreet (f a)) : ∀ l : List α, Program discreet (l.forM f)
  | [] => .pure ()
  | a :: l => .bind (p a) fun _ => forM p l

def mapMOnto {f : α → Run ε β} (p : ∀ a, Program discreet (f a)) : ∀ (l : List α) (done : List β),
    Program discreet (List.mapM.loop f l done)
  | [], _ => .pure _
  | a :: l, done => .bind (p a) fun b => mapMOnto p l (b :: done)

def mapM {f : α → Run ε β} (p : ∀ a, Program discreet (f a)) (l : List α) : Program discreet (l.mapM f) :=
  mapMOnto p l []

/-! ## Memory -/

def allocate (bytes : Nat) : Program discreet (allocate bytes : Run ε _) :=
  .ite (.pure none) <| .bind (.quiet _ fun _ _ => rfl) fun
    | some b => .pure (some b)
    | none => .raise .outOfMemory

def release (b : Option Block) (bytes : Nat) : Program discreet (release b bytes : Run ε _) := .modify fun _ _ => rfl

def tryReallocate : ∀ (b : Option Block) (old new : Nat), Program discreet (tryReallocate b old new : Run ε _)
  | none, _, _ => .ite (.bind (.release _ _) fun _ => .pure _) (.bind (.quiet _ fun _ _ => rfl) fun _ => .pure _)
  | some _, _, _ => .ite (.bind (.release _ _) fun _ => .pure _) (.bind (.quiet _ fun _ _ => rfl) fun _ => .pure _)

def reallocate (b : Option Block) (old new : Nat) : Program discreet (reallocate b old new : Run ε _) :=
  .bind (.tryReallocate b old new) fun
    | some b => .pure b
    | none => .raise .outOfMemory

def allocateArray (count size : Nat) : Program discreet (allocateArray count size : Run ε _) :=
  .refuse .blockTooBig (.allocate _)

def reallocateArray (b : Option Block) (old new size : Nat) : Program discreet (reallocateArray b old new size : Run ε _) :=
  .refuse .blockTooBig (.reallocate b _ _)

def allocateElements (count size : Nat) : Program discreet (allocateElements count size : Run ε _) :=
  .refuse .blockTooBig (.allocate _)

def withScratch (count size : Nat) {act : Run ε α} (p : Program discreet act) : Program discreet (withScratch count size act) :=
  .bind (.allocateElements count size) fun _ => .afterwards (fun _ _ => rfl) p

theorem saying_offTrail (w : World ε) (text : Bytes) (outer : Option Trail) :
    (w.saying text).offTrail outer = (w.offTrail outer).saying text := by
  obtain ⟨_, _, _, _, _, _, _, _, trail, _⟩ := w
  cases trail <;> rfl

def onTrail {act : Run ε α} (p : Program discreet act) : Program discreet (onTrail act) :=
  .read (fun _ _ _ => rfl) fun w => .bind (.modify fun _ _ => rfl) fun _ =>
    .afterwards (fun v text => saying_offTrail v text w.trail) p

def extendTrail (length : Nat) : Program discreet (extendTrail length : Run ε Unit) :=
  .read (fun _ _ _ => rfl) fun w =>
    match w.trail with
    | none => .pure ()
    | some _ => .ite (.bind (.allocate _) fun _ => .bind (.release _ _) fun _ => .modify fun _ _ => rfl) (.pure ())

def madeIn (block : Option Block) (bytes : Nat) {make : Run ε α} (p : Program discreet make) :
    Program discreet (madeIn block bytes make) := by
  refine .settled (fun a w => (a, { w with objects := (block.map (·, bytes)).toList ++ w.objects })) (·.freed block bytes)
    (fun _ _ _ => rfl) (fun _ _ => rfl) (fun w => ?_) p
  unfold ValueCore.madeIn
  cases make w with
  | mk r v => cases r <;> rfl

def newObject (bytes : Nat) {make : Run ε α} (p : Program discreet make) : Program discreet (newObject bytes make) :=
  .bind (.allocate bytes) fun _ => .madeIn _ _ p

def newString (s : Bytes) : Program discreet (newString s : Run ε _) := .newObject _ (.pure _)

/-! ## Tables -/

theorem saying_modifyTable (w : World ε) (text : Bytes) (t : TableId kind) (f : Table kind.Key → Table kind.Key) :
    (w.saying text).modifyTable t f = (w.modifyTable t f).saying text := by
  cases kind <;> rfl

def readTable (t : TableId kind) : Program discreet (readTable t : Run ε _) := .read (fun _ _ _ => rfl) fun _ => .pure _

def updateTable (t : TableId kind) (f : Table kind.Key → Table kind.Key) : Program discreet (updateTable t f : Run ε _) :=
  .modify fun w text => saying_modifyTable w text t f

def holding (t : TableId kind) {act : Run ε α} (p : Program discreet act) : Program discreet (holding t act) :=
  .bind (.readTable t) fun _ => .ite p <|
    .bind (.modify fun w text => saying_modifyTable w text t _) fun _ =>
      .afterwards (fun w text => saying_modifyTable w text t _) p

def chooseHeads (hint : UInt32) : Program discreet (chooseHeads hint : Run ε _) := by
  unfold ValueCore.chooseHeads
  cases headsFor hint.toNat with
  | some heads => exact .pure heads
  | none => exact .raise .tableOverflow

def allocateHeads (kind : KeyKind) (heads : Nat) : Program discreet (allocateHeads kind heads : Run ε _) :=
  .ite (.allocateArray _ _) (.pure none)

def newTable (kind : KeyKind) (hint : UInt32) : Program discreet (newTable kind hint : Run ε _) :=
  .bind (.chooseHeads hint) fun heads => .bind (.allocateHeads kind heads) fun _ =>
    .quiet _ fun _ _ => by cases kind <;> rfl

def resizeTable (t : TableId kind) (hint : UInt32) : Program discreet (resizeTable t hint : Run ε _) :=
  .bind (.chooseHeads hint) fun heads => .bind (.allocateHeads kind heads) fun _ => .bind (.readTable t) fun _ =>
    .bind (.release _ _) fun _ => .updateTable t _

def checkMutable (t : TableId kind) (change : TableChange) : Program discreet (checkMutable t change : Run ε _) :=
  .bind (.readTable t) fun _ => .refuse (.frozenTable change) (.ite (.raise _) (.pure ()))

end Program

/-- How keys are hashed and compared. -/
structure KeyingProgram (discreet : Prop) {ε κ : Type} (keying : Keying ε κ) where
  hash : ∀ key, Program discreet (keying.hash key)
  equal : ∀ a b, Program discreet (keying.equal a b)

def KeyingProgram.text {ε : Type} {discreet : Prop} : KeyingProgram discreet (textKeying : Keying ε _) :=
  ⟨fun _ => .pure _, fun _ _ => .pure _⟩

namespace Program

variable {ε α : Type} {discreet : Prop} {kind : KeyKind}

def firstEqual {κ : Type} {equal : κ → κ → Run ε Bool} (p : ∀ a b, Program discreet (equal a b)) (key : κ) :
    ∀ candidates : List (Nat × κ), Program discreet (firstEqual equal key candidates)
  | [] => .pure none
  | (_, k) :: rest => .bind (p key k) fun _ => .ite (.pure _) (firstEqual p key rest)

section
variable {keying : Keying ε kind.Key} (k : KeyingProgram discreet keying)
include k

def scan (t : TableId kind) (key : kind.Key) (hash : UInt32) : Program discreet (scan keying t key hash) :=
  .bind (.readTable t) fun _ => .holding t (.firstEqual k.equal key _)

def findSlot (t : TableId kind) (key : kind.Key) : Program discreet (findSlot keying t key) :=
  .bind (k.hash key) fun _ => .scan k t key _

def lookup (t : TableId kind) (key : kind.Key) : Program discreet (lookup keying t key) :=
  .bind (.findSlot k t key) fun
    | some _ => .bind (.readTable t) fun _ => .pure _
    | none => .pure none

end

def growTable (t : TableId kind) : Program discreet (growTable t : Run ε _) :=
  .bind (.readTable t) fun _ => .refuse .tableOverflow <|
    .bind (.allocateArray _ _) fun _ => .bind (.updateTable t _) fun _ => .release _ _

def reserveBucket (t : TableId kind) : Program discreet (reserveBucket t : Run ε _) := by
  refine .bind (.readTable t) fun table => .ite (.refuse .tableOverflow ?_) (.pure ())
  dsimp only
  cases table.block with
  | none => exact .bind (.allocateArray _ _) fun _ => .updateTable t _
  | some b => exact .bind (.reallocateArray _ _ _ _) fun _ => .updateTable t _

def roomFor (t : TableId kind) (hash : UInt32) : Program discreet (roomFor t hash : Run ε _) := by
  refine .bind (.readTable t) fun table => ?_
  dsimp only
  cases table.vacancy (table.home hash) with
  | some i => exact .pure i
  | none => exact .bind (.reserveBucket t) fun _ => .bind (.readTable t) fun _ => .bind (.updateTable t _) fun _ => .pure _

section
variable {keying : Keying ε kind.Key} (k : KeyingProgram discreet keying)
include k

def insertHashed (t : TableId kind) (key : kind.Key) (value : Value) (hash : UInt32) :
    ∀ fuel, Program discreet (insertHashed keying t key value hash fuel)
  | 0 => .stop .exhausted nofun
  | fuel + 1 => .bind (.scan k t key hash) fun found => .bind (.checkMutable t .insert) fun _ =>
    match found with
    | some _ => .updateTable t _
    | none => .bind (.readTable t) fun _ => .ite (.bind (.growTable t) fun _ => insertHashed t key value hash fuel)
      (.bind (.roomFor t hash) fun _ => .updateTable t _)

def insert (t : TableId kind) (key : kind.Key) (value : Value) : Program discreet (insert keying t key value) :=
  .bind (.checkMutable t .insert) fun _ => .bind (k.hash key) fun _ => .insertHashed k t key value _ 26

def erase (t : TableId kind) (key : kind.Key) : Program discreet (erase keying t key) :=
  .bind (.checkMutable t .erase) fun _ => .bind (.findSlot k t key) fun found => .bind (.checkMutable t .erase) fun _ =>
    match found with
    | some _ => .bind (.readTable t) fun _ => .bind (.updateTable t _) fun _ => .pure _
    | none => .pure none

end

def clear (t : TableId kind) : Program discreet (clear t : Run ε _) :=
  .bind (.checkMutable t .clear) fun _ => .updateTable t _

def keyList (t : TableId kind) : Program discreet (keyList t : Run ε _) :=
  .bind (.readTable t) fun _ => .withScratch _ _ (.pure _)

def itemList (t : TableId kind) : Program discreet (itemList t : Run ε _) :=
  .bind (.readTable t) fun _ => .withScratch _ _ (.pure _)

def freezeTable {freezeKey : kind.Key → Run ε Unit} {freezeValue : Value → Run ε Unit}
    (p : ∀ key, Program discreet (freezeKey key)) (q : ∀ value, Program discreet (freezeValue value)) (t : TableId kind) :
    Program discreet (freezeTable freezeKey freezeValue t) :=
  .bind (.readTable t) fun _ => .ite (.pure ()) <| .bind (.updateTable t _) fun _ =>
    .forM (fun (key, value) => .bind (p key) fun _ => q value) _

/-! ## Views -/

def readView (v : ViewId) : Program discreet (readView v : Run ε _) := .read (fun _ _ _ => rfl) fun _ => .pure _

def updateView (v : ViewId) (f : View → View) : Program discreet (updateView v f : Run ε _) := .modify fun _ _ => rfl

def rehashView (v : ViewId) (heads : Nat) : Program discreet (rehashView v heads : Run ε _) :=
  .bind (.readView v) fun _ => .bind (.allocateArray _ _) fun _ => .bind (.release _ _) fun _ => .updateView v _

def reserveEntries (v : ViewId) (capacity : Nat) : Program discreet (reserveEntries v capacity : Run ε _) :=
  .bind (.readView v) fun _ => .bind (.reallocateArray _ _ _ _) fun _ => .updateView v _

def resizeView (v : ViewId) (hint : UInt32) : Program discreet (resizeView v hint : Run ε _) :=
  .bind (.chooseHeads hint) fun _ => .bind (.readView v) fun _ =>
    .ite (.bind (.reserveEntries v _) fun _ => .ite (.rehashView v _) (.pure ())) (.ite (.rehashView v _) (.pure ()))

/-- A view that could not be sized is given up. -/
def newView (hint : UInt32) : Program discreet (newView hint : Run ε _) := by
  let sized (v : ViewId) : Run ε ViewId := fun w => match ValueCore.resizeView v hint w with
    | (.ok (), u) => (.ok v, u)
    | (.error e, u) => (.error e, u.modifyView v fun _ => View.empty)
  have psized : ∀ v, Program discreet (sized v) := fun v => by
    refine .settled (fun _ w => (v, w)) (·.modifyView v fun _ => View.empty) (fun _ _ _ => rfl) (fun _ _ => rfl) (fun w => ?_)
      (.resizeView v hint)
    show sized v w = _
    unfold sized
    cases ValueCore.resizeView v hint w with
    | mk r u => cases r <;> rfl
  have pwhole : Program discreet (modifyGet World.addView >>= fun v => if hint = 0 then Pure.pure v else sized v) :=
    .bind (.quiet _ fun _ _ => rfl) fun v => .ite (.pure v) (psized v)
  refine .alike (fun w => ?_) pwhole
  rw [run_bind_ok (run_modifyGet _ w)]
  unfold ValueCore.newView
  dsimp only
  split <;> rfl

def orDropView (v : ViewId) {fill : Run ε Unit} (p : Program discreet fill) : Program discreet (orDropView v fill) := by
  refine .settled (fun _ w => (v, w)) (·.dropView v) (fun _ _ _ => rfl) (fun _ _ => rfl) (fun w => ?_) p
  unfold ValueCore.orDropView
  cases fill w with
  | mk r u => cases r <;> rfl

def relieveView (v : ViewId) : ∀ fuel, Program discreet (relieveView v fuel : Run ε _)
  | 0 => .stop .exhausted nofun
  | fuel + 1 => .bind (.readView v) fun _ =>
    .ite (.refuse .tableOverflow <| .bind (.rehashView v _) fun _ => relieveView v fuel) (.pure ())

def reserveEntry (v : ViewId) : Program discreet (reserveEntry v : Run ε _) :=
  .bind (.readView v) fun _ => .ite (.reserveEntries v _) (.pure ())

def reserveViewBucket (v : ViewId) : Program discreet (reserveViewBucket v : Run ε _) := by
  refine .bind (.readView v) fun view => .ite ?_ (.pure ())
  cases hb : view.bucketBlock with
  | none => exact .bind (.allocateArray _ _) fun _ => .updateView v _
  | some b => exact .bind (.reallocateArray _ _ _ _) fun _ => .updateView v _

def appendHashed (v : ViewId) (hash : UInt32) (key : Bytes) (value : Value) :
    Program discreet (appendHashed v hash key value : Run ε _) :=
  .bind (.readView v) fun _ => .refuse (.duplicateKey key) <| .bind (.relieveView v 26) fun _ =>
    .bind (.reserveEntry v) fun _ => .bind (.reserveViewBucket v) fun _ => .updateView v _

def appendEntry (v : ViewId) (key : Bytes) (value : Value) : Program discreet (appendEntry v key value : Run ε _) :=
  .appendHashed v _ key value

def viewOfTable (t : TableId .text) : Program discreet (viewOfTable t : Run ε _) :=
  .bind (.readTable t) fun _ => .bind (.newView _) fun v => .orDropView v <| .withScratch _ _ <|
    .forM (fun key => .bind (.lookup .text t key) fun _ => .appendEntry v key _) _

def setEntry (v : ViewId) (key : Bytes) (value : Value) : Program discreet (setEntry v key value : Run ε _) := by
  refine .bind (.readView v) fun view => ?_
  cases view.find key.fnv1a key with
  | some p => exact .bind (.updateView v _) fun _ => .pure true
  | none => exact .pure false

def entryAt (v : ViewId) (index : Int) : Program discreet (entryAt v index : Run ε _) := by
  refine .bind (.readView v) fun view => .ite (.raise _) ?_
  cases view.entries[index.toNat]? with
  | some e => exact .pure e
  | none => exact .raise _

def viewKeyList (v : ViewId) : Program discreet (viewKeyList v : Run ε _) :=
  .bind (.readView v) fun _ => .withScratch _ _ (.pure _)

end ValueCore.Program
