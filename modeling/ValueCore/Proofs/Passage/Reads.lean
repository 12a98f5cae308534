import ValueCore.Proofs.Passage.Worlds
import ValueCore.Proofs.Reports.Values

/-!
# Reading programs

The programs for looking up, listing, hashing, comparing, writing and building views only read (`Program.OnlyReads`), one
lemma for each function of the model. What is asked of a value is that it is not the host's: a comparison comes to the host
only if both values are, so it is enough that the left one is not.

A view that is being built is not one of those that are there, as its name is none of theirs (`n ≤ v.index`).
-/

namespace ValueCore

open World

variable {ε α β : Type} {discreet : Prop} {w v u : World ε} {n : Nat} {kind : KeyKind} {host : Host ε}

/-- Hashing a key and comparing it with others only reads. -/
structure KeyingProgram.OnlyReads (n : Nat) {κ : Type} {keying : Keying ε κ} (k : KeyingProgram discreet keying)
    (key : κ) : Prop where
  hash : ∀ w, (k.hash key).OnlyReads n w
  equal : ∀ other w, (k.equal key other).OnlyReads n w

theorem KeyingProgram.onlyReads_text (key : Bytes) :
    (KeyingProgram.text : KeyingProgram discreet (textKeying : Keying ε _)).OnlyReads n key :=
  ⟨fun _ => .pure _, fun _ _ => .pure _⟩

/-- Comparing values only reads if the left one is not the host's. -/
def Program.Compares (n : Nat) {equal : Value → Value → Run ε Bool} (p : ∀ x y, Program discreet (equal x y)) : Prop :=
  ∀ (x y : Value) (w : World ε), x.Plain → (p x y).OnlyReads n w

/-- A new view is named by its place after all that are there. -/
theorem index_newView {hint : UInt32} {v : ViewId} (h : newView hint w = (.ok v, u)) : v.index = w.views.size := by
  unfold newView at h
  dsimp only at h
  split at h
  · cases h
    rfl
  · generalize resizeView w.addView.1 hint w.addView.2 = out at h
    rcases out with ⟨e | a, x⟩ <;> cases h
    rfl

namespace Program.OnlyReads

/-! ## Combining programs -/

theorem ite {c : Prop} [hd : Decidable c] {x y : Run ε α} {p : Program discreet x} {q : Program discreet y}
    (hp : c → p.OnlyReads n w) (hq : ¬ c → q.OnlyReads n w) :
    (Program.ite p q : Program discreet (if c then x else y)).OnlyReads n w := by
  cases hd with
  | isTrue h => exact hp h
  | isFalse h => exact hq h

theorem alike {act whole : Run ε α} {h : ∀ w, whole w = act w} {p : Program discreet act} (hp : p.OnlyReads n w) :
    (Program.alike h p).OnlyReads n w := .settled hp (fun _ _ hv => hv) fun _ hv => hv

theorem refuse {c : Prop} [Decidable c] {f : Fault} {k : α → Run ε β} {rest : Run ε β} {p : Program discreet rest}
    (hp : ¬ c → p.OnlyReads n w) : (Program.refuse (c := c) (k := k) f p).OnlyReads n w :=
  .ite (fun _ => .alike (.raise f)) hp

theorem map {f : α → β} {act : Run ε α} {p : Program discreet act} (hp : p.OnlyReads n w) :
    (Program.map f p).OnlyReads n w := .settled hp (fun _ _ hv => hv) fun _ hv => hv

theorem modify {f : World ε → World ε} {hf : ∀ w text, f (w.saying text) = (f w).saying text} (h : w.Lends n (f w)) :
    (Program.modify hf : Program discreet _).OnlyReads n w := .quiet h

theorem afterwards {act : Run ε α} {cleanUp : World ε → World ε}
    {hc : ∀ w text, cleanUp (w.saying text) = (cleanUp w).saying text} {p : Program discreet act} (hp : p.OnlyReads n w)
    (hclean : ∀ v, w.Lends n v → w.Lends n (cleanUp v)) :
    (Program.afterwards hc p).OnlyReads n w := .settled hp (fun _ => hclean) hclean

theorem forM {f : α → Run ε Unit} {p : ∀ a, Program discreet (f a)} : ∀ (l : List α) {w : World ε},
    (∀ a ∈ l, ∀ v, w.Lends n v → (p a).OnlyReads n v) → (Program.forM p l).OnlyReads n w
  | [], _, _ => .pure ()
  | a :: l, w, h => .bind (h a List.mem_cons_self w (.refl n w)) fun _ _ _ hv =>
    forM l fun b hb u hu => h b (List.mem_cons_of_mem _ hb) u (hv.trans hu)

theorem mapMOnto {f : α → Run ε β} {p : ∀ a, Program discreet (f a)} : ∀ (l : List α) (done : List β) {w : World ε},
    (∀ a ∈ l, ∀ v, w.Lends n v → (p a).OnlyReads n v) → (Program.mapMOnto p l done).OnlyReads n w
  | [], _, _, _ => .pure _
  | a :: l, done, w, h => .bind (h a List.mem_cons_self w (.refl n w)) fun b _ _ hv =>
    mapMOnto l (b :: done) fun c hc u hu => h c (List.mem_cons_of_mem _ hc) u (hv.trans hu)

theorem mapM {f : α → Run ε β} {p : ∀ a, Program discreet (f a)} (l : List α)
    (h : ∀ a ∈ l, ∀ v, w.Lends n v → (p a).OnlyReads n v) : (Program.mapM p l).OnlyReads n w := mapMOnto l [] h

/-! ## Memory -/

theorem allocate (bytes : Nat) : (Program.allocate bytes : Program discreet _).OnlyReads n w := by
  refine .ite (fun _ => .pure _) fun _ => .bind (.quiet (.memory n w _)) fun granted v _ _ => ?_
  cases granted with
  | some b => exact .pure _
  | none => exact .raise _

theorem release (b : Option Block) (bytes : Nat) :
    (Program.release b bytes : Program discreet _).OnlyReads n w := .modify (.freed n w b bytes)

theorem tryReallocate (b : Option Block) (old new : Nat) :
    (Program.tryReallocate b old new : Program discreet _).OnlyReads n w := by
  cases b
  all_goals
    refine .ite (fun _ => .bind (.release _ _) fun _ _ _ _ => .pure _) fun _ => ?_
    exact .bind (.quiet (.memory n w _)) fun _ _ _ _ => .pure _

theorem reallocate (b : Option Block) (old new : Nat) :
    (Program.reallocate b old new : Program discreet _).OnlyReads n w := by
  refine .bind (.tryReallocate b old new) fun r v _ _ => ?_
  cases r with
  | some b => exact .pure b
  | none => exact .raise _

theorem allocateArray (count size : Nat) :
    (Program.allocateArray count size : Program discreet _).OnlyReads n w :=
  .refuse fun _ => .allocate _

theorem reallocateArray (b : Option Block) (old new size : Nat) :
    (Program.reallocateArray b old new size : Program discreet _).OnlyReads n w :=
  .refuse fun _ => .reallocate b _ _

theorem allocateElements (count size : Nat) :
    (Program.allocateElements count size : Program discreet _).OnlyReads n w :=
  .refuse fun _ => .allocate _

theorem withScratch (count size : Nat) {act : Run ε α} {p : Program discreet act}
    (hp : ∀ v, w.Lends n v → p.OnlyReads n v) : (Program.withScratch count size p).OnlyReads n w :=
  .bind (.allocateElements count size) fun _ v _ hv => .afterwards (hp v hv) fun _ hu => hu.trans (.freed n _ _ _)

theorem onTrail {act : Run ε α} {p : Program discreet act} (hp : p.OnlyReads n w.newTrail) :
    (Program.onTrail p).OnlyReads n w := by
  refine .read (.bind (.modify (.newTrail n w)) fun _ v hr _ => ?_)
  cases hr
  exact .afterwards hp fun v hv => hv.trans (.offTrail n v _)

theorem extendTrail (length : Nat) : (Program.extendTrail length : Program discreet _).OnlyReads n w := by
  refine .read ?_
  generalize w.trail = trail?
  cases trail? with
  | none => exact .pure ()
  | some t =>
    refine .ite (fun _ => .bind (.allocate _) fun _ _ _ _ => .bind (.release _ _) fun _ u _ _ => ?_) fun _ => .pure ()
    exact .modify (.of_alike ⟨rfl, rfl, rfl, rfl⟩ fun _ _ => rfl)

/-! ## Tables -/

theorem readTable (t : TableId kind) : (Program.readTable t : Program discreet _).OnlyReads n w :=
  .read (.pure _)

/-- Only a table that is not frozen is held, and so it is not yet when it is let go of. -/
theorem holding (t : TableId kind) {act : Run ε α} {p : Program discreet act} (hp : ∀ v, w.Lends n v → p.OnlyReads n v) :
    (Program.holding t p).OnlyReads n w := by
  refine .bind (.readTable t) fun T v hr _ => ?_
  cases hr
  refine .ite (fun _ => hp w (.refl n w)) fun hf => ?_
  have hheld : w.Lends n (w.held t) := .counting n (Bool.eq_false_iff.2 hf) (· + 1)
  refine .bind (.modify hheld) fun _ v hr _ => ?_
  cases hr
  refine .afterwards (hp _ hheld) fun u hu => ?_
  have hopen : (u.table t).frozen = false := ((hheld.trans hu).frozen_eq t).trans (Bool.eq_false_iff.2 hf)
  exact hu.trans (.counting n hopen (· - 1))

theorem chooseHeads (hint : UInt32) :
    (Program.chooseHeads hint : Program discreet _).OnlyReads n w := by
  unfold Program.chooseHeads ValueCore.chooseHeads
  -- the cases of the program carry proofs of which case they are, and these have to change along with it
  generalize_proofs hnone hsome hself
  generalize headsFor hint.toNat = heads? at hnone hsome hself ⊢
  cases heads? with
  | none => exact .raise _
  | some heads => exact .pure _

theorem firstEqual {κ : Type} {equal : κ → κ → Run ε Bool} {p : ∀ a b, Program discreet (equal a b)} {key : κ}
    (hp : ∀ other w, (p key other).OnlyReads n w) : ∀ (candidates : List (Nat × κ)) {w : World ε},
      (Program.firstEqual p key candidates).OnlyReads n w
  | [], _ => .pure none
  | (_, k) :: rest, w => .bind (hp k w) fun _ _ _ _ => .ite (fun _ => .pure _) fun _ => firstEqual hp rest

section
variable {keying : Keying ε kind.Key} {k : KeyingProgram discreet keying} {key : kind.Key} (hk : k.OnlyReads n key)
include hk

theorem scan (t : TableId kind) (hash : UInt32) : (Program.scan k t key hash).OnlyReads n w :=
  .bind (.readTable t) fun _ _ _ _ => .holding t fun _ _ => .firstEqual hk.equal _

theorem findSlot (t : TableId kind) : (Program.findSlot k t key).OnlyReads n w :=
  .bind (hk.hash w) fun _ _ _ _ => .scan hk t _

theorem lookup (t : TableId kind) : (Program.lookup k t key).OnlyReads n w := by
  refine .bind (.findSlot hk t) fun found v _ _ => ?_
  cases found with
  | some _ => exact .bind (.readTable t) fun _ _ _ _ => .pure _
  | none => exact .pure none

end

theorem keyList (t : TableId kind) : (Program.keyList t : Program discreet _).OnlyReads n w :=
  .bind (.readTable t) fun _ _ _ _ => .withScratch _ _ fun _ _ => .pure _

theorem itemList (t : TableId kind) : (Program.itemList t : Program discreet _).OnlyReads n w :=
  .bind (.readTable t) fun _ _ _ _ => .withScratch _ _ fun _ _ => .pure _

/-! ## Hashing -/

theorem hashFields {hash : Value → Run ε UInt32} {p : ∀ x, Program discreet (hash x)}
    (hp : ∀ (x : Value) (w : World ε), x.Plain → (p x).OnlyReads n w) :
    ∀ (fields : List (Bytes × Value)) (s : StructHash) {w : World ε}, (∀ field ∈ fields, field.2.Plain) →
      (Program.hashFields p fields s).OnlyReads n w
  | [], _, _, _ => .pure _
  | (name, value) :: rest, s, w, hf => .bind (hp value w (hf (name, value) List.mem_cons_self)) fun a _ _ _ =>
    hashFields hp rest (s.mix name a) fun field hm => hf field (List.mem_cons_of_mem _ hm)

section
variable (h : HostProgram discreet host)
include h

theorem hashAt : ∀ (fuel : Nat) (x : Value) (w : World ε), x.Plain → (Program.hashAt h fuel x).OnlyReads n w
  | 0, _, _, _ => .stop
  | fuel + 1, x, w, hx => by
    cases x with
    | none | bool | int | float | str => exact .pure _
    | host i => exact False.elim hx
    | dict t => exact .read (.raise _)
    | struct s =>
      refine .of_plain fun hw => .read ?_
      exact .hashFields (hashAt fuel) _ _ fun field hm => (hw.items (w.struct s).fields field hm).2

theorem hashValue {x : Value} (hx : x.Plain) : (Program.hashValue h x).OnlyReads n w := .read (.hashAt h _ x w hx)

end

/-! ## Writing -/

theorem dictText {write : Value → Run ε Bytes} {p : ∀ x, Program discreet (write x)}
    (hp : ∀ (x : Value) (w : World ε), x.Plain → (p x).OnlyReads n w) (t : TableId .any) :
    (Program.dictText p t).OnlyReads n w := by
  refine .holding t fun v _ => .of_plain fun hv => .bind (.readTable t) fun T u hr _ => ?_
  cases hr
  refine .bind (.mapM _ fun item hm u _ => ?_) fun _ _ _ _ => .pure _
  obtain ⟨hkey, hvalue⟩ := hv.items t item hm
  exact .bind (hp item.1 u hkey) fun _ u _ _ => .bind (hp item.2 u hvalue) fun _ _ _ _ => .pure _

theorem structText {write : Value → Run ε Bytes} {p : ∀ x, Program discreet (write x)}
    (hp : ∀ (x : Value) (w : World ε), x.Plain → (p x).OnlyReads n w) (s : StructId) :
    (Program.structText p s).OnlyReads n w := by
  refine .of_plain fun hw => .read (.ite (fun _ => .bind (.pure _) ?_) fun _ => .bind (hp _ w (hw.ctors s)) ?_)
  all_goals
    intro head v _ _
    refine .of_plain fun hv => .bind (.readTable _) fun T u hr _ => ?_
    cases hr
    refine .bind (.mapM _ fun field hm u _ => ?_) fun _ _ _ _ => .pure _
    exact .bind (hp field.2 u (hv.items _ field hm).2) fun _ _ _ _ => .pure _

section
variable (h : HostProgram discreet host)
include h

theorem writeAt : ∀ (fuel : Nat) (path : List Value) (x : Value) (w : World ε), x.Plain →
    (Program.writeAt h fuel path x).OnlyReads n w
  | 0, _, _, _, _ => .stop
  | fuel + 1, path, x, w, hx => by
    cases x with
    | none | bool | int | float | str => exact .pure _
    | host i => exact False.elim hx
    | dict t => exact .ite (fun _ => .pure _) fun _ => .bind (.extendTrail _) fun _ _ _ _ => .dictText (writeAt fuel _) t
    | struct s => exact .ite (fun _ => .pure _) fun _ => .bind (.extendTrail _) fun _ _ _ _ => .structText (writeAt fuel _) s

theorem display {x : Value} (hx : x.Plain) : (Program.display h x).OnlyReads n w :=
  .onTrail (.read (.writeAt h _ [] x w.newTrail hx))

theorem displayStruct (s : StructId) : (Program.displayStruct h s).OnlyReads n w :=
  .onTrail (.read (.structText (.writeAt h _ []) s))

end

/-! ## Comparing -/

theorem itemsEqual {equal : Value → Value → Run ε Bool} {get? : Value → Run ε (Option Value)}
    {p : ∀ x y, Program discreet (equal x y)} {q : ∀ key, Program discreet (get? key)} (hp : Compares n p)
    (hq : ∀ (key : Value) (w : World ε), key.Plain → (q key).OnlyReads n w) :
    ∀ (items : List (Value × Value)) {w : World ε}, (∀ item ∈ items, item.1.Plain ∧ item.2.Plain) →
      (Program.itemsEqual p q items).OnlyReads n w
  | [], _, _ => .pure true
  | (key, x) :: rest, w, hi => by
    obtain ⟨hkey, hx⟩ := hi (key, x) List.mem_cons_self
    refine .bind (hq key w hkey) fun found v _ _ => ?_
    cases found with
    | none => exact .pure false
    | some y =>
      refine .bind (hp x y v hx) fun _ _ _ _ => .ite (fun _ => ?_) fun _ => .pure false
      exact itemsEqual hp hq rest fun item hm => hi item (List.mem_cons_of_mem _ hm)

theorem dictsEqual {keying : Keying ε Value} {k : KeyingProgram discreet (keying : Keying ε (KeyKind.Key .any))}
    {equal : Value → Value → Run ε Bool} {p : ∀ x y, Program discreet (equal x y)}
    (hk : ∀ key : Value, key.Plain → k.OnlyReads n key) (hp : Compares n p) (x y : TableId .any) :
    (Program.dictsEqual k p x y).OnlyReads n w := by
  refine .bind (.readTable x) fun _ _ _ _ => .bind (.readTable y) fun _ _ _ _ => .ite (fun _ => .pure false) fun _ => ?_
  refine .holding x fun v _ => .of_plain fun hv => .bind (.readTable x) fun T u hr _ => ?_
  cases hr
  exact .itemsEqual hp (fun key w hkey => .lookup (hk key hkey) y) _ (hv.items x)

theorem fieldsEqual {equal : Value → Value → Run ε Bool} {p : ∀ x y, Program discreet (equal x y)} (hp : Compares n p) :
    ∀ (xs ys : List (Bytes × Value)) {w : World ε}, (∀ field ∈ xs, field.2.Plain) →
      (Program.fieldsEqual p xs ys).OnlyReads n w
  | [], _, _, _ => .pure true
  | _ :: _, [], _, _ => .pure false
  | (name, x) :: xs, (_, y) :: ys, w, hf => by
    refine .ite (fun _ => .pure false) fun _ => .bind (hp x y w (hf (name, x) List.mem_cons_self)) fun _ _ _ _ => ?_
    exact .ite (fun _ => fieldsEqual hp xs ys fun field hm => hf field (List.mem_cons_of_mem _ hm)) fun _ => .pure false

section
variable (h : HostProgram discreet host)
include h

/-- Both constructors may have to be written. -/
theorem sameConstructor {equal : Value → Value → Run ε Bool} {p : ∀ x y, Program discreet (equal x y)} (hp : Compares n p)
    (use : ConstructorUse) {x y : Value} (hx : x.Plain) (hy : y.Plain) :
    (Program.sameConstructor h p use x y).OnlyReads n w :=
  .caught (hp x y w hx) (fun _ _ _ => .pure _) fun _ _ _ _ =>
    .bind (.display h hx) fun _ _ _ _ => .bind (.display h hy) fun _ _ _ _ => .raise _

theorem structsEqual {equalFully equal : Value → Value → Run ε Bool} {p : ∀ x y, Program discreet (equalFully x y)}
    {q : ∀ x y, Program discreet (equal x y)} (hp : Compares n p) (hq : Compares n q) (x y : StructId) :
    (Program.structsEqual h p q x y).OnlyReads n w := by
  refine .of_plain fun hw => .read (.ite (fun _ => .pure false) fun _ => ?_)
  refine .bind (.sameConstructor h hp .equality (hw.ctors x) (hw.ctors y)) fun _ v _ _ => ?_
  refine .ite (fun _ => ?_) fun _ => .pure false
  exact .of_plain fun hv => .read <| .fieldsEqual hq _ _ fun field hm => (hv.items (w.struct x).fields field hm).2

theorem equalAt : ∀ (fuel : Nat) (depth : Int), Compares n (Program.equalAt h fuel depth)
  | 0, _, _, _, _, _ => .stop
  | fuel + 1, depth, x, y, w, hx => by
    have hfully := equalAt fuel fullBudget
    have hbelow := equalAt fuel (depth - 1)
    refine .refuse fun _ => ?_
    cases x <;> cases y
    case dict.dict a b =>
      refine .ite (fun _ => .pure true) fun _ => .dictsEqual (fun key hkey => ?_) hbelow a b
      exact ⟨fun _ => .hashValue h hkey, fun other w => hfully key other w hkey⟩
    case struct.struct a b => exact .structsEqual h hfully hbelow a b
    case host.host a b => exact False.elim hx
    all_goals exact .pure _

theorem equalWithin (depth : Int) {x : Value} (hx : x.Plain) (y : Value) : (Program.equalWithin h depth x y).OnlyReads n w :=
  .read (.equalAt h _ depth x y w hx)

theorem keyingOf : ∀ (kind : KeyKind) (key : kind.Key), PlainKey key → (Program.keyingOf h kind).OnlyReads n key
  | .any, _, hkey => ⟨fun _ => .hashValue h hkey, fun other _ => .equalWithin h fullBudget hkey other⟩
  | .text, key, _ => KeyingProgram.onlyReads_text key

theorem dictsEqualWithin (depth : Int) (x y : TableId .any) : (Program.dictsEqualWithin h depth x y).OnlyReads n w :=
  .dictsEqual (keyingOf h .any) (fun _ y _ hx => .equalWithin h _ hx y) x y

theorem structsEqualWithin (depth : Int) (x y : StructId) : (Program.structsEqualWithin h depth x y).OnlyReads n w :=
  .structsEqual h (fun _ y _ hx => .equalWithin h _ hx y) (fun _ y _ hx => .equalWithin h _ hx y) x y

end

/-! ## Structs -/

theorem field? (s : StructId) (name : Bytes) : (Program.field? s name : Program discreet _).OnlyReads n w :=
  .read (.lookup (KeyingProgram.onlyReads_text name) _)

theorem hasField (s : StructId) (name : Bytes) : (Program.hasField s name : Program discreet _).OnlyReads n w :=
  .bind (.field? s name) fun _ _ _ _ => .pure _

theorem fieldNames (s : StructId) : (Program.fieldNames s : Program discreet _).OnlyReads n w := .read (.keyList _)

/-- Where there is no such field the constructor may have to be written. -/
theorem requireField (h : HostProgram discreet host) (s : StructId) (name : Bytes) :
    (Program.requireField h s name).OnlyReads n w := by
  refine .bind (.field? s name) fun found v _ _ => ?_
  cases found with
  | some _ => exact .pure _
  | none =>
    refine .of_plain fun hv => .read (.ite (fun _ => ?_) fun _ => ?_)
    · exact .bind (.pure _) fun _ _ _ _ => .raise _
    · exact .bind (.map (.display h (hv.ctors s))) fun _ _ _ _ => .raise _

/-! ## Views -/

section
variable {v : ViewId} (hv : n ≤ v.index)
include hv

theorem updateView (f : View → View) : (Program.updateView v f : Program discreet _).OnlyReads n w :=
  .modify (.modifyView hv w f)

omit hv in
theorem readView (v : ViewId) : (Program.readView v : Program discreet _).OnlyReads n w := .read (.pure _)

theorem rehashView (heads : Nat) : (Program.rehashView v heads : Program discreet _).OnlyReads n w :=
  .bind (.readView v) fun _ _ _ _ => .bind (.allocateArray _ _) fun _ _ _ _ => .bind (.release _ _) fun _ _ _ _ =>
    .updateView hv _

theorem reserveEntries (capacity : Nat) : (Program.reserveEntries v capacity : Program discreet _).OnlyReads n w :=
  .bind (.readView v) fun _ _ _ _ => .bind (.reallocateArray _ _ _ _) fun _ _ _ _ => .updateView hv _

theorem resizeView (hint : UInt32) : (Program.resizeView v hint : Program discreet _).OnlyReads n w := by
  refine .bind (.chooseHeads hint) fun heads u _ _ => .bind (.readView v) fun _ x _ _ => .ite (fun _ => ?_) fun _ => ?_
  · exact .bind (.reserveEntries hv _) fun _ _ _ _ => .ite (fun _ => .rehashView hv _) fun _ => .pure ()
  · exact .ite (fun _ => .rehashView hv _) fun _ => .pure ()

theorem relieveView : ∀ (fuel : Nat) {w : World ε}, (Program.relieveView v fuel : Program discreet _).OnlyReads n w
  | 0, _ => .stop
  | fuel + 1, _ => .bind (.readView v) fun _ _ _ _ => .ite
    (fun _ => .refuse fun _ => .bind (.rehashView hv _) fun _ _ _ _ => relieveView fuel) fun _ => .pure ()

theorem reserveEntry : (Program.reserveEntry v : Program discreet _).OnlyReads n w :=
  .bind (.readView v) fun _ _ _ _ => .ite (fun _ => .reserveEntries hv _) fun _ => .pure ()

theorem reserveViewBucket : (Program.reserveViewBucket v : Program discreet _).OnlyReads n w := by
  refine .bind (.readView v) fun V u hr _ => .ite (fun _ => ?_) fun _ => .pure ()
  dsimp only
  generalize_proofs hself hnone hsome
  generalize V.bucketBlock = block at hself hnone hsome ⊢
  cases block with
  | none => exact .bind (.allocateArray _ _) fun _ _ _ _ => .updateView hv _
  | some b => exact .bind (.reallocateArray _ _ _ _) fun _ _ _ _ => .updateView hv _

theorem appendEntry (key : Bytes) (value : Value) : (Program.appendEntry v key value : Program discreet _).OnlyReads n w :=
  .bind (.readView v) fun _ _ _ _ => .refuse fun _ => .bind (.relieveView hv 26) fun _ _ _ _ =>
    .bind (.reserveEntry hv) fun _ _ _ _ => .bind (.reserveViewBucket hv) fun _ _ _ _ => .updateView hv _

theorem orDropView {fill : Run ε Unit} {p : Program discreet fill} (hp : p.OnlyReads n w) :
    (Program.orDropView v p).OnlyReads n w :=
  .settled hp (fun _ _ hu => hu) fun u hu => hu.trans (.dropView hv u)

end

/-- The new view comes after all that are there. -/
theorem newView (hn : n ≤ w.views.size) (hint : UInt32) : (Program.newView hint : Program discreet _).OnlyReads n w := by
  unfold Program.newView
  refine .alike (.bind (.quiet (.addView hn)) fun v u hr _ => .ite (fun _ => .pure v) fun _ => ?_)
  cases hr
  exact .settled (.resizeView hn hint) (fun _ _ hu => hu) fun u hu => hu.trans (.modifyView hn u _)

theorem viewOfTable (hn : n ≤ w.views.size) (t : TableId .text) :
    (Program.viewOfTable t : Program discreet _).OnlyReads n w := by
  refine .bind (.readTable t) fun T u hr _ => ?_
  cases hr
  refine .bind (.newView hn _) fun v u hr _ => ?_
  have hv : n ≤ v.index := (index_newView hr).symm ▸ hn
  refine .orDropView hv (.withScratch _ _ fun x _ => .forM _ fun key _ y _ => ?_)
  exact .bind (.lookup (KeyingProgram.onlyReads_text key) t) fun _ _ _ _ => .appendEntry hv key _

theorem viewOfStruct (hn : n ≤ w.views.size) (s : StructId) :
    (Program.viewOfStruct s : Program discreet _).OnlyReads n w := .read (.viewOfTable hn _)

end Program.OnlyReads

end ValueCore
