import ValueCore.Proofs.Carrying

/-!
# A host and its cursors

`Shelf` is the part of a world that a host keeps which works with cursors: all the cursors it has started, and a log of
what it did with them. `CursorCall` are the things to do with cursors. Each acts on the cursors as the core has them and
writes into the log what was done, and nothing else writes there.

What holds there should be can be read off the log alone (`owners`). A cursor that is started on a table takes a hold on it
unless the table is frozen at that moment. Moving a cursor passes its hold on to a new one, and whoever owns a hold gives it
back when it is finished or destroyed for the first time. The flag that a cursor keeps is not mentioned there.

A program that works with cursors (`Plays`) does any operations and any of these calls one after the other, and so do the
answers of its values (`Playful`). All of that are attempts of civil hosts, so what is known of these holds here as well.
-/

namespace ValueCore

open World

variable {σ : Type}

/-! ## The log -/

/-- An item of a table of either kind. -/
abbrev AnyItem := (kind : KeyKind) × (kind.Key × Value)

/-- A cursor on a table of either kind. -/
abbrev AnyCursor := (kind : KeyKind) × Cursor kind

/-- What happened to a cursor. Cursors are numbered as they come about. -/
inductive CursorEvent
  /-- There is a new cursor on a table that is frozen or not and has these items. -/
  | started (table : TableRef) (frozen : Bool) (items : List AnyItem)
  /-- There is a new cursor, to which cursor `i` was moved. -/
  | moved (i : Nat)
  /-- Cursor `i` was finished or destroyed. -/
  | released (i : Nat)
  /-- Cursor `i` was asked for the next item. -/
  | answered (i : Nat) (answer : Option (Option AnyItem))

/-- The tables on which the cursors own holds after what is in the log, the last event coming first. -/
def owners : List CursorEvent → List (Option TableRef)
  | [] => []
  | .started table frozen _ :: log => owners log ++ [if frozen then none else some table]
  | .moved i :: log => (owners log).set i none ++ [(owners log)[i]?.join]
  | .released i :: log => (owners log).set i none
  | .answered .. :: log => owners log

/-- How many holds on a table were taken and not given back. -/
def outstanding (log : List CursorEvent) (r : TableRef) : Nat := (owners log).count (some r)

/-! ## The cursors -/

/-- What a host keeps that works with cursors. -/
structure Shelf (σ : Type) where
  /-- Whatever else it keeps. -/
  user : σ
  /-- The cursors, by their numbers, but for those that were destroyed. -/
  cursors : List (Option AnyCursor)
  log : List CursorEvent

/-- The table that a cursor holds, by its own account. -/
def AnyCursor.held : AnyCursor → Option TableRef
  | ⟨kind, c⟩ => if c.holding then some ⟨kind, c.table⟩ else none

namespace Shelf

def cursor? (s : Shelf σ) (i : Nat) : Option AnyCursor := s.cursors[i]?.join

/-- The tables that the cursors hold. -/
def held (s : Shelf σ) : List (Option TableRef) := s.cursors.map (·.bind AnyCursor.held)

def add (s : Shelf σ) (c : AnyCursor) : Shelf σ := { s with cursors := s.cursors ++ [some c] }

def put (s : Shelf σ) (i : Nat) (c : Option AnyCursor) : Shelf σ := { s with cursors := s.cursors.set i c }

def note (s : Shelf σ) (e : CursorEvent) : Shelf σ := { s with log := e :: s.log }

end Shelf

/-- The inventory of a host that keeps cursors besides. -/
def shelved (I : Inventory σ) : Inventory (Shelf σ) where
  values s := I.values s.user
  tables s := I.tables s.user
  cursors s r := s.held.count (some r)

/-- Something to do with cursors. -/
inductive CursorCall
  | start {kind : KeyKind} (t : TableId kind)
  | next (i : Nat)
  | move (i : Nat)
  | finish (i : Nat)
  | destroy (i : Nat)

namespace CursorCall

/-- Only on a table that is there a cursor is started. -/
def Valid (w : World (Shelf σ)) : CursorCall → Prop
  | .start t => w.Has t
  | _ => True

instance (w : World (Shelf σ)) : DecidablePred (Valid w) := fun call => by unfold Valid; cases call <;> infer_instance

def setShelf (f : Shelf σ → Shelf σ) : Run (Shelf σ) Unit := modify fun w => { w with env := f w.env }

/-- Does something with a cursor, if it is there. -/
def withCursor (i : Nat) (act : {kind : KeyKind} → Cursor kind → Run (Shelf σ) Unit) : Run (Shelf σ) Unit := do
  match (← get).env.cursor? i with
  | some ⟨_, c⟩ => act c
  | none => pure ()

/-- Does it, and logs it. -/
def run : CursorCall → Run (Shelf σ) Unit
  | @start kind t => do
    let table ← readTable t
    let c ← Cursor.start t
    setShelf fun s => (s.add ⟨kind, c⟩).note (.started ⟨kind, t⟩ table.frozen (table.items.map (⟨kind, ·⟩)))
  | .next i => withCursor i fun {kind} c => do
    let (answer, c) ← c.next
    setShelf fun s => (s.put i (some ⟨kind, c⟩)).note (.answered i (answer.map (·.map (⟨kind, ·⟩))))
  | .move i => withCursor i fun {kind} c =>
    setShelf fun s => ((s.put i (some ⟨kind, c.move.2⟩)).add ⟨kind, c.move.1⟩).note (.moved i)
  | .finish i => withCursor i fun {kind} c => do
    let c ← c.finish
    setShelf fun s => (s.put i (some ⟨kind, c⟩)).note (.released i)
  | .destroy i => withCursor i fun c => do
    let _ ← c.finish
    setShelf fun s => (s.put i none).note (.released i)

end CursorCall

/-! ## What calls do -/

/-- The item at a cursor, and where the next one is. -/
def Cursor.ahead {kind : KeyKind} (c : Cursor kind) (T : Table kind.Key) :
    Option (Option (kind.Key × Value)) × Option Nat :=
  match c.position with
  | none => (none, none)
  | some i => (some ((T.slot i).map fun e => (e.key, e.value)), (T.slot i).bind (·.after))

section
variable {ε : Type} {kind : KeyKind}

theorem run_cursorStart (t : TableId kind) (w : World ε) :
    Cursor.start t w = (.ok ⟨t, (w.table t).first, !(w.table t).frozen⟩, if (w.table t).frozen then w else w.held t) := by
  unfold Cursor.start
  rw [run_bind_ok (run_readTable t w)]
  cases hf : (w.table t).frozen <;> rfl

theorem run_cursorNext (c : Cursor kind) (w : World ε) :
    c.next w = (.ok ((c.ahead (w.table c.table)).1, { c with position := (c.ahead (w.table c.table)).2 }), w) := by
  obtain ⟨t, position, holding⟩ := c
  cases position <;> rfl

theorem run_cursorFinish (c : Cursor kind) (w : World ε) :
    c.finish w = (.ok { c with holding := false }, if c.holding then w.letGo c.table else w) := by
  unfold Cursor.finish
  cases hc : c.holding <;> rfl

end

namespace CursorCall

/-- **What a call does**: the world that it leaves. -/
inductive Effect (w : World (Shelf σ)) : CursorCall → World (Shelf σ) → Prop
  | start {kind : KeyKind} (t : TableId kind) : Effect w (.start t)
      { (Cursor.start t w).2 with
        env := (w.env.add ⟨kind, ⟨t, (w.table t).first, !(w.table t).frozen⟩⟩).note
          (.started ⟨kind, t⟩ (w.table t).frozen ((w.table t).items.map (⟨kind, ·⟩))) }
  | absent {call : CursorCall} : Effect w call w
  | next {kind : KeyKind} {i : Nat} {c : Cursor kind} : w.env.cursor? i = some ⟨kind, c⟩ → Effect w (.next i)
      { w with
        env := (w.env.put i (some ⟨kind, { c with position := (c.ahead (w.table c.table)).2 }⟩)).note
          (.answered i ((c.ahead (w.table c.table)).1.map (·.map (⟨kind, ·⟩)))) }
  | move {kind : KeyKind} {i : Nat} {c : Cursor kind} : w.env.cursor? i = some ⟨kind, c⟩ → Effect w (.move i)
      { w with env := ((w.env.put i (some ⟨kind, { c with holding := false }⟩)).add ⟨kind, c⟩).note (.moved i) }
  | finish {kind : KeyKind} {i : Nat} {c : Cursor kind} : w.env.cursor? i = some ⟨kind, c⟩ → Effect w (.finish i)
      { (c.finish w).2 with env := (w.env.put i (some ⟨kind, { c with holding := false }⟩)).note (.released i) }
  | destroy {kind : KeyKind} {i : Nat} {c : Cursor kind} : w.env.cursor? i = some ⟨kind, c⟩ → Effect w (.destroy i)
      { (c.finish w).2 with env := (w.env.put i none).note (.released i) }

theorem env_start {kind : KeyKind} (t : TableId kind) (w : World (Shelf σ)) : (Cursor.start t w).2.env = w.env := by
  rw [run_cursorStart]
  dsimp only
  split
  · rfl
  · exact env_modifyTable _ _

theorem env_finish {kind : KeyKind} (c : Cursor kind) (w : World (Shelf σ)) : (c.finish w).2.env = w.env := by
  rw [run_cursorFinish]
  dsimp only
  split
  · exact env_modifyTable _ _
  · rfl

/-- What is done to the host's part afterwards. -/
theorem snd_bind_setShelf {α : Type} {x : Run (Shelf σ) α} {a : α} {w : World (Shelf σ)} (h : (x w).1 = .ok a)
    (henv : (x w).2.env = w.env) (f : α → Shelf σ → Shelf σ) :
    ((x >>= fun a => setShelf (f a)) w).2 = { (x w).2 with env := f a w.env } := by
  rw [run_bind_ok (run_eq_of_answer h), ← henv]
  rfl

theorem effect (call : CursorCall) (w : World (Shelf σ)) : Effect w call (call.run w).2 := by
  have hwith : ∀ (i : Nat) (act : {kind : KeyKind} → Cursor kind → Run (Shelf σ) Unit) {call : CursorCall},
      (∀ {kind : KeyKind} (c : Cursor kind), w.env.cursor? i = some ⟨kind, c⟩ → Effect w call (act c w).2) →
        Effect w call (withCursor i act w).2 := by
    intro i act call hact
    unfold withCursor
    rw [run_bind_ok (run_get w)]
    cases hc : w.env.cursor? i with
    | none => exact .absent
    | some c => exact hact c.2 hc
  cases call with
  | @start kind t =>
    rw [run, run_bind_ok (run_readTable t w),
      snd_bind_setShelf (congrArg Prod.fst (run_cursorStart t w)) (env_start t w)]
    exact .start t
  | next i =>
    refine hwith i _ fun c hc => ?_
    rw [run_bind, run_cursorNext]
    exact .next hc
  | move i => exact hwith i _ fun c hc => .move hc
  | finish i =>
    refine hwith i _ fun c hc => ?_
    rw [snd_bind_setShelf (congrArg Prod.fst (run_cursorFinish c w)) (env_finish c w)]
    exact .finish hc
  | destroy i =>
    refine hwith i _ fun c hc => ?_
    rw [snd_bind_setShelf (congrArg Prod.fst (run_cursorFinish c w)) (env_finish c w)]
    exact .destroy hc

end CursorCall

/-! ## Holds of the cursors -/

namespace Shelf

variable {s : Shelf σ} {i : Nat} {c : AnyCursor}

theorem held_add (s : Shelf σ) (c : AnyCursor) : (s.add c).held = s.held ++ [c.held] := by simp [add, held]

theorem held_put (s : Shelf σ) (i : Nat) (c : Option AnyCursor) :
    (s.put i c).held = s.held.set i (c.bind AnyCursor.held) := by simp [put, held, List.map_set]

theorem held_note (s : Shelf σ) (e : CursorEvent) : (s.note e).held = s.held := rfl

theorem getElem?_cursors (h : s.cursor? i = some c) : s.cursors[i]? = some (some c) := Option.join_eq_some_iff.1 h

theorem getElem?_held (h : s.cursor? i = some c) : s.held[i]? = some c.held := by
  simp [held, getElem?_cursors h]

end Shelf

/-- A list with one of its elements in sight. -/
theorem split_of_getElem? {α : Type} {l : List α} {i : Nat} {x : α} (h : l[i]? = some x) :
    ∃ a b, l = a ++ x :: b ∧ ∀ y, l.set i y = a ++ y :: b := by
  obtain ⟨hi, rfl⟩ := List.getElem?_eq_some_iff.1 h
  refine ⟨l.take i, l.drop (i + 1), ?_, fun y => List.set_eq_take_append_cons_drop.trans (if_pos hi)⟩
  rw [List.getElem_cons_drop, List.take_append_drop]

/-- Striking off an owner. -/
theorem count_strike {l : List (Option TableRef)} {i : Nat} {x : Option TableRef} (h : l[i]? = some x) (r : TableRef) :
    l.count (some r) = (l.set i none).count (some r) + if x = some r then 1 else 0 := by
  obtain ⟨a, b, rfl, hset⟩ := split_of_getElem? h
  rw [hset]
  by_cases hx : x = some r
  · simp [hx, Nat.add_assoc]
  · simp [hx]

/-- Striking off an owner and adding it at the end. -/
theorem count_pass {l : List (Option TableRef)} {i : Nat} {x : Option TableRef} (h : l[i]? = some x) (r : TableRef) :
    (l.set i none ++ [x]).count (some r) = l.count (some r) := by
  rw [count_strike h r, List.count_append]
  by_cases hx : x = some r <;> simp [hx]

/-! ## Programs with cursors -/

/-- Any operations and any cursor calls one after the other, with values answered for by one of `hosts`. -/
inductive Plays (I : Inventory σ) (hosts : Host (Shelf σ) → Prop) (w : World (Shelf σ)) : World (Shelf σ) → Prop
  | refl : Plays I hosts w w
  | call {v : World (Shelf σ)} (host : Host (Shelf σ)) (op : Operation) : Plays I hosts w v → hosts host → op.Valid v →
    Plays I hosts w (op.run host v).2
  | outside {v v' : World (Shelf σ)} : Plays I hosts w v → Alike v v' → Plays I hosts w v'
  | aside {v : World (Shelf σ)} (user : σ) : Plays I hosts w v → v.Keeps (shelved I) { v.env with user } →
    Plays I hosts w { v with env := { v.env with user } }
  | cursor {v : World (Shelf σ)} (call : CursorCall) : Plays I hosts w v → call.Valid v → Plays I hosts w (call.run v).2

/-- A host whose answers are programs with cursors as well, on top of hosts that are so already. -/
inductive Playful (I : Inventory σ) : Host (Shelf σ) → Prop
  | intro {host : Host (Shelf σ)} (inner : Host (Shelf σ) → Prop) : (∀ h, inner h → Playful I h) →
    (∀ w i, w.Sound (shelved I) → Plays I inner w (host.display i w).2) →
    (∀ w i, w.Sound (shelved I) → Plays I inner w (host.hash i w).2) →
    (∀ w a b depth, w.Sound (shelved I) → Plays I inner w (host.equal a b depth w).2) →
    (∀ w i, w.Sound (shelved I) → Plays I inner w (host.freeze i w).2) → Playful I host

/-- The worlds that a program with cursors can come to, from one without tables and structs and cursors. -/
def Played (I : Inventory σ) (w : World (Shelf σ)) : Prop :=
  ∃ w₀ : World (Shelf σ), w₀.Bare (shelved I) ∧ w₀.env.cursors = [] ∧ w₀.env.log = [] ∧ Plays I (Playful I) w₀ w

section
variable {I : Inventory σ} {w w' : World (Shelf σ)} {hosts : Host (Shelf σ) → Prop} {host : Host (Shelf σ)}

theorem World.Keeps.of_user {e : Shelf σ} (h : w.Keeps (shelved I) w.env) (hu : e.user = w.env.user) :
    w.Keeps (shelved I) e := by
  refine ⟨fun v hv => h.values v ?_, fun r hr => h.tables r ?_⟩
  · simpa only [shelved, hu] using hv
  · simpa only [shelved, hu] using hr

/-- The table of a cursor that owns a hold is held. -/
theorem World.Sound.held_of_cursor (h : w.Sound (shelved I)) {kind : KeyKind} {c : Cursor kind}
    (hc : some ⟨kind, c⟩ ∈ w.env.cursors) (hh : c.holding = true) : 0 < (w.table c.table).holds := by
  have hmem : some ⟨kind, c.table⟩ ∈ w.env.held := List.mem_map.2 ⟨_, hc, by simp [AnyCursor.held, hh]⟩
  exact Nat.lt_of_lt_of_le (List.count_pos_iff.2 hmem) (h.counted ⟨kind, c.table⟩)

/-- What the cursors hold when one of them has been released. -/
theorem cursors_of_released {kind : KeyKind} {i : Nat} {c : Cursor kind} {e : Shelf σ}
    (hc : w.env.cursor? i = some ⟨kind, c⟩) (he : e.held = w.env.held.set i none) :
    (shelved I).cursors w.env =
      if c.holding then plus ((shelved I).cursors e) ⟨kind, c.table⟩ else (shelved I).cursors e := by
  funext r
  have hcount := count_strike (Shelf.getElem?_held hc) r
  rw [← he] at hcount
  refine hcount.trans ?_
  cases hh : c.holding
  · simp [AnyCursor.held, hh, shelved]
  · by_cases hr : r = ⟨kind, c.table⟩
    · simp [AnyCursor.held, hh, shelved, plus, hr]
    · simp [AnyCursor.held, hh, shelved, plus, hr, Ne.symm hr]

/-- **A cursor call is an attempt.** -/
theorem CursorCall.attempts (h : w.Sound (shelved I)) (call : CursorCall) (hv : call.Valid w) :
    Attempts (shelved I) hosts w (call.run w).2 := by
  have heffect := call.effect w
  generalize (call.run w).2 = v at heffect ⊢
  cases heffect with
  | absent => exact .refl
  | start t =>
    refine .start t _ _ .refl hv (run_eq_of_answer (congrArg Prod.fst (run_cursorStart t w))) ?_ (h.kept.of_user rfl)
    funext r
    show ((Shelf.note _ _).held).count (some r) = _
    rw [Shelf.held_note, Shelf.held_add, List.count_append]
    cases hf : (w.table t).frozen
    · by_cases hr : r = ⟨_, t⟩
      · simp [AnyCursor.held, plus, shelved, hr]
      · simp [AnyCursor.held, plus, shelved, hr, Ne.symm hr]
    · simp [AnyCursor.held, shelved]
  | @next kind i c hc =>
    refine .aside _ .refl (funext fun r => congrArg (List.count (some r)) ?_) (h.kept.of_user rfl)
    rw [Shelf.held_note, Shelf.held_put]
    obtain ⟨a, b, hl, hset⟩ := split_of_getElem? (Shelf.getElem?_held hc)
    exact (hset _).trans hl.symm
  | @move kind i c hc =>
    refine .aside _ .refl (funext fun r => ?_) (h.kept.of_user rfl)
    show ((Shelf.note _ _).held).count (some r) = _
    rw [Shelf.held_note, Shelf.held_add, Shelf.held_put]
    exact count_pass (Shelf.getElem?_held hc) r
  | @finish kind i c hc => exact .finish c _ .refl (cursors_of_released hc (Shelf.held_put _ _ _)) (h.kept.of_user rfl)
  | @destroy kind i c hc => exact .finish c _ .refl (cursors_of_released hc (Shelf.held_put _ _ _)) (h.kept.of_user rfl)

theorem Plays.attempts (hi : ∀ h, hosts h → Civil (shelved I) h) (h : w.Sound (shelved I)) (hp : Plays I hosts w w') :
    Attempts (shelved I) hosts w w' := by
  induction hp with
  | refl => exact .refl
  | call host op _ hh hv ih => exact ih.call host op hh hv
  | outside _ ha ih => exact ih.outside ha
  | aside user _ hk ih => exact ih.aside _ rfl hk
  | cursor call _ hv ih => exact ih.trans (call.attempts ((ih.evolves (fun _ hc => (hi _ hc).respects) h).sound h) hv)

theorem Playful.civil (hp : Playful I host) : Civil (shelved I) host := by
  induction hp with
  | intro inner _ hdisplay hhash hequal hfreeze ih =>
    exact .intro inner ih (fun w i h => (hdisplay w i h).attempts ih h) (fun w i h => (hhash w i h).attempts ih h)
      (fun w a b depth h => (hequal w a b depth h).attempts ih h) fun w i h => (hfreeze w i h).attempts ih h

theorem mute_playful : Playful I mute :=
  .intro (fun _ => False) (fun _ h => h.elim) (fun _ _ _ => .refl) (fun _ _ _ => .refl) (fun _ _ _ _ _ => .refl)
    fun _ _ _ => .refl

theorem Played.reachable (hp : Played I w) : Reachable (shelved I) w := by
  obtain ⟨w₀, hb, _, _, hplays⟩ := hp
  exact ⟨w₀, hb, (hplays.attempts (fun _ h => h.civil) hb.sound).mono fun _ h => h.civil⟩

theorem Played.sound (hp : Played I w) : w.Sound (shelved I) := hp.reachable.sound

theorem Plays.trans {u : World (Shelf σ)} (h : Plays I hosts u w) (h' : Plays I hosts w w') : Plays I hosts u w' := by
  induction h' with
  | refl => exact h
  | call host op _ hh hv ih => exact ih.call host op hh hv
  | outside _ ha ih => exact ih.outside ha
  | aside user _ hk ih => exact ih.aside user hk
  | cursor call _ hv ih => exact ih.cursor call hv

theorem Played.plays (hp : Played I w) (h : Plays I (Playful I) w w') : Played I w' := by
  obtain ⟨w₀, hb, hcursors, hlog, hplays⟩ := hp
  exact ⟨w₀, hb, hcursors, hlog, hplays.trans h⟩

end

/-! ## What programs with cursors carry along -/

/-- Cursor calls keep `J` as well, and the rest of the host's part is nothing to it. -/
class Tended (I : Inventory σ) (J : World (Shelf σ) → Prop) : Prop extends Carried (shelved I) J where
  aside : ∀ {w : World (Shelf σ)} (user : σ), J w → J { w with env := { w.env with user } }
  cursor : ∀ {w : World (Shelf σ)} (call : CursorCall), w.Sound (shelved I) → call.Valid w → J w → J (call.run w).2

section
variable {I : Inventory σ} {J : World (Shelf σ) → Prop} [Tended I J] {w w' : World (Shelf σ)}
  {hosts : Host (Shelf σ) → Prop} {host : Host (Shelf σ)}

theorem Plays.keeps (hi : ∀ h, hosts h → Civil (shelved I) h) (hm : ∀ h, hosts h → h.Minds (shelved I) J)
    (h : w.Sound (shelved I)) (hp : Plays I hosts w w') (hj : J w) : J w' := by
  have hsound : ∀ {v : World (Shelf σ)}, Plays I hosts w v → v.Sound (shelved I) := fun hv =>
    ((hv.attempts hi h).evolves (fun _ hc => (hi _ hc).respects) h).sound h
  induction hp with
  | refl => exact hj
  | call host op hv hh hvalid ih => exact (op.carries (hi host hh) (hm host hh) (hsound hv) hvalid).2 (hsound hv) ih
  | outside hv ha ih => exact Carried.step (hsound hv) (.outside ha) ha.env ih
  | aside user _ _ ih => exact Tended.aside I user ih
  | cursor call hv hvalid ih => exact Tended.cursor call (hsound hv) hvalid ih

/-- **The answers of the host keep what cursor calls keep.** The induction is on how deep calls nest. -/
theorem Playful.minds (hp : Playful I host) : host.Minds (shelved I) J := by
  induction hp with
  | intro inner hinner hdisplay hhash hequal hfreeze ih =>
    have hi : ∀ h, inner h → Civil (shelved I) h := fun h hin => (hinner h hin).civil
    exact ⟨fun i w h => (hdisplay w i h).keeps hi ih h, fun i w h => (hhash w i h).keeps hi ih h,
      fun a b depth w h => (hequal w a b depth h).keeps hi ih h, fun i w h => (hfreeze w i h).keeps hi ih h⟩

/-- **What holds without cursors holds in all worlds that a program with cursors comes to.** -/
theorem Played.keeps (hbare : ∀ w₀ : World (Shelf σ), w₀.env.cursors = [] → w₀.env.log = [] → J w₀) (hp : Played I w) :
    J w := by
  obtain ⟨w₀, hb, hcursors, hlog, hplays⟩ := hp
  exact hplays.keeps (fun _ h => h.civil) (fun _ h => h.minds) hb.sound (hbare w₀ hcursors hlog)

end

/-! ## The flags agree with the log -/

section
variable {I : Inventory σ} {w : World (Shelf σ)}

/-- The cursors hold what the log says that they own. -/
def World.Tallied (w : World (Shelf σ)) : Prop := owners w.env.log = w.env.held

instance : Tended I (World.Tallied (σ := σ)) where
  step _ _ henv hj := by
    unfold Tallied
    rw [henv]
    exact hj
  held t _ hj := by
    unfold Tallied World.held
    rw [env_modifyTable]
    exact hj
  letGo t _ hj := by
    unfold Tallied World.letGo
    rw [env_modifyTable]
    exact hj
  aside _ hj := hj
  cursor {w} call _ _ hj := by
    have heffect := call.effect w
    generalize (call.run w).2 = v at heffect ⊢
    unfold Tallied at hj
    cases heffect with
    | absent => exact hj
    | start t =>
      show owners w.env.log ++ [if (w.table t).frozen then none else _] = _
      rw [Shelf.held_note, Shelf.held_add, hj]
      cases (w.table t).frozen <;> rfl
    | @next kind i c hc =>
      obtain ⟨a, b, hl, hset⟩ := split_of_getElem? (Shelf.getElem?_held hc)
      show owners w.env.log = _
      rw [Shelf.held_note, Shelf.held_put, hj]
      exact hl.trans (hset _).symm
    | @move kind i c hc =>
      show (owners w.env.log).set i none ++ [(owners w.env.log)[i]?.join] = _
      rw [Shelf.held_note, Shelf.held_add, Shelf.held_put, hj, Shelf.getElem?_held hc]
      rfl
    | @finish kind i c hc =>
      show (owners w.env.log).set i none = _
      rw [Shelf.held_note, Shelf.held_put, hj]
      rfl
    | @destroy kind i c hc =>
      show (owners w.env.log).set i none = _
      rw [Shelf.held_note, Shelf.held_put, hj]
      rfl

theorem Played.tallied (hp : Played I w) : w.Tallied :=
  hp.keeps fun w₀ hcursors hlog => by rw [Tallied, hlog, Shelf.held, hcursors]; rfl

theorem World.Tallied.cursors_eq (h : w.Tallied) (r : TableRef) :
    (shelved I).cursors w.env r = outstanding w.env.log r := by
  rw [outstanding, h]
  rfl

end

/-! ## Programs as lists -/

/-- Operations and cursor calls one after the other, whether they fail or not. -/
def playOut (host : Host (Shelf σ)) (acts : List (Operation ⊕ CursorCall)) (w : World (Shelf σ)) : World (Shelf σ) :=
  acts.foldl (fun v act => act.elim (fun op => (op.run host v).2) fun call => (call.run v).2) w

/-- They may be done one after the other. -/
def ValidOut (host : Host (Shelf σ)) (w : World (Shelf σ)) : List (Operation ⊕ CursorCall) → Prop
  | [] => True
  | .inl op :: acts => op.Valid w ∧ ValidOut host (op.run host w).2 acts
  | .inr call :: acts => call.Valid w ∧ ValidOut host (call.run w).2 acts

instance validOutDecidable (host : Host (Shelf σ)) :
    (acts : List (Operation ⊕ CursorCall)) → (w : World (Shelf σ)) → Decidable (ValidOut host w acts)
  | [], _ => .isTrue trivial
  | .inl op :: acts, w =>
    have := validOutDecidable host acts (op.run host w).2
    inferInstanceAs (Decidable (op.Valid w ∧ ValidOut host (op.run host w).2 acts))
  | .inr call :: acts, w =>
    have := validOutDecidable host acts (call.run w).2
    inferInstanceAs (Decidable (call.Valid w ∧ ValidOut host (call.run w).2 acts))

theorem Plays.playOut {I : Inventory σ} {hosts : Host (Shelf σ) → Prop} {host : Host (Shelf σ)} (hh : hosts host)
    {w : World (Shelf σ)} : ∀ {acts : List (Operation ⊕ CursorCall)} {v : World (Shelf σ)}, Plays I hosts w v →
      ValidOut host v acts → Plays I hosts w (playOut host acts v)
  | [], _, h, _ => h
  | .inl op :: _, _, h, ⟨hv, hrest⟩ => (h.call host op hh hv).playOut hh hrest
  | .inr c :: _, _, h, ⟨hv, hrest⟩ => (h.cursor c hv).playOut hh hrest

/-- The state of a program with cursors before it has done anything. -/
def unplayed : World (Shelf Unit) := .unused ⟨(), [], []⟩

theorem played_unplayed : Played .nothing unplayed :=
  ⟨unplayed, ⟨rfl, rfl, rfl, ⟨by simp [shelved, Inventory.nothing], by simp [shelved, Inventory.nothing]⟩, fun _ => rfl⟩,
    rfl, rfl, .refl⟩

theorem played_playOut {host : Host (Shelf Unit)} (hh : Playful .nothing host) {acts : List (Operation ⊕ CursorCall)}
    (hv : ValidOut host unplayed acts) : Played .nothing (playOut host acts unplayed) :=
  played_unplayed.plays (Plays.playOut hh .refl hv)

end ValueCore
