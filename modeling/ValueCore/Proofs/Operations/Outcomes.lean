import ValueCore.Proofs.Operations.Reads
import ValueCore.Proofs.Verdict.Outcome
import ValueCore.Proofs.World.Containers

/-!
# What comparing and writing come to

Among values without any of the host's in them, hashing, comparing and writing come to what `digest`, `judged` and `text`
compute from the world, errors and their messages included (`Answers`). Only if the allocator refuses something may they
end otherwise, and then with an error that says so.

What is computed is the same in all worlds with the containers of `w` (`Mirrors`): these may be held or frozen in another
way.
-/

namespace ValueCore

open World

variable {ε α β : Type} {w v u : World ε} {kind : KeyKind} {t : TableId kind} {host : Host ε} {C : Value → Prop}

/-! ## Allocators -/

/-- Every request is granted that writing containers makes, however long the trail gets. -/
structure Memory.Granting (m : Memory) : Prop where
  willing : m.refusing = false
  grants : ∀ serial length, m.grants serial (length * trailEntryBytes) = true

/-- The allocator answers requests in the same way. -/
structure Memory.SamePolicy (m m' : Memory) : Prop where
  grants : m'.grants = m.grants
  refusing : m'.refusing = m.refusing

namespace Memory

variable {m m' m'' : Memory}

theorem SamePolicy.refl (m : Memory) : SamePolicy m m := ⟨rfl, rfl⟩

theorem SamePolicy.trans (h : SamePolicy m m') (h' : SamePolicy m' m'') : SamePolicy m m'' :=
  ⟨h'.grants.trans h.grants, h'.refusing.trans h.refusing⟩

theorem Granting.same (hg : m.Granting) (h : SamePolicy m m') : m'.Granting :=
  ⟨h.refusing.trans hg.willing, fun serial length => by rw [h.grants]; exact hg.grants serial length⟩

theorem samePolicy_releaseOption (b : Option Block) (bytes : Nat) : SamePolicy m (m.releaseOption b bytes) := by
  cases b <;> exact ⟨rfl, rfl⟩

theorem samePolicy_request (bytes : Nat) : SamePolicy m (m.request bytes).2 := by
  unfold request
  dsimp only
  split <;> exact ⟨rfl, rfl⟩

theorem request_fst (m : Memory) (bytes : Nat) :
    (m.request bytes).1 = if m.answer bytes then some m.blocks.size else none := by
  unfold request
  dsimp only
  split <;> rfl

theorem Granting.answer (hg : m.Granting) (length : Nat) : m.answer (length * trailEntryBytes) = true := by
  simp [Memory.answer, hg.willing, hg.grants]

end Memory

/-- The same world with an allocator that grants everything or nothing. -/
def World.allocating (w : World ε) (grants : Bool) : World ε :=
  { w with memory := { w.memory with grants := fun _ _ => grants, refusing := false } }

theorem alike_allocating (w : World ε) (grants : Bool) : Alike w (w.allocating grants) := ⟨rfl, rfl, rfl, rfl⟩

theorem samePolicy_offTrail (w : World ε) (outer : Option Trail) : w.memory.SamePolicy (w.offTrail outer).memory := by
  unfold World.offTrail
  cases w.trail with
  | none => exact .refl w.memory
  | some t => exact Memory.samePolicy_releaseOption _ _

theorem message_offTrail (w : World ε) (outer : Option Trail) : (w.offTrail outer).message = w.message := by
  unfold World.offTrail
  cases w.trail <;> rfl

theorem granting_allocating (w : World ε) : (w.allocating true).memory.Granting := ⟨rfl, fun _ _ => rfl⟩

/-- Asking for the block of a trail. -/
theorem run_allocate_trail (length : Nat) (w : World ε) : ∃ v, Alike w v ∧ w.memory.SamePolicy v.memory ∧
    ((∃ b, allocate (length * trailEntryBytes) w = (.ok b, v)) ∨
      ¬ w.memory.Granting ∧ allocate (length * trailEntryBytes) w = (.error (.raised .memory), v)) := by
  have hasks := asks_allocate (w := w) (length * trailEntryBytes)
  have hanswer := Memory.request_fst w.memory (length * trailEntryBytes)
  refine ⟨(allocate (length * trailEntryBytes) w).2, hasks.alike, ?_⟩
  unfold allocate
  split
  · exact ⟨.refl w.memory, .inl ⟨none, rfl⟩⟩
  · rw [run_bind_ok (run_modifyGet _ w)]
    dsimp only
    rw [hanswer]
    cases ha : w.memory.answer (length * trailEntryBytes) with
    | true => exact ⟨Memory.samePolicy_request _, .inl ⟨_, rfl⟩⟩
    | false =>
      exact ⟨Memory.samePolicy_request _, .inr ⟨fun hg => Bool.false_ne_true (ha.symm.trans (hg.answer length)), rfl⟩⟩

/-- The trail is long enough or is replaced, unless that is refused. -/
theorem run_extendTrail (length : Nat) (w : World ε) : ∃ v, Alike w v ∧ w.memory.SamePolicy v.memory ∧
    (extendTrail length w = (.ok (), v) ∨
      ¬ w.memory.Granting ∧ extendTrail length w = (.error (.raised .memory), v)) := by
  unfold extendTrail
  rw [run_bind_ok (run_get w)]
  cases w.trail with
  | none => exact ⟨w, .refl w, .refl w.memory, .inl rfl⟩
  | some t =>
    dsimp only
    split
    · obtain ⟨v, hv, hpolicy, ⟨b, hr⟩ | ⟨hg, hr⟩⟩ := run_allocate_trail (length + max length 1) w
      · rw [run_bind_ok hr, run_bind_ok (run_release _ _ v), run_modify]
        refine ⟨_, hv.trans ?_, hpolicy.trans ?_, .inl rfl⟩
        · exact ⟨rfl, rfl, rfl, rfl⟩
        · exact Memory.samePolicy_releaseOption t.block _
      · exact ⟨v, hv, hpolicy, .inr ⟨hg, run_bind_error hr _⟩⟩
    · exact ⟨w, .refl w, .refl w.memory, .inl rfl⟩

/-! ## Answers -/

/-- The same containers, but for who holds them and whether they are frozen. -/
structure World.Mirrors (w v : World ε) : Prop extends SameStores w v where
  size : v.anyTables.size = w.anyTables.size

namespace World.Mirrors

theorem refl (w : World ε) : w.Mirrors w := ⟨.refl w, rfl⟩

theorem alike (h : w.Mirrors v) (ha : Alike v u) : w.Mirrors u :=
  ⟨h.toSameStores.alike ha, by rw [ha.anyTables, h.size]⟩

theorem held (h : w.Mirrors v) (t : TableId kind) : w.Mirrors (v.held t) :=
  ⟨h.toSameStores.held t, by cases kind <;> simp [World.held, modifyTable, h.size]⟩

theorem containers (h : w.Mirrors v) : v.containers = w.containers := by
  rw [World.containers, h.size, h.structs, World.containers]

end World.Mirrors

/-- A computation that comes to this has ended in this way, and left this world. -/
inductive Outcome : Judged α → Except Failure α × World ε → Prop
  | returned (a : α) (v : World ε) : Outcome (.ok a) (.ok a, v)
  | raised (f : Fault) {v : World ε} : v.message = f.message →
    Outcome (.error (.fault f)) (.error (.raised f.status), v)
  | exhausted (v : World ε) : Outcome (.error .exhausted) (.error .exhausted, v)

theorem Outcome.congr {o : Judged α} {r : Except Failure α} (h : Outcome o (r, u)) (hm : v.message = u.message) :
    Outcome o (r, v) := by
  cases h with
  | returned a => exact .returned a v
  | raised f hf => exact .raised f (hm.trans hf)
  | exhausted => exact .exhausted v

/-- What the computation comes to in every world with the containers of `w`, unless it is refused memory. Tables, structs
and the host's part are left alone. -/
structure World.Answers (w : World ε) (act : Run ε α) (o : Judged α) : Prop where
  alike : ∀ v, w.Mirrors v → Alike v (act v).2
  policy : ∀ v, w.Mirrors v → v.memory.SamePolicy (act v).2.memory
  outcome : ∀ v, w.Mirrors v → Outcome o (act v) ∨ ¬ v.memory.Granting ∧ (act v).1 = .error (.raised .memory)

namespace World.Answers

theorem of_run {act : Run ε α} {o : Judged α} (h : ∀ v, w.Mirrors v → Alike v (act v).2 ∧
    v.memory.SamePolicy (act v).2.memory ∧
      (Outcome o (act v) ∨ ¬ v.memory.Granting ∧ (act v).1 = .error (.raised .memory))) : w.Answers act o :=
  ⟨fun v hv => (h v hv).1, fun v hv => (h v hv).2.1, fun v hv => (h v hv).2.2⟩

theorem pure (a : α) : w.Answers (pure a : Run ε α) (pure a) :=
  ⟨fun v _ => .refl v, fun v _ => .refl v.memory, fun v _ => .inl (.returned a v)⟩

theorem exhausted : w.Answers (throw .exhausted : Run ε α) (throw .exhausted) :=
  ⟨fun v _ => .refl v, fun v _ => .refl v.memory, fun v _ => .inl (.exhausted v)⟩

theorem raise (f : Fault) : w.Answers (raise f : Run ε α) (throw (.fault f)) :=
  ⟨fun _ _ => ⟨rfl, rfl, rfl, rfl⟩, fun v _ => .refl v.memory, fun _ _ => .inl (.raised f rfl)⟩

theorem bind {x : Run ε α} {f : α → Run ε β} {o : Judged α} {g : α → Judged β} (hx : w.Answers x o)
    (hf : ∀ a, o = .ok a → w.Answers (f a) (g a)) : w.Answers (x >>= f) (o >>= g) := by
  refine of_run fun v hv => ?_
  have halike := hx.alike v hv
  have hpolicy := hx.policy v hv
  have hout := hx.outcome v hv
  cases hr : x v with
  | mk r u =>
    rw [hr] at halike hpolicy hout
    rcases hout with ho | ⟨hg, he⟩
    · cases ho with
      | returned a =>
        rw [run_bind_ok hr]
        have hnext := hf a rfl
        have hu := hv.alike halike
        refine ⟨halike.trans (hnext.alike u hu), hpolicy.trans (hnext.policy u hu), ?_⟩
        exact (hnext.outcome u hu).imp_right fun ⟨hg, he⟩ => ⟨fun hgv => hg (hgv.same hpolicy), he⟩
      | raised f hm =>
        rw [run_bind_error hr]
        exact ⟨halike, hpolicy, .inl (.raised f hm)⟩
      | exhausted =>
        rw [run_bind_error hr]
        exact ⟨halike, hpolicy, .inl (.exhausted u)⟩
    · cases he
      rw [run_bind_error hr]
      exact ⟨halike, hpolicy, .inr ⟨hg, rfl⟩⟩

theorem after {x : Run ε α} {f : α → Run ε β} {a : α} {o : Judged β} (hx : w.Answers x (.ok a))
    (hf : w.Answers (f a) o) : w.Answers (x >>= f) o := by
  have hg : w.Answers (x >>= f) ((.ok a : Judged α) >>= fun _ => o) := hx.bind fun b hb => by
    cases hb
    exact hf
  exact hg

/-- Reading answers with something that is the same in all these worlds. -/
theorem read {x : World ε → α} {f : α → Run ε β} {o : Judged β} (h : ∀ v, w.Mirrors v → w.Answers (f (x v)) o)
    {act : Run ε α} (hact : ∀ v, act v = (.ok (x v), v)) : w.Answers (act >>= f) o := by
  refine of_run fun v hv => ?_
  rw [run_bind_ok (hact v)]
  exact ⟨(h v hv).alike v hv, (h v hv).policy v hv, (h v hv).outcome v hv⟩

theorem get {f : World ε → Run ε β} {o : Judged β} (h : ∀ v, w.Mirrors v → w.Answers (f v) o) :
    w.Answers (get >>= f) o := read h run_get

theorem readTable {f : Table kind.Key → Run ε β} {o : Judged β} (h : ∀ v, w.Mirrors v → w.Answers (f (v.table t)) o) :
    w.Answers (readTable t >>= f) o := read h (run_readTable t)

theorem holding {act : Run ε α} {o : Judged α} (h : w.Answers act o) : w.Answers (holding t act) o := by
  refine of_run fun v hv => ?_
  cases hf : (v.table t).frozen with
  | true =>
    rw [run_holding_of_frozen hf]
    exact ⟨h.alike v hv, h.policy v hv, h.outcome v hv⟩
  | false =>
    rw [run_holding hf]
    have hheld := hv.held t
    have hmem : ∀ u : World ε, (u.letGo t).memory = u.memory := fun u => by cases kind <;> rfl
    have hmsg : ∀ u : World ε, (u.letGo t).message = u.message := fun u => by cases kind <;> rfl
    have hmem' : (v.held t).memory = v.memory := by cases kind <;> rfl
    refine ⟨letGo_held t (h.alike _ hheld), by rw [hmem, ← hmem']; exact h.policy _ hheld, ?_⟩
    rw [← hmem']
    exact (h.outcome _ hheld).imp_left fun ho => ho.congr (hmsg _)

/-- Before something is written inside a container there has to be room on the trail. -/
theorem extended {act : Run ε α} {o : Judged α} (length : Nat) (h : w.Answers act o) :
    w.Answers (extendTrail length >>= fun _ => act) o := by
  refine of_run fun v hv => ?_
  obtain ⟨u, hu, hpolicy, hr | ⟨hg, hr⟩⟩ := run_extendTrail length v
  · rw [run_bind_ok hr]
    have hmu := hv.alike hu
    refine ⟨hu.trans (h.alike u hmu), hpolicy.trans (h.policy u hmu), ?_⟩
    exact (h.outcome u hmu).imp_right fun ⟨hg, he⟩ => ⟨fun hgv => hg (hgv.same hpolicy), he⟩
  · rw [run_bind_error hr]
    exact ⟨hu, hpolicy, .inr ⟨hg, rfl⟩⟩

theorem onTrail {act : Run ε α} {o : Judged α} (h : w.Answers act o) : w.Answers (onTrail act) o := by
  refine of_run fun v hv => ?_
  have hnew := hv.alike (alike_newTrail v)
  have hoff := alike_offTrail (act v.newTrail).2 v.trail
  have hmemory := samePolicy_offTrail (act v.newTrail).2 v.trail
  rw [run_onTrail]
  refine ⟨(alike_newTrail v).trans ((h.alike _ hnew).trans hoff), (h.policy _ hnew).trans hmemory, ?_⟩
  exact (h.outcome _ hnew).imp_left fun ho => ho.congr (message_offTrail _ _)

theorem mapM {f : α → Run ε β} {g : α → β} : ∀ l : List α, (∀ a ∈ l, w.Answers (f a) (.ok (g a))) →
    w.Answers (l.mapM f) (.ok (l.map g))
  | [], _ => by
    rw [List.mapM_nil]
    exact .pure _
  | a :: l, h => by
    rw [List.mapM_cons]
    exact (h a List.mem_cons_self).after ((mapM l fun x hx => h x (List.mem_cons_of_mem _ hx)).after (.pure _))

/-- What comes to a result returns it, unless it is refused memory. -/
theorem returns {act : Run ε α} {a : α} (h : w.Answers act (.ok a)) (hv : w.Mirrors v) :
    (act v).1 = .ok a ∨ ¬ v.memory.Granting ∧ (act v).1 = .error (.raised .memory) := by
  refine (h.outcome v hv).imp_left fun ho => ?_
  generalize act v = out at ho ⊢
  cases ho
  rfl

end World.Answers

/-! ## Writing -/

section
variable (hC : w.Region C) (hown : ∀ x : Value, C x → w.Owns x)
include hC

theorem answers_dictText {write : Value → Run ε Bytes} {text : Value → Bytes}
    (hwrite : ∀ x : Value, C x → w.Answers (write x) (.ok (text x))) {t : TableId .any} (ht : C (.dict t)) :
    w.Answers (dictText write t) (.ok (dictWritten text (w.table t).items)) := by
  unfold dictText
  refine .holding (.readTable fun v hv => ?_)
  rw [hv.items]
  refine (Answers.mapM (g := fun item : Value × Value => text item.1 ++ ascii ": " ++ text item.2) _
    fun item hm => ?_).after (.pure _)
  obtain ⟨hkey, hvalue⟩ := hC.item ht item hm
  exact (hwrite _ hkey).after ((hwrite _ hvalue).after (.pure _))

theorem answers_structText {write : Value → Run ε Bytes} {text : Value → Bytes}
    (hwrite : ∀ x : Value, C x → w.Answers (write x) (.ok (text x))) {s : StructId} (hs : C (.struct s)) :
    w.Answers (structText write s)
      (.ok (structWritten text (w.struct s).ctor (w.table (w.struct s).fields).items)) := by
  have hbody : ∀ head : Bytes, w.Answers (do
      let fields ← (← readTable (w.struct s).fields).items.mapM fun field => do
        return field.1 ++ ascii " = " ++ (← write field.2)
      return head ++ ascii "(" ++ Bytes.joined (ascii ", ") fields ++ ascii ")" : Run ε Bytes)
      (.ok (head ++ ascii "(" ++ Bytes.joined (ascii ", ")
        ((w.table (w.struct s).fields).items.map fun field => field.1 ++ ascii " = " ++ text field.2) ++ ascii ")")) := by
    intro head
    refine .readTable fun v hv => ?_
    rw [hv.items]
    refine (Answers.mapM (g := fun field : Bytes × Value => field.1 ++ ascii " = " ++ text field.2) _
      fun field hm => ?_).after (.pure _)
    exact (hwrite _ (hC.field hs field hm)).after (.pure _)
  unfold structText structWritten
  refine .get fun v hv => ?_
  dsimp only
  rw [hv.struct s]
  split
  · exact .read (fun _ _ => hbody _) fun v => run_pure _ v
  · exact (hwrite _ (hC.ctor hs)).after (hbody _)

include hown

/-- **The text of a value is computed from the world.** There is enough fuel, as the containers that are being written
are different ones. -/
theorem answers_writeAt : ∀ (fuel : Nat) (path : List Value) (x : Value), C x → w.Path path →
    w.containers + 2 ≤ fuel + path.length → w.Answers (writeAt host fuel path x) (.ok (w.text fuel path x))
  | 0, path, x, _, hp, hfuel => by
    have := hp.length_le
    omega
  | fuel + 1, path, x, hx, hp, hfuel => by
    have hdeeper : x.Container → x ∉ path → ∀ y : Value, C y →
        w.Answers (writeAt host fuel (x :: path) y) (.ok (w.text fuel (x :: path) y)) := fun hc hnew y hy =>
      answers_writeAt fuel (x :: path) y hy (hp.cons hc (hown x hx) hnew) (by rw [List.length_cons]; omega)
    unfold writeAt text
    cases x with
    | none | bool | int | float | str => exact .pure _
    | host i => exact False.elim (hC.plain hx)
    | dict t =>
      dsimp only
      split
      · exact .pure _
      · rename_i hnew
        exact .extended _ (answers_dictText hC (hdeeper trivial hnew) hx)
    | struct s =>
      dsimp only
      split
      · exact .pure _
      · rename_i hnew
        exact .extended _ (answers_structText hC (hdeeper trivial hnew) hx)

/-- **Writing a value comes to its text**, if memory is granted. -/
theorem answers_display {x : Value} (hx : C x) : w.Answers (display host x) (.ok (w.shown x)) := by
  refine .onTrail (.get fun v hv => ?_)
  rw [hv.containers]
  exact answers_writeAt hC hown _ [] x hx (.nil w) (Nat.le_refl _)

end

/-! ## Hashing and looking up -/

theorem answers_hashFields {hash : Value → Run ε UInt32} {of : Value → Judged UInt32} :
    ∀ (fields : List (Bytes × Value)) (s : StructHash), (∀ field ∈ fields, w.Answers (hash field.2) (of field.2)) →
      w.Answers (hashFields hash fields s) (digestFields of fields s)
  | [], _, _ => .pure _
  | (name, value) :: rest, s, h => by
    refine (h (name, value) List.mem_cons_self).bind fun a _ => ?_
    exact answers_hashFields rest _ fun field hm => h field (List.mem_cons_of_mem _ hm)

theorem answers_hashAt : ∀ (fuel : Nat) (x : Value), ¬ w.Hosted x → w.Answers (hashAt host fuel x) (w.digest fuel x)
  | 0, _, _ => .exhausted
  | fuel + 1, x, hx => by
    cases x with
    | none | bool | int | float | str => exact .pure _
    | host i => exact absurd (.host i) hx
    | dict t => exact .get fun _ _ => .raise _
    | struct s =>
      refine .get fun v hv => ?_
      rw [hv.struct s, hv.items]
      exact answers_hashFields _ _ fun field hm => answers_hashAt fuel field.2 fun h => hx (.field hm h)

theorem answers_hashValue {x : Value} (hx : ¬ w.Hosted x) :
    w.Answers (hashValue host x) (w.digest (w.structs.size + 2) x) := by
  refine .get fun v hv => ?_
  rw [hv.structs]
  exact answers_hashAt _ x hx

theorem answers_firstEqual {κ : Type} {equal : κ → κ → Run ε Bool} {key : κ} {of : κ → Judged Bool} :
    ∀ cands : List (Nat × κ), (∀ c ∈ cands, w.Answers (equal key c.2) (of c.2)) →
      w.Answers (firstEqual equal key cands) (firstJudged of cands)
  | [], _ => .pure _
  | (slot, k) :: rest, h => by
    refine (h (slot, k) List.mem_cons_self).bind fun verdict _ => ?_
    cases verdict with
    | true => exact .pure _
    | false => exact answers_firstEqual rest fun c hc => h c (List.mem_cons_of_mem _ hc)

theorem answers_scan {keying : Keying ε kind.Key} {key : kind.Key} {of : kind.Key → Judged Bool} (hash : UInt32)
    (h : ∀ c ∈ (w.table t).candidates hash, w.Answers (keying.equal key c.2) (of c.2)) :
    w.Answers (scan keying t key hash) (firstJudged of ((w.table t).candidates hash)) := by
  refine .readTable fun v hv => ?_
  dsimp only
  rw [hv.candidates]
  exact .holding (answers_firstEqual _ h)

theorem answers_lookup {keying : Keying ε (KeyKind.Key .any)} {key : Value} {hash : Value → Judged UInt32}
    {of : Value → Value → Judged Bool} (t : TableId .any) (hh : w.Answers (keying.hash key) (hash key))
    (h : ∀ a, hash key = .ok a → ∀ c ∈ (w.table t).candidates (storedHash a),
      w.Answers (keying.equal key c.2) (of key c.2)) :
    w.Answers (lookup keying t key) (soughtIn (w.table t) hash of key) := by
  unfold lookup soughtIn findSlot
  rw [bind_assoc]
  refine hh.bind fun a ha => (answers_scan _ (h a ha)).bind fun found _ => ?_
  cases found with
  | none => exact .pure _
  | some i =>
    refine .readTable fun v hv => ?_
    rw [hv.slot]
    exact .pure _

/-! ## Comparing -/

theorem answers_itemsEqual {equal : Value → Value → Run ε Bool} {of : Value → Value → Judged Bool}
    {get? : Value → Run ε (Option Value)} {find : Value → Judged (Option Value)} : ∀ items : List (Value × Value),
      (∀ item ∈ items, w.Answers (get? item.1) (find item.1) ∧
        ∀ y, find item.1 = .ok (some y) → w.Answers (equal item.2 y) (of item.2 y)) →
      w.Answers (itemsEqual equal get? items) (itemsJudged of find items)
  | [], _ => .pure _
  | (key, x) :: rest, h => by
    obtain ⟨hget, heq⟩ := h (key, x) List.mem_cons_self
    refine hget.bind fun found hfound => ?_
    cases found with
    | none => exact .pure _
    | some y =>
      refine (heq y hfound).bind fun verdict _ => ?_
      cases verdict with
      | true => exact answers_itemsEqual rest fun item hm => h item (List.mem_cons_of_mem _ hm)
      | false => exact .pure _

theorem answers_fieldsEqual {equal : Value → Value → Run ε Bool} {of : Value → Value → Judged Bool} :
    ∀ xs ys : List (Bytes × Value), (∀ f ∈ xs, ∀ g ∈ ys, w.Answers (equal f.2 g.2) (of f.2 g.2)) →
      w.Answers (fieldsEqual equal xs ys) (fieldsJudged of xs ys)
  | [], _, _ => .pure _
  | _ :: _, [], _ => .pure _
  | (m, x) :: xs, (n, y) :: ys, h => by
    unfold fieldsEqual fieldsJudged
    split
    · exact .pure _
    · refine (h (m, x) List.mem_cons_self (n, y) List.mem_cons_self).bind fun verdict _ => ?_
      cases verdict with
      | true =>
        exact answers_fieldsEqual xs ys fun f hf g hg => h f (List.mem_cons_of_mem _ hf) g (List.mem_cons_of_mem _ hg)
      | false => exact .pure _

section
variable (hC : w.Region C) (hown : ∀ x : Value, C x → w.Owns x)
include hC

theorem answers_dictsEqual {keying : Keying ε Value} {equal : Value → Value → Run ε Bool} {hash : Value → Judged UInt32}
    {fully below : Value → Value → Judged Bool} {a b : TableId .any} (ha : C (.dict a)) (hb : C (.dict b))
    (hhash : ∀ key : Value, C key → w.Answers (keying.hash key) (hash key))
    (hfully : ∀ x y : Value, C x → C y → w.Answers (keying.equal x y) (fully x y))
    (hbelow : ∀ x y : Value, C x → C y → w.Answers (equal x y) (below x y)) :
    w.Answers (dictsEqual keying equal a b) (if (w.table a).length != (w.table b).length then pure false
      else itemsJudged below (soughtIn (w.table b) hash fully) (w.table a).items) := by
  refine .readTable fun v hv => .readTable fun u hu => ?_
  rw [hv.length, hu.length]
  split
  · exact .pure _
  · refine .holding (.readTable fun v hv => ?_)
    rw [hv.items]
    refine answers_itemsEqual _ fun item hm => ?_
    obtain ⟨hkey, hvalue⟩ := hC.item ha item hm
    refine ⟨answers_lookup b (hhash _ hkey) fun _ _ c hc => hfully _ _ hkey (hC.candidate hb hc), fun y hy => ?_⟩
    obtain ⟨k, hk⟩ := item_of_soughtIn (hC.tables b) hy
    exact hbelow _ y hvalue (hC.item hb _ hk).2

include hown

/-- A comparison of constructors that fails quotes them, and what went wrong. -/
theorem answers_sameConstructor {equal : Value → Value → Run ε Bool} {of : Value → Value → Judged Bool} {x y : Value}
    (hx : C x) (hy : C y) (h : w.Answers (equal x y) (of x y)) (use : ConstructorUse) :
    w.Answers (sameConstructor equal host use x y) (w.constructorsJudged of use x y) := by
  -- the report on an error with this status and message
  have hreport : ∀ (status : Status) (inner : Bytes), w.Answers (do
      let left ← display host x
      let right ← display host y
      ValueCore.raise (.constructorComparison use status left right inner) : Run ε Bool)
      (throw (.fault (.constructorComparison use status (w.shown x) (w.shown y) inner))) := by
    intro status inner
    exact (answers_display hC hown hx).after ((answers_display hC hown hy).after (.raise _))
  refine Answers.of_run fun v hv => ?_
  have halike := h.alike v hv
  have hpolicy := h.policy v hv
  have hout := h.outcome v hv
  have hfailed : ∀ {status : Status} {u : World ε}, equal x y v = (.error (.raised status), u) →
      sameConstructor equal host use x y v = (do
        let left ← display host x
        let right ← display host y
        ValueCore.raise (.constructorComparison use status left right u.message) : Run ε Bool) u := by
    intro status u hr
    have hp : protect (equal x y) v = (.ok (.error status), u) := by
      unfold protect
      rw [hr]
    unfold sameConstructor
    rw [run_bind_ok hp]
    exact run_bind_ok (run_get u) _
  unfold constructorsJudged
  cases hr : equal x y v with
  | mk r u =>
    rw [hr] at halike hpolicy hout
    have hmu := hv.alike halike
    generalize of x y = o at hout ⊢
    rcases hout with ho | ⟨hg, he⟩
    · cases ho with
      | returned b =>
        rw [run_sameConstructor hr use]
        exact ⟨halike.trans ⟨rfl, rfl, rfl, rfl⟩, hpolicy, .inl (.returned b _)⟩
      | raised f hm =>
        have hreported := hreport f.status u.message
        rw [hfailed hr]
        refine ⟨halike.trans (hreported.alike u hmu), hpolicy.trans (hreported.policy u hmu), ?_⟩
        refine (hreported.outcome u hmu).imp (fun hdone => ?_) fun ⟨hg, he⟩ => ⟨fun hgv => hg (hgv.same hpolicy), he⟩
        rw [hm] at hdone ⊢
        exact hdone
      | exhausted =>
        have hp : protect (equal x y) v = (.error .exhausted, u) := by
          unfold protect
          rw [hr]
        have hrun : sameConstructor equal host use x y v = (.error .exhausted, u) := run_bind_error hp _
        rw [hrun]
        exact ⟨halike, hpolicy, .inl (.exhausted u)⟩
    · -- for lack of memory the report is one on that, or there is none
      cases he
      have hreported := hreport .memory u.message
      rw [hfailed hr]
      refine ⟨halike.trans (hreported.alike u hmu), hpolicy.trans (hreported.policy u hmu), .inr ⟨hg, ?_⟩⟩
      rcases hreported.outcome u hmu with hdone | ⟨_, he⟩
      · generalize hd : ((do
          let left ← display host x
          let right ← display host y
          ValueCore.raise (.constructorComparison use .memory left right u.message) : Run ε Bool) u) = done at hdone ⊢
        cases hdone
        rfl
      · exact he

theorem answers_structsEqual {equalFully equal : Value → Value → Run ε Bool} {fully below : Value → Value → Judged Bool}
    {a b : StructId} (ha : C (.struct a)) (hb : C (.struct b))
    (hfully : ∀ x y : Value, C x → C y → w.Answers (equalFully x y) (fully x y))
    (hbelow : ∀ x y : Value, C x → C y → w.Answers (equal x y) (below x y)) :
    w.Answers (structsEqual equalFully equal host a b)
      (if (w.table (w.struct a).fields).length != (w.table (w.struct b).fields).length then pure false
      else w.constructorsJudged fully .equality (w.struct a).ctor (w.struct b).ctor >>= fun verdict =>
        if verdict then fieldsJudged below (w.table (w.struct a).fields).items (w.table (w.struct b).fields).items
        else pure false) := by
  refine .get fun v hv => ?_
  dsimp only
  rw [hv.struct a, hv.struct b, hv.length, hv.length]
  split
  · exact .pure _
  · have hctor := hfully _ _ (hC.ctor ha) (hC.ctor hb)
    refine (answers_sameConstructor hC hown (hC.ctor ha) (hC.ctor hb) hctor .equality).bind fun verdict _ => ?_
    cases verdict with
    | false => exact .pure _
    | true =>
      refine .get fun u hu => ?_
      rw [hu.items, hu.items]
      exact answers_fieldsEqual _ _ fun f hf g hg => hbelow _ _ (hC.field ha f hf) (hC.field hb g hg)

theorem answers_equalAt : ∀ (fuel : Nat) (depth : Int) (x y : Value), C x → C y →
    w.Answers (equalAt host fuel depth x y) (w.judged fuel depth x y)
  | 0, _, _, _, _, _ => .exhausted
  | fuel + 1, depth, x, y, hx, hy => by
    have hfully := fun x y hx hy => answers_equalAt fuel fullBudget x y hx hy
    have hbelow := fun x y hx hy => answers_equalAt fuel (depth - 1) x y hx hy
    by_cases hd : depth < 1
    · rw [judged_spent hd]
      refine Answers.of_run fun v _ => ?_
      rw [equalAt_spent hd]
      exact ⟨⟨rfl, rfl, rfl, rfl⟩, .refl v.memory, .inl (.raised _ rfl)⟩
    · rcases pair_cases x y with ⟨a, b, rfl, rfl⟩ | ⟨a, b, rfl, rfl⟩ | ⟨a, b, rfl, rfl⟩ | h
      · rw [judged_dicts hd, equalAt_dicts hd]
        split
        · exact .pure _
        · exact answers_dictsEqual hC hx hy (fun key hk => answers_hashValue (hC.not_hosted hk)) hfully hbelow
      · rw [judged_structs hd, equalAt_structs hd]
        exact answers_structsEqual hC hown hx hy hfully hbelow
      · exact False.elim (hC.plain hx)
      · rw [judged_apart hd h]
        refine Answers.of_run fun v _ => ?_
        rw [run_equalAt_apart h fuel (by omega) v]
        exact ⟨.refl v, .refl v.memory, .inl (.returned _ v)⟩

/-- **What a comparison comes to is computed from the world**, whether it is a verdict or an error. -/
theorem answers_equalWithin {x y : Value} (hx : C x) (hy : C y) (depth : Int) :
    w.Answers (equalWithin host depth x y) (w.judged (comparisonFuel w depth) depth x y) := by
  refine .get fun v hv => ?_
  rw [show comparisonFuel v depth = comparisonFuel w depth by simp only [comparisonFuel, hv.structs]]
  exact answers_equalAt hC hown _ depth x y hx hy

/-- Both ways to compute a comparison come to the same, as what is computed is what happens. -/
theorem judged_toOption (host : Host ε) {x y : Value} (hx : C x) (hy : C y) (depth : Int) :
    (w.judged (comparisonFuel w depth) depth x y).toOption = w.verdict (comparisonFuel w depth) depth x y := by
  have hv : w.Mirrors (w.allocating true) := (Mirrors.refl w).alike (alike_allocating w true)
  have hyields : w.Yields (equalWithin host depth x y) (w.verdict (comparisonFuel w depth) depth x y) :=
    yields_equalWithin hC hx (fun _ => hy) depth
  have hanswers : w.Answers (equalWithin host depth x y) (w.judged (comparisonFuel w depth) depth x y) :=
    answers_equalWithin hC hown hx hy depth
  rw [← hyields.answer _ hv.toSameStores]
  rcases hanswers.outcome _ hv with ho | ⟨hg, _⟩
  · generalize w.judged (comparisonFuel w depth) depth x y = o at ho ⊢
    generalize equalWithin host depth x y (w.allocating true) = out at ho ⊢
    cases ho <;> rfl
  · exact absurd (granting_allocating w) hg

end

end ValueCore
