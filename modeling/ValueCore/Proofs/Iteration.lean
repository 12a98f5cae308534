import Mathlib.Data.List.Forall2
import ValueCore.Proofs.Cursors.Shelf
import ValueCore.Proofs.Reentrancy

/-!
# What cursors tell

The log of a program with cursors also says what a cursor was asked and what it answered: `stories` reads off it, for every
cursor, the items that its table had when the first cursor was started that it comes from, and the answers ever since, also
those that were given before a move. An answer counts as long as the cursor owns a hold, or if the table was frozen from the
beginning.

The answers are the items of the beginning, one after the other, and then that there are no more (`cursors_tell_snapshots`).
The invariant is that a cursor stands where its story has come to, in a table with the same live slots as at the beginning
(`World.Abreast`). Nothing can be changed there meanwhile: a table that is held is no more free to change than a frozen one,
whoever tries, and in the middle of whatever operation.
-/

namespace ValueCore

open World

variable {σ : Type} {I : Inventory σ}

/-! ## Stories -/

/-- What became of a cursor, and of those it was moved from. -/
structure Story where
  /-- Was the table frozen at the beginning? -/
  frozen : Bool
  /-- The items of the table at the beginning. -/
  items : List AnyItem
  /-- The answers that count. -/
  answers : List (Option (Option AnyItem))

/-- One more answer. -/
def Story.heard (s : Story) (answer : Option (Option AnyItem)) : Story := { s with answers := s.answers ++ [answer] }

/-- The stories of all cursors, by their numbers. -/
def stories : List CursorEvent → List Story
  | [] => []
  | .started _ frozen items :: log => stories log ++ [⟨frozen, items, []⟩]
  | .moved i :: log => stories log ++ (stories log)[i]?.toList
  | .released _ :: log => stories log
  | .answered i answer :: log =>
    (stories log).modify i fun s => if s.frozen || ((owners log)[i]?.join).isSome then s.heard answer else s

/-- The answers are the items in order, and then that there are no more. -/
def Story.Faithful (s : Story) : Prop :=
  ∀ (k : Nat) (answer : Option (Option AnyItem)), s.answers[k]? = some answer → answer = (s.items[k]?).map some

theorem Story.Faithful.heard {s : Story} (h : s.Faithful) {answer : Option (Option AnyItem)}
    (ha : answer = (s.items[s.answers.length]?).map some) : (s.heard answer).Faithful := by
  intro k a hk
  unfold Story.heard at hk
  rw [List.getElem?_append] at hk
  split at hk
  · exact h k a hk
  · rename_i hlen
    obtain ⟨hzero, rfl⟩ : k - s.answers.length = 0 ∧ answer = a := by simpa [List.getElem?_singleton] using hk
    obtain rfl : k = s.answers.length := by omega
    exact ha

/-! ## Steps of a cursor -/

/-- A list of which nothing is left out, by position. -/
theorem getElem?_filterMap_of_isSome {α β : Type} {f : α → Option β} : ∀ {l : List α}, (∀ x ∈ l, (f x).isSome) →
    ∀ k : Nat, (l.filterMap f)[k]? = l[k]?.bind f
  | [], _, _ => rfl
  | x :: l, h, k => by
    obtain ⟨y, hy⟩ := Option.isSome_iff_exists.1 (h x List.mem_cons_self)
    rw [List.filterMap_cons_some hy]
    cases k with
    | zero => exact hy.symm
    | succ k => exact getElem?_filterMap_of_isSome (fun z hz => h z (List.mem_cons_of_mem _ hz)) k

/-- **From one item to the next.** A cursor in the `k`-th live slot finds the `k`-th item there, and comes to the slot after
it; behind the last one there is nothing. -/
theorem Table.Sound.ahead {kind : KeyKind} {T : Table kind.Key} (h : T.Sound) {c : Cursor kind} {k : Nat}
    (hc : c.position = T.order[k]?) : c.ahead T = ((T.items[k]?).map some, T.order[k + 1]?) := by
  have hitem : T.items[k]? = T.order[k]?.bind fun i => (T.slot i).map fun e => (e.key, e.value) := by
    rw [Table.items_eq_filterMap]
    refine getElem?_filterMap_of_isSome (fun i hi => ?_) k
    obtain ⟨e, he⟩ := h.slot_of_mem hi
    rw [he]
    rfl
  unfold Cursor.ahead
  rw [hc, hitem]
  cases hk : T.order[k]? with
  | none =>
    have hlen := List.getElem?_eq_none_iff.1 hk
    rw [List.getElem?_eq_none (Nat.le_succ_of_le hlen)]
    rfl
  | some i =>
    obtain ⟨e, he⟩ := h.slot_of_mem (List.mem_of_getElem? hk)
    obtain ⟨hlt, hget⟩ := List.getElem?_eq_some_iff.1 hk
    have hsplit : T.order = T.order.take k ++ i :: T.order.drop (k + 1) := by
      rw [← hget, List.getElem_cons_drop, List.take_append_drop]
    have hlinked : Table.Linked T none (T.order.take k ++ i :: T.order.drop (k + 1)) none := hsplit ▸ h.linked
    have hlinks := Table.linked_at hlinked
    obtain ⟨e', he', _, hafter⟩ := Table.links_eq_some.1 hlinks
    obtain rfl : e = e' := Option.some.inj (he.symm.trans he')
    simp [he, hafter]

/-! ## The invariant -/

/-- Tables that are there stay, with the same live slots, and frozen if they were. -/
structure World.Rests {ε : Type} (w w' : World ε) : Prop where
  has : ∀ {kind : KeyKind} (t : TableId kind), w.Has t → w'.Has t
  frozen : ∀ {kind : KeyKind} (t : TableId kind), w.Has t → (w.table t).frozen = true → (w'.table t).frozen = true
  kept : ∀ {kind : KeyKind} (t : TableId kind), w.Has t → Table.Kept (w.table t) (w'.table t)

/-- A cursor stands where its story has come to. -/
structure World.Abreast (w : World (Shelf σ)) {kind : KeyKind} (c : Cursor kind) (s : Story) : Prop where
  has : w.Has c.table
  frozen : s.frozen = true → (w.table c.table).frozen = true
  items : (w.table c.table).items.map (⟨kind, ·⟩) = s.items
  position : c.position = (w.table c.table).order[s.answers.length]?

/-- What is known of a cursor, unless it was destroyed, and of its story. -/
structure World.Tells (w : World (Shelf σ)) (c : Option AnyCursor) (s : Story) : Prop where
  faithful : s.Faithful
  abreast : ∀ {kind : KeyKind} (c' : Cursor kind), c = some ⟨kind, c'⟩ → s.frozen = true ∨ c'.holding = true →
    w.Abreast c' s

/-- The flags agree with the log, the stories are faithful, and every cursor stands where its story has come to if its
answers count. -/
structure World.Narrated (w : World (Shelf σ)) : Prop where
  tallied : w.Tallied
  tells : List.Forall₂ w.Tells w.env.cursors (stories w.env.log)

/-! ## Steps of the world -/

section
variable {ε : Type} {w w' : World ε} {kind : KeyKind}

theorem World.rests_refl : w.Rests w := ⟨fun _ ht => ht, fun _ _ hf => hf, fun _ _ => (Table.SameStore.refl _).kept⟩

theorem World.rests_held {t : TableId kind} (ht : w.Has t) : w.Rests (w.held t) :=
  ⟨fun t' ht' => (has_modifyTable t _ t').2 ht', fun t' _ hf => (frozen_held t ht t').trans hf,
    fun t' _ => (same_held t ht t').kept⟩

theorem World.rests_letGo {t : TableId kind} (ht : w.Has t) : w.Rests (w.letGo t) :=
  ⟨fun t' ht' => (has_modifyTable t _ t').2 ht', fun t' _ hf => (frozen_letGo t ht t').trans hf,
    fun t' _ => (same_letGo t ht t').kept⟩

theorem World.Rests.env (h : w.Rests w') (e : ε) : w.Rests { w' with env := e } := by
  have htable : ∀ {kind : KeyKind} (t : TableId kind), ({ w' with env := e } : World ε).table t = w'.table t :=
    fun t => table_congr rfl rfl t
  refine ⟨fun t ht => (has_congr rfl rfl t).2 (h.has t ht), fun t ht hf => ?_, fun t ht => ?_⟩
  · exact htable t ▸ h.frozen t ht hf
  · exact htable t ▸ h.kept t ht

end

section
variable {w w' : World (Shelf σ)} {kind : KeyKind} {c : Cursor kind} {s : Story}

theorem World.Abreast.rests (ha : w.Abreast c s) (h : w.Rests w') : w'.Abreast c s := by
  have hk := h.kept c.table ha.has
  exact ⟨h.has _ ha.has, fun hs => h.frozen _ ha.has (ha.frozen hs), hk.items_eq ▸ ha.items, hk.1 ▸ ha.position⟩

/-- A cursor that was released stays where it is. -/
theorem World.Abreast.released (ha : w.Abreast c s) : w.Abreast { c with holding := false } s :=
  ⟨ha.has, ha.frozen, ha.items, ha.position⟩

theorem World.Tells.rests {x : Option AnyCursor} (ha : w.Tells x s) (h : w.Rests w') : w'.Tells x s :=
  ⟨ha.faithful, fun c hc hcounts => (ha.abreast c hc hcounts).rests h⟩

theorem World.Tells.released (ha : w.Tells (some ⟨kind, c⟩) s) : w.Tells (some ⟨kind, { c with holding := false }⟩) s := by
  refine ⟨ha.faithful, fun c' hc hcounts => ?_⟩
  cases hc
  exact (ha.abreast c rfl (hcounts.imp_right fun h => by cases h)).released

theorem World.Tells.destroyed {x : Option AnyCursor} (ha : w.Tells x s) : w.Tells none s :=
  ⟨ha.faithful, fun _ hc => by cases hc⟩

/-- A step of the core leaves the table alone. -/
theorem World.Abreast.step (ha : w.Abreast c s) (h : w.Sound (shelved I)) (hs : Step (shelved I) 0 w w')
    (hcounts : s.frozen = true ∨ 0 < (w.table c.table).holds) : w'.Abreast c s := by
  obtain ⟨hfrozen, hsteady, hstore⟩ := hs.table h c.table ha.has
  have hkept : Table.Kept (w.table c.table) (w'.table c.table) := by
    rcases hcounts with hf | hh
    · exact (hsteady (ha.frozen hf)).kept
    · rcases hstore with hsame | ⟨_, hzero⟩
      · exact hsame.kept
      · omega
  exact ⟨hs.within.has _ ha.has, fun hf => hfrozen (ha.frozen hf), hkept.items_eq ▸ ha.items, hkept.1 ▸ ha.position⟩

/-- **What a cursor that is abreast answers**, and it stays abreast. -/
theorem World.Abreast.next (ha : w.Abreast c s) (h : w.Sound (shelved I)) :
    (c.ahead (w.table c.table)).1.map (·.map (⟨kind, ·⟩)) = (s.items[s.answers.length]?).map some ∧
    ∀ answer, w.Abreast { c with position := (c.ahead (w.table c.table)).2 } (s.heard answer) := by
  rw [(h.tables c.table).ahead ha.position, ← ha.items]
  refine ⟨?_, fun answer => ⟨ha.has, ha.frozen, ha.items, ?_⟩⟩
  · rw [List.getElem?_map]
    cases (w.table c.table).items[s.answers.length]? <;> rfl
  · show _ = (w.table c.table).order[(s.answers ++ [answer]).length]?
    rw [List.length_append]
    rfl

end

/-- What is related to an element of a list may be changed together with it. -/
theorem forall₂_modify {α β : Type} {R : α → β → Prop} {l : List α} {m : List β} (h : List.Forall₂ R l m) {i : Nat} {x : α}
    (hi : l[i]? = some x) :
    ∃ y, m[i]? = some y ∧ R x y ∧ ∀ x' (f : β → β), R x' (f y) → List.Forall₂ R (l.set i x') (m.modify i f) := by
  induction h generalizing i with
  | nil => simp at hi
  | @cons a b l m hab hrest ih =>
    cases i with
    | zero =>
      obtain rfl : a = x := Option.some.inj hi
      exact ⟨b, rfl, hab, fun x' f hf => .cons hf hrest⟩
    | succ i =>
      obtain ⟨y, hy, hxy, hset⟩ := ih (i := i) hi
      exact ⟨y, hy, hxy, fun x' f hf => .cons hab (hset x' f hf)⟩

section
variable {w v : World (Shelf σ)} {kind : KeyKind}

theorem rests_cursorStart {t : TableId kind} (ht : w.Has t) : w.Rests (Cursor.start t w).2 := by
  rw [run_cursorStart]
  dsimp only
  split
  · exact rests_refl
  · exact rests_held ht

theorem rests_cursorFinish (h : w.Sound (shelved I)) {i : Nat} {c : Cursor kind}
    (hc : w.env.cursor? i = some ⟨kind, c⟩) : w.Rests (c.finish w).2 := by
  rw [run_cursorFinish]
  cases hh : c.holding with
  | false => exact rests_refl
  | true =>
    refine rests_letGo (by_contra fun ht => ?_)
    have hpos := h.held_of_cursor (List.mem_of_getElem? (Shelf.getElem?_cursors hc)) hh
    rw [holds_of_not_has _ ht] at hpos
    exact Nat.lt_irrefl 0 hpos

/-- The log says of a cursor that it owns a hold just if its flag is set. -/
theorem World.Tallied.owner (h : w.Tallied) {i : Nat} {c : Cursor kind} (hc : w.env.cursor? i = some ⟨kind, c⟩) :
    ((owners w.env.log)[i]?.join).isSome = c.holding := by
  rw [h, Shelf.getElem?_held hc, Option.join_some, AnyCursor.held]
  cases c.holding <;> rfl

/-- A cursor that is new. -/
theorem World.Sound.tells_start (h : w.Sound (shelved I)) {t : TableId kind} (ht : w.Has t) :
    w.Tells (some ⟨kind, ⟨t, (w.table t).first, !(w.table t).frozen⟩⟩)
      ⟨(w.table t).frozen, (w.table t).items.map (⟨kind, ·⟩), []⟩ := by
  refine ⟨fun k answer hk => by simp at hk, fun c' hc _ => ?_⟩
  cases hc
  exact ⟨ht, id, rfl, (h.tables t).first_eq.trans List.head?_eq_getElem?⟩

/-- A cursor that has answered. -/
theorem World.Tells.next {c : Cursor kind} {s : Story} (ha : w.Tells (some ⟨kind, c⟩) s) (h : w.Sound (shelved I)) :
    w.Tells (some ⟨kind, { c with position := (c.ahead (w.table c.table)).2 }⟩)
      (if s.frozen || c.holding then s.heard ((c.ahead (w.table c.table)).1.map (·.map (⟨kind, ·⟩))) else s) := by
  cases hcounts : s.frozen || c.holding with
  | false =>
    refine ⟨ha.faithful, fun c' hc h' => ?_⟩
    cases hc
    have hcounts' : ¬ (s.frozen = true ∨ c.holding = true) := by simpa using hcounts
    exact absurd h' hcounts'
  | true =>
    obtain ⟨hanswer, hnext⟩ := (ha.abreast c rfl (by simpa using hcounts)).next h
    refine ⟨ha.faithful.heard hanswer, fun c' hc _ => ?_⟩
    cases hc
    exact hnext _

/-- The story of a cursor, and what becomes of the two. -/
theorem World.Narrated.story (hn : w.Narrated) {i : Nat} {c : AnyCursor} (hc : w.env.cursor? i = some c) :
    ∃ s, (stories w.env.log)[i]? = some s ∧ w.Tells (some c) s ∧
      (∀ x, w.Tells x s → List.Forall₂ w.Tells (w.env.put i x).cursors (stories w.env.log)) ∧
      ∀ x f, w.Tells x (f s) → List.Forall₂ w.Tells (w.env.put i x).cursors ((stories w.env.log).modify i f) := by
  obtain ⟨s, hs, htells, hset⟩ := forall₂_modify hn.tells (Shelf.getElem?_cursors hc)
  refine ⟨s, hs, htells, fun x hx => ?_, hset⟩
  have hput := hset x id hx
  rwa [List.modify_id] at hput

/-- **Cursor calls keep the invariant.** -/
theorem World.Narrated.cursor (hn : w.Narrated) (h : w.Sound (shelved I)) (call : CursorCall) (hv : call.Valid w) :
    (call.run w).2.Narrated := by
  refine ⟨Tended.cursor (I := I) call h hv hn.tallied, ?_⟩
  have heffect := call.effect w
  generalize (call.run w).2 = v at heffect ⊢
  cases heffect with
  | absent => exact hn.tells
  | @start kind t =>
    have hnew := List.rel_append hn.tells (.cons (h.tells_start hv) .nil)
    exact hnew.imp fun _ _ htells => htells.rests ((rests_cursorStart hv).env _)
  | @next kind i c hc =>
    obtain ⟨s, _, htells, _, hboth⟩ := hn.story hc
    refine (hboth _ _ ?_).imp fun _ _ htells => htells.rests (rests_refl.env _)
    show w.Tells _ (if s.frozen || ((owners w.env.log)[i]?.join).isSome then s.heard _ else s)
    rw [hn.tallied.owner hc]
    exact htells.next h
  | @move kind i c hc =>
    obtain ⟨s, hs, htells, hput, _⟩ := hn.story hc
    have hboth := List.rel_append (hput _ htells.released) (.cons htells .nil)
    show List.Forall₂ _ _ (stories w.env.log ++ (stories w.env.log)[i]?.toList)
    rw [hs]
    exact hboth.imp fun _ _ htells => htells.rests (rests_refl.env _)
  | @finish kind i c hc =>
    obtain ⟨s, _, htells, hput, _⟩ := hn.story hc
    exact (hput _ htells.released).imp fun _ _ htells => htells.rests ((rests_cursorFinish h hc).env _)
  | @destroy kind i c hc =>
    obtain ⟨s, _, htells, hput, _⟩ := hn.story hc
    exact (hput _ htells.destroyed).imp fun _ _ htells => htells.rests ((rests_cursorFinish h hc).env _)

/-- Nothing happens to the cursors and to the log. -/
theorem World.Narrated.rests (hn : w.Narrated) (h : w.Rests v) (hcursors : v.env.cursors = w.env.cursors)
    (hlog : v.env.log = w.env.log) : v.Narrated := by
  refine ⟨?_, ?_⟩
  · have htallied := hn.tallied
    unfold Tallied Shelf.held at *
    rwa [hcursors, hlog]
  · rw [hcursors, hlog]
    exact hn.tells.imp fun _ _ htells => htells.rests h

instance : Tended I (World.Narrated (σ := σ)) where
  step {w w'} h hs henv hn := by
    refine ⟨Carried.step (J := World.Tallied) h hs henv hn.tallied, ?_⟩
    have hheld : ∀ x ∈ w.env.cursors, ∀ {kind : KeyKind} (c : Cursor kind), x = some ⟨kind, c⟩ → c.holding = true →
        0 < (w.table c.table).holds := fun x hx _ c hc hh => h.held_of_cursor (hc ▸ hx) hh
    rw [henv]
    refine ((List.forall₂_and_left _ _).2 ⟨hheld, hn.tells⟩).imp fun x s htells => ?_
    exact ⟨htells.2.faithful, fun c hc hcounts =>
      (htells.2.abreast c hc hcounts).step h hs (hcounts.imp_right fun hh => htells.1 c hc hh)⟩
  held t ht hn := hn.rests (rests_held ht) (congrArg _ (env_modifyTable t _)) (congrArg _ (env_modifyTable t _))
  letGo t ht hn := hn.rests (rests_letGo ht) (congrArg _ (env_modifyTable t _)) (congrArg _ (env_modifyTable t _))
  aside user hn := hn.rests (rests_refl.env _) rfl rfl
  cursor call h hv hn := hn.cursor h call hv

theorem Played.narrated (hp : Played I w) : w.Narrated :=
  hp.keeps fun w₀ hcursors hlog => by
    refine ⟨?_, ?_⟩
    · rw [Tallied, hlog, Shelf.held, hcursors]
      rfl
    · rw [hcursors, hlog]
      exact .nil

theorem World.Narrated.faithful (hn : w.Narrated) : ∀ s ∈ stories w.env.log, s.Faithful := by
  have hflip : List.Forall₂ (fun s x => s.Faithful ∧ w.Tells x s) (stories w.env.log) w.env.cursors :=
    List.Forall₂.flip (hn.tells.imp fun _ _ htells => ⟨htells.faithful, htells⟩)
  exact ((List.forall₂_and_left _ _).1 hflip).1

/-! ## Snapshots -/

/-- **Cursors tell snapshots.** In every world that a program with cursors comes to:

* the answers of every cursor that count are the items of the beginning in order, and then that there are no more;
* a cursor whose answers count does answer with what is next of these, and leaves the world alone.
-/
theorem cursors_tell_snapshots (hp : Played I w) :
    (∀ s ∈ stories w.env.log, s.Faithful) ∧
    ∀ {kind : KeyKind} (i : Nat) (c : Cursor kind) (s : Story), w.env.cursor? i = some ⟨kind, c⟩ →
      (stories w.env.log)[i]? = some s → s.frozen = true ∨ c.holding = true →
      (w.table c.table).items.map (⟨kind, ·⟩) = s.items ∧
      ∃ answer c', c.next w = (.ok (answer, c'), w) ∧
        answer.map (·.map (⟨kind, ·⟩)) = (s.items[s.answers.length]?).map some := by
  have hn := hp.narrated
  refine ⟨hn.faithful, fun {kind} i c s hc hs hcounts => ?_⟩
  obtain ⟨s', hs', htells, _⟩ := hn.story hc
  obtain rfl : s' = s := Option.some.inj (hs'.symm.trans hs)
  have habreast := htells.abreast c rfl hcounts
  exact ⟨habreast.items, _, _, run_cursorNext c w, (habreast.next hp.sound).1⟩

end

/-- A host whose values collide, and whose comparisons try to clear the first table. -/
def meddling : Host (Shelf Unit) where
  typeName _ _ := ascii "meddling"
  sameClass _ _ _ := true
  display _ := pure (ascii "meddling")
  hash _ := pure 7
  equal a b _ := fun w => (pure (decide (a = b)) : Run (Shelf Unit) Bool)
    (if (@Operation.clear .any ⟨0⟩).Valid w then ((@Operation.clear .any ⟨0⟩).run mute w).2 else w)
  freeze _ := pure ()

theorem meddling_playful : Playful .nothing meddling := by
  refine .intro (· = mute) (fun _ hh => hh ▸ mute_playful) (fun _ _ _ => .refl) (fun _ _ _ => .refl) (fun w _ _ _ _ => ?_)
    fun _ _ _ => .refl
  show Plays .nothing (· = mute) w (if _ then _ else _)
  split
  · rename_i hv
    exact .call mute _ .refl rfl hv
  · exact .refl

/-- A cursor on a table with two items is moved between its answers. Meanwhile there are attempts to change the table, one
of them by a comparison, and it is frozen. Another cursor is started then, finished and moved. -/
def interrupted : List (Operation ⊕ CursorCall) :=
  [.inl (.newTable .any 0), .inl (@Operation.insert .any ⟨0⟩ (.host ⟨0⟩) (.int 1)),
    .inl (@Operation.insert .any ⟨0⟩ (.host ⟨1⟩) (.int 2)), .inr (@CursorCall.start .any ⟨0⟩), .inr (.next 0),
    .inl (@Operation.lookup .any ⟨0⟩ (.host ⟨2⟩)), .inl (@Operation.insert .any ⟨0⟩ (.host ⟨1⟩) (.int 3)), .inr (.move 0),
    .inr (.finish 0), .inl (@Operation.erase .any ⟨0⟩ (.host ⟨1⟩)), .inl (@Operation.freezeTable .any ⟨0⟩), .inr (.next 1),
    .inl (@Operation.clear .any ⟨0⟩), .inr (.next 1), .inr (@CursorCall.start .any ⟨0⟩), .inr (.next 2), .inr (.finish 2),
    .inr (.move 2), .inr (.next 3)]

def worldInterrupted : World (Shelf Unit) := playOut meddling interrupted unplayed

/-- The first cursor was asked once before it was moved, the second then told what was left and that there is no more. The
answers of the other two count although neither holds the table; the last one has come to the end. -/
theorem cursors_tell_snapshots_interrupted :
    (∀ s ∈ stories worldInterrupted.env.log, s.Faithful) ∧
    ((stories worldInterrupted.env.log).map fun s => (s.frozen, s.items.length, s.answers.length)) =
      [(false, 2, 1), (false, 2, 3), (true, 2, 1), (true, 2, 2)] ∧
    ∃ (kind : KeyKind) (c c' : Cursor kind), worldInterrupted.env.cursor? 3 = some ⟨kind, c⟩ ∧
      c.next worldInterrupted = (.ok (none, c'), worldInterrupted) := by
  have hw : Played .nothing worldInterrupted := played_playOut meddling_playful (by decide +kernel)
  obtain ⟨hfaithful, hnext⟩ := cursors_tell_snapshots hw
  refine ⟨hfaithful, by decide +kernel, ?_⟩
  have hlast : ((stories worldInterrupted.env.log)[3]?.map fun s => (s.frozen, s.items.length, s.answers.length)) =
      some (true, 2, 2) := by decide +kernel
  obtain ⟨s, hs, htold⟩ := Option.map_eq_some_iff.1 hlast
  obtain ⟨⟨kind, c⟩, hc⟩ := Option.isSome_iff_exists.1 (by decide +kernel : (worldInterrupted.env.cursor? 3).isSome)
  obtain ⟨hfrozen, hitems, hanswers⟩ : s.frozen = true ∧ s.items.length = 2 ∧ s.answers.length = 2 := by simpa using htold
  obtain ⟨_, answer, c', hrun, hanswer⟩ := hnext 3 c s hc hs (.inl hfrozen)
  rw [List.getElem?_eq_none (by omega)] at hanswer
  obtain rfl : answer = none := Option.map_eq_none_iff.1 hanswer
  exact ⟨kind, c, c', hc, hrun⟩

end ValueCore
