import ValueCore.Proofs.Run
import ValueCore.Proofs.World.Evolution

/-!
# What a computation leads to

`Along R w act Q`: run in `w`, the computation `act` leads along `R` to the world that it leaves, whether it
returns or fails, and if it returns then `Q` holds of its answer and of that world. Here `R` is any relation that
goes on from world to world, that takes no notice of what is outside of tables, structs and the host's part, and
that is kept to while a table is held (`Course`).

The first of them are the runs of steps: `Leads I n w act Q`.

The rules follow the pieces that computations are made of, so the proof about an operation has the shape of
its definition.
-/

namespace ValueCore

open World

variable {ε α β : Type} {I : Inventory ε} {n : Nat} {w w' : World ε} {kind : KeyKind} {R : World ε → World ε → Prop}

theorem World.Alike.refl (w : World ε) : Alike w w := ⟨rfl, rfl, rfl, rfl⟩

theorem World.Alike.trans {u : World ε} (h : Alike w w') (h' : Alike w' u) : Alike w u :=
  ⟨h'.anyTables.trans h.anyTables, h'.textTables.trans h.textTables, h'.structs.trans h.structs, h'.env.trans h.env⟩

theorem World.Alike.struct (h : Alike w w') (s : StructId) : w'.struct s = w.struct s := by
  simp only [World.struct, h.structs]

/-- A relation between worlds that computations keep to when their pieces do. -/
class Course (R : World ε → World ε → Prop) : Prop where
  outside : ∀ {w w' : World ε}, Alike w w' → R w w'
  trans : ∀ {w v u : World ε}, R w v → R v u → R w u
  bracket : ∀ {w w' : World ε} {kind : KeyKind} (t : TableId kind), w.Has t → (w.table t).frozen = false →
    R (w.held t) w' → R w (w'.letGo t)

/-- A course on which nothing happens but steps. -/
class BySteps (I : Inventory ε) (R : World ε → World ε → Prop) : Prop extends Course R where
  evolves : ∀ {w w' : World ε}, w.Sound I → R w w' → Evolves I 0 w w'

/-- A step that freezes nothing, and that is not the host's. -/
structure World.Work (I : Inventory ε) (n : Nat) (w w' : World ε) : Prop where
  step : Step I n w w'
  env : w'.env = w.env
  unfrozen : ∀ {kind : KeyKind} (t : TableId kind), (w'.table t).frozen → (w.table t).frozen

/-- A course that operations on tables keep to by what they do themselves, whatever they ask the host. -/
class Changing (I : outParam (Inventory ε)) (n : outParam Nat) (R : World ε → World ε → Prop) : Prop
    extends BySteps I R where
  change : ∀ {w : World ε} {kind : KeyKind} {t : TableId kind} {f : Table kind.Key → Table kind.Key},
    Work I n w (w.modifyTable t f) → R w (w.modifyTable t f)

/-- A course that all operations keep to, whether they change tables or make some. -/
class Working (I : outParam (Inventory ε)) (n : outParam Nat) (R : World ε → World ε → Prop) : Prop
    extends BySteps I R where
  work : ∀ {w w' : World ε}, Work I n w w' → R w w'

instance [Working I n R] : Changing I n R := ⟨fun h => Working.work h⟩

/-- A run of steps that respects all structs there are. -/
def World.Passes (I : Inventory ε) (w w' : World ε) : Prop := Evolves I w.structs.size w w'

/-- A run of steps that respects those of the first `n` structs that are there. -/
def World.Spares (I : Inventory ε) (n : Nat) (w w' : World ε) : Prop := Evolves I (min n w.structs.size) w w'

instance : Course (Evolves I n) := ⟨fun h => .step (.outside h), .trans, .bracket⟩

instance : BySteps I (Evolves I n) where
  evolves _ he := he.le (Nat.zero_le n)

instance : BySteps I (Passes I) where
  outside h := .step (.outside h)
  trans h h' := .trans h (Evolves.le h' h.within.size_le)
  bracket t ht hf h := by
    unfold Passes at h
    rw [World.held, structs_modifyTable] at h
    exact .bracket t ht hf h
  evolves _ he := Evolves.le he (Nat.zero_le _)

instance : Working I n (Evolves I n) where
  work h := .step h.step

instance : Working I n (Spares I n) where
  outside h := .step (.outside h)
  trans h h' := .trans h (Evolves.le h' (min_le_min_left n h.within.size_le))
  bracket t ht hf h := by
    unfold Spares at h
    rw [World.held, structs_modifyTable] at h
    exact .bracket t ht hf h
  evolves _ he := Evolves.le he (Nat.zero_le _)
  work h := .step (h.step.le (min_le_left n _))

/-! ## Steps of work -/

namespace World

theorem work_addTable (kind : KeyKind) {heads : Nat} (block : Option Block) (hp : ∃ k ≤ 24, heads = 2 ^ k) :
    Work I n w (w.addTable kind (.withStorage heads heads block)).2 := by
  refine ⟨.addTable kind heads block hp, env_addTable kind _, fun {k} t hf => ?_⟩
  by_cases ht : (⟨k, t⟩ : TableRef) = ⟨kind, (w.addTable kind (.withStorage heads heads block)).1⟩
  · cases ht
    rw [table_addTable_self] at hf
    cases hf
  · rwa [table_addTable_of_ne kind _ t ht] at hf

theorem work_addStruct {ctor : Value} {heads : Nat} (block : Option Block) (hp : ∃ k ≤ 24, heads = 2 ^ k)
    (hctor : w.Owns ctor) : Work I n w (w.addStruct ctor (.withStorage heads heads block)) := by
  refine ⟨.addStruct ctor heads block hp hctor, rfl, fun t hf => ?_⟩
  rw [table_addStruct] at hf
  exact (work_addTable (I := I) (n := n) .text block hp).unfrozen t hf

/-- A change of one table that leaves its flag as it is. -/
theorem work_modifyTable {t : TableId kind} {f : Table kind.Key → Table kind.Key} (ht : w.Has t)
    (hs : Step I n w (w.modifyTable t f)) (hf : (f (w.table t)).frozen = (w.table t).frozen) :
    Work I n w (w.modifyTable t f) :=
  ⟨hs, env_modifyTable t f,
    table_modifyTable_cases t f ht (P := fun u T => T.frozen → (w.table u).frozen) (fun h => hf ▸ h) fun _ _ h => h⟩

end World

/-- The computation keeps to `R` and answers as told. -/
structure Along (R : World ε → World ε → Prop) (w : World ε) (act : Run ε α) (Q : α → World ε → Prop) : Prop where
  ends : R w (act w).2
  post : ∀ a w', act w = (.ok a, w') → Q a w'

/-- The computation runs by steps and answers as told. -/
abbrev Leads (I : Inventory ε) (n : Nat) (w : World ε) (act : Run ε α) (Q : α → World ε → Prop) : Prop :=
  Along (Evolves I n) w act Q

/-- A protected call settles the message and nothing else. -/
theorem alike_protect (act : Run ε α) : Alike (act w).2 (protect act w).2 := by
  unfold protect
  cases act w with
  | mk r v => rcases r with (status | _ | _ | reason) | a <;> exact ⟨rfl, rfl, rfl, rfl⟩

namespace Along

/-- The computation runs by steps. -/
theorem evolves {act : Run ε α} {Q : α → World ε → Prop} (h : Along (Evolves I n) w act Q) :
    Evolves I n w (act w).2 := h.ends

/-- What keeps to one relation keeps to a wider one. -/
theorem widen {R' : World ε → World ε → Prop} {act : Run ε α} {Q : α → World ε → Prop} (h : Along R w act Q)
    (hR : R w (act w).2 → R' w (act w).2) : Along R' w act Q := ⟨hR h.ends, h.post⟩

theorem weaken {act : Run ε α} {P Q : α → World ε → Prop} (h : Along R w act P)
    (hpq : ∀ a w', R w w' → P a w' → Q a w') : Along R w act Q := by
  refine ⟨h.ends, fun a w' he => hpq a w' ?_ (h.post a w' he)⟩
  have := h.ends
  rwa [he] at this

theorem weaken_eq {act : Run ε α} {P Q : α → World ε → Prop} (h : Along R w act P)
    (hpq : ∀ a w', act w = (.ok a, w') → P a w' → Q a w') : Along R w act Q :=
  ⟨h.ends, fun a w' he => hpq a w' he (h.post a w' he)⟩

theorem answer {act : Run ε α} (h : R w (act w).2) : Along R w act fun _ _ => True :=
  ⟨h, fun _ _ _ => True.intro⟩

theorem trivial {act : Run ε α} {P : α → World ε → Prop} (h : Along R w act P) :
    Along R w act fun _ _ => True := ⟨h.ends, fun _ _ _ => True.intro⟩

/-- Reading changes nothing. -/
theorem read {x : Run ε α} {a : α} {f : α → Run ε β} {Q : β → World ε → Prop} (hx : x w = (.ok a, w))
    (hf : Along R w (f a) Q) : Along R w (x >>= f) Q := by
  refine ⟨by rw [run_bind_ok hx]; exact hf.ends, fun b w' hb => ?_⟩
  rw [run_bind_ok hx] at hb
  exact hf.post b w' hb

theorem modify {f : World ε → World ε} {Q : Unit → World ε → Prop} (hs : R w (f w)) (hq : Q () (f w)) :
    Along R w (modify f : Run ε Unit) Q := by
  refine ⟨hs, fun a w' he => ?_⟩
  rw [run_modify] at he
  cases he
  exact hq

variable [Course R]

theorem pure {a : α} {Q : α → World ε → Prop} (h : Q a w) : Along R w (pure a) Q := by
  refine ⟨Course.outside (.refl w), fun b w' he => ?_⟩
  rw [run_pure] at he
  cases he
  exact h

theorem throw {e : Failure} {Q : α → World ε → Prop} : Along R w (throw e) Q :=
  ⟨Course.outside (.refl w), fun _ _ he => by rw [run_throw] at he; cases he⟩

theorem raise {f : Fault} {Q : α → World ε → Prop} : Along R w (raise f) Q :=
  ⟨Course.outside ⟨rfl, rfl, rfl, rfl⟩, fun _ _ he => by rw [run_raise] at he; cases he⟩

/-- After the first part the run goes on in the world that it left. -/
theorem bind {x : Run ε α} {f : α → Run ε β} {P : α → World ε → Prop} {Q : β → World ε → Prop}
    (hx : Along R w x P) (hf : ∀ a w', R w w' → P a w' → Along R w' (f a) Q) :
    Along R w (x >>= f) Q := by
  have he := hx.ends
  cases hr : x w with
  | mk r v =>
    rw [hr] at he
    cases r with
    | error e =>
      refine ⟨by rw [run_bind_error hr]; exact he, fun b w' hb => ?_⟩
      rw [run_bind_error hr] at hb
      cases hb
    | ok a =>
      have hl := hf a v he (hx.post a v hr)
      refine ⟨by rw [run_bind_ok hr]; exact Course.trans he hl.ends, fun b w' hb => ?_⟩
      rw [run_bind_ok hr] at hb
      exact hl.post b w' hb

theorem map {x : Run ε α} (f : α → β) {Q : β → World ε → Prop} (h : Along R w x fun a w' => Q (f a) w') :
    Along R w (f <$> x) Q := by
  rw [map_eq_pure_bind]
  exact h.bind fun a w' _ hq => .pure hq

/-- Taking no notice of the answer. -/
theorem discard {act : Run ε α} {Q : α → World ε → Prop} (h : Along R w act Q) :
    R w ((discard act : Run ε Unit) w).2 := by
  have hd : Along R w ((fun _ => ()) <$> act) fun _ _ => True := Along.map _ h.trivial
  exact hd.ends

/-! ## Memory -/

/-- What happens outside of tables, structs and the host's part is on every course. -/
theorem outside {act : Run ε α} (h : Alike w (act w).2) : Along R w act fun _ w' => Alike w w' := by
  refine ⟨Course.outside h, fun a w' he => ?_⟩
  rw [he] at h
  exact h

/-- A clean-up that gives back memory. -/
theorem afterwards {act : Run ε α} {Q : α → World ε → Prop} {cleanUp : World ε → World ε}
    (h : Along R w act Q) (hc : ∀ v, Alike v (cleanUp v)) :
    Along R w (afterwards act cleanUp) fun a w' => ∃ v, Q a v ∧ w' = cleanUp v := by
  refine ⟨Course.trans h.ends (Course.outside (hc _)), fun a w' he => ?_⟩
  rw [run_afterwards] at he
  obtain ⟨ha, rfl⟩ := Prod.mk.injEq .. ▸ he
  exact ⟨_, h.post a _ (Prod.ext ha rfl), rfl⟩

theorem protect {act : Run ε α} {Q : α → World ε → Prop} (h : Along R w act Q) :
    Along R w (protect act) fun _ _ => True :=
  ⟨Course.trans h.ends (Course.outside (alike_protect act)), fun _ _ _ => True.intro⟩

end Along

theorem alike_freed (b : Option Block) (bytes : Nat) : Alike w (w.freed b bytes) := ⟨rfl, rfl, rfl, rfl⟩

theorem alike_newTrail (w : World ε) : Alike w w.newTrail := ⟨rfl, rfl, rfl, rfl⟩

theorem alike_offTrail (w : World ε) (outer : Option Trail) : Alike w (w.offTrail outer) := by
  unfold World.offTrail
  cases w.trail <;> exact ⟨rfl, rfl, rfl, rfl⟩

/-- A request for memory. Nothing but the ledger and the message changes, and nothing can go wrong but that
there is no memory. -/
structure Asks (w : World ε) (act : Run ε α) : Prop where
  alike : Alike w (act w).2
  views : (act w).2.views = w.views
  status : ∀ e, (act w).1 = .error e → e = .raised .memory

namespace Asks

theorem pure (a : α) : Asks w (pure a) := ⟨.refl w, rfl, fun _ he => by cases he⟩

theorem raise {f : Fault} (hf : f.status = .memory) : Asks w (raise f : Run ε α) :=
  ⟨⟨rfl, rfl, rfl, rfl⟩, rfl, fun _ he => by cases he; rw [hf]⟩

theorem bind {x : Run ε α} {f : α → Run ε β} (hx : Asks w x) (hf : ∀ a v, Asks v (f a)) : Asks w (x >>= f) := by
  have hax := hx.alike
  have hviews := hx.views
  cases hr : x w with
  | mk r v =>
    rw [hr] at hax hviews
    cases r with
    | error e =>
      refine ⟨by rw [run_bind_error hr]; exact hax, by rw [run_bind_error hr]; exact hviews, fun e' he => ?_⟩
      rw [run_bind_error hr] at he
      cases he
      exact hx.status e (by rw [hr])
    | ok a =>
      obtain ⟨hay, hlater, hstatus⟩ := hf a v
      refine ⟨by rw [run_bind_ok hr]; exact hax.trans hay, by rw [run_bind_ok hr]; exact hlater.trans hviews, ?_⟩
      intro e' he
      rw [run_bind_ok hr] at he
      exact hstatus e' he

/-- What asking for memory comes to. -/
theorem outcome {act : Run ε α} (h : Asks w act) :
    (∃ v, Alike w v ∧ act w = (.error (.raised .memory), v)) ∨ ∃ v a, Alike w v ∧ act w = (.ok a, v) := by
  have ha := h.alike
  cases hr : act w with
  | mk r v =>
    rw [hr] at ha
    cases r with
    | error e =>
      have := h.status e (by rw [hr])
      exact .inl ⟨v, ha, by rw [this]⟩
    | ok a => exact .inr ⟨v, a, ha, rfl⟩

/-- What asking for memory comes to for the views. -/
theorem outcome_views {act : Run ε α} (h : Asks w act) :
    (∃ v, v.views = w.views ∧ act w = (.error (.raised .memory), v)) ∨
    ∃ v a, v.views = w.views ∧ act w = (.ok a, v) := by
  have hviews := h.views
  rcases h.outcome with ⟨v, _, hr⟩ | ⟨v, a, _, hr⟩
  · rw [hr] at hviews
    exact .inl ⟨v, hviews, hr⟩
  · rw [hr] at hviews
    exact .inr ⟨v, a, hviews, hr⟩

end Asks

theorem asks_request (f : Memory → Option Block × Memory) :
    Asks w (modifyGet fun w => ((f w.memory).1, { w with memory := (f w.memory).2 })) :=
  ⟨⟨rfl, rfl, rfl, rfl⟩, rfl, fun _ he => by cases he⟩

theorem asks_allocate (bytes : Nat) : Asks w (allocate bytes : Run ε _) := by
  unfold allocate
  dsimp only
  split
  · exact .pure _
  · refine Asks.bind (asks_request fun m => m.request bytes) fun granted v => ?_
    cases granted with
    | none => exact .raise rfl
    | some b => exact .pure _

theorem asks_allocateArray (count size : Nat) : Asks w (allocateArray count size : Run ε _) := by
  unfold allocateArray
  dsimp only
  split
  · exact Asks.bind (.raise rfl) fun _ _ => asks_allocate _
  · exact asks_allocate _

theorem asks_allocateElements (count size : Nat) : Asks w (allocateElements count size : Run ε _) := by
  unfold allocateElements
  dsimp only
  split
  · exact Asks.bind (.raise rfl) fun _ _ => asks_allocate _
  · exact asks_allocate _

/-- More room on a trail is asked for like any other array. -/
theorem asks_extendTrail (length : Nat) : Asks w (extendTrail length : Run ε Unit) := by
  refine Asks.bind ⟨.refl w, rfl, fun _ he => by cases he⟩ fun x v => ?_
  cases x.trail with
  | none => exact .pure ()
  | some t =>
    dsimp only
    split
    · refine (asks_allocate _).bind fun block u => ?_
      refine Asks.bind ⟨alike_freed _ _, rfl, fun _ he => by cases he⟩ fun _ x => ?_
      exact ⟨⟨rfl, rfl, rfl, rfl⟩, rfl, fun _ he => by cases he⟩
    · exact .pure ()

theorem asks_tryReallocate (b : Option Block) (old new : Nat) : Asks w (tryReallocate b old new : Run ε _) := by
  unfold tryReallocate
  dsimp only
  split
  · exact Asks.bind ⟨alike_freed b old, rfl, fun _ he => by cases he⟩ fun _ v => .pure _
  · cases b with
    | none => exact Asks.bind (asks_request fun m => m.request new) fun _ v => .pure _
    | some block => exact Asks.bind ⟨⟨rfl, rfl, rfl, rfl⟩, rfl, fun _ he => by cases he⟩ fun _ v => .pure _

theorem asks_reallocateArray (b : Option Block) (old new size : Nat) :
    Asks w (reallocateArray b old new size : Run ε _) := by
  have hre : ∀ v : World ε, Asks v (reallocate b (Memory.arrayBytes old size) (Memory.arrayBytes new size) : Run ε _) := by
    intro v
    unfold reallocate
    refine (asks_tryReallocate _ _ _).bind fun r u => ?_
    cases r with
    | none => exact .raise rfl
    | some b => exact .pure _
  unfold reallocateArray
  dsimp only
  split
  · exact Asks.bind (.raise rfl) fun _ v => hre v
  · exact hre w

namespace Along

variable [Course R]

/-- A temporary array is nothing to the tables. -/
theorem withScratch {count size : Nat} {act : Run ε α} {Q : α → World ε → Prop}
    (h : ∀ v, Alike w v → Along R v act Q) :
    Along R w (withScratch count size act) fun a w' => ∃ v, Q a v ∧ Alike v w' := by
  unfold ValueCore.withScratch
  refine (outside (asks_allocateElements count size).alike).bind fun b v _ hv => ?_
  refine ((h v hv).afterwards fun _ => alike_freed _ _).weaken ?_
  rintro a _ _ ⟨u, hq, rfl⟩
  exact ⟨u, hq, alike_freed _ _⟩

/-- Nor is a trail. -/
theorem onTrail {act : Run ε α} {Q : α → World ε → Prop} (h : Along R w.newTrail act Q) :
    Along R w (onTrail act) fun a w' => ∃ v, Q a v ∧ Alike v w' := by
  refine ⟨?_, fun a w' ha => ?_⟩
  · rw [run_onTrail]
    exact Course.trans (Course.outside (alike_newTrail w)) (Course.trans h.ends (Course.outside (alike_offTrail _ _)))
  · rw [run_onTrail] at ha
    obtain ⟨hanswer, rfl⟩ := (Prod.mk.injEq ..).mp ha
    exact ⟨_, h.post a _ (Prod.ext hanswer rfl), alike_offTrail _ _⟩

/-- An object takes memory for itself, and gives it back if it cannot be made. -/
theorem newObject {bytes : Nat} {make : Run ε α} {Q : α → World ε → Prop}
    (h : ∀ v, Alike w v → Along R v make Q) :
    Along R w (newObject bytes make) fun a w' => ∃ v, Q a v ∧ Alike v w' := by
  unfold ValueCore.newObject
  refine (outside (asks_allocate bytes).alike).bind fun b v _ hv => ?_
  have hm := h v hv
  have he := hm.ends
  cases hr : make v with
  | mk r u =>
    rw [hr] at he
    cases r with
    | error e =>
      have hx : madeIn b bytes make v = (.error e, u.freed b bytes) := by simp only [madeIn, hr]
      exact ⟨by rw [hx]; exact Course.trans he (Course.outside (alike_freed _ _)), fun a w' ha => by rw [hx] at ha; cases ha⟩
    | ok a =>
      have hx : madeIn b bytes make v =
          (.ok a, { u with objects := (b.map (·, bytes)).toList ++ u.objects }) := by simp only [madeIn, hr]
      refine ⟨by rw [hx]; exact Course.trans he (Course.outside ⟨rfl, rfl, rfl, rfl⟩), fun a' w' ha => ?_⟩
      rw [hx] at ha
      cases ha
      exact ⟨u, hm.post _ u hr, rfl, rfl, rfl, rfl⟩

/-! ## Holding a table -/

/-- A table is held while `act` runs, unless it is frozen. -/
theorem holding {t : TableId kind} {act : Run ε α} {Q : α → World ε → Prop} (ht : w.Has t)
    (hfrozen : (w.table t).frozen → Along R w act Q)
    (hheld : (w.table t).frozen = false → Along R (w.held t) act fun a v => Q a (v.letGo t)) :
    Along R w (holding t act) Q := by
  cases hf : (w.table t).frozen with
  | true =>
    have hl := hfrozen hf
    have hrun := run_holding_of_frozen hf act
    exact ⟨by rw [hrun]; exact hl.ends, fun a w' ha => hl.post a w' (hrun ▸ ha)⟩
  | false =>
    have hl := hheld hf
    have hrun := run_holding hf act
    refine ⟨by rw [hrun]; exact Course.bracket t ht hf hl.ends, fun a w' ha => ?_⟩
    rw [hrun] at ha
    obtain ⟨h1, rfl⟩ := Prod.mk.injEq .. ▸ ha
    exact hl.post a _ (Prod.ext h1 rfl)

end Along

end ValueCore
