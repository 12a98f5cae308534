import ValueCore.Table.Access

/-!
# Computations, evaluated

A computation applied to a world is a pair of an outcome and a world. These equations evaluate the pieces
that computations are made of, so that a proof follows a computation step by step.
-/

namespace ValueCore

variable {ε α β : Type}

@[simp] theorem run_pure (a : α) (w : World ε) : (pure a : Run ε α) w = (.ok a, w) := rfl

theorem run_bind (x : Run ε α) (f : α → Run ε β) (w : World ε) :
    (x >>= f) w = match x w with
      | (.ok a, w') => f a w'
      | (.error e, w') => (.error e, w') := by
  show (ExceptT.bind x f : Run ε β) w = _
  simp only [ExceptT.bind, ExceptT.mk, bind, StateT.bind, ExceptT.bindCont]
  cases h : x w with
  | mk r w' => cases r <;> rfl

theorem run_bind_ok {x : Run ε α} {a : α} {w w' : World ε} (h : x w = (.ok a, w')) (f : α → Run ε β) :
    (x >>= f) w = f a w' := by rw [run_bind, h]

theorem run_bind_error {x : Run ε α} {e : Failure} {w w' : World ε} (h : x w = (.error e, w'))
    (f : α → Run ε β) : (x >>= f) w = (.error e, w') := by rw [run_bind, h]

/-- What returned did so in each of its parts. -/
theorem run_bind_eq_ok {x : Run ε α} {f : α → Run ε β} {b : β} {w u : World ε} (h : (x >>= f) w = (.ok b, u)) :
    ∃ a v, x w = (.ok a, v) ∧ f a v = (.ok b, u) := by
  cases hr : x w with
  | mk r v =>
    cases r with
    | error e =>
      rw [run_bind_error hr] at h
      cases h
    | ok a => exact ⟨a, v, rfl, (run_bind_ok hr f).symm.trans h⟩

/-- Two computations that begin alike and go on alike. -/
theorem run_bind_congr {x y : Run ε α} {f g : α → Run ε β} {w : World ε} (h : x w = y w)
    (hfg : ∀ a v, y w = (.ok a, v) → f a v = g a v) : (x >>= f) w = (y >>= g) w := by
  cases hr : y w with
  | mk r v =>
    rw [hr] at h
    cases r with
    | error e => rw [run_bind_error h, run_bind_error hr]
    | ok a => rw [run_bind_ok h, run_bind_ok hr, hfg a v hr]

/-- A computation with a known answer. -/
theorem run_eq_of_answer {x : Run ε α} {a : α} {w : World ε} (h : (x w).1 = .ok a) : x w = (.ok a, (x w).2) :=
  Prod.ext h rfl

@[simp] theorem run_get (w : World ε) : (get : Run ε (World ε)) w = (.ok w, w) := rfl

@[simp] theorem run_modify (f : World ε → World ε) (w : World ε) :
    (modify f : Run ε Unit) w = (.ok (), f w) := rfl

@[simp] theorem run_modifyGet (f : World ε → α × World ε) (w : World ε) :
    (modifyGet f : Run ε α) w = (.ok (f w).1, (f w).2) := rfl

@[simp] theorem run_throw (e : Failure) (w : World ε) : (throw e : Run ε α) w = (.error e, w) := rfl

@[simp] theorem run_raise (f : Fault) (w : World ε) :
    (raise f : Run ε α) w = (.error (.raised f.status), { w with message := f.message }) := rfl

theorem run_map (f : α → β) (x : Run ε α) (w : World ε) :
    (f <$> x) w = match x w with
      | (.ok a, w') => (.ok (f a), w')
      | (.error e, w') => (.error e, w') := by
  rw [map_eq_pure_bind, run_bind]
  cases h : x w with
  | mk r w' => cases r <;> rfl

theorem run_discard (x : Run ε α) (w : World ε) :
    (discard x : Run ε Unit) w = match x w with
      | (.ok _, w') => (.ok (), w')
      | (.error e, w') => (.error e, w') := run_map (fun _ => ()) x w

/-- Answering something else leaves the same world. -/
theorem snd_run_answer (x : Run ε α) (b : β) (w : World ε) : ((x >>= fun _ => pure b : Run ε β) w).2 = (x w).2 := by
  rw [run_bind]
  cases x w with
  | mk r v => cases r <;> rfl

theorem snd_run_discard (x : Run ε α) (b : β) (w : World ε) :
    ((discard x >>= fun _ => pure b : Run ε β) w).2 = (x w).2 := by
  rw [snd_run_answer, run_discard]
  cases x w with
  | mk r v => cases r <;> rfl

theorem run_afterwards (act : Run ε α) (cleanUp : World ε → World ε) (w : World ε) :
    afterwards act cleanUp w = ((act w).1, cleanUp (act w).2) := rfl

variable {kind : KeyKind}

@[simp] theorem run_readTable (t : TableId kind) (w : World ε) : readTable t w = (.ok (w.table t), w) := rfl

@[simp] theorem run_updateTable (t : TableId kind) (f : Table kind.Key → Table kind.Key) (w : World ε) :
    updateTable t f w = (.ok (), w.modifyTable t f) := rfl

@[simp] theorem run_release (b : Option Block) (bytes : Nat) (w : World ε) :
    release b bytes w = (.ok (), w.freed b bytes) := rfl

theorem run_holding_of_frozen {t : TableId kind} {w : World ε} (hf : (w.table t).frozen = true) (act : Run ε α) :
    holding t act w = act w := by
  unfold holding
  rw [run_bind_ok (run_readTable t w), if_pos hf]

theorem run_holding {t : TableId kind} {w : World ε} (hf : (w.table t).frozen = false) (act : Run ε α) :
    holding t act w = ((act (w.held t)).1, ((act (w.held t)).2).letGo t) := by
  unfold holding
  rw [run_bind_ok (run_readTable t w), if_neg (by simp [hf]), run_bind_ok (run_modify _ w), run_afterwards]

theorem run_onTrail (act : Run ε α) (w : World ε) :
    onTrail act w = ((act w.newTrail).1, (act w.newTrail).2.offTrail w.trail) := rfl

/-- What each round of a loop keeps, the loop keeps. -/
theorem forM_keeps {P : World ε → Prop} {f : α → Run ε Unit} : ∀ (l : List α) {w : World ε}, P w →
    (∀ x ∈ l, ∀ v, P v → P (f x v).2) → P (l.forM f w).2
  | [], _, hw, _ => hw
  | x :: l, w, hw, hf => by
    show P ((f x >>= fun _ => l.forM f) w).2
    have hx := hf x List.mem_cons_self w hw
    cases hr : f x w with
    | mk r v =>
      rw [hr] at hx
      cases r with
      | error e =>
        rw [run_bind_error hr]
        exact hx
      | ok a =>
        rw [run_bind_ok hr]
        exact forM_keeps l hx fun y hy => hf y (List.mem_cons_of_mem _ hy)

end ValueCore
