import ValueCore.Proofs.Operations.Reads

/-!
# Statuses that only the host raises

Hashing, comparing and writing values raise three statuses of their own: a value cannot be hashed, a comparison has no budget
left, or there is no memory. A comparison of constructors that fails is raised again under the status that it failed with. So
every other status comes from the host: where the host raises it in no answer (`Host.Averts`), nothing that works on values
does (`equalWithin_averts`, `scan_averts`).

Nothing is asked of the world. So the worlds that the host leaves behind need not be followed.
-/

namespace ValueCore

open World

variable {ε α β : Type} {kind : KeyKind} {status : Status} {host : Host ε}

/-- The status is none of those that working on values raises by itself. -/
structure Status.Foreign (status : Status) : Prop where
  memory : status ≠ .memory
  unhashable : status ≠ .unhashable
  depthExceeded : status ≠ .depthExceeded

theorem foreign_iterating : Status.iterating.Foreign := ⟨nofun, nofun, nofun⟩

/-- The computation raises the status in no world. -/
def Averts (status : Status) (act : Run ε α) : Prop := ∀ w, (act w).1 ≠ .error (.raised status)

/-- The host raises the status in no answer about hashing, comparing or writing. -/
structure Host.Averts (status : Status) (host : Host ε) : Prop where
  hash : ∀ i, ValueCore.Averts status (host.hash i)
  equal : ∀ i j depth, ValueCore.Averts status (host.equal i j depth)
  display : ∀ i, ValueCore.Averts status (host.display i)

/-- Neither hashing nor comparing keys raises the status. -/
structure Keying.Averts {κ : Type} (status : Status) (keying : Keying ε κ) : Prop where
  hash : ∀ key, ValueCore.Averts status (keying.hash key)
  equal : ∀ a b, ValueCore.Averts status (keying.equal a b)

theorem textKeying_averts : (textKeying : Keying ε _).Averts status := ⟨fun _ _ => nofun, fun _ _ _ => nofun⟩

namespace Averts

theorem pure (a : α) : Averts status (pure a : Run ε α) := fun _ => nofun

theorem stop {e : Failure} (h : e ≠ .raised status) : Averts status (throw e : Run ε α) := fun _ he => h (Except.error.inj he)

theorem raise {f : Fault} (h : status ≠ f.status) : Averts status (raise f : Run ε α) :=
  fun _ he => h (Failure.raised.inj (Except.error.inj he)).symm

theorem bind {act : Run ε α} {k : α → Run ε β} (h : Averts status act) (hk : ∀ a, Averts status (k a)) :
    Averts status (act >>= k) := by
  intro w
  rw [run_bind]
  have hw := h w
  cases hr : act w with
  | mk r v =>
    rw [hr] at hw
    cases r with
    | ok a => exact hk a v
    | error e => exact fun he => hw (by cases he; rfl)

theorem read {k : World ε → Run ε β} (h : ∀ w, Averts status (k w)) : Averts status (get >>= k) := fun w => h w w

theorem readTable {t : TableId kind} {k : Table kind.Key → Run ε β} (h : ∀ T, Averts status (k T)) :
    Averts status (readTable t >>= k) := bind (fun _ => nofun) h

theorem ite {c : Prop} [Decidable c] {x y : Run ε α} (hx : Averts status x) (hy : Averts status y) :
    Averts status (if c then x else y) := by
  split
  · exact hx
  · exact hy

theorem mapM {f : α → Run ε β} (h : ∀ a, Averts status (f a)) : ∀ l : List α, Averts status (l.mapM f)
  | [] => by
    rw [List.mapM_nil]
    exact pure _
  | a :: l => by
    rw [List.mapM_cons]
    exact bind (h a) fun _ => bind (mapM h l) fun _ => pure _

theorem holding {act : Run ε α} (t : TableId kind) (h : Averts status act) : Averts status (holding t act) :=
  readTable fun _ => ite h (bind (fun _ => nofun) fun _ w => h w)

theorem onTrail {act : Run ε α} (h : Averts status act) : Averts status (onTrail act) := fun w => h w.newTrail

/-- What only asks for memory raises nothing else. -/
theorem of_asks {act : Run ε α} (hmemory : status ≠ .memory) (h : ∀ w, Asks w act) : Averts status act := by
  intro w he
  rcases (h w).outcome with ⟨v, -, hr⟩ | ⟨v, a, -, hr⟩
  · rw [hr] at he
    exact hmemory (Failure.raised.inj (Except.error.inj he)).symm
  · rw [hr] at he
    cases he

/-- A protected call answers with no status that is not raised. -/
theorem protect_bind {act : Run ε α} {k : Except Status α → Run ε β} (hmemory : status ≠ .memory) (h : Averts status act)
    (hok : ∀ a, Averts status (k (.ok a))) (herror : ∀ s, status ≠ s → Averts status (k (.error s))) :
    Averts status (protect act >>= k) := by
  intro w
  rw [run_bind]
  unfold protect
  have hw := h w
  cases hr : act w with
  | mk r v =>
    rw [hr] at hw
    rcases r with (s | _ | _ | reason) | a
    · exact herror s (fun he => hw (by rw [he])) v
    · exact herror .memory hmemory _
    · exact nofun
    · exact nofun
    · exact hok a _

end Averts

section
variable (hs : status.Foreign) (hh : host.Averts status)

/-! ## Hashing -/

theorem hashFields_averts {hash : Value → Run ε UInt32} (h : ∀ x, Averts status (hash x)) :
    ∀ (fields : List (Bytes × Value)) (s : StructHash), Averts status (hashFields hash fields s)
  | [], _ => .pure _
  | (name, value) :: rest, s => .bind (h value) fun a => hashFields_averts h rest (s.mix name a)

include hs hh

theorem hashAt_averts : ∀ (fuel : Nat) (x : Value), Averts status (hashAt host fuel x)
  | 0, _ => .stop nofun
  | fuel + 1, x => by
    cases x with
    | none | bool | int | float | str => exact .pure _
    | host i => exact hh.hash i
    | dict t => exact .read fun _ => .raise hs.unhashable
    | struct s => exact .read fun _ => hashFields_averts (hashAt_averts fuel) _ _

theorem hashValue_averts (x : Value) : Averts status (hashValue host x) := .read fun _ => hashAt_averts hs hh _ x

/-! ## Writing -/

theorem writeAt_averts : ∀ (fuel : Nat) (path : List Value) (x : Value), Averts status (writeAt host fuel path x)
  | 0, _, _ => .stop nofun
  | fuel + 1, path, x => by
    have hwrite := fun path => writeAt_averts fuel path
    have hextend : Averts status (extendTrail path.length : Run ε Unit) := .of_asks hs.memory fun _ => asks_extendTrail _
    unfold writeAt
    cases x with
    | none | bool | int | float | str => exact .pure _
    | host i => exact hh.display i
    | dict t =>
      refine .ite (.pure _) (.bind hextend fun _ => .holding t (.readTable fun T => ?_))
      have hitem : ∀ item : Value × Value, Averts status (do
          return (← writeAt host fuel (.dict t :: path) item.1) ++ ascii ": " ++
            (← writeAt host fuel (.dict t :: path) item.2) : Run ε Bytes) := fun item =>
        .bind (hwrite _ item.1) fun _ => .bind (hwrite _ item.2) fun _ => .pure _
      exact .bind (.mapM hitem _) fun _ => .pure _
    | struct s =>
      refine .ite (.pure _) (.bind hextend fun _ => .read fun w => ?_)
      have hfields : ∀ head : Bytes, Averts status (do
          let fields ← (← readTable (w.struct s).fields).items.mapM fun field => do
            return field.1 ++ ascii " = " ++ (← writeAt host fuel (.struct s :: path) field.2)
          return head ++ ascii "(" ++ Bytes.joined (ascii ", ") fields ++ ascii ")" : Run ε Bytes) := fun head =>
        .readTable fun T => .bind (.mapM (fun field : Bytes × Value => .bind (hwrite _ field.2) fun _ => .pure _) _) fun _ =>
          .pure _
      dsimp only
      split
      · exact .bind (.pure _) hfields
      · exact .bind (hwrite _ _) hfields

theorem display_averts (x : Value) : Averts status (display host x) := .onTrail (.read fun _ => writeAt_averts hs hh _ [] x)

/-! ## Looking up -/

omit hs hh in
theorem firstEqual_averts {κ : Type} {equal : κ → κ → Run ε Bool} {key : κ} (h : ∀ other, Averts status (equal key other)) :
    ∀ candidates : List (Nat × κ), Averts status (firstEqual equal key candidates)
  | [] => .pure none
  | (_, k) :: rest => .bind (h k) fun _ => .ite (.pure _) (firstEqual_averts h rest)

omit hs hh in
theorem scan_averts {keying : Keying ε kind.Key} (hk : keying.Averts status) (t : TableId kind) (key : kind.Key)
    (hash : UInt32) : Averts status (scan keying t key hash) :=
  .readTable fun _ => .holding t (firstEqual_averts (hk.equal key) _)

omit hs hh in
theorem lookup_averts {keying : Keying ε kind.Key} (hk : keying.Averts status) (t : TableId kind) (key : kind.Key) :
    Averts status (lookup keying t key) := by
  refine .bind (.bind (hk.hash key) fun _ => scan_averts hk t key _) fun found => ?_
  cases found with
  | none => exact .pure none
  | some i => exact .readTable fun _ => .pure _

/-! ## Comparing -/

omit hs hh in
theorem itemsEqual_averts {equal : Value → Value → Run ε Bool} {get? : Value → Run ε (Option Value)}
    (h : ∀ x y, Averts status (equal x y)) (hget : ∀ key, Averts status (get? key)) :
    ∀ items : List (Value × Value), Averts status (itemsEqual equal get? items)
  | [] => .pure _
  | (key, x) :: rest => by
    refine .bind (hget key) fun found => ?_
    cases found with
    | none => exact .pure _
    | some y => exact .bind (h x y) fun _ => .ite (itemsEqual_averts h hget rest) (.pure _)

omit hs hh in
theorem fieldsEqual_averts {equal : Value → Value → Run ε Bool} (h : ∀ x y, Averts status (equal x y)) :
    ∀ xs ys : List (Bytes × Value), Averts status (fieldsEqual equal xs ys)
  | [], _ => .pure _
  | _ :: _, [] => .pure _
  | (_, x) :: xs, (_, y) :: ys => .ite (.pure _) (.bind (h x y) fun _ => .ite (fieldsEqual_averts h xs ys) (.pure _))

theorem sameConstructor_averts {equal : Value → Value → Run ε Bool} (h : ∀ x y, Averts status (equal x y))
    (use : ConstructorUse) (x y : Value) : Averts status (sameConstructor equal host use x y) := by
  refine .protect_bind hs.memory (h x y) (fun _ => .pure _) fun s hne => .read fun _ => ?_
  exact .bind (display_averts hs hh x) fun _ => .bind (display_averts hs hh y) fun _ => .raise hne

theorem equalAt_averts : ∀ (fuel : Nat) (depth : Int) (x y : Value), Averts status (equalAt host fuel depth x y)
  | 0, _, _, _ => .stop nofun
  | fuel + 1, depth, x, y => by
    have hfully := equalAt_averts fuel fullBudget
    have hbelow := equalAt_averts fuel (depth - 1)
    by_cases hd : depth < 1
    · intro w
      rw [equalAt_spent hd]
      exact Averts.raise (f := .depthExceeded) (α := Bool) hs.depthExceeded w
    rcases pair_cases x y with ⟨a, b, rfl, rfl⟩ | ⟨a, b, rfl, rfl⟩ | ⟨a, b, rfl, rfl⟩ | hapart
    · rw [equalAt_dicts hd]
      have hkeying : Keying.Averts status (⟨hashValue host, equalAt host fuel fullBudget⟩ : Keying ε (KeyKind.Key .any)) :=
        ⟨hashValue_averts hs hh, hfully⟩
      refine .ite (.pure _) (.readTable fun _ => .readTable fun _ => .ite (.pure _) (.holding a (.readTable fun _ => ?_)))
      exact itemsEqual_averts hbelow (lookup_averts hkeying b) _
    · rw [equalAt_structs hd]
      refine .read fun w => .ite (.pure _) (.bind (sameConstructor_averts hs hh hfully .equality _ _) fun _ => ?_)
      exact .ite (.read fun _ => fieldsEqual_averts hbelow _ _) (.pure _)
    · rw [equalAt_hosts hd]
      exact .read fun w => .ite (hh.equal a b depth) (.pure _)
    · intro w
      rw [run_equalAt_apart hapart fuel (by omega)]
      nofun

/-- **A comparison raises no status but its own and those that the host raises.** -/
theorem equalWithin_averts (depth : Int) (x y : Value) : Averts status (equalWithin host depth x y) :=
  .read fun _ => equalAt_averts hs hh _ depth x y

/-- Neither does anything that is done with keys. -/
theorem keyingOf_averts (kind : KeyKind) : (keyingOf host kind).Averts status := by
  cases kind with
  | any => exact ⟨hashValue_averts hs hh, equalWithin_averts hs hh fullBudget⟩
  | text => exact textKeying_averts

end

end ValueCore
