import ValueCore.Proofs.Operations.Reads

/-!
# The same run again

A computation repeats another one if it returns whatever the other returns (`Repeats`), in a world that may differ
in what the host keeps. So does each comparison with a greater budget: what it does is, step by step, what it did
with the smaller one (`repeats_equalAt`). Values of the host take part in this if their own equality does
(`Host.Monotone`), as that of a box does which compares its contents with one unit less.

Only what is returned is repeated. A computation that fails with the smaller budget may do anything with the greater
one.
-/

namespace ValueCore

open World

variable {ε α β : Type} {w w' v v' : World ε} {kind : KeyKind} {t : TableId kind} {host : Host ε} {E : ε → ε → Prop}

/-! ## Repeating -/

/-- The same world but for the host's part, where the two are related. -/
def World.Paired (E : ε → ε → Prop) (w v : World ε) : Prop := ∃ e, E w.env e ∧ v = { w with env := e }

namespace World.Paired

theorem table (h : Paired E w v) (t : TableId kind) : v.table t = w.table t := by
  obtain ⟨e, _, rfl⟩ := h
  exact table_congr rfl rfl t

theorem structs (h : Paired E w v) : v.structs = w.structs := by
  obtain ⟨e, _, rfl⟩ := h
  rfl

theorem struct (h : Paired E w v) (s : StructId) : v.struct s = w.struct s := by simp only [World.struct, h.structs]

theorem modifyTable (h : Paired E w v) (t : TableId kind) (f : Table kind.Key → Table kind.Key) :
    Paired E (w.modifyTable t f) (v.modifyTable t f) := by
  obtain ⟨e, he, rfl⟩ := h
  refine ⟨e, by rw [env_modifyTable]; exact he, ?_⟩
  cases kind <;> rfl

theorem message (h : Paired E w v) (text : Bytes) : Paired E { w with message := text } { v with message := text } := by
  obtain ⟨e, he, rfl⟩ := h
  exact ⟨e, he, rfl⟩

end World.Paired

/-- Whatever `act` returns, `act'` returns in every paired world, and the worlds they leave are paired. -/
structure Repeats (E : ε → ε → Prop) (act act' : Run ε α) : Prop where
  run : ∀ {w v : World ε} {a : α} {w' : World ε}, Paired E w v → act w = (.ok a, w') →
    ∃ v', act' v = (.ok a, v') ∧ Paired E w' v'

namespace Repeats

variable {act act' : Run ε α}

theorem pure (a : α) : Repeats E (pure a : Run ε α) (pure a) := by
  refine ⟨fun {w v b w'} hp hr => ?_⟩
  cases hr
  exact ⟨v, rfl, hp⟩

/-- What never returns has nothing to repeat. -/
theorem of_error (h : ∀ w, (act w).1.toOption = none) : Repeats E act act' := by
  refine ⟨fun {w v a w'} _ hr => ?_⟩
  have := h w
  rw [hr] at this
  cases this

theorem bind {x x' : Run ε α} {f f' : α → Run ε β} (hx : Repeats E x x') (hf : ∀ a, Repeats E (f a) (f' a)) :
    Repeats E (x >>= f) (x' >>= f') := by
  refine ⟨fun {w v b w'} hp hr => ?_⟩
  cases hxr : x w with
  | mk r u =>
    cases r with
    | error e =>
      rw [run_bind_error hxr] at hr
      cases hr
    | ok a =>
      rw [run_bind_ok hxr] at hr
      obtain ⟨u', hu', hpu⟩ := hx.run hp hxr
      obtain ⟨v', hv', hpv⟩ := (hf a).run hpu hr
      exact ⟨v', by rw [run_bind_ok hu', hv'], hpv⟩

theorem get {f f' : World ε → Run ε β} (h : ∀ w v, Paired E w v → Repeats E (f w) (f' v)) :
    Repeats E (get >>= f) (get >>= f') := by
  refine ⟨fun {w v b w'} hp hr => ?_⟩
  rw [run_bind_ok (run_get w)] at hr
  rw [run_bind_ok (run_get v)]
  exact (h w v hp).run hp hr

theorem readTable (t : TableId kind) : Repeats E (readTable t : Run ε _) (readTable t) := by
  refine ⟨fun {w v T w'} hp hr => ?_⟩
  cases hr
  exact ⟨v, by rw [run_readTable, hp.table], hp⟩

theorem holding (h : Repeats E act act') (t : TableId kind) : Repeats E (holding t act) (holding t act') := by
  refine ⟨fun {w v a w'} hp hr => ?_⟩
  have htable := hp.table t
  cases hf : (w.table t).frozen with
  | true =>
    rw [run_holding_of_frozen hf] at hr
    rw [run_holding_of_frozen (by rw [htable, hf])]
    exact h.run hp hr
  | false =>
    rw [run_holding hf] at hr
    obtain ⟨ha, rfl⟩ := Prod.mk.injEq .. ▸ hr
    obtain ⟨v', hv', hpv⟩ := h.run (hp.modifyTable t _) (Prod.ext ha rfl)
    refine ⟨v'.letGo t, ?_, hpv.modifyTable t _⟩
    rw [run_holding (by rw [htable, hf]), World.held, hv']

end Repeats

/-- Hashing and comparing values of the host repeats itself, comparing with every greater budget, too. What the
host keeps may depend on the budget, as far as `E` allows: it may count how often it is asked. -/
structure Host.Monotone (E : ε → ε → Prop) (host : Host ε) : Prop where
  sameClass : ∀ {w v : World ε} (a b : HostId), Paired E w v → host.sameClass a b v = host.sameClass a b w
  hash : ∀ a : HostId, Repeats E (host.hash a) (host.hash a)
  equal : ∀ (a b : HostId) {d d' : Int}, d ≤ d' → Repeats E (host.equal a b d) (host.equal a b d')

/-! ## Hashing and looking up -/

theorem repeats_hashFields {hash : Value → Run ε UInt32} (hh : ∀ x, Repeats E (hash x) (hash x)) :
    ∀ (fields : List (Bytes × Value)) (s : StructHash), Repeats E (hashFields hash fields s) (hashFields hash fields s)
  | [], _ => .pure _
  | (_, value) :: rest, _ => (hh value).bind fun _ => repeats_hashFields hh rest _

theorem repeats_hashAt (hE : host.Monotone E) : ∀ (fuel : Nat) (x : Value),
    Repeats E (hashAt host fuel x) (hashAt host fuel x)
  | 0, _ => .of_error fun _ => rfl
  | fuel + 1, x => by
    cases x with
    | none | bool | int | float | str => exact .pure _
    | host a => exact hE.hash a
    | dict t => exact .of_error fun _ => rfl
    | struct s =>
      refine .get fun w v hp => ?_
      rw [hp.struct s, hp.table]
      exact repeats_hashFields (repeats_hashAt hE fuel) _ _

theorem repeats_hashValue (hE : host.Monotone E) (x : Value) : Repeats E (hashValue host x) (hashValue host x) := by
  refine .get fun w v hp => ?_
  rw [hp.structs]
  exact repeats_hashAt hE _ x

theorem repeats_firstEqual {κ : Type} {equal equal' : κ → κ → Run ε Bool} {key : κ}
    (h : ∀ k, Repeats E (equal key k) (equal' key k)) : ∀ cands : List (Nat × κ),
      Repeats E (firstEqual equal key cands) (firstEqual equal' key cands)
  | [] => .pure _
  | (slot, k) :: rest => by
    refine (h k).bind fun verdict => ?_
    cases verdict with
    | true => exact .pure _
    | false => exact repeats_firstEqual h rest

theorem repeats_lookup {keying keying' : Keying ε kind.Key} {key : kind.Key}
    (hhash : Repeats E (keying.hash key) (keying'.hash key))
    (hequal : ∀ k, Repeats E (keying.equal key k) (keying'.equal key k)) (t : TableId kind) :
    Repeats E (lookup keying t key) (lookup keying' t key) := by
  have hscan : ∀ hash, Repeats E (scan keying t key hash) (scan keying' t key hash) := fun hash =>
    (Repeats.readTable t).bind fun T => (repeats_firstEqual hequal _).holding t
  refine (hhash.bind fun hash => hscan (storedHash hash)).bind fun found => ?_
  cases found with
  | none => exact .pure _
  | some i => exact (Repeats.readTable t).bind fun T => .pure _

/-! ## Comparing -/

section
variable {equal equal' : Value → Value → Run ε Bool} (h : ∀ x y, Repeats E (equal x y) (equal' x y))
include h

theorem repeats_itemsEqual {get? get?' : Value → Run ε (Option Value)} (hget : ∀ key, Repeats E (get? key) (get?' key)) :
    ∀ items : List (Value × Value), Repeats E (itemsEqual equal get? items) (itemsEqual equal' get?' items)
  | [] => .pure _
  | (key, x) :: rest => by
    refine (hget key).bind fun found => ?_
    cases found with
    | none => exact .pure _
    | some y =>
      refine (h x y).bind fun verdict => ?_
      cases verdict with
      | true => exact repeats_itemsEqual hget rest
      | false => exact .pure _

theorem repeats_fieldsEqual : ∀ xs ys : List (Bytes × Value),
    Repeats E (fieldsEqual equal xs ys) (fieldsEqual equal' xs ys)
  | [], _ => .pure _
  | _ :: _, [] => .pure _
  | (m, x) :: xs, (n, y) :: ys => by
    unfold fieldsEqual
    split
    · exact .pure _
    · refine (h x y).bind fun verdict => ?_
      cases verdict with
      | true => exact repeats_fieldsEqual xs ys
      | false => exact .pure _

/-- An error in the comparison of two constructors stays one, so only a verdict is there to be repeated. -/
theorem repeats_sameConstructor (use : ConstructorUse) (x y : Value) :
    Repeats E (sameConstructor equal host use x y) (sameConstructor equal' host use x y) := by
  refine ⟨fun {w v b w'} hp hr => ?_⟩
  have hsame : (sameConstructor equal host use x y w).1.toOption = (equal x y w).1.toOption := toOption_sameConstructor
  have hanswer : (equal x y w).1.toOption = some b := by
    rw [← hsame, hr]
    rfl
  cases hx : equal x y w with
  | mk r u =>
    rw [hx] at hanswer
    cases r with
    | error e => cases hanswer
    | ok c =>
      cases hanswer
      rw [run_sameConstructor hx] at hr
      cases hr
      obtain ⟨u', hu', hpu⟩ := (h x y).run hp hx
      exact ⟨_, run_sameConstructor hu' use, hpu.message []⟩

theorem repeats_dictsEqual {keying keying' : Keying ε Value} (hhash : ∀ key, Repeats E (keying.hash key) (keying'.hash key))
    (hkeys : ∀ a b, Repeats E (keying.equal a b) (keying'.equal a b)) (x y : TableId .any) :
    Repeats E (dictsEqual keying equal x y) (dictsEqual keying' equal' x y) := by
  have hget : ∀ key : Value, Repeats E (@lookup ε .any keying y key) (@lookup ε .any keying' y key) :=
    fun key => @repeats_lookup _ .any _ keying keying' key (hhash key) (hkeys key) y
  refine (Repeats.readTable x).bind fun T => (Repeats.readTable y).bind fun U => ?_
  split
  · exact .pure _
  · exact .holding ((Repeats.readTable x).bind fun T => repeats_itemsEqual h hget _) x

theorem repeats_structsEqual {fully fully' : Value → Value → Run ε Bool}
    (hfully : ∀ x y, Repeats E (fully x y) (fully' x y)) (x y : StructId) :
    Repeats E (structsEqual fully equal host x y) (structsEqual fully' equal' host x y) := by
  refine .get fun w v hp => ?_
  dsimp only
  rw [hp.struct x, hp.struct y, hp.table, hp.table]
  split
  · exact .pure _
  · refine (repeats_sameConstructor hfully .equality _ _).bind fun verdict => ?_
    cases verdict with
    | false => exact .pure _
    | true =>
      refine .get fun u u' hpu => ?_
      rw [hpu.table, hpu.table]
      exact repeats_fieldsEqual h _ _

end

/-- **A comparison that returns is repeated with every greater budget**, in as many nested steps or more. The
induction is on the steps; keys and constructors start again with the full budget on both sides. -/
theorem repeats_equalAt (hE : host.Monotone E) : ∀ {fuel fuel' : Nat} {d d' : Int} (x y : Value), fuel ≤ fuel' → d ≤ d' →
    Repeats E (equalAt host fuel d x y) (equalAt host fuel' d' x y)
  | 0, _, _, _, _, _, _, _ => .of_error fun _ => rfl
  | _ + 1, 0, _, _, _, _, hf, _ => by omega
  | fuel + 1, fuel' + 1, d, d', x, y, hf, hd => by
    have hf' : fuel ≤ fuel' := by omega
    have hfully : ∀ x y, Repeats E (equalAt host fuel fullBudget x y) (equalAt host fuel' fullBudget x y) :=
      fun x y => repeats_equalAt hE x y hf' (Int.le_refl _)
    have hbelow : ∀ x y, Repeats E (equalAt host fuel (d - 1) x y) (equalAt host fuel' (d' - 1) x y) :=
      fun x y => repeats_equalAt hE x y hf' (by omega)
    by_cases hspent : d < 1
    · exact .of_error fun w => by rw [equalAt_spent hspent]; rfl
    have hspent' : ¬ d' < 1 := by omega
    rcases pair_cases x y with ⟨a, b, rfl, rfl⟩ | ⟨a, b, rfl, rfl⟩ | ⟨a, b, rfl, rfl⟩ | happart
    · rw [equalAt_dicts hspent, equalAt_dicts hspent']
      split
      · exact .pure _
      · exact repeats_dictsEqual hbelow (repeats_hashValue hE) hfully a b
    · rw [equalAt_structs hspent, equalAt_structs hspent']
      exact repeats_structsEqual hbelow hfully a b
    · rw [equalAt_hosts hspent, equalAt_hosts hspent']
      refine .get fun w v hp => ?_
      rw [hE.sameClass a b hp]
      split
      · exact hE.equal a b hd
      · exact .pure _
    · refine ⟨fun {w v r w'} hp hr => ?_⟩
      rw [run_equalAt_apart happart fuel (by omega)] at hr
      cases hr
      exact ⟨v, run_equalAt_apart happart fuel' (by omega) v, hp⟩

theorem repeats_equalWithin (hE : host.Monotone E) {d d' : Int} (x y : Value) (hd : d ≤ d') :
    Repeats E (equalWithin host d x y) (equalWithin host d' x y) := by
  refine .get fun w v hp => repeats_equalAt hE x y ?_ hd
  unfold comparisonFuel
  rw [hp.structs]
  omega

end ValueCore
