import ValueCore.Equality
import ValueCore.Proofs.Verdict.Basic
import ValueCore.Proofs.World.Plain

/-!
# Hashing, comparing and writing change nothing

Among values without any of the host's in them (`World.Region`), hashing and comparing answer what `hashOf` and
`verdict` compute from the world, and leave tables, structs and the host's part alone (`Yields`). Writing leaves
them alone, too; what it answers depends on the memory that is granted.

The value on the left of a comparison is one of the region. The other one is either, too, or it is the host's
itself and then not compared at all: hence the hypothesis `y.Plain → C y`.

The proofs follow the definitions of both sides, which have the same shape.
-/

namespace ValueCore

open World

variable {ε α β : Type} {w v : World ε} {kind : KeyKind} {t : TableId kind} {host : Host ε} {C : Value → Prop}

/-! ## Writing -/

section
variable (hC : w.Region C)
include hC

theorem undisturbed_dictText {write : Value → Run ε Bytes}
    (hwrite : ∀ (x : Value) (v : World ε), C x → w.Undisturbed v (write x v).2) {t : TableId .any} (ht : C (.dict t)) :
    w.Undisturbed v (dictText write t v).2 := by
  have hd := undisturbed_drift w
  unfold dictText
  refine undisturbed_holding fun v hv => ?_
  refine hd.bind (hd.alike (.refl v)) (fun T u hr _ => ?_) hv
  cases hr
  refine hd.bind (hd.mapM _ fun item hm u _ => ?_) fun _ _ _ _ => hd.pure _
  obtain ⟨hkey, hvalue⟩ := hC.item ht item (hv.items t ▸ hm)
  refine hd.bind (hwrite item.1 u hkey) fun _ u _ _ => ?_
  exact hd.bind (hwrite item.2 u hvalue) fun _ _ _ _ => hd.pure _

theorem undisturbed_structText {write : Value → Run ε Bytes}
    (hwrite : ∀ (x : Value) (v : World ε), C x → w.Undisturbed v (write x v).2) {s : StructId} (hs : C (.struct s)) :
    w.Undisturbed v (structText write s v).2 := by
  intro hv
  have hd := undisturbed_drift w
  have hbody : ∀ (head : Bytes) (u : World ε), w.Undisturbed u ((do
      let fields ← (← readTable (w.struct s).fields).items.mapM fun field => do
        return field.1 ++ ascii " = " ++ (← write field.2)
      return head ++ ascii "(" ++ Bytes.joined (ascii ", ") fields ++ ascii ")" : Run ε Bytes) u).2 := by
    intro head u hu
    refine hd.bind (hd.alike (.refl u)) (fun T u' hr _ => ?_) hu
    cases hr
    refine hd.bind (hd.mapM _ fun field hm u' _ => ?_) fun _ _ _ _ => hd.pure _
    have hvalue := hC.field hs field (hu.items _ ▸ hm)
    exact hd.bind (hwrite field.2 u' hvalue) fun _ _ _ _ => hd.pure _
  unfold structText
  rw [run_bind_ok (run_get v)]
  dsimp only
  rw [hv.struct s]
  split
  · rw [run_bind_ok (run_pure _ v)]
    exact hbody _ v hv
  · exact hd.bind (hwrite (w.struct s).ctor v (hC.ctor hs)) (fun head u _ _ => hbody head u) hv

theorem undisturbed_writeAt : ∀ (fuel : Nat) (path : List Value) (x : Value) (v : World ε), C x →
    w.Undisturbed v (writeAt host fuel path x v).2
  | 0, _, _, _, _ => (undisturbed_drift w).throw _
  | fuel + 1, path, x, v, hx => by
    have hd := undisturbed_drift w
    unfold writeAt
    cases x with
    | none | bool | int | float | str => exact hd.pure _
    | host i => exact False.elim (hC.plain hx)
    | dict t =>
      dsimp only
      split
      · exact hd.pure _
      · exact hd.bind (hd.asks (asks_extendTrail _)) fun _ v _ _ => undisturbed_dictText hC (undisturbed_writeAt fuel _) hx
    | struct s =>
      dsimp only
      split
      · exact hd.pure _
      · exact hd.bind (hd.asks (asks_extendTrail _)) fun _ v _ _ => undisturbed_structText hC (undisturbed_writeAt fuel _) hx

theorem undisturbed_display {x : Value} (hx : C x) : w.Undisturbed v (display host x v).2 := by
  have hd := undisturbed_drift w
  exact hd.onTrail fun v _ => hd.bind (hd.alike (.refl v)) fun _ u _ _ => undisturbed_writeAt hC _ [] x u hx

end

/-- **Writing a value changes nothing.** -/
theorem calm_display {x : Value} (hx : x.Plain) : Calm w (display host x w).2 :=
  fun hw => undisturbed_display hw.region hx (.refl w)

theorem calm_displayStruct (s : StructId) : Calm w (displayStruct host s w).2 := by
  intro hw
  have hd := undisturbed_drift w
  have hs : (Value.struct s).Plain := trivial
  refine hd.onTrail (fun v _ => hd.bind (hd.alike (.refl v)) fun _ u _ _ => ?_) (.refl w)
  exact undisturbed_structText hw.region (undisturbed_writeAt hw.region _ []) hs

/-! ## What a computation yields -/

/-- In every world of the stores of `w` the computation answers `o`, where `none` stands for any failure, and
leaves tables, structs and the host's part alone. -/
structure World.Yields (w : World ε) (act : Run ε α) (o : Option α) : Prop where
  alike : ∀ v, SameStores w v → Alike v (act v).2
  answer : ∀ v, SameStores w v → (act v).1.toOption = o

/-- The answer in the world itself. -/
theorem World.Yields.value {act : Run ε α} {o : Option α} {a : α} (h : w.Yields act o) (hr : (act w).1 = .ok a) :
    o = some a := by
  rw [← h.answer w (.refl w), hr]
  rfl

theorem World.Yields.returns {act : Run ε α} {a : α} (h : w.Yields act (some a)) (hv : SameStores w v) :
    (act v).1 = .ok a := by
  have hanswer := h.answer v hv
  cases hr : (act v).1 with
  | ok b =>
    rw [hr] at hanswer
    cases hanswer
    rfl
  | error e =>
    rw [hr] at hanswer
    cases hanswer

theorem toOption_bind {x : Run ε α} {f : α → Run ε β} (h : ∀ a v, (f a v).1.toOption = none) :
    ((x >>= f) w).1.toOption = none := by
  cases hr : x w with
  | mk r v =>
    cases r with
    | error e =>
      rw [run_bind_error hr]
      rfl
    | ok a =>
      rw [run_bind_ok hr]
      exact h a v

namespace World.Yields

theorem congr {act act' : Run ε α} {o : Option α} (h : w.Yields act o) (heq : ∀ v, SameStores w v → act' v = act v) :
    w.Yields act' o :=
  ⟨fun v hv => by rw [heq v hv]; exact h.alike v hv, fun v hv => by rw [heq v hv]; exact h.answer v hv⟩

theorem unique {act : Run ε α} {o o' : Option α} (h : w.Yields act o) (h' : w.Yields act o') : o = o' :=
  (h.answer w (.refl w)).symm.trans (h'.answer w (.refl w))

theorem pure (a : α) : w.Yields (pure a : Run ε α) (some a) := ⟨fun v _ => .refl v, fun _ _ => rfl⟩

theorem throw (e : Failure) : w.Yields (throw e : Run ε α) none := ⟨fun v _ => .refl v, fun _ _ => rfl⟩

theorem raise (f : Fault) : w.Yields (raise f : Run ε α) none := ⟨fun _ _ => ⟨rfl, rfl, rfl, rfl⟩, fun _ _ => rfl⟩

theorem bind {x : Run ε α} {f : α → Run ε β} {o : Option α} {g : α → Option β} (hx : w.Yields x o)
    (hf : ∀ a, o = some a → w.Yields (f a) (g a)) : w.Yields (x >>= f) (o.bind g) := by
  have key : ∀ v, SameStores w v → Alike v ((x >>= f) v).2 ∧ ((x >>= f) v).1.toOption = o.bind g := by
    intro v hv
    have halike := hx.alike v hv
    have hanswer := hx.answer v hv
    cases hr : x v with
    | mk r u =>
      rw [hr] at halike hanswer
      subst hanswer
      cases r with
      | error e =>
        rw [run_bind_error hr]
        exact ⟨halike, rfl⟩
      | ok a =>
        rw [run_bind_ok hr]
        have hu := hv.alike halike
        exact ⟨halike.trans ((hf a rfl).alike u hu), (hf a rfl).answer u hu⟩
  exact ⟨fun v hv => (key v hv).1, fun v hv => (key v hv).2⟩

/-- Reading answers with something that is the same in all worlds of the same stores. -/
theorem read {x : World ε → α} {f : α → Run ε β} {o : Option β} (h : ∀ v, SameStores w v → w.Yields (f (x v)) o)
    {act : Run ε α} (hact : ∀ v, act v = (.ok (x v), v)) : w.Yields (act >>= f) o := by
  refine ⟨fun v hv => ?_, fun v hv => ?_⟩
  · rw [run_bind_ok (hact v)]
    exact (h v hv).alike v hv
  · rw [run_bind_ok (hact v)]
    exact (h v hv).answer v hv

theorem get {f : World ε → Run ε β} {o : Option β} (h : ∀ v, SameStores w v → w.Yields (f v) o) :
    w.Yields (get >>= f) o := read h run_get

theorem readTable {f : Table kind.Key → Run ε β} {o : Option β} (h : ∀ v, SameStores w v → w.Yields (f (v.table t)) o) :
    w.Yields (readTable t >>= f) o := read h (run_readTable t)

theorem holding {act : Run ε α} {o : Option α} (h : w.Yields act o) : w.Yields (holding t act) o := by
  refine ⟨fun v hv => ?_, fun v hv => ?_⟩
  · cases hf : (v.table t).frozen with
    | true =>
      rw [run_holding_of_frozen hf]
      exact h.alike v hv
    | false =>
      rw [run_holding hf]
      exact letGo_held t (h.alike _ (hv.held t))
  · cases hf : (v.table t).frozen with
    | true =>
      rw [run_holding_of_frozen hf]
      exact h.answer v hv
    | false =>
      rw [run_holding hf]
      exact h.answer _ (hv.held t)

end World.Yields

/-! ## Hashing -/

theorem yields_hashFields {hash : Value → Run ε UInt32} {of : Value → Option UInt32} :
    ∀ (fields : List (Bytes × Value)) (s : StructHash), (∀ field ∈ fields, w.Yields (hash field.2) (of field.2)) →
      w.Yields (hashFields hash fields s) (hashFieldsOf of fields s)
  | [], _, _ => .pure _
  | (name, value) :: rest, s, h => by
    refine (h (name, value) List.mem_cons_self).bind fun a _ => ?_
    exact yields_hashFields rest _ fun field hm => h field (List.mem_cons_of_mem _ hm)

theorem yields_hashAt : ∀ (fuel : Nat) (x : Value), ¬ w.Hosted x → w.Yields (hashAt host fuel x) (w.hashOf fuel x)
  | 0, _, _ => .throw _
  | fuel + 1, x, hx => by
    cases x with
    | none | bool | int | float | str => exact .pure _
    | host i => exact absurd (.host i) hx
    | dict t => exact .get fun _ _ => .raise _
    | struct s =>
      refine .get fun v hv => ?_
      rw [hv.struct s, hv.items]
      exact yields_hashFields _ _ fun field hm => yields_hashAt fuel field.2 fun h => hx (.field hm h)

/-- **The hash of a value is computed from the world**, unless it comes to a value of the host. -/
theorem yields_hashValue {x : Value} (hx : ¬ w.Hosted x) :
    w.Yields (hashValue host x) (w.hashOf (w.structs.size + 2) x) := by
  refine .get fun v hv => ?_
  rw [hv.structs]
  exact yields_hashAt _ x hx

/-! ## Scanning and looking up -/

theorem yields_firstEqual {κ : Type} {equal : κ → κ → Run ε Bool} {key : κ} {of : κ → Option Bool} :
    ∀ cands : List (Nat × κ), (∀ c ∈ cands, w.Yields (equal key c.2) (of c.2)) →
      w.Yields (firstEqual equal key cands) (firstVerdict of cands)
  | [], _ => .pure _
  | (slot, k) :: rest, h => by
    refine (h (slot, k) List.mem_cons_self).bind fun verdict _ => ?_
    cases verdict with
    | true => exact .pure _
    | false => exact yields_firstEqual rest fun c hc => h c (List.mem_cons_of_mem _ hc)

theorem yields_scan {keying : Keying ε kind.Key} {key : kind.Key} {of : kind.Key → Option Bool} (t : TableId kind)
    (hash : UInt32) (h : ∀ c ∈ (w.table t).candidates hash, w.Yields (keying.equal key c.2) (of c.2)) :
    w.Yields (scan keying t key hash) (firstVerdict of ((w.table t).candidates hash)) := by
  refine .readTable fun v hv => ?_
  dsimp only
  rw [hv.candidates]
  exact .holding (yields_firstEqual _ h)

theorem yields_lookup {keying : Keying ε (KeyKind.Key .any)} {key : Value} {hash : Value → Option UInt32}
    {of : Value → Value → Option Bool} (t : TableId .any) (hh : w.Yields (keying.hash key) (hash key))
    (h : ∀ a, hash key = some a → ∀ c ∈ (w.table t).candidates (storedHash a),
      w.Yields (keying.equal key c.2) (of key c.2)) :
    w.Yields (lookup keying t key) (findIn (w.table t) hash of key) := by
  unfold lookup findIn findSlot
  rw [bind_assoc]
  refine hh.bind fun a ha => ?_
  refine (yields_scan t (storedHash a) (h a ha)).bind fun found _ => ?_
  cases found with
  | none => exact .pure _
  | some i =>
    refine .readTable fun v hv => ?_
    rw [hv.slot]
    exact .pure _

/-! ## Comparing -/

section
variable {fuel : Nat} {depth : Int}

theorem equalAt_spent (hd : depth < 1) (x y : Value) (w : World ε) : equalAt host (fuel + 1) depth x y w =
    (.error (.raised .depthExceeded), { w with message := Fault.depthExceeded.message }) := by
  unfold equalAt
  rw [if_pos hd]
  rfl

theorem equalAt_dicts (hd : ¬ depth < 1) (a b : TableId .any) : equalAt host (fuel + 1) depth (.dict a) (.dict b) =
    if a = b then pure true
    else dictsEqual ⟨hashValue host, equalAt host fuel fullBudget⟩ (equalAt host fuel (depth - 1)) a b := by
  rw [equalAt, if_neg hd]
  rfl

theorem equalAt_structs (hd : ¬ depth < 1) (a b : StructId) : equalAt host (fuel + 1) depth (.struct a) (.struct b) =
    structsEqual (equalAt host fuel fullBudget) (equalAt host fuel (depth - 1)) host a b := by
  rw [equalAt, if_neg hd]
  rfl

theorem equalAt_hosts (hd : ¬ depth < 1) (a b : HostId) : equalAt host (fuel + 1) depth (.host a) (.host b) =
    (get >>= fun w => if host.sameClass a b w then host.equal a b depth else pure false : Run ε Bool) := by
  rw [equalAt, if_neg hd]
  rfl

end

/-- A comparison of constructors that returns. -/
theorem run_sameConstructor {equal : Value → Value → Run ε Bool} {x y : Value} {b : Bool}
    (h : equal x y w = (.ok b, v)) (use : ConstructorUse) :
    sameConstructor equal host use x y w = (.ok b, { v with message := [] }) := by
  have hp : protect (equal x y) w = (.ok (.ok b), { v with message := [] }) := by
    unfold protect
    rw [h]
  unfold sameConstructor
  rw [run_bind_ok hp]
  rfl

/-- Constructors are compared to the same verdict as other values. If that fails then so does the report. -/
theorem toOption_sameConstructor {equal : Value → Value → Run ε Bool} {use : ConstructorUse} {x y : Value} :
    (sameConstructor equal host use x y w).1.toOption = (equal x y w).1.toOption := by
  have hfail : ∀ (status : Status) (u : World ε), ((do
      let inner := (← get).message
      let left ← display host x
      let right ← display host y
      ValueCore.raise (.constructorComparison use status left right inner) : Run ε Bool) u).1.toOption = none :=
    fun status u => toOption_bind fun _ _ => toOption_bind fun _ _ => toOption_bind fun _ _ => rfl
  unfold sameConstructor
  rw [run_bind]
  unfold protect
  cases hr : equal x y w with
  | mk r u =>
    rcases r with (status | _ | _ | reason) | b
    · exact hfail status u
    · exact hfail .memory _
    · rfl
    · rfl
    · rfl

theorem yields_itemsEqual {equal : Value → Value → Run ε Bool} {of : Value → Value → Option Bool}
    {get? : Value → Run ε (Option Value)} {find : Value → Option (Option Value)} : ∀ items : List (Value × Value),
      (∀ item ∈ items, w.Yields (get? item.1) (find item.1) ∧
        ∀ y, find item.1 = some (some y) → w.Yields (equal item.2 y) (of item.2 y)) →
      w.Yields (itemsEqual equal get? items) (itemsVerdict of find items)
  | [], _ => .pure _
  | (key, x) :: rest, h => by
    obtain ⟨hget, heq⟩ := h (key, x) List.mem_cons_self
    refine hget.bind fun found hfound => ?_
    cases found with
    | none => exact .pure _
    | some y =>
      refine (heq y hfound).bind fun verdict _ => ?_
      cases verdict with
      | true => exact yields_itemsEqual rest fun item hm => h item (List.mem_cons_of_mem _ hm)
      | false => exact .pure _

theorem yields_fieldsEqual {equal : Value → Value → Run ε Bool} {of : Value → Value → Option Bool} :
    ∀ xs ys : List (Bytes × Value), (∀ f ∈ xs, ∀ g ∈ ys, w.Yields (equal f.2 g.2) (of f.2 g.2)) →
      w.Yields (fieldsEqual equal xs ys) (fieldsVerdict of xs ys)
  | [], _, _ => .pure _
  | _ :: _, [], _ => .pure _
  | (m, x) :: xs, (n, y) :: ys, h => by
    unfold fieldsEqual fieldsVerdict
    split
    · exact .pure _
    · refine (h (m, x) List.mem_cons_self (n, y) List.mem_cons_self).bind fun verdict _ => ?_
      cases verdict with
      | true =>
        exact yields_fieldsEqual xs ys fun f hf g hg => h f (List.mem_cons_of_mem _ hf) g (List.mem_cons_of_mem _ hg)
      | false => exact .pure _

/-- What is found in a table is the value of one of its items. -/
theorem item_of_findIn {T : Table Value} (h : T.Sound) {hash : Value → Option UInt32}
    {of : Value → Value → Option Bool} {key y : Value} (hf : findIn T hash of key = some (some y)) :
    ∃ k a, (k, y) ∈ T.items ∧ hash key = some a ∧ of key k = some true ∧
      ∃ i, (i, k) ∈ T.candidates (storedHash a) := by
  obtain ⟨a, ha, hf⟩ := Option.bind_eq_some_iff.1 hf
  obtain ⟨found, hfound, hf⟩ := Option.bind_eq_some_iff.1 hf
  cases found with
  | none => cases hf
  | some i =>
    obtain ⟨k, hk, heq⟩ := firstVerdict_eq_some hfound
    obtain ⟨e, he, _, hek, hm⟩ := h.item_of_candidate hk
    obtain rfl : e.key = k := hek
    obtain rfl : e.value = y := by simpa [he] using hf
    exact ⟨e.key, a, hm, ha, heq, i, hk⟩

section
variable (hC : w.Region C)
include hC

theorem yields_sameConstructor {equal : Value → Value → Run ε Bool} {x y : Value} {o : Option Bool} (hx : C x)
    (hy : C y) (h : w.Yields (equal x y) o) (use : ConstructorUse) :
    w.Yields (sameConstructor equal host use x y) o := by
  have hd := undisturbed_drift w
  refine ⟨fun v hv => ?_, fun v hv => ?_⟩
  · refine hd.bind (hd.protect (h.alike v)) (fun verdict u _ _ => ?_) hv
    cases verdict with
    | ok b => exact hd.pure _
    | error status =>
      refine hd.bind (hd.alike (.refl u)) fun _ u _ _ => ?_
      refine hd.bind (undisturbed_display hC hx) fun _ u _ _ => ?_
      exact hd.bind (undisturbed_display hC hy) fun _ _ _ _ => hd.raise _
  · rw [toOption_sameConstructor]
    exact h.answer v hv

theorem yields_dictsEqual {keying : Keying ε Value} {equal : Value → Value → Run ε Bool} {hash : Value → Option UInt32}
    {fully below : Value → Value → Option Bool} {a b : TableId .any} (ha : C (.dict a)) (hb : C (.dict b))
    (hhash : ∀ key : Value, C key → w.Yields (keying.hash key) (hash key))
    (hfully : ∀ x y : Value, C x → C y → w.Yields (keying.equal x y) (fully x y))
    (hbelow : ∀ x y : Value, C x → C y → w.Yields (equal x y) (below x y)) :
    w.Yields (dictsEqual keying equal a b) (if (w.table a).length != (w.table b).length then some false
      else itemsVerdict below (findIn (w.table b) hash fully) (w.table a).items) := by
  refine .readTable fun v hv => .readTable fun u hu => ?_
  rw [hv.length, hu.length]
  split
  · exact .pure _
  · refine .holding (.readTable fun v hv => ?_)
    rw [hv.items]
    refine yields_itemsEqual _ fun item hm => ?_
    obtain ⟨hkey, hvalue⟩ := hC.item ha item hm
    refine ⟨yields_lookup b (hhash _ hkey) fun _ _ c hc => hfully _ _ hkey (hC.candidate hb hc), fun y hy => ?_⟩
    obtain ⟨k, _, hk, _⟩ := item_of_findIn (hC.tables b) hy
    exact hbelow _ y hvalue (hC.item hb _ hk).2

theorem yields_structsEqual {equalFully equal : Value → Value → Run ε Bool} {fully below : Value → Value → Option Bool}
    {a b : StructId} (ha : C (.struct a)) (hb : C (.struct b))
    (hfully : ∀ x y : Value, C x → C y → w.Yields (equalFully x y) (fully x y))
    (hbelow : ∀ x y : Value, C x → C y → w.Yields (equal x y) (below x y)) :
    w.Yields (structsEqual equalFully equal host a b)
      (if (w.table (w.struct a).fields).length != (w.table (w.struct b).fields).length then some false
      else (fully (w.struct a).ctor (w.struct b).ctor).bind fun verdict =>
        if verdict then fieldsVerdict below (w.table (w.struct a).fields).items (w.table (w.struct b).fields).items
        else some false) := by
  refine .get fun v hv => ?_
  dsimp only
  rw [hv.struct a, hv.struct b, hv.length, hv.length]
  split
  · exact .pure _
  · have hctor := hfully _ _ (hC.ctor ha) (hC.ctor hb)
    refine (yields_sameConstructor hC (hC.ctor ha) (hC.ctor hb) hctor .equality).bind fun verdict _ => ?_
    cases verdict with
    | false => exact .pure _
    | true =>
      refine .get fun u hu => ?_
      rw [hu.items, hu.items]
      exact yields_fieldsEqual _ _ fun f hf g hg => hbelow _ _ (hC.field ha f hf) (hC.field hb g hg)

theorem yields_equalAt : ∀ (fuel : Nat) (depth : Int) (x y : Value), C x → (y.Plain → C y) →
    w.Yields (equalAt host fuel depth x y) (w.verdict fuel depth x y)
  | 0, _, _, _, _, _ => .throw _
  | fuel + 1, depth, x, y, hx, hy => by
    have hfully : ∀ x y : Value, C x → C y → w.Yields (equalAt host fuel fullBudget x y) (w.verdict fuel fullBudget x y) :=
      fun x y hx hy => yields_equalAt fuel fullBudget x y hx fun _ => hy
    have hbelow : ∀ x y : Value, C x → C y → w.Yields (equalAt host fuel (depth - 1) x y) (w.verdict fuel (depth - 1) x y) :=
      fun x y hx hy => yields_equalAt fuel (depth - 1) x y hx fun _ => hy
    by_cases hd : depth < 1
    · rw [verdict_spent hd]
      exact ⟨fun v _ => by rw [equalAt_spent hd]; exact ⟨rfl, rfl, rfl, rfl⟩, fun v _ => by rw [equalAt_spent hd]; rfl⟩
    · rcases pair_cases x y with ⟨a, b, rfl, rfl⟩ | ⟨a, b, rfl, rfl⟩ | ⟨a, b, rfl, rfl⟩ | h
      · rw [verdict_dicts hd, equalAt_dicts hd]
        split
        · exact .pure _
        · exact yields_dictsEqual hC hx (hy trivial) (fun key hk => yields_hashValue (hC.not_hosted hk)) hfully hbelow
      · rw [verdict_structs hd, equalAt_structs hd]
        exact yields_structsEqual hC hx (hy trivial) hfully hbelow
      · exact False.elim (hC.plain hx)
      · rw [verdict_apart hd h]
        have hrun : ∀ v : World ε, equalAt host (fuel + 1) depth x y v = (.ok (x.same y), v) :=
          fun v => run_equalAt_apart h fuel (by omega) v
        exact ⟨fun v _ => by rw [hrun v]; exact .refl v, fun v _ => by rw [hrun v]; rfl⟩

/-- **The verdict on two values is computed from the world.** -/
theorem yields_equalWithin {x y : Value} (hx : C x) (hy : y.Plain → C y) (depth : Int) :
    w.Yields (equalWithin host depth x y) (w.verdict (comparisonFuel w depth) depth x y) := by
  refine .get fun v hv => ?_
  rw [show comparisonFuel v depth = comparisonFuel w depth by simp only [comparisonFuel, hv.structs]]
  exact yields_equalAt hC _ depth x y hx hy

theorem yields_equalInside (depth : Int) (x y : Value) (hx : C x) (hy : C y) :
    w.Yields (equalWithin host depth x y) (w.verdict (comparisonFuel w depth) depth x y) :=
  yields_equalWithin hC hx (fun _ => hy) depth

end

end ValueCore
