import ValueCore.Proofs.Distinctness
import ValueCore.Proofs.Operations.Repeats
import ValueCore.Proofs.World.Parts

/-!
# The budget never changes a verdict

A comparison that returns with one budget returns the same with every greater one. So two budgets never contradict
each other, and all that a small budget can do is to fail. Some comparisons fail with every budget: that of two
dicts which contain themselves, and which nothing else tells apart (`World.Twins`).

| | with budget `d` | with budget `d'` | |
| --- | --- | --- | --- |
| `d ≤ d'` | returns `r` | returns `r` | `equalWithin_mono` |
| | returns `r` | returns `s` | `r = s`: `equalWithin_agree` |
| twins | `depthExceeded` | `depthExceeded` | `twins_exceed` |

If values of the host are compared then their own equality has to be like that. Values in which there are none may be
compared whatever the host does: it is not asked (`World.Indifferent`).
-/

namespace ValueCore

open World

variable {ε α β : Type} {I : Inventory ε} {w v : World ε} {kind : KeyKind} {host : Host ε} {E : ε → ε → Prop}
  {x y : Value}

/-! ## Greater budgets -/

/-- Values that do nothing when asked do so with every budget. -/
theorem mute_monotone : (mute : Host ε).Monotone E := ⟨fun _ _ _ => rfl, fun _ => .pure _, fun _ _ _ _ _ => .pure _⟩

/-- Nothing that comparing the two values comes to depends on the budget: they have no values of the host in them, or
the equality of those is monotone. -/
inductive World.Indifferent (I : Inventory ε) (w : World ε) (host : Host ε) (x y : Value) : Prop
  | hostFree : w.Sound I → w.HostFree x → w.HostFree y → Indifferent I w host x y
  | monotone {E : ε → ε → Prop} : host.Monotone E → E w.env w.env → Indifferent I w host x y

/-- Without values of the host in them, two values are compared alike by all hosts. -/
theorem returns_of_hostFree (h : w.Sound I) (hx : w.HostFree x) (hy : w.HostFree y) {d : Int} {r : Bool} {host : Host ε}
    (hr : (equalWithin host d x y w).1 = .ok r) (other : Host ε) : (equalWithin other d x y w).1 = .ok r := by
  have hverdict := (yields_equalInside (region_hostFree h.tables) d x y hx hy).value hr
  exact (hverdict ▸ yields_equalInside (region_hostFree h.tables) d x y hx hy).returns (.refl w)

/-- What returns with a budget returns the same with a greater one. -/
theorem equalWithin_mono (hi : w.Indifferent I host x y) {d d' : Int} (hd : d ≤ d') {r : Bool}
    (hr : (equalWithin host d x y w).1 = .ok r) : (equalWithin host d' x y w).1 = .ok r := by
  have hmono : ∀ {host : Host ε} {E : ε → ε → Prop}, host.Monotone E → E w.env w.env →
      (equalWithin host d x y w).1 = .ok r → (equalWithin host d' x y w).1 = .ok r := by
    intro host E hE hw hr
    obtain ⟨v, hv, _⟩ := (repeats_equalWithin hE x y hd).run ⟨w.env, hw, rfl⟩ (Prod.ext hr rfl)
    rw [hv]
  cases hi with
  | monotone hE hw => exact hmono hE hw hr
  | hostFree h hx hy =>
    have hmute := hmono mute_monotone rfl (returns_of_hostFree h hx hy hr mute)
    exact returns_of_hostFree h hx hy hmute host

/-- No two budgets contradict each other. -/
theorem equalWithin_agree (hi : w.Indifferent I host x y) {d d' : Int} {r s : Bool}
    (hr : (equalWithin host d x y w).1 = .ok r) (hs : (equalWithin host d' x y w).1 = .ok s) : r = s := by
  rcases Int.le_total d d' with hd | hd
  · have := equalWithin_mono hi hd hr
    rw [hs] at this
    cases this
    rfl
  · have := equalWithin_mono hi hd hs
    rw [hr] at this
    cases this
    rfl

/-! ## Dicts that contain themselves -/

/-- In every world of the stores of `w` the computation fails with `e`, and leaves tables, structs and the host's
part alone. -/
structure World.Fails (w : World ε) (act : Run ε α) (e : Failure) : Prop where
  alike : ∀ v, SameStores w v → Alike v (act v).2
  answer : ∀ v, SameStores w v → (act v).1 = .error e

namespace World.Fails

variable {e : Failure}

theorem congr {act act' : Run ε α} (h : w.Fails act e) (heq : ∀ v, SameStores w v → act' v = act v) : w.Fails act' e :=
  ⟨fun v hv => by rw [heq v hv]; exact h.alike v hv, fun v hv => by rw [heq v hv]; exact h.answer v hv⟩

theorem bind {x : Run ε α} (h : w.Fails x e) (f : α → Run ε β) : w.Fails (x >>= f) e := by
  have key : ∀ v, SameStores w v → (x >>= f) v = (.error e, (x v).2) := fun v hv =>
    run_bind_error (Prod.ext (h.answer v hv) rfl) f
  exact ⟨fun v hv => by rw [key v hv]; exact h.alike v hv, fun v hv => by rw [key v hv]⟩

theorem after {x : Run ε α} {a : α} {f : α → Run ε β} (hx : w.Yields x (some a)) (h : w.Fails (f a) e) :
    w.Fails (x >>= f) e := by
  have key : ∀ v, SameStores w v → ∃ u, SameStores w u ∧ Alike v u ∧ (x >>= f) v = f a u := by
    intro v hv
    have halike := hx.alike v hv
    have hanswer := hx.answer v hv
    cases hr : x v with
    | mk r u =>
      rw [hr] at halike hanswer
      cases r with
      | error _ => cases hanswer
      | ok b =>
        cases hanswer
        exact ⟨u, hv.alike halike, halike, run_bind_ok hr f⟩
  refine ⟨fun v hv => ?_, fun v hv => ?_⟩
  · obtain ⟨u, hu, halike, hrun⟩ := key v hv
    rw [hrun]
    exact halike.trans (h.alike u hu)
  · obtain ⟨u, hu, _, hrun⟩ := key v hv
    rw [hrun]
    exact h.answer u hu

theorem readTable {f : Table kind.Key → Run ε β} (h : ∀ v, SameStores w v → w.Fails (f (v.table t)) e) :
    w.Fails (readTable t >>= f) e := by
  have key : ∀ v, (ValueCore.readTable t >>= f) v = f (v.table t) v := fun v => run_bind_ok (run_readTable t v) f
  refine ⟨fun v hv => ?_, fun v hv => ?_⟩
  · rw [key]
    exact (h v hv).alike v hv
  · rw [key]
    exact (h v hv).answer v hv

theorem holding {act : Run ε α} (h : w.Fails act e) (t : TableId kind) : w.Fails (holding t act) e := by
  refine ⟨fun v hv => undisturbed_holding h.alike hv, fun v hv => ?_⟩
  cases hf : (v.table t).frozen with
  | true =>
    rw [run_holding_of_frozen hf]
    exact h.answer v hv
  | false =>
    rw [run_holding hf]
    exact h.answer _ (hv.held t)

end World.Fails

/-- Comparing items fails if one comparison does that it must come to, and no other one says no. -/
theorem fails_itemsEqual {equal : Value → Value → Run ε Bool} {get? : Value → Run ε (Option Value)} {e : Failure} :
    ∀ items : List (Value × Value),
      (∀ item ∈ items, ∃ y, w.Yields (get? item.1) (some (some y)) ∧
        (w.Yields (equal item.2 y) (some true) ∨ w.Fails (equal item.2 y) e)) →
      (∃ item ∈ items, ∀ y, w.Yields (get? item.1) (some (some y)) → w.Fails (equal item.2 y) e) →
      w.Fails (itemsEqual equal get? items) e
  | [], _, ⟨_, hm, _⟩ => by cases hm
  | (key, x) :: rest, h, ⟨item, hm, hfails⟩ => by
    obtain ⟨y, hget, hxy⟩ := h (key, x) List.mem_cons_self
    refine .after hget ?_
    rcases hxy with hxy | hxy
    · refine .after hxy ?_
      rcases List.mem_cons.1 hm with rfl | hm
      · have := hxy.answer w (.refl w)
        rw [(hfails y hget).answer w (.refl w)] at this
        cases this
      · exact fails_itemsEqual rest (fun item hm => h item (List.mem_cons_of_mem _ hm)) ⟨item, hm, hfails⟩
    · exact hxy.bind _

/-- Looking the key up finds the value. Keys are compared in any number of nested steps that a comparison has left
when it comes to compare keys. -/
def World.Finds (w : World ε) (host : Host ε) (t : TableId .any) (key y : Value) : Prop :=
  ∀ fuel, comparisonFuel w 0 ≤ fuel →
    w.Yields (@lookup ε .any ⟨hashValue host, equalAt host fuel fullBudget⟩ t key) (some (some y))

/-- No budget tells the two values apart. -/
def World.Inseparable (w : World ε) (host : Host ε) (x y : Value) : Prop :=
  ∀ d, w.Yields (equalWithin host d x y) (some true) ∨ w.Fails (equalWithin host d x y) (.raised .depthExceeded)

/-- Two dicts that contain themselves under equal keys, with nothing else to tell them apart. -/
structure World.Twins (w : World ε) (host : Host ε) (a b : TableId .any) : Prop where
  ne : a ≠ b
  length_eq : (w.table a).length = (w.table b).length
  itself : ∃ key, (key, .dict a) ∈ (w.table a).items ∧ w.Finds host b key (.dict b)
  others : ∀ item ∈ (w.table a).items, ∃ y, w.Finds host b item.1 y ∧
    (item.2 = .dict a ∧ y = .dict b ∨ w.Inseparable host item.2 y)

/-- How many nested steps a comparison may take is the same in all worlds of the same stores. -/
theorem run_equalWithin (hv : SameStores w v) (d : Int) (x y : Value) :
    equalWithin host d x y v = equalAt host (comparisonFuel w d) d x y v := by
  unfold equalWithin
  rw [run_bind_ok (run_get v), comparisonFuel, comparisonFuel, hv.structs]

/-- Without any budget there is no verdict. -/
theorem equalWithin_spent {d : Int} (hd : d < 1) (x y : Value) : w.Fails (equalWithin host d x y) (.raised .depthExceeded) := by
  have key : ∀ v, equalWithin host d x y v =
      (.error (.raised .depthExceeded), { v with message := Fault.depthExceeded.message }) := fun v =>
    (run_equalWithin (.refl v) d x y).trans (equalAt_spent hd x y v)
  exact ⟨fun v _ => by rw [key]; exact ⟨rfl, rfl, rfl, rfl⟩, fun v _ => by rw [key]⟩

/-- Equal values without parts to compare are inseparable. -/
theorem inseparable_same {x y : Value} (h : x.Apart y) (hs : x.same y = true) : w.Inseparable host x y := by
  intro d
  by_cases hd : d < 1
  · exact .inr (equalWithin_spent hd x y)
  · have key : ∀ v : World ε, equalWithin host d x y v = (.ok true, v) := by
      intro v
      obtain ⟨m, hm⟩ : ∃ m, comparisonFuel v d = m + 1 := ⟨comparisonFuel v d - 1, by unfold comparisonFuel; omega⟩
      rw [run_equalWithin (.refl v), hm, run_equalAt_apart h m (by omega), hs]
    exact .inl ⟨fun v _ => by rw [key]; exact .refl v, fun v _ => by rw [key]; rfl⟩

/-- **Twins exceed every budget.** The induction is on the budget, of which each comparison of the two spends one
unit before it comes to the two again. -/
theorem twins_exceed {a b : TableId .any} (h : w.Twins host a b) : ∀ (n : Nat) (d : Int), d.toNat = n →
    w.Fails (equalWithin host d (.dict a) (.dict b)) (.raised .depthExceeded)
  | 0, d, hd => equalWithin_spent (by omega) _ _
  | n + 1, d, hd => by
    have ih := twins_exceed h n (d - 1) (by omega)
    have hspent : ¬ d < 1 := by omega
    have hfuel : comparisonFuel w d = comparisonFuel w (d - 1) + 1 := by
      unfold comparisonFuel
      omega
    have hleft : comparisonFuel w 0 ≤ comparisonFuel w (d - 1) := by
      unfold comparisonFuel
      omega
    -- the values of items are compared as `equalWithin` does with one unit less
    have hbelow : ∀ {x y : Value}, w.Fails (equalWithin host (d - 1) x y) (.raised .depthExceeded) →
        w.Fails (equalAt host (comparisonFuel w (d - 1)) (d - 1) x y) (.raised .depthExceeded) :=
      fun hf => hf.congr fun v hv => (run_equalWithin hv _ _ _).symm
    refine World.Fails.congr ?_ fun v hv => run_equalWithin hv d _ _
    rw [hfuel, equalAt_dicts hspent, if_neg h.ne]
    refine .readTable fun v hv => .readTable fun u hu => ?_
    rw [hv.length, hu.length, if_neg (by simp [h.length_eq])]
    refine .holding (.readTable fun v hv => ?_) a
    rw [hv.items]
    refine fails_itemsEqual _ (fun item hm => ?_) ?_
    · obtain ⟨y, hfind, hy⟩ := h.others item hm
      refine ⟨y, hfind _ hleft, ?_⟩
      rcases hy with ⟨hx, rfl⟩ | hy
      · rw [hx]
        exact .inr (hbelow ih)
      · rcases hy (d - 1) with hy | hy
        · exact .inl (hy.congr fun v hv => (run_equalWithin hv _ _ _).symm)
        · exact .inr (hbelow hy)
    · obtain ⟨key, hm, hfind⟩ := h.itself
      refine ⟨(key, .dict a), hm, fun y hy => ?_⟩
      obtain rfl : y = .dict b := by simpa using hy.unique (hfind _ hleft)
      exact hbelow ih

/-! ## Boxes -/

/-- What a host keeps of its boxes: their contents, and the budgets with which it was asked to compare two. -/
structure Boxes where
  contents : List Value
  asked : List Int
  deriving DecidableEq

/-- Boxes are equal when their contents are, which are compared with one unit less. -/
def boxing (inner : Host Boxes) : Host Boxes where
  typeName _ _ := ascii "box"
  sameClass _ _ _ := true
  display _ := pure (ascii "box")
  hash _ := pure 7
  equal a b depth := do
    modify fun w => { w with env := { w.env with asked := depth :: w.env.asked } }
    let contents := (← get).env.contents
    equalWithin inner (depth - 1) (contents.getD a.index .none) (contents.getD b.index .none)
  freeze _ := pure ()

/-- Boxes in boxes, no more than so many of them. -/
def boxes : Nat → Host Boxes
  | 0 => mute
  | n + 1 => boxing (boxes n)

/-- The same contents, whoever was asked. -/
def SameContents (e e' : Boxes) : Prop := e.contents = e'.contents

theorem boxes_monotone : ∀ n, (boxes n).Monotone SameContents
  | 0 => mute_monotone
  | n + 1 => by
    refine ⟨fun _ _ _ => rfl, fun _ => .pure _, fun a b d d' hd => ?_⟩
    have hnote : Repeats SameContents (modify fun w => { w with env := { w.env with asked := d :: w.env.asked } })
        (modify fun w => { w with env := { w.env with asked := d' :: w.env.asked } } : Run Boxes Unit) := by
      refine ⟨fun {w v _ w'} hp hr => ?_⟩
      obtain ⟨e, he, rfl⟩ := hp
      cases hr
      exact ⟨_, rfl, { e with asked := d' :: e.asked }, he, rfl⟩
    refine hnote.bind fun _ => .get fun w v hp => ?_
    obtain ⟨e, he, rfl⟩ := hp
    have hcontents : w.env.contents = e.contents := he
    dsimp only
    rw [hcontents]
    exact repeats_equalWithin (boxes_monotone n) _ _ (by omega)

/-! ## All budgets together -/

/-- **The budget never changes a verdict.** What is returned with a budget is returned with every greater one, no
two budgets contradict each other, with a smaller budget a comparison may do nothing else than fail, and twins
exceed them all. -/
theorem budget_never_changes_verdict (hi : w.Indifferent I host x y) :
    (∀ d d' r, d ≤ d' → (equalWithin host d x y w).1 = .ok r → (equalWithin host d' x y w).1 = .ok r) ∧
    (∀ d d' r s, (equalWithin host d x y w).1 = .ok r → (equalWithin host d' x y w).1 = .ok s → r = s) ∧
    (∀ d d' r, d ≤ d' → (equalWithin host d' x y w).1 = .ok r →
      (equalWithin host d x y w).1 = .ok r ∨ ∃ e, (equalWithin host d x y w).1 = .error e) ∧
    ∀ a b, w.Twins host a b → ∀ d, (equalWithin host d (.dict a) (.dict b) w).1 = .error (.raised .depthExceeded) := by
  refine ⟨fun d d' r hd hr => equalWithin_mono hi hd hr, fun d d' r s hr hs => equalWithin_agree hi hr hs,
    fun d d' r hd hr => ?_, fun a b h d => ?_⟩
  · cases hs : (equalWithin host d x y w).1 with
    | ok s =>
      obtain rfl := equalWithin_agree hi hs hr
      exact .inl rfl
    | error e => exact .inr ⟨e, rfl⟩
  · exact (twins_exceed h d.toNat d rfl).answer w (.refl w)

/-- A key without parts is found where one equal to it is stored as the only one of its hash. -/
theorem finds_scalar {t : TableId .any} {key k y : Value} {i : Nat} (hkey : key.Scalar)
    (hsame : key.same k = true) (hcands : (w.table t).candidates (storedHash key.hashScalar) = [(i, k)])
    (hslot : ((w.table t).slot i).map (·.value) = some y) : w.Finds host t key y := by
  intro fuel hfuel
  obtain ⟨fuel, rfl⟩ : ∃ m, fuel = m + 1 := ⟨fuel - 1, by unfold comparisonFuel at hfuel; omega⟩
  have hhash : w.Yields (hashValue host key) (some key.hashScalar) :=
    ⟨fun v _ => by rw [run_hashValue_scalar hkey]; exact .refl v, fun v _ => by rw [run_hashValue_scalar hkey]; rfl⟩
  have hequal : w.Yields (equalAt host (fuel + 1) fullBudget key k) (some true) := by
    have hrun : ∀ v : World ε, equalAt host (fuel + 1) fullBudget key k v = (.ok true, v) := fun v => by
      rw [run_equalAt_apart (apart_of_scalar hkey) fuel (by decide) v, hsame]
    exact ⟨fun v _ => by rw [hrun]; exact .refl v, fun v _ => by rw [hrun]; rfl⟩
  have hlookup := @yields_lookup _ w ⟨hashValue host, equalAt host (fuel + 1) fullBudget⟩ key
    (fun _ => some key.hashScalar) (fun _ _ => some true) t hhash fun a ha c hc => by
      obtain rfl : key.hashScalar = a := by simpa using ha
      rw [hcands, List.mem_singleton] at hc
      rw [hc]
      exact hequal
  have hfound : findIn (w.table t) (fun _ => some key.hashScalar) (fun _ _ => some true) key = some (some y) := by
    simp [findIn, hcands, firstVerdict, hslot]
  exact hfound ▸ hlookup

/-- Two boxes with boxes of equal numbers in them, and two dicts that contain themselves. -/
def twinWorld : World Boxes :=
  inTurn [.newDict 0, .newDict 0,
    @Operation.insert .any ⟨0⟩ (.int 1) (.dict ⟨0⟩), @Operation.insert .any ⟨0⟩ (.int 2) (.int 5),
    @Operation.insert .any ⟨1⟩ (.int 2) (.int 5), @Operation.insert .any ⟨1⟩ (.int 1) (.dict ⟨1⟩)]
    (.unused ⟨[.int 5, .int 5, .host ⟨0⟩, .host ⟨1⟩], []⟩)

/-- A budget of three is the least that finds the numbers equal, and none is enough for the dicts. -/
theorem budget_never_changes_verdict_boxes :
    (equalWithin (boxes 2) 2 (.host ⟨2⟩) (.host ⟨3⟩) twinWorld).1 = .error (.raised .depthExceeded) ∧
    (equalWithin (boxes 2) 3 (.host ⟨2⟩) (.host ⟨3⟩) twinWorld).1 = .ok true ∧
    (∀ d, 3 ≤ d → (equalWithin (boxes 2) d (.host ⟨2⟩) (.host ⟨3⟩) twinWorld).1 = .ok true) ∧
    twinWorld.Twins (boxes 2) ⟨0⟩ ⟨1⟩ ∧
    ∀ d, (equalWithin (boxes 2) d (.dict ⟨0⟩) (.dict ⟨1⟩) twinWorld).1 = .error (.raised .depthExceeded) := by
  have hall := @budget_never_changes_verdict _ .nothing twinWorld (boxes 2) (.host ⟨2⟩) (.host ⟨3⟩)
    (.monotone (boxes_monotone 2) rfl)
  have hthree : (equalWithin (boxes 2) 3 (.host ⟨2⟩) (.host ⟨3⟩) twinWorld).1 = .ok true := by decide +kernel
  have hitems : (@World.table _ twinWorld .any ⟨0⟩).items = [(.int 1, .dict ⟨0⟩), (.int 2, .int 5)] := by decide +kernel
  have hone : twinWorld.Finds (boxes 2) ⟨1⟩ (.int 1) (.dict ⟨1⟩) :=
    @finds_scalar _ twinWorld (boxes 2) ⟨1⟩ (.int 1) (.int 1) (.dict ⟨1⟩) 6 trivial rfl (by decide +kernel) (by decide +kernel)
  have htwo : twinWorld.Finds (boxes 2) ⟨1⟩ (.int 2) (.int 5) :=
    @finds_scalar _ twinWorld (boxes 2) ⟨1⟩ (.int 2) (.int 2) (.int 5) 7 trivial rfl (by decide +kernel) (by decide +kernel)
  have htwins : twinWorld.Twins (boxes 2) ⟨0⟩ ⟨1⟩ := by
    refine ⟨by decide, by decide +kernel, ⟨.int 1, by simp [hitems], hone⟩, fun item hm => ?_⟩
    rw [hitems] at hm
    rcases List.mem_cons.1 hm with rfl | hm
    · exact ⟨_, hone, .inl ⟨rfl, rfl⟩⟩
    · rw [List.mem_singleton.1 hm]
      exact ⟨_, htwo, .inr (inseparable_same (apart_of_scalar trivial) rfl)⟩
  refine ⟨by decide +kernel, hthree, fun d hd => ?_, htwins, hall.2.2.2 _ _ htwins⟩
  exact hall.1 3 d true hd hthree

end ValueCore
