import ValueCore.Equality
import ValueCore.Freeze
import ValueCore.Proofs.Operations.Tables

/-!
# Operations on values

Hashing, comparing, writing and freezing values keep to whatever course of steps the host's answers keep to
(`Host.Follows`). These functions recurse through tables that the host may change meanwhile. What keeps the
proofs simple is that nothing depends on what is read: every value that is met in a sound world is there.

In particular they are runs of steps when the host's answers are (`Host.Respects`).
-/

namespace ValueCore

open World

variable {ε : Type} {I : Inventory ε} {n : Nat} {w w' : World ε} {kind : KeyKind} {t : TableId kind}
  {host : Host ε} {R : World ε → World ε → Prop}

/-- Every answer of the host is a run of steps. -/
structure Host.Respects (I : Inventory ε) (host : Host ε) : Prop where
  display : ∀ {n : Nat} {w : World ε} (h : HostId), w.Sound I → n ≤ w.structs.size → Evolves I n w (host.display h w).2
  hash : ∀ {n : Nat} {w : World ε} (h : HostId), w.Sound I → n ≤ w.structs.size → Evolves I n w (host.hash h w).2
  equal : ∀ {n : Nat} {w : World ε} (a b : HostId) (depth : Int), w.Sound I → n ≤ w.structs.size →
    Evolves I n w (host.equal a b depth w).2
  freeze : ∀ {n : Nat} {w : World ε} (h : HostId), w.Sound I → n ≤ w.structs.size → Evolves I n w (host.freeze h w).2

/-- What the host does when it is asked to write, hash or compare its values keeps to `R`. -/
structure Host.Follows (I : Inventory ε) (R : World ε → World ε → Prop) (host : Host ε) : Prop where
  display : ∀ {w : World ε} (h : HostId), w.Sound I → R w (host.display h w).2
  hash : ∀ {w : World ε} (h : HostId), w.Sound I → R w (host.hash h w).2
  equal : ∀ {w : World ε} (a b : HostId) (depth : Int), w.Sound I → R w (host.equal a b depth w).2

/-- Freezing a table keeps to `R`, and so does what the host does when it is asked to freeze its values. -/
structure Host.Freezes (I : Inventory ε) (R : World ε → World ε → Prop) (host : Host ε) : Prop where
  freeze : ∀ {w : World ε} (h : HostId), w.Sound I → R w (host.freeze h w).2
  flag : ∀ {w : World ε} {kind : KeyKind} (t : TableId kind), w.Sound I → w.Has t →
    R w (w.modifyTable t fun t => { t with frozen := true })

theorem Host.Respects.follows (hh : host.Respects I) : host.Follows I (Passes I) :=
  ⟨fun i h => hh.display i h (Nat.le_refl _), fun i h => hh.hash i h (Nat.le_refl _),
    fun a b depth h => hh.equal a b depth h (Nat.le_refl _)⟩

theorem Host.Respects.freezes (hh : host.Respects I) : host.Freezes I (Passes I) :=
  ⟨fun i h => hh.freeze i h (Nat.le_refl _), fun t _ ht => .step (.freeze t ht)⟩

theorem Host.Respects.spares (hh : host.Respects I) (n : Nat) : host.Follows I (Spares I n) :=
  ⟨fun i h => hh.display i h (min_le_right n _), fun i h => hh.hash i h (min_le_right n _),
    fun a b depth h => hh.equal a b depth h (min_le_right n _)⟩

/-- The computation on a value keeps to `R`, in every sound world that has the value. -/
def Handles {α : Type} (I : Inventory ε) (R : World ε → World ε → Prop) (f : Value → Run ε α) : Prop :=
  ∀ {w : World ε} (v : Value), w.Sound I → w.Owns v → Along R w (f v) fun _ _ => True

/-- The computation on two values keeps to `R`, in every sound world that has them. -/
def HandlesTwo {α : Type} (I : Inventory ε) (R : World ε → World ε → Prop) (f : Value → Value → Run ε α) : Prop :=
  ∀ {w : World ε} (x y : Value), w.Sound I → w.Owns x → w.Owns y → Along R w (f x y) fun _ _ => True

theorem Along.leads {α : Type} {act : Run ε α} {Q : α → World ε → Prop} (h : Along (Passes I) w act Q)
    (hn : n ≤ w.structs.size) : Leads I n w act Q := h.widen fun he => Evolves.le he hn

theorem ownsItems_fields (h : w.Sound I) (s : StructId) : w.OwnsItems (w.table (w.struct s).fields).items :=
  h.items _

section
variable [BySteps I R]

/-! ## Hashing -/

theorem hashFields_along {hash : Value → Run ε UInt32} (hh : Handles I R hash) : ∀ (fields : List (Bytes × Value))
    (s : StructHash) {w : World ε}, w.Sound I → @OwnsItems ε w .text fields →
      Along R w (hashFields hash fields s) fun _ _ => True
  | [], _, _, _, _ => .pure trivial
  | (name, value) :: rest, s, w, h, hown => by
    refine (hh value h (hown (name, value) List.mem_cons_self).2).bind fun a v hv _ => ?_
    have he := BySteps.evolves h hv
    exact hashFields_along hh rest _ (he.sound h)
      (he.within.ownsItems fun item hm => hown item (List.mem_cons_of_mem _ hm))

theorem hashAt_handles (hh : host.Follows I R) : ∀ fuel : Nat, Handles I R (hashAt host fuel)
  | 0, _, _, _, _ => .throw
  | fuel + 1, w, v, h, _ => by
    cases v with
    | none | bool | int | float | str => exact .pure trivial
    | dict t => exact .read (run_get w) .raise
    | host i => exact .answer (hh.hash i h)
    | struct s => exact .read (run_get w) (hashFields_along (hashAt_handles hh fuel) _ _ h (ownsItems_fields h s))

theorem hashValue_handles (hh : host.Follows I R) : Handles I R (hashValue host) :=
  fun v h hown => .read (run_get _) (hashAt_handles hh _ v h hown)

/-! ## Writing -/

theorem mapM_along {α β : Type} {f : α → Run ε β} : ∀ (l : List α) {w : World ε}, w.Sound I →
    (∀ x ∈ l, ∀ v, Within w v → v.Sound I → Along R v (f x) fun _ _ => True) →
    Along R w (l.mapM f) fun _ _ => True
  | [], _, _, _ => by
    rw [List.mapM_nil]
    exact .pure trivial
  | x :: l, w, h, hf => by
    rw [List.mapM_cons]
    refine (hf x List.mem_cons_self w (.refl w) h).bind fun _ v hv _ => ?_
    have he := BySteps.evolves h hv
    refine (mapM_along l (he.sound h) fun y hy u hu hs =>
      hf y (List.mem_cons_of_mem _ hy) u (he.within.trans hu) hs).bind ?_
    exact fun _ _ _ _ => .pure trivial

theorem dictText_along {write : Value → Run ε Bytes} (hw : Handles I R write) {t : TableId .any} (h : w.Sound I)
    (ht : w.Has t) : Along R w (dictText write t) fun _ _ => True := by
  have hbody : ∀ {v : World ε}, v.Sound I → Along R v (do
      let items ← (← readTable t).items.mapM fun item => do
        let k ← write item.1
        let x ← write item.2
        return k ++ ascii ": " ++ x
      return ascii "\x7b" ++ Bytes.joined (ascii ", ") items ++ ascii "\x7d") fun _ _ => True := by
    intro v hv
    refine .read (run_readTable t v) ?_
    refine (mapM_along _ hv fun item hm u hu hs => ?_).bind fun _ _ _ _ => .pure trivial
    obtain ⟨hkey, hvalue⟩ := hu.ownsItems (hv.items t) item hm
    refine (hw item.1 hs hkey).bind fun _ u' hu' _ => ?_
    have he := BySteps.evolves hs hu'
    exact (hw item.2 (he.sound hs) (he.within.owns hvalue)).bind fun _ _ _ _ => .pure trivial
  unfold dictText
  exact .holding ht (fun _ => hbody h) fun _ => hbody (h.held t ht)

theorem structText_along {write : Value → Run ε Bytes} (hw : Handles I R write) {s : StructId} (h : w.Sound I)
    (hs : w.Owns (.struct s)) : Along R w (structText write s) fun _ _ => True := by
  have hbody : ∀ {v : World ε} (head : Bytes), v.Sound I → Along R v (do
      let fields ← (← readTable (w.struct s).fields).items.mapM fun field => do
        return field.1 ++ ascii " = " ++ (← write field.2)
      return head ++ ascii "(" ++ Bytes.joined (ascii ", ") fields ++ ascii ")") fun _ _ => True := by
    intro v head hv
    refine .read (run_readTable _ v) ?_
    refine (mapM_along _ hv fun field hm u hu hsu => ?_).bind fun _ _ _ _ => .pure trivial
    have hown := hu.ownsItems (hv.items _) field hm
    exact (hw field.2 hsu hown.2).bind fun _ _ _ _ => .pure trivial
  unfold structText
  refine .read (run_get w) ?_
  dsimp only
  split
  · exact .read (run_pure _ w) (hbody _ h)
  · refine (hw _ h (h.ctors s hs)).bind fun head v hv _ => ?_
    exact hbody head ((BySteps.evolves h hv).sound h)

theorem writeAt_handles (hh : host.Follows I R) : ∀ (fuel : Nat) (path : List Value),
    Handles I R (writeAt host fuel path)
  | 0, _, _, _, _, _ => .throw
  | fuel + 1, path, w, v, h, hown => by
    unfold writeAt
    cases v with
    | none | bool | int | float | str => exact .pure trivial
    | host i => exact .answer (hh.display i h)
    | dict t =>
      dsimp only
      split
      · exact .pure trivial
      · refine (Along.outside (asks_extendTrail _).alike).bind fun _ v _ hv => ?_
        have hstep : Step I 0 w v := .outside hv
        exact dictText_along (writeAt_handles hh fuel _) (hstep.sound h) (hstep.within.has t hown)
    | struct s =>
      dsimp only
      split
      · exact .pure trivial
      · refine (Along.outside (asks_extendTrail _).alike).bind fun _ v _ hv => ?_
        have hstep : Step I 0 w v := .outside hv
        exact structText_along (writeAt_handles hh fuel _) (hstep.sound h) (hstep.within.owns hown)

theorem display_handles (hh : host.Follows I R) : Handles I R (display host) := by
  intro w x h hown
  have hstep : Step I 0 w w.newTrail := .outside (alike_newTrail w)
  exact (Along.onTrail (Q := fun _ _ => True) <| .read (run_get _) <|
    writeAt_handles hh _ [] x (hstep.sound h) (hstep.within.owns hown)).trivial

/-! ## Comparing -/

theorem sameConstructor_handles {equal : Value → Value → Run ε Bool} (heq : HandlesTwo I R equal)
    (hh : host.Follows I R) (use : ConstructorUse) : HandlesTwo I R (sameConstructor equal host use) := by
  intro w x y h hx hy
  unfold sameConstructor
  refine (heq x y h hx hy).protect.bind fun verdict v hv _ => ?_
  cases verdict with
  | ok b => exact .pure trivial
  | error status =>
    have he := BySteps.evolves h hv
    have hs := he.sound h
    refine .read (run_get v) ?_
    refine (display_handles hh x hs (he.within.owns hx)).bind fun left u hu _ => ?_
    have he' := BySteps.evolves hs hu
    exact (display_handles hh y (he'.sound hs) (he'.within.owns (he.within.owns hy))).bind fun _ _ _ _ => .raise

theorem itemsEqual_along {equal : Value → Value → Run ε Bool} (heq : HandlesTwo I R equal)
    {get? : Value → Run ε (Option Value)} {t : TableId .any} (hget : ∀ {w : World ε} (key : Value), w.Sound I →
      w.Has t → w.Owns key → Along R w (get? key) fun found w' => ∀ v ∈ found, w'.Owns v) :
    ∀ (items : List (Value × Value)) {w : World ε}, w.Sound I → w.Has t → @OwnsItems ε w .any items →
      Along R w (itemsEqual equal get? items) fun _ _ => True
  | [], _, _, _, _ => .pure trivial
  | (key, x) :: rest, w, h, ht, hown => by
    unfold itemsEqual
    refine (hget key h ht (hown (key, x) List.mem_cons_self).1).bind fun found v hv hfound => ?_
    cases found with
    | none => exact .pure trivial
    | some y =>
      have he := BySteps.evolves h hv
      have hin := he.within
      have hs := he.sound h
      refine (heq x y hs (hin.owns (hown (key, x) List.mem_cons_self).2) (hfound y rfl)).bind ?_
      intro verdict u hu _
      split
      · have he' := BySteps.evolves hs hu
        have hin' := hin.trans he'.within
        exact itemsEqual_along heq hget rest (he'.sound hs) (hin'.has t ht)
          (hin'.ownsItems fun item hm => hown item (List.mem_cons_of_mem _ hm))
      · exact .pure trivial

theorem dictsEqual_along {keying : Keying ε Value} (hk : @Keying.Follows ε .any I R keying)
    {equal : Value → Value → Run ε Bool} (heq : HandlesTwo I R equal) {x y : TableId .any} (h : w.Sound I)
    (hx : w.Has x) (hy : w.Has y) : Along R w (dictsEqual keying equal x y) fun _ _ => True := by
  have hget : ∀ {w : World ε} (key : Value), w.Sound I → w.Has y → w.Owns key →
      Along R w (@lookup ε .any keying y key) fun found w' => ∀ v ∈ found, w'.Owns v :=
    fun key h hy hkey => @lookup_along ε I _ .any y R _ keying key hk h hy hkey
  have hbody : ∀ {v : World ε}, v.Sound I → v.Has y → Along R v (do
      itemsEqual equal (@lookup ε .any keying y) (← readTable x).items) fun _ _ => True := by
    intro v hv hyv
    exact .read (run_readTable x v) (itemsEqual_along heq hget _ hv hyv (hv.items x))
  unfold dictsEqual
  refine .read (run_readTable x w) (.read (run_readTable y w) ?_)
  split
  · exact .pure trivial
  · exact .holding hx (fun _ => hbody h hy) fun _ => hbody (h.held x hx) ((has_modifyTable x _ y).2 hy)

theorem fieldsEqual_along {equal : Value → Value → Run ε Bool} (heq : HandlesTwo I R equal) :
    ∀ (xs ys : List (Bytes × Value)) {w : World ε}, w.Sound I → @OwnsItems ε w .text xs → @OwnsItems ε w .text ys →
      Along R w (fieldsEqual equal xs ys) fun _ _ => True
  | [], _, _, _, _, _ => .pure trivial
  | _ :: _, [], _, _, _, _ => .pure trivial
  | (m, x) :: xs, (k, y) :: ys, w, h, hx, hy => by
    unfold fieldsEqual
    split
    · exact .pure trivial
    · refine (heq x y h (hx (m, x) List.mem_cons_self).2 (hy (k, y) List.mem_cons_self).2).bind ?_
      intro verdict v hv _
      split
      · have he := BySteps.evolves h hv
        have hin := he.within
        exact fieldsEqual_along heq xs ys (he.sound h)
          (hin.ownsItems fun item hm => hx item (List.mem_cons_of_mem _ hm))
          (hin.ownsItems fun item hm => hy item (List.mem_cons_of_mem _ hm))
      · exact .pure trivial

theorem structsEqual_along {equalFully equal : Value → Value → Run ε Bool} (hfull : HandlesTwo I R equalFully)
    (heq : HandlesTwo I R equal) (hh : host.Follows I R) {x y : StructId} (h : w.Sound I)
    (hx : w.Owns (.struct x)) (hy : w.Owns (.struct y)) :
    Along R w (structsEqual equalFully equal host x y) fun _ _ => True := by
  unfold structsEqual
  refine .read (run_get w) ?_
  dsimp only
  split
  · exact .pure trivial
  · refine (sameConstructor_handles hfull hh .equality _ _ h (h.ctors x hx) (h.ctors y hy)).bind fun verdict v hv _ => ?_
    have hs := (BySteps.evolves h hv).sound h
    split
    · exact .read (run_get v) (fieldsEqual_along heq _ _ hs (hs.items _) (hs.items _))
    · exact .pure trivial

theorem equalAt_handles (hh : host.Follows I R) : ∀ (fuel : Nat) (depth : Int), HandlesTwo I R (equalAt host fuel depth)
  | 0, _, _, _, _, _, _, _ => .throw
  | fuel + 1, depth, w, x, y, h, hx, hy => by
    have ih := equalAt_handles hh fuel
    unfold equalAt
    dsimp only
    split
    · exact Along.raise.bind (P := fun _ _ => False) fun _ _ _ hf => hf.elim
    · split
      · exact .pure trivial
      · cases x with
        | none | bool | int | float | str => cases y <;> exact .pure trivial
        | dict a =>
          cases y with
          | none | bool | int | float | str | struct | host => exact .pure trivial
          | dict b =>
            dsimp only
            split
            · exact .pure trivial
            · refine dictsEqual_along ⟨fun key h hkey => ?_, fun a b h ha hb => ?_⟩ (ih (depth - 1)) h hx hy
              · exact (hashValue_handles hh key h hkey).ends
              · exact (ih fullBudget a b h ha hb).ends
        | struct a =>
          cases y with
          | none | bool | int | float | str | dict | host => exact .pure trivial
          | struct b => exact structsEqual_along (ih fullBudget) (ih (depth - 1)) hh h hx hy
        | host a =>
          cases y with
          | none | bool | int | float | str | dict | struct => exact .pure trivial
          | host b =>
            refine .read (run_get w) ?_
            split
            · exact .answer (hh.equal a b depth h)
            · exact .pure trivial

theorem equalWithin_handles (hh : host.Follows I R) (depth : Int) : HandlesTwo I R (equalWithin host depth) :=
  fun x y h hx hy => .read (run_get _) (equalAt_handles hh _ depth x y h hx hy)

theorem equal_handles (hh : host.Follows I R) : HandlesTwo I R (equal host) := equalWithin_handles hh fullBudget

theorem valueKeying_follows (hh : host.Follows I R) : (valueKeying host).Follows I R :=
  ⟨fun key h hkey => (hashValue_handles hh key h hkey).ends, fun a b h ha hb => (equal_handles hh a b h ha hb).ends⟩

theorem keyingOf_follows (hh : host.Follows I R) : ∀ kind, (keyingOf host kind).Follows I R
  | .any => valueKeying_follows hh
  | .text => textKeying_follows

/-! ## Freezing -/

theorem freezeAt_handles (hf : host.Freezes I R) : ∀ fuel : Nat, Handles I R (freezeAt host fuel)
  | 0, _, _, _, _ => .throw
  | fuel + 1, w, v, h, hown => by
    have hlater : ∀ (x : Value) (u : World ε), Within w u → u.Sound I → u.Owns x →
        Along R u (freezeAt host fuel x) fun _ _ => True := fun x _ _ hs hx => freezeAt_handles hf fuel x hs hx
    unfold freezeAt
    cases v with
    | none | bool | int | float | str => exact .pure trivial
    | host i => exact .answer (hf.freeze i h)
    | dict t => exact freezeTable_along h (hf.flag t h hown) hlater hlater
    | struct s =>
      have hfields := h.fields s hown
      exact .read (run_get w) (freezeTable_along h (hf.flag _ h hfields) (fun _ _ _ _ _ => .pure trivial) hlater)

theorem freeze_handles (hf : host.Freezes I R) : Handles I R (freeze host) :=
  fun v h hown => .read (run_get _) (freezeAt_handles hf _ v h hown)

theorem freezeDeep_along (hf : host.Freezes I R) {kind : KeyKind} {t : TableId kind} (h : w.Sound I)
    (ht : w.Has t) : Along R w (freezeDeep host t) fun _ _ => True := by
  have hlater : ∀ (x : Value) (u : World ε), Within w u → u.Sound I → u.Owns x →
      Along R u (freeze host x) fun _ _ => True := fun x _ _ hs hx => freeze_handles hf x hs hx
  cases kind with
  | any =>
    show Along R w (freezeTable (freeze host) (freeze host) t) _
    exact freezeTable_along h (hf.flag t h ht) hlater hlater
  | text =>
    show Along R w (freezeTable (fun _ => pure ()) (freeze host) t) _
    exact freezeTable_along h (hf.flag t h ht) (fun _ _ _ _ _ => .pure trivial) hlater

end

/-! ## Runs of steps -/

theorem valueKeying_respects (hh : host.Respects I) : (valueKeying host).Respects I :=
  ⟨fun key h hn hkey => ((hashValue_handles hh.follows key h hkey).leads hn).evolves,
    fun a b h hn ha hb => ((equal_handles hh.follows a b h ha hb).leads hn).evolves⟩

theorem keyingOf_respects (hh : host.Respects I) : ∀ kind, (keyingOf host kind).Respects I
  | .any => valueKeying_respects hh
  | .text => textKeying_respects

end ValueCore
