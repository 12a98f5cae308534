import ValueCore.Proofs.Operations.Pruning

/-!
# Where the host has no values

The host is a parameter of everything that hashes, compares or writes values. In a world in which no value is the host's it
is not asked, so that these computations are the same with any other host: they fail alike and leave the same world, its
memory and its message included (`hashValue_unaffected`, `equalWithin_unaffected`, `display_unaffected`).

Two computations that differ in the host are followed side by side (`World.Unaffected`). That the world stays plain on the
way is part of what is followed, as the next values are read from it.
-/

namespace ValueCore

open World

variable {ε α β : Type} {w v : World ε} {kind : KeyKind} {host host' : Host ε}

/-- If the world is plain then both computations are the same and leave a plain world. -/
def World.Unaffected (w : World ε) (act act' : Run ε α) : Prop := w.Plain → act w = act' w ∧ (act w).2.Plain

namespace World.Unaffected

variable {act act' : Run ε α}

theorem of_plain (h : w.Plain → w.Unaffected act act') : w.Unaffected act act' := fun hw => h hw hw

theorem refl (h : Calm w (act w).2) : w.Unaffected act act := fun hw => ⟨rfl, hw.alike (h hw)⟩

theorem pure (a : α) : w.Unaffected (Pure.pure a : Run ε α) (Pure.pure a) := refl (calm_drift.pure a)

theorem throw (e : Failure) : w.Unaffected (MonadExcept.throw e : Run ε α) (MonadExcept.throw e) := refl (calm_drift.throw e)

theorem raise (f : Fault) : w.Unaffected (ValueCore.raise f : Run ε α) (ValueCore.raise f) := refl (calm_drift.raise f)

theorem bind {f f' : α → Run ε β} (h : w.Unaffected act act')
    (hf : ∀ a v, act w = (.ok a, v) → v.Unaffected (f a) (f' a)) : w.Unaffected (act >>= f) (act' >>= f') := by
  intro hw
  obtain ⟨hsame, hplain⟩ := h hw
  cases hr : act w with
  | mk r v =>
    rw [hr] at hsame hplain
    cases r with
    | error e =>
      rw [run_bind_error hr, run_bind_error hsame.symm]
      exact ⟨rfl, hplain⟩
    | ok a =>
      rw [run_bind_ok hr, run_bind_ok hsame.symm]
      exact hf a v hr hplain

theorem discard (h : w.Unaffected act act') : w.Unaffected (discard act : Run ε Unit) (discard act') := by
  intro hw
  obtain ⟨hsame, hplain⟩ := h hw
  rw [run_discard, run_discard, hsame]
  rw [hsame] at hplain
  generalize act' w = out at hplain ⊢
  obtain ⟨e | a, v⟩ := out <;> exact ⟨rfl, hplain⟩

/-- What is read first is the same. -/
theorem read {x : World ε → α} {f f' : α → Run ε β} {look : Run ε α} (hlook : ∀ v, look v = (.ok (x v), v))
    (h : w.Unaffected (f (x w)) (f' (x w))) : w.Unaffected (look >>= f) (look >>= f') := by
  intro hw
  rw [run_bind_ok (hlook w), run_bind_ok (hlook w)]
  exact h hw

theorem readTable {t : TableId kind} {f f' : Table kind.Key → Run ε β}
    (h : w.Unaffected (f (w.table t)) (f' (w.table t))) :
    w.Unaffected (ValueCore.readTable t >>= f) (ValueCore.readTable t >>= f') := read (run_readTable t) h

theorem protect (h : w.Unaffected act act') : w.Unaffected (protect act) (protect act') := by
  intro hw
  obtain ⟨hsame, hplain⟩ := h hw
  exact ⟨by simp only [ValueCore.protect, hsame], hplain.alike (alike_protect act)⟩

theorem holding (t : TableId kind) (h : ∀ v : World ε, v.Unaffected act act') :
    w.Unaffected (holding t act) (holding t act') := by
  intro hw
  cases hf : (w.table t).frozen with
  | true =>
    rw [run_holding_of_frozen hf, run_holding_of_frozen hf]
    exact h w hw
  | false =>
    obtain ⟨hsame, hplain⟩ := h (w.held t) (hw.same ((SameStores.refl w).held t))
    rw [run_holding hf, run_holding hf, hsame]
    rw [hsame] at hplain
    exact ⟨rfl, hplain.same (.flags t _ fun _ => .flags _ _ _)⟩

theorem onTrail (h : ∀ v : World ε, v.Unaffected act act') : w.Unaffected (onTrail act) (onTrail act') := by
  intro hw
  obtain ⟨hsame, hplain⟩ := h w.newTrail (hw.alike (alike_newTrail w))
  rw [run_onTrail, run_onTrail, hsame]
  rw [hsame] at hplain
  exact ⟨rfl, hplain.alike (alike_offTrail _ _)⟩

theorem mapM {f f' : α → Run ε β} : ∀ (l : List α) {w : World ε}, (∀ a ∈ l, ∀ v : World ε, v.Unaffected (f a) (f' a)) →
    w.Unaffected (l.mapM f) (l.mapM f')
  | [], _, _ => by
    rw [List.mapM_nil, List.mapM_nil]
    exact pure _
  | a :: l, w, h => by
    rw [List.mapM_cons, List.mapM_cons]
    refine bind (h a List.mem_cons_self w) fun _ _ _ => bind (mapM l fun b hb => h b (List.mem_cons_of_mem _ hb)) ?_
    exact fun _ _ _ => pure _

end World.Unaffected

/-- Without values of the host, both ways to work on a value are the same. -/
def Unaffected (f f' : Value → Run ε α) : Prop := ∀ (x : Value) (w : World ε), x.Plain → w.Unaffected (f x) (f' x)

/-- Likewise for two values; the left one is enough. -/
def UnaffectedTwo (f f' : Value → Value → Run ε α) : Prop :=
  ∀ (x y : Value) (w : World ε), x.Plain → w.Unaffected (f x y) (f' x y)

/-! ## Hashing -/

theorem hashFields_unaffected {hash hash' : Value → Run ε UInt32} (h : Unaffected hash hash') :
    ∀ (fields : List (Bytes × Value)) (s : StructHash) {w : World ε}, (∀ field ∈ fields, field.2.Plain) →
      w.Unaffected (hashFields hash fields s) (hashFields hash' fields s)
  | [], _, _, _ => .pure _
  | (name, value) :: rest, s, w, hf => .bind (h value w (hf (name, value) List.mem_cons_self)) fun a _ _ =>
    hashFields_unaffected h rest (s.mix name a) fun field hm => hf field (List.mem_cons_of_mem _ hm)

theorem hashAt_unaffected : ∀ fuel : Nat, Unaffected (hashAt host fuel) (hashAt host' fuel)
  | 0, _, _, _ => .throw _
  | fuel + 1, x, w, hx => by
    cases x with
    | none | bool | int | float | str => exact .pure _
    | host i => exact False.elim hx
    | dict t => exact .read run_get (.raise _)
    | struct s =>
      refine .of_plain fun hw => .read run_get ?_
      exact hashFields_unaffected (hashAt_unaffected fuel) _ _ fun field hm => (hw.items (w.struct s).fields field hm).2

theorem hashValue_unaffected : Unaffected (hashValue host) (hashValue host') :=
  fun x w hx => .read run_get (hashAt_unaffected _ x w hx)

/-! ## Writing -/

theorem dictText_unaffected {write write' : Value → Run ε Bytes} (h : Unaffected write write') (t : TableId .any) :
    w.Unaffected (dictText write t) (dictText write' t) := by
  refine .holding t fun v => .of_plain fun hv => .readTable (.bind (.mapM _ fun item hm u => ?_) fun _ _ _ => .pure _)
  obtain ⟨hkey, hvalue⟩ := hv.items t item hm
  exact .bind (h item.1 u hkey) fun _ u _ => .bind (h item.2 u hvalue) fun _ _ _ => .pure _

theorem structText_unaffected {write write' : Value → Run ε Bytes} (h : Unaffected write write') (s : StructId) :
    w.Unaffected (structText write s) (structText write' s) := by
  have hfields : ∀ (t : TableId .text) (head : Bytes) (v : World ε), v.Unaffected (do
      let fields ← (← readTable t).items.mapM fun field => do
        return field.1 ++ ascii " = " ++ (← write field.2)
      return head ++ ascii "(" ++ Bytes.joined (ascii ", ") fields ++ ascii ")" : Run ε Bytes) (do
      let fields ← (← readTable t).items.mapM fun field => do
        return field.1 ++ ascii " = " ++ (← write' field.2)
      return head ++ ascii "(" ++ Bytes.joined (ascii ", ") fields ++ ascii ")") := fun t head v =>
    .of_plain fun hv => .readTable <| .bind (.mapM _ fun field hm u =>
      .bind (h field.2 u (hv.items t field hm).2) fun _ _ _ => .pure _) fun _ _ _ => .pure _
  refine .of_plain fun hw => .read run_get ?_
  dsimp only
  split
  · exact .bind (.pure _) fun head v _ => hfields _ head v
  · exact .bind (h _ w (hw.ctors s)) fun head v _ => hfields _ head v

theorem writeAt_unaffected : ∀ (fuel : Nat) (path : List Value),
    Unaffected (writeAt host fuel path) (writeAt host' fuel path)
  | 0, _, _, _, _ => .throw _
  | fuel + 1, path, x, w, hx => by
    unfold writeAt
    cases x with
    | none | bool | int | float | str => exact .pure _
    | host i => exact False.elim hx
    | dict t =>
      dsimp only
      split
      · exact .pure _
      · exact .bind (.refl (calm_drift.asks (asks_extendTrail _))) fun _ _ _ =>
          dictText_unaffected (writeAt_unaffected fuel _) t
    | struct s =>
      dsimp only
      split
      · exact .pure _
      · exact .bind (.refl (calm_drift.asks (asks_extendTrail _))) fun _ _ _ =>
          structText_unaffected (writeAt_unaffected fuel _) s

theorem display_unaffected : Unaffected (display host) (display host') :=
  fun x _ hx => .onTrail fun v => .read run_get (writeAt_unaffected _ [] x v hx)

theorem displayStruct_unaffected (s : StructId) : w.Unaffected (displayStruct host s) (displayStruct host' s) :=
  .onTrail fun _ => .read run_get (structText_unaffected (writeAt_unaffected _ []) s)

/-! ## Looking up -/

theorem firstEqual_unaffected {κ : Type} {equal equal' : κ → κ → Run ε Bool} {key : κ}
    (h : ∀ (other : κ) (w : World ε), w.Unaffected (equal key other) (equal' key other)) :
    ∀ (candidates : List (Nat × κ)) {w : World ε},
      w.Unaffected (firstEqual equal key candidates) (firstEqual equal' key candidates)
  | [], _ => .pure _
  | (_, k) :: rest, w => by
    refine .bind (h k w) fun verdict v _ => ?_
    cases verdict with
    | true => exact .pure _
    | false => exact firstEqual_unaffected h rest

theorem lookup_unaffected (kind : KeyKind) {keying keying' : Keying ε kind.Key} {key : kind.Key}
    (hhash : ∀ w : World ε, w.Unaffected (keying.hash key) (keying'.hash key))
    (hequal : ∀ (other : kind.Key) (w : World ε), w.Unaffected (keying.equal key other) (keying'.equal key other))
    (t : TableId kind) : w.Unaffected (lookup keying t key) (lookup keying' t key) := by
  have hfind : w.Unaffected (findSlot keying t key) (findSlot keying' t key) :=
    .bind (hhash w) fun _ v _ => .readTable <| .holding t fun _ => firstEqual_unaffected hequal _
  refine .bind hfind fun found v _ => ?_
  cases found with
  | none => exact .pure _
  | some i => exact .readTable (.pure _)

/-! ## Comparing -/

section
variable {equal equal' fully fully' : Value → Value → Run ε Bool} (h : UnaffectedTwo equal equal')
include h

theorem itemsEqual_unaffected {get? get?' : Value → Run ε (Option Value)} (hget : Unaffected get? get?') :
    ∀ (items : List (Value × Value)) {w : World ε}, (∀ item ∈ items, item.1.Plain ∧ item.2.Plain) →
      w.Unaffected (itemsEqual equal get? items) (itemsEqual equal' get?' items)
  | [], _, _ => .pure _
  | (key, x) :: rest, w, hi => by
    obtain ⟨hkey, hx⟩ := hi (key, x) List.mem_cons_self
    refine .bind (hget key w hkey) fun found v _ => ?_
    cases found with
    | none => exact .pure _
    | some y =>
      refine .bind (h x y v hx) fun verdict u _ => ?_
      cases verdict with
      | true => exact itemsEqual_unaffected hget rest fun item hm => hi item (List.mem_cons_of_mem _ hm)
      | false => exact .pure _

theorem fieldsEqual_unaffected : ∀ (xs ys : List (Bytes × Value)) {w : World ε}, (∀ field ∈ xs, field.2.Plain) →
    w.Unaffected (fieldsEqual equal xs ys) (fieldsEqual equal' xs ys)
  | [], _, _, _ => .pure _
  | _ :: _, [], _, _ => .pure _
  | (m, x) :: xs, (n, y) :: ys, w, hf => by
    unfold fieldsEqual
    split
    · exact .pure _
    · refine .bind (h x y w (hf (m, x) List.mem_cons_self)) fun verdict v _ => ?_
      cases verdict with
      | true => exact fieldsEqual_unaffected xs ys fun field hm => hf field (List.mem_cons_of_mem _ hm)
      | false => exact .pure _

/-- A comparison that fails is reported alike, as both constructors are written alike. -/
theorem sameConstructor_unaffected (use : ConstructorUse) {x y : Value} (hx : x.Plain) (hy : y.Plain) :
    w.Unaffected (sameConstructor equal host use x y) (sameConstructor equal' host' use x y) := by
  refine .bind (h x y w hx).protect fun outcome v _ => ?_
  cases outcome with
  | ok verdict => exact .pure _
  | error status =>
    refine .read run_get (.bind (display_unaffected x v hx) fun left u _ => ?_)
    exact .bind (display_unaffected y u hy) fun _ _ _ => .raise _

theorem dictsEqual_unaffected (hfully : UnaffectedTwo fully fully') (a b : TableId .any) :
    w.Unaffected (dictsEqual ⟨hashValue host, fully⟩ equal a b) (dictsEqual ⟨hashValue host', fully'⟩ equal' a b) := by
  refine .readTable (.readTable ?_)
  split
  · exact .pure _
  · refine .holding a fun v => .of_plain fun hv => .readTable (itemsEqual_unaffected h (fun key u hkey => ?_) _ (hv.items a))
    exact lookup_unaffected .any (fun u => hashValue_unaffected key u hkey)
      (fun other u => hfully key other u hkey) b

theorem structsEqual_unaffected (hfully : UnaffectedTwo fully fully') (a b : StructId) :
    w.Unaffected (structsEqual fully equal host a b) (structsEqual fully' equal' host' a b) := by
  refine .of_plain fun hw => .read run_get ?_
  dsimp only
  split
  · exact .pure _
  · refine .bind (sameConstructor_unaffected hfully .equality (hw.ctors a) (hw.ctors b)) fun verdict v _ => ?_
    cases verdict with
    | false => exact .pure _
    | true =>
      refine .of_plain fun hv => .read run_get ?_
      exact fieldsEqual_unaffected h _ _ fun field hm => (hv.items (w.struct a).fields field hm).2

end

theorem equalAt_unaffected : ∀ (fuel : Nat) (depth : Int),
    UnaffectedTwo (equalAt host fuel depth) (equalAt host' fuel depth)
  | 0, _, _, _, _, _ => .throw _
  | fuel + 1, depth, x, y, w, hx => by
    by_cases hd : depth < 1
    · intro hw
      rw [equalAt_spent hd, equalAt_spent hd]
      exact ⟨rfl, hw.alike ⟨rfl, rfl, rfl, rfl⟩⟩
    have hfully := equalAt_unaffected fuel fullBudget
    have hbelow := equalAt_unaffected fuel (depth - 1)
    rcases pair_cases x y with ⟨a, b, rfl, rfl⟩ | ⟨a, b, rfl, rfl⟩ | ⟨a, b, rfl, rfl⟩ | hapart
    · rw [equalAt_dicts hd, equalAt_dicts hd]
      split
      · exact .pure _
      · exact dictsEqual_unaffected hbelow hfully a b
    · rw [equalAt_structs hd, equalAt_structs hd]
      exact structsEqual_unaffected hbelow hfully a b
    · exact False.elim hx
    · intro hw
      rw [run_equalAt_apart hapart fuel (by omega), run_equalAt_apart hapart fuel (by omega)]
      exact ⟨rfl, hw⟩

theorem equalWithin_unaffected (depth : Int) : UnaffectedTwo (equalWithin host depth) (equalWithin host' depth) :=
  fun x y w hx => .read run_get (equalAt_unaffected _ depth x y w hx)

/-! ## Operations -/

/-- **The host is not asked where it has no values**, whatever is looked up, hashed, compared or written. -/
theorem lookup_keyingOf_unaffected (t : TableId kind) {key : kind.Key} (hkey : PlainKey key) :
    w.Unaffected (lookup (keyingOf host kind) t key) (lookup (keyingOf host' kind) t key) := by
  cases kind with
  | any =>
    exact lookup_unaffected .any (fun u => hashValue_unaffected key u hkey)
      (fun other u => equalWithin_unaffected fullBudget key other u hkey) t
  | text => exact .refl (calm_lookup (textKeying_quiet key))

theorem requireField_unaffected (s : StructId) (name : Bytes) :
    w.Unaffected (requireField host s name) (requireField host' s name) := by
  refine .bind (.refl (calm_field? s name)) fun found v _ => ?_
  cases found with
  | some x => exact .pure _
  | none =>
    refine .of_plain fun hv => .read run_get ?_
    dsimp only
    split
    · exact .bind (.pure _) fun _ _ _ => .raise _
    · exact .bind (.bind (display_unaffected _ v (hv.ctors s)) fun _ _ _ => .pure _) fun _ _ _ => .raise _

end ValueCore
