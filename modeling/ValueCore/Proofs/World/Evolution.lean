import ValueCore.Proofs.World.Sound

/-!
# How a world evolves

Whatever the operations do to a world is made of a few steps (`Step`): a change of one table, a new table or
struct, a freeze, a cursor opened or closed by the host, and anything that happens to neither tables nor
structs. `Evolves` is a run of such steps, in which a run may also stand between holding a table and letting
it go again (`bracket`): that is what a scan of a chain is, and the run inside it is whatever the host did
when it was asked to compare keys.

What a single step can do to a table is said twice. For one that is there `Step.table` says when: nothing but
holding and freezing, unless the table is open, not held and, if it has entries, not frozen. For any
`Step.change_or_size` says what: a change, or that it is sized while it has no entries. For whole runs it
follows from the first:

| while | the table |
| --- | --- |
| it is frozen | stays frozen and keeps its entries in their slots (`Evolves.frozen`) |
| something holds it all the time | changes in its flags only (`Evolves.same_of_guarded`) |
| it is the field table of a finished struct | changes in its flags only (`Evolves.same_of_sealed`) |

The bound `n` says which structs count as finished; see `World.Sealed`.
-/

namespace ValueCore.World

variable {ε : Type} {w w' : World ε} {kind : KeyKind} {I : Inventory ε} {n : Nat}

/-- Adds a struct together with its table of fields. -/
def addStruct (w : World ε) (ctor : Value) (fields : Table Bytes) : World ε :=
  { (w.addTable .text fields).2 with structs := w.structs.push ⟨ctor, (w.addTable .text fields).1⟩ }

/-- One step of a world. -/
inductive Step (I : Inventory ε) (n : Nat) : World ε → World ε → Prop
  /-- Memory, messages, objects and views are nothing to the tables. -/
  | outside {w w' : World ε} : Alike w w' → Step I n w w'
  /-- The host rearranges what it keeps. -/
  | aside {w : World ε} (e : ε) : I.cursors e = I.cursors w.env → w.Keeps I e → Step I n w { w with env := e }
  | addTable {w : World ε} (kind : KeyKind) (heads : Nat) (block : Option Block) : (∃ k ≤ 24, heads = 2 ^ k) →
    Step I n w (w.addTable kind (.withStorage heads heads block)).2
  | addStruct {w : World ε} (ctor : Value) (heads : Nat) (block : Option Block) : (∃ k ≤ 24, heads = 2 ^ k) →
    w.Owns ctor → Step I n w (w.addStruct ctor (.withStorage heads heads block))
  | change {w : World ε} {kind : KeyKind} (t : TableId kind) (t' : Table kind.Key) : w.Has t → ¬ w.Sealed n t →
    (w.table t).frozen = false → (w.table t).holds = 0 → Table.Change (w.table t) t' → w.OwnsItems t'.items →
    Step I n w (w.modifyTable t fun _ => t')
  | resize {w : World ε} {kind : KeyKind} (t : TableId kind) (heads : Nat) (block : Option Block) : w.Has t →
    ¬ w.Sealed n t → (w.table t).length = 0 → (w.table t).holds = 0 → (∃ k ≤ 24, heads = 2 ^ k) →
    Step I n w (w.modifyTable t (·.resized heads block))
  | freeze {w : World ε} {kind : KeyKind} (t : TableId kind) : w.Has t →
    Step I n w (w.modifyTable t fun t => { t with frozen := true })
  /-- The host starts a cursor on a table that is not frozen, and keeps it. -/
  | open {w : World ε} {kind : KeyKind} (t : TableId kind) (e : ε) : w.Has t →
    I.cursors e = plus (I.cursors w.env) ⟨kind, t⟩ → w.Keeps I e → Step I n w { w.held t with env := e }
  /-- The host releases an active cursor. -/
  | close {w : World ε} {kind : KeyKind} (t : TableId kind) (e : ε) : w.Has t →
    I.cursors w.env = plus (I.cursors e) ⟨kind, t⟩ → w.Keeps I e → Step I n w { w.letGo t with env := e }

/-- A run of a world. -/
inductive Evolves (I : Inventory ε) (n : Nat) : World ε → World ε → Prop
  | refl {w : World ε} : Evolves I n w w
  | step {w w' : World ε} : Step I n w w' → Evolves I n w w'
  | trans {w w' w'' : World ε} : Evolves I n w w' → Evolves I n w' w'' → Evolves I n w w''
  /-- A run during which a table is held. -/
  | bracket {w w' : World ε} {kind : KeyKind} (t : TableId kind) : w.Has t → (w.table t).frozen = false →
    Evolves I n (w.held t) w' → Evolves I n w (w'.letGo t)

/-! ## What is there stays there -/

theorem within_addTable (kind : KeyKind) (T : Table kind.Key) : Within w (w.addTable kind T).2 :=
  within_of_tables (fun t ht => has_addTable kind T t ht) (structs_addTable kind T)

theorem struct_addStruct_of_ne (ctor : Value) (T : Table Bytes) {s : StructId} (hs : s.index ≠ w.structs.size) :
    (w.addStruct ctor T).struct s = w.struct s := getD_push_of_ne _ _ hs

theorem struct_addStruct_self (ctor : Value) (T : Table Bytes) :
    (w.addStruct ctor T).struct ⟨w.structs.size⟩ = ⟨ctor, (w.addTable .text T).1⟩ := getD_push_self _ _

theorem size_addStruct (ctor : Value) (T : Table Bytes) :
    (w.addStruct ctor T).structs.size = w.structs.size + 1 := Array.size_push _

theorem table_addStruct (ctor : Value) (T : Table Bytes) (t : TableId kind) :
    (w.addStruct ctor T).table t = (w.addTable .text T).2.table t := table_congr rfl rfl t

theorem has_addStruct (ctor : Value) (T : Table Bytes) (t : TableId kind) :
    (w.addStruct ctor T).Has t ↔ (w.addTable .text T).2.Has t := has_congr rfl rfl t

theorem within_addStruct (ctor : Value) (T : Table Bytes) : Within w (w.addStruct ctor T) := by
  refine ⟨fun t ht => (has_addStruct ctor T t).2 (has_addTable .text T t ht), ?_, fun s hs => ?_, fun s hs hs' => ?_⟩
  · rw [size_addStruct]; omega
  · exact struct_addStruct_of_ne ctor T (Nat.ne_of_lt hs)
  · rw [size_addStruct] at hs'
    obtain rfl : s = ⟨w.structs.size⟩ := by cases s; simp only [StructId.mk.injEq] at *; omega
    rw [struct_addStruct_self]
    exact not_has_addTable .text T

theorem within_env (e : ε) : Within w { w with env := e } :=
  within_of_tables (fun t ht => (has_congr rfl rfl t).2 ht) rfl

theorem Step.within (hs : Step I n w w') : Within w w' := by
  cases hs with
  | outside h =>
    exact within_of_tables (fun t ht => h.has_iff.2 ht) h.structs
  | aside e => exact within_env e
  | addTable kind heads block => exact within_addTable kind _
  | addStruct ctor heads block => exact within_addStruct ctor _
  | change t t' => exact within_modifyTable t _
  | resize t heads block => exact within_modifyTable t _
  | freeze t => exact within_modifyTable t _
  | «open» t e => exact (within_modifyTable t _).trans (within_env e)
  | close t e => exact (within_modifyTable t _).trans (within_env e)

theorem Evolves.within (he : Evolves I n w w') : Within w w' := by
  induction he with
  | refl => exact Within.refl _
  | step hs => exact hs.within
  | trans _ _ ih ih' => exact ih.trans ih'
  | bracket t _ _ _ ih => exact (within_modifyTable t _).trans (ih.trans (within_modifyTable t _))

/-! ## What a step does to a table -/

/-- Holding, letting go and freezing a table leave every table as it is, but for flags. -/
theorem same_modifyTable (t : TableId kind) {f : Table kind.Key → Table kind.Key} (ht : w.Has t)
    (hf : Table.SameStore (w.table t) (f (w.table t))) {kind' : KeyKind} (t' : TableId kind') :
    Table.SameStore (w.table t') ((w.modifyTable t f).table t') :=
  table_modifyTable_cases t f ht (P := fun u T => Table.SameStore (w.table u) T) hf (fun _ _ => .refl _) t'

theorem same_held (t : TableId kind) (ht : w.Has t) {kind' : KeyKind} (t' : TableId kind') :
    Table.SameStore (w.table t') ((w.held t).table t') := same_modifyTable t ht (.flags _ _ _) t'

theorem same_letGo (t : TableId kind) (ht : w.Has t) {kind' : KeyKind} (t' : TableId kind') :
    Table.SameStore (w.table t') ((w.letGo t).table t') := same_modifyTable t ht (.flags _ _ _) t'

theorem frozen_held (t : TableId kind) (ht : w.Has t) {kind' : KeyKind} (t' : TableId kind') :
    ((w.held t).table t').frozen = (w.table t').frozen :=
  table_modifyTable_cases t _ ht (P := fun u T => T.frozen = (w.table u).frozen) rfl (fun _ _ => rfl) t'

theorem frozen_letGo (t : TableId kind) (ht : w.Has t) {kind' : KeyKind} (t' : TableId kind') :
    ((w.letGo t).table t').frozen = (w.table t').frozen :=
  table_modifyTable_cases t _ ht (P := fun u T => T.frozen = (w.table u).frozen) rfl (fun _ _ => rfl) t'

/-- One table after a step: frozen it stays, and it is the same but for flags unless it is free to change.
A frozen table without entries may still be sized. -/
structure Touched (w : World ε) (n : Nat) {kind : KeyKind} (t : TableId kind) (T : Table kind.Key) : Prop where
  frozen : (w.table t).frozen → T.frozen
  steady : (w.table t).frozen → Table.Steady (w.table t) T
  store : Table.SameStore (w.table t) T ∨ ¬ w.Sealed n t ∧ (w.table t).holds = 0

theorem Touched.of_same {t : TableId kind} {T : Table kind.Key} (h : Table.SameStore (w.table t) T)
    (hf : (w.table t).frozen → T.frozen) : Touched w n t T := ⟨hf, fun _ => h.steady, .inl h⟩

theorem Touched.of_eq {t : TableId kind} {T : Table kind.Key} (h : T = w.table t) : Touched w n t T := by
  subst h
  exact .of_same (.refl _) id

/-- **What a step can do to a table.** -/
theorem Step.table (h : w.Sound I) (hs : Step I n w w') {kind' : KeyKind} (t' : TableId kind') (ht' : w.Has t') :
    Touched w n t' (w'.table t') := by
  cases hs with
  | outside ha => exact .of_eq (ha.table t')
  | aside e => exact .of_eq (table_congr rfl rfl t')
  | addTable kind heads block =>
    refine .of_eq (table_addTable_of_ne kind _ t' fun he => ?_)
    cases he
    exact not_has_addTable _ _ ht'
  | addStruct ctor heads block =>
    refine .of_eq ((table_addStruct ctor _ t').trans (table_addTable_of_ne .text _ t' fun he => ?_))
    cases he
    exact not_has_addTable .text _ ht'
  | change t T ht hseal hfrozen hholds hc _ =>
    refine table_modifyTable_cases t _ ht (P := fun u T => Touched w n u T) ⟨fun hf => ?_, fun hf => ?_, .inr ⟨hseal, hholds⟩⟩
      (fun _ _ => .of_eq rfl) t'
    · rw [hfrozen] at hf; cases hf
    · rw [hfrozen] at hf; cases hf
  | resize t heads block ht hseal hlen hholds hp =>
    exact table_modifyTable_cases t _ ht (P := fun u T => Touched w n u T)
      ⟨id, fun _ => .inr ⟨(h.tables t).kept_resized block hp hlen, hlen, hlen⟩, .inr ⟨hseal, hholds⟩⟩ (fun _ _ => .of_eq rfl) t'
  | freeze t ht =>
    exact table_modifyTable_cases t _ ht (P := fun u T => Touched w n u T)
      (.of_same (.flags _ _ _) fun _ => rfl) (fun _ _ => .of_eq rfl) t'
  | «open» t e ht =>
    have he : ({ w.held t with env := e } : World ε).table t' = (w.held t).table t' := table_congr rfl rfl t'
    rw [he]
    exact .of_same (same_held t ht t') fun hf => by rw [frozen_held t ht]; exact hf
  | close t e ht =>
    have he : ({ w.letGo t with env := e } : World ε).table t' = (w.letGo t).table t' := table_congr rfl rfl t'
    rw [he]
    exact .of_same (same_letGo t ht t') fun hf => by rw [frozen_letGo t ht]; exact hf

/-- **What a step can make of a table**, be it one that is still to be made, which counts as empty. -/
theorem Step.change_or_size (hs : Step I n w w') {kind' : KeyKind} (t' : TableId kind') :
    Table.SameStore (w.table t') (w'.table t') ∨ Table.Change (w.table t') (w'.table t') ∨
      (w.table t').length = 0 ∧
        ∃ heads block, (∃ k ≤ 24, heads = 2 ^ k) ∧ w'.table t' = (w.table t').resized heads block := by
  have hmade : ∀ (kind : KeyKind) {heads : Nat} (block : Option Block), (∃ k ≤ 24, heads = 2 ^ k) →
      Table.SameStore (w.table t') ((w.addTable kind (.withStorage heads heads block)).2.table t') ∨
      (w.table t').length = 0 ∧ ∃ heads' block', (∃ k ≤ 24, heads' = 2 ^ k) ∧
        (w.addTable kind (.withStorage heads heads block)).2.table t' = (w.table t').resized heads' block' := by
    intro kind heads block hp
    by_cases ht : (⟨kind', t'⟩ : TableRef) = ⟨kind, (w.addTable kind (.withStorage heads heads block)).1⟩
    · cases ht
      rw [table_addTable_self, table_of_not_has _ (not_has_addTable _ _)]
      exact .inr ⟨rfl, heads, block, hp, rfl⟩
    · rw [table_addTable_of_ne kind _ t' ht]
      exact .inl (.refl _)
  cases hs with
  | outside ha => exact .inl (ha.table t' ▸ .refl _)
  | aside e => exact .inl ((table_congr rfl rfl t' : ({ w with env := e } : World ε).table t' = w.table t') ▸ .refl _)
  | addTable kind heads block hp => exact (hmade kind block hp).imp_right .inr
  | addStruct ctor heads block hp =>
    rw [table_addStruct]
    exact (hmade .text block hp).imp_right .inr
  | change t T ht _ _ _ hc _ =>
    exact table_modifyTable_cases t _ ht
      (P := fun u T => Table.SameStore (w.table u) T ∨ Table.Change (w.table u) T ∨ (w.table u).length = 0 ∧
        ∃ heads block, (∃ k ≤ 24, heads = 2 ^ k) ∧ T = (w.table u).resized heads block)
      (.inr (.inl hc)) (fun _ _ => .inl (.refl _)) t'
  | resize t heads block ht _ hlen _ hp =>
    exact table_modifyTable_cases t _ ht
      (P := fun u T => Table.SameStore (w.table u) T ∨ Table.Change (w.table u) T ∨ (w.table u).length = 0 ∧
        ∃ heads block, (∃ k ≤ 24, heads = 2 ^ k) ∧ T = (w.table u).resized heads block)
      (.inr (.inr ⟨hlen, heads, block, hp, rfl⟩)) (fun _ _ => .inl (.refl _)) t'
  | freeze t ht => exact .inl (same_modifyTable t ht (.flags _ _ _) t')
  | «open» t e ht =>
    have he : ({ w.held t with env := e } : World ε).table t' = (w.held t).table t' := table_congr rfl rfl t'
    exact .inl (he ▸ same_held t ht t')
  | close t e ht =>
    have he : ({ w.letGo t with env := e } : World ε).table t' = (w.letGo t).table t' := table_congr rfl rfl t'
    exact .inl (he ▸ same_letGo t ht t')

/-! ## Holds are counted -/

theorem guarded_of_tables {g : TableRef → Nat} (h : Guarded I w g) (he : I.cursors w'.env = I.cursors w.env)
    (ht : ∀ {kind : KeyKind} (t : TableId kind), (w'.table t).holds = (w.table t).holds) : Guarded I w' g := by
  intro r
  rw [ht, h r, he]

theorem holds_of_not_has (t : TableId kind) (ht : ¬ w.Has t) : (w.table t).holds = 0 := by
  rw [table_of_not_has t ht]; rfl

theorem holds_addTable (kind : KeyKind) (heads capacity : Nat) (block : Option Block) {kind' : KeyKind}
    (t : TableId kind') : ((w.addTable kind (.withStorage heads capacity block)).2.table t).holds = (w.table t).holds := by
  by_cases h : (⟨kind', t⟩ : TableRef) = ⟨kind, (w.addTable kind (.withStorage heads capacity block)).1⟩
  · cases h
    rw [table_addTable_self, holds_of_not_has _ (not_has_addTable _ _)]; rfl
  · rw [table_addTable_of_ne kind _ t h]

theorem holds_held (t : TableId kind) (ht : w.Has t) (r : TableRef) :
    ((w.held t).table r.2).holds = (w.table r.2).holds + if r = ⟨kind, t⟩ then 1 else 0 := by
  obtain ⟨kind', t'⟩ := r
  refine table_modifyTable_cases t _ ht
    (P := fun {k} u T => T.holds = (w.table u).holds + if (⟨k, u⟩ : TableRef) = ⟨kind, t⟩ then 1 else 0)
    (by simp) (fun u hu => by simp [hu]) t'

theorem holds_letGo (t : TableId kind) (ht : w.Has t) (r : TableRef) :
    ((w.letGo t).table r.2).holds = (w.table r.2).holds - if r = ⟨kind, t⟩ then 1 else 0 := by
  obtain ⟨kind', t'⟩ := r
  refine table_modifyTable_cases t _ ht
    (P := fun {k} u T => T.holds = (w.table u).holds - if (⟨k, u⟩ : TableRef) = ⟨kind, t⟩ then 1 else 0)
    (by simp) (fun u hu => by simp [hu]) t'

theorem Guarded.held {g : TableRef → Nat} (h : Guarded I w g) (t : TableId kind) (ht : w.Has t) :
    Guarded I (w.held t) (plus g ⟨kind, t⟩) := by
  intro r
  have he : (w.held t).env = w.env := env_modifyTable t _
  have := h r
  rw [holds_held t ht, he, plus]
  omega

theorem Guarded.letGo {g : TableRef → Nat} {t : TableId kind} (h : Guarded I w (plus g ⟨kind, t⟩)) (ht : w.Has t) :
    Guarded I (w.letGo t) g := by
  intro r
  have he : (w.letGo t).env = w.env := env_modifyTable t _
  have := h r
  rw [plus] at this
  rw [holds_letGo t ht, he]
  omega

theorem Step.guarded (h : w.Sound I) (hs : Step I n w w') {g : TableRef → Nat} (hg : Guarded I w g) :
    Guarded I w' g := by
  cases hs with
  | outside ha => exact guarded_of_tables hg (by rw [ha.env]) fun t => by rw [ha.table]
  | aside e he => exact guarded_of_tables hg he fun t => congrArg _ (table_congr rfl rfl t)
  | addTable kind heads block =>
    exact guarded_of_tables hg (by rw [env_addTable]) fun t => holds_addTable kind _ _ _ t
  | addStruct ctor heads block =>
    exact guarded_of_tables hg rfl fun t => by rw [table_addStruct]; exact holds_addTable .text _ _ _ t
  | change t T ht _ _ _ hc =>
    exact guarded_of_tables hg (by rw [env_modifyTable]) fun t' =>
      table_modifyTable_cases t _ ht (P := fun u T => T.holds = (w.table u).holds) (hc.flags (h.tables t)).1
        (fun _ _ => rfl) t'
  | resize t heads block ht =>
    exact guarded_of_tables hg (by rw [env_modifyTable]) fun t' =>
      table_modifyTable_cases t _ ht (P := fun u T => T.holds = (w.table u).holds) rfl (fun _ _ => rfl) t'
  | freeze t ht =>
    exact guarded_of_tables hg (by rw [env_modifyTable]) fun t' =>
      table_modifyTable_cases t _ ht (P := fun u T => T.holds = (w.table u).holds) rfl (fun _ _ => rfl) t'
  | «open» t e ht he =>
    intro r
    have htable : ({ w.held t with env := e } : World ε).table r.2 = (w.held t).table r.2 := table_congr rfl rfl r.2
    have hr := hg r
    have hcr : I.cursors e r = I.cursors w.env r + if r = ⟨_, t⟩ then 1 else 0 := congrFun he r
    rw [htable, holds_held t ht, hcr]
    omega
  | close t e ht he =>
    intro r
    have htable : ({ w.letGo t with env := e } : World ε).table r.2 = (w.letGo t).table r.2 := table_congr rfl rfl r.2
    have hr := hg r
    have hcr : I.cursors w.env r = I.cursors e r + if r = ⟨_, t⟩ then 1 else 0 := congrFun he r
    rw [htable, holds_letGo t ht]
    show _ = g r + I.cursors e r
    omega

/-! ## Soundness -/

/-- Changing one table keeps a world sound if that table stays sound and every table remains held enough. -/
theorem Sound.modifyTable (h : w.Sound I) (t : TableId kind) (f : Table kind.Key → Table kind.Key) (ht : w.Has t)
    (hs : (f (w.table t)).Sound) (hi : w.OwnsItems (f (w.table t)).items) {g : TableRef → Nat}
    (hg : Guarded I (w.modifyTable t f) g) : (w.modifyTable t f).Sound I :=
  h.of_tables (fun u hu => (has_modifyTable t f u).2 hu) (structs_modifyTable t f)
    (table_modifyTable_cases t f ht (P := fun _ T => T.Sound) hs fun u _ => h.tables u)
    (table_modifyTable_cases t f ht (P := fun _ T => w.OwnsItems T.items) hi fun u _ => h.items u)
    (by rw [env_modifyTable]; exact h.kept) hg.counted

theorem Sound.held (h : w.Sound I) (t : TableId kind) (ht : w.Has t) : (w.held t).Sound I :=
  h.modifyTable t _ ht ((h.tables t).flags _ _) (by rw [Table.items_flags]; exact h.items t)
    (h.guarded.held t ht)

/-- A table may be let go by whoever holds it besides the cursors. -/
theorem Sound.letGo (h : w.Sound I) {t : TableId kind} {g : TableRef → Nat} (hg : Guarded I w (plus g ⟨kind, t⟩))
    (ht : w.Has t) : (w.letGo t).Sound I :=
  h.modifyTable t _ ht ((h.tables t).flags _ _) (by rw [Table.items_flags]; exact h.items t) (hg.letGo ht)

theorem Sound.env (h : w.Sound I) {e : ε} (hk : w.Keeps I e)
    (hcount : ∀ r, I.cursors e r ≤ (w.table r.2).holds) : ({ w with env := e } : World ε).Sound I := by
  have htable := fun {kind : KeyKind} (t : TableId kind) => (table_congr rfl rfl t : ({ w with env := e } : World ε).table t = w.table t)
  exact h.of_tables (fun t ht => (has_congr rfl rfl t).2 ht) rfl (fun t => by rw [htable]; exact h.tables t)
    (fun t => by rw [htable]; exact h.items t) hk fun r => by rw [htable]; exact hcount r

/-- The host releases a cursor. The ledger is updated first: the hold that is let go is then one that no cursor
needs. -/
theorem Sound.closed (h : w.Sound I) (t : TableId kind) {e : ε} (ht : w.Has t)
    (he : I.cursors w.env = plus (I.cursors e) ⟨kind, t⟩) (hk : w.Keeps I e) :
    ({ w.letGo t with env := e } : World ε).Sound I := by
  have hcur : ∀ r, I.cursors w.env r = I.cursors e r + if r = ⟨kind, t⟩ then 1 else 0 := fun r => congrFun he r
  have hle : ∀ r, I.cursors e r ≤ (w.table r.2).holds := fun r => by
    have := h.counted r
    rw [hcur r] at this
    omega
  have hg : Guarded I { w with env := e } (plus (fun r => (w.table r.2).holds - I.cursors w.env r) ⟨kind, t⟩) := by
    intro r
    have htable : ({ w with env := e } : World ε).table r.2 = w.table r.2 := table_congr rfl rfl r.2
    have hr := h.counted r
    rw [htable, plus]
    show _ = _ + I.cursors e r
    rw [hcur r] at hr ⊢
    omega
  have hcomm : ({ w.letGo t with env := e } : World ε) = ({ w with env := e } : World ε).letGo t := by
    cases kind <;> rfl
  rw [hcomm]
  exact (h.env hk hle).letGo hg ((has_congr rfl rfl t).2 ht)

theorem Sound.addTable (h : w.Sound I) (kind : KeyKind) {heads : Nat} (block : Option Block)
    (hp : ∃ k ≤ 24, heads = 2 ^ k) : (w.addTable kind (.withStorage heads heads block)).2.Sound I := by
  have hg := Step.guarded (n := 0) h (.addTable kind heads block hp) h.guarded
  have hs := Table.sound_withStorage (κ := kind.Key) block hp (Nat.le_refl heads)
  refine h.of_tables (fun u hu => has_addTable kind _ u hu) (structs_addTable kind _) (fun u => ?_) (fun u => ?_)
    (by rw [env_addTable]; exact h.kept) hg.counted
  all_goals
    by_cases hu : (⟨_, u⟩ : TableRef) = ⟨kind, (w.addTable kind (.withStorage heads heads block)).1⟩
  · cases hu
    rw [table_addTable_self]; exact hs
  · rw [table_addTable_of_ne kind _ u hu]; exact h.tables u
  · cases hu
    rw [table_addTable_self, Table.items_eq, Table.records_of_order_nil (hs.order_eq_nil rfl)]
    intro item hm
    cases hm
  · rw [table_addTable_of_ne kind _ u hu]; exact h.items u

theorem Sound.addStruct (h : w.Sound I) {ctor : Value} {heads : Nat} (block : Option Block)
    (hp : ∃ k ≤ 24, heads = 2 ^ k) (hctor : w.Owns ctor) :
    (w.addStruct ctor (.withStorage heads heads block)).Sound I := by
  have ha := h.addTable .text block hp
  have hin := within_addStruct (w := w) ctor (.withStorage heads heads block)
  have htable := fun {kind : KeyKind} (t : TableId kind) =>
    table_addStruct (w := w) ctor (.withStorage heads heads block) t
  have hin' : ∀ {v : Value}, (w.addTable .text (.withStorage heads heads block)).2.Owns v →
      (w.addStruct ctor (.withStorage heads heads block)).Owns v := by
    intro v hv
    cases v with
    | struct s =>
      show s.index < (w.addStruct ctor _).structs.size
      have : s.index < w.structs.size := by rw [← structs_addTable .text (Table.withStorage heads heads block)]; exact hv
      rw [size_addStruct]; omega
    | _ => exact hv
  have hstruct : ∀ s : StructId, s.index < (w.addStruct ctor (.withStorage heads heads block)).structs.size →
      s.index < w.structs.size ∨ s = ⟨w.structs.size⟩ := by
    intro s hs
    rw [size_addStruct] at hs
    by_cases hlt : s.index < w.structs.size
    · exact .inl hlt
    · refine .inr ?_
      cases s
      simp only [StructId.mk.injEq] at *
      omega
  refine ⟨fun t => htable t ▸ ha.tables t, fun t item hm => ?_, fun s hs => ?_, fun s hs => ?_, hin.keeps h.kept,
    fun r => htable r.2 ▸ ha.counted r⟩
  · rw [htable] at hm
    obtain ⟨hk, hv⟩ := ha.items t item hm
    refine ⟨?_, hin' hv⟩
    cases ‹KeyKind› with
    | any => exact hin' hk
    | text => trivial
  · rcases hstruct s hs with hlt | rfl
    · rw [hin.struct_eq s hlt]; exact hin.owns (h.ctors s hlt)
    · rw [struct_addStruct_self]; exact hin.owns hctor
  · rcases hstruct s hs with hlt | rfl
    · rw [hin.struct_eq s hlt]; exact hin.has _ (h.fields s hlt)
    · rw [struct_addStruct_self, has_addStruct]; exact has_addTable_self .text _

theorem Step.sound (h : w.Sound I) (hs : Step I n w w') : w'.Sound I := by
  have hg := Step.guarded h hs h.guarded
  cases hs with
  | outside ha =>
    exact h.of_tables (fun t ht => ha.has_iff.2 ht) ha.structs
      (fun t => by rw [ha.table]; exact h.tables t) (fun t => by rw [ha.table]; exact h.items t)
      (by rw [ha.env]; exact h.kept) hg.counted
  | aside e he hk => exact h.env hk fun r => by rw [he]; exact h.counted r
  | addTable kind heads block hp => exact h.addTable kind block hp
  | addStruct ctor heads block hp hctor => exact h.addStruct block hp hctor
  | change t T ht _ _ _ hc hitems => exact h.modifyTable t _ ht (hc.sound (h.tables t)) hitems hg
  | resize t heads block ht _ hlen _ hp =>
    refine h.modifyTable t _ ht (Table.sound_resized block hp hlen).1 ?_ hg
    rw [((h.tables t).kept_resized block hp hlen).items_eq]
    exact h.items t
  | freeze t ht =>
    exact h.modifyTable t _ ht ((h.tables t).flags _ _) (by rw [Table.items_flags]; exact h.items t) hg
  | «open» t e ht _ hk => exact (h.held t ht).env ((within_modifyTable t _).keeps hk) fun r => hg.counted r
  | close t e ht he hk => exact h.closed t ht he hk

/-- **A run keeps a world sound, and every table held by as many.** -/
theorem Evolves.sound_guarded (he : Evolves I n w w') :
    w.Sound I → ∀ {g : TableRef → Nat}, Guarded I w g → w'.Sound I ∧ Guarded I w' g := by
  induction he with
  | refl => exact fun h _ hg => ⟨h, hg⟩
  | step hs => exact fun h _ hg => ⟨hs.sound h, hs.guarded h hg⟩
  | trans _ _ ih ih' =>
    intro h g hg
    obtain ⟨h', hg'⟩ := ih h hg
    exact ih' h' hg'
  | bracket t ht _ he ih =>
    intro h g hg
    obtain ⟨h', hg'⟩ := ih (h.held t ht) (hg.held t ht)
    have ht' := he.within.has t ((has_modifyTable t _ t).2 ht)
    exact ⟨h'.letGo hg' ht', hg'.letGo ht'⟩

theorem Evolves.sound (he : Evolves I n w w') (h : w.Sound I) : w'.Sound I := (he.sound_guarded h h.guarded).1

theorem Evolves.guarded (he : Evolves I n w w') (h : w.Sound I) {g : TableRef → Nat} (hg : Guarded I w g) :
    Guarded I w' g := (he.sound_guarded h hg).2

/-! ## What a run cannot do to a table -/

section table
variable {kind' : KeyKind} {t' : TableId kind'}

/-- A frozen table stays so, and as it is, but that it may be sized if there is nothing in it. -/
theorem Evolves.steady (he : Evolves I n w w') : w.Sound I → w.Has t' → (w.table t').frozen →
    (w'.table t').frozen ∧ Table.Steady (w.table t') (w'.table t') := by
  induction he with
  | refl => exact fun _ _ hf => ⟨hf, .inl (.refl _)⟩
  | step hs =>
    intro h ht' hf
    have ht := hs.table h t' ht'
    exact ⟨ht.frozen hf, ht.steady hf⟩
  | trans he _ ih ih' =>
    intro h ht' hf
    obtain ⟨hf', hk⟩ := ih h ht' hf
    obtain ⟨hf'', hk'⟩ := ih' (he.sound h) (he.within.has t' ht') hf'
    exact ⟨hf'', hk.trans hk'⟩
  | bracket t ht _ he ih =>
    intro h ht' hf
    have htl := he.within.has t ((has_modifyTable t _ t).2 ht)
    obtain ⟨hf', hk⟩ := ih (h.held t ht) ((has_modifyTable t _ t').2 ht') (by rw [frozen_held t ht]; exact hf)
    exact ⟨by rw [frozen_letGo t htl]; exact hf',
      ((same_held t ht t').steady.trans hk).trans (same_letGo t htl t').steady⟩

/-- **Frozen tables never change.** -/
theorem Evolves.frozen (he : Evolves I n w w') (h : w.Sound I) (ht' : w.Has t') (hf : (w.table t').frozen) :
    (w'.table t').frozen ∧ Table.Kept (w.table t') (w'.table t') := (he.steady h ht' hf).imp_right Table.Steady.kept

/-- A run that cannot change the table at any of its steps leaves it as it is. -/
theorem Evolves.same (he : Evolves I n w w') {P : World ε → Prop} (hstep : ∀ {u v : World ε}, P u → u.Sound I →
      Step I n u v → Table.SameStore (u.table t') (v.table t'))
    (hmono : ∀ {u v : World ε}, P u → u.Sound I → Evolves I n u v → P v)
    (hheld : ∀ {u : World ε} {kind : KeyKind} (t : TableId kind), u.Has t → P u → P (u.held t)) :
    P w → w.Sound I → Table.SameStore (w.table t') (w'.table t') := by
  induction he with
  | refl => exact fun _ _ => .refl _
  | step hs => exact fun hp h => hstep hp h hs
  | trans he _ ih ih' => exact fun hp h => (ih hp h).trans (ih' (hmono hp h he) (he.sound h))
  | bracket t ht _ he ih =>
    intro hp h
    have htl := he.within.has t ((has_modifyTable t _ t).2 ht)
    exact ((same_held t ht t').trans (ih (hheld t ht hp) (h.held t ht))).trans (same_letGo t htl t')

/-- **While something besides the cursors holds a table, it changes in its flags only.** -/
theorem Evolves.same_of_guarded (he : Evolves I n w w') (h : w.Sound I) (ht' : w.Has t')
    (hg : I.cursors w.env ⟨kind', t'⟩ < (w.table t').holds) : Table.SameStore (w.table t') (w'.table t') := by
  let P : World ε → Prop := fun u => u.Has t' ∧ ∃ g, Guarded I u g ∧ 0 < g ⟨kind', t'⟩
  refine he.same (P := P) ?_ ?_ ?_ ⟨ht', _, h.guarded, Nat.sub_pos_of_lt hg⟩ h
  · rintro u v ⟨hu, g, hg, hpos⟩ hs hstep
    have hholds := hg ⟨kind', t'⟩
    obtain hsame | ⟨_, hzero⟩ := (hstep.table hs t' hu).store
    · exact hsame
    · simp only [hzero] at hholds
      omega
  · rintro u v ⟨hu, g, hg, hpos⟩ hs he
    exact ⟨he.within.has t' hu, g, he.guarded hs hg, hpos⟩
  · rintro u kind t ht ⟨hu, g, hg, hpos⟩
    exact ⟨(has_modifyTable t _ t').2 hu, _, hg.held t ht, Nat.lt_of_lt_of_le hpos (Nat.le_add_right _ _)⟩

/-- **The fields of a finished struct never change.** -/
theorem Evolves.same_of_sealed (he : Evolves I n w w') (h : w.Sound I) (ht' : w.Has t') (hs : w.Sealed n t') :
    Table.SameStore (w.table t') (w'.table t') := by
  let P : World ε → Prop := fun u => u.Has t' ∧ u.Sealed n t'
  refine he.same (P := P) ?_ ?_ ?_ ⟨ht', hs⟩ h
  · rintro u v ⟨hu, hseal⟩ hs hstep
    obtain hsame | ⟨hopen, _⟩ := (hstep.table hs t' hu).store
    · exact hsame
    · exact absurd hseal hopen
  · exact fun hp _ he => ⟨he.within.has t' hp.1, he.within.sealed hp.2⟩
  · exact fun t ht hp => ⟨(has_modifyTable t _ t').2 hp.1, (within_modifyTable t _).sealed hp.2⟩

end table

/-! ## The bound -/

theorem Step.le {m : Nat} (hs : Step I n w w') (hm : m ≤ n) : Step I m w w' := by
  cases hs with
  | outside h => exact .outside h
  | aside e h h' => exact .aside e h h'
  | addTable kind heads block hp => exact .addTable kind heads block hp
  | addStruct ctor heads block hp hc => exact .addStruct ctor heads block hp hc
  | change t T ht hseal hf hh hc hi => exact .change t T ht (fun h => hseal (h.le hm)) hf hh hc hi
  | resize t heads block ht hseal hl hh hp => exact .resize t heads block ht (fun h => hseal (h.le hm)) hl hh hp
  | freeze t ht => exact .freeze t ht
  | «open» t e ht he hk => exact .open t e ht he hk
  | close t e ht he hk => exact .close t e ht he hk

/-- A run that respects more structs respects fewer. -/
theorem Evolves.le {m : Nat} (he : Evolves I n w w') (hm : m ≤ n) : Evolves I m w w' := by
  induction he with
  | refl => exact .refl
  | step hs => exact .step (hs.le hm)
  | trans _ _ ih ih' => exact .trans ih ih'
  | bracket t ht hf _ ih => exact .bracket t ht hf ih

end ValueCore.World
