import ValueCore.Cursor
import ValueCore.Proofs.Operations.Structs

/-!
# Reachable worlds

A program works on a world by operations (`Operation`), by starting and releasing cursors, and by rearranging
what it keeps on its own side. `Attempts` is any sequence of these. An operation that fails leaves behind what
it did up to there, and the program goes on.

The program also answers the questions about its own values. In answering it may attempt anything as well,
with values that are again answered for by itself; every run that ends has nested such calls only so deep. So
a `Civil` host is one whose answers are attempts on top of hosts that are civil already. Nothing else is
asked of it: it may fail, lie, change its mind, change the table that is being searched, freeze it, or leave
cursors on it.

A world is `Reachable` if it comes from one without tables and structs in this way. What is asked of the
program is that it names things that are there and releases only cursors it has: the ledger of its active
cursors is the `Inventory`.
-/

namespace ValueCore

open World

variable {ε : Type} {I : Inventory ε} {n : Nat} {w w' : World ε} {host : Host ε}

/-! ## Operations -/

/-- An operation of the core, with its arguments. -/
inductive Operation
  | newTable (kind : KeyKind) (hint : UInt32)
  | resize {kind : KeyKind} (t : TableId kind) (hint : UInt32)
  | insert {kind : KeyKind} (t : TableId kind) (key : kind.Key) (value : Value)
  | lookup {kind : KeyKind} (t : TableId kind) (key : kind.Key)
  | erase {kind : KeyKind} (t : TableId kind) (key : kind.Key)
  | clear {kind : KeyKind} (t : TableId kind)
  | keys {kind : KeyKind} (t : TableId kind)
  | items {kind : KeyKind} (t : TableId kind)
  | freezeTable {kind : KeyKind} (t : TableId kind)
  | newDict (hint : UInt32)
  | createStruct (ctor : Value) (fields : List Field)
  | makeStruct (positional : List Value) (fields : List Field)
  | mergeStructs (x y : StructId)
  | intoDict (s : StructId) (d : TableId .any)
  | field (s : StructId) (name : Bytes)
  | hasField (s : StructId) (name : Bytes)
  | fieldNames (s : StructId)
  | hash (v : Value)
  | equal (depth : Int) (x y : Value)
  | equalDicts (depth : Int) (x y : TableId .any)
  | equalStructs (depth : Int) (x y : StructId)
  | display (v : Value)
  | displayStruct (s : StructId)
  | freeze (v : Value)

namespace Operation

/-- What an operation does. Its answer is left to the program. -/
def run (host : Host ε) : Operation → Run ε Unit
  | .newTable kind hint => discard (ValueCore.newTable kind hint)
  | .resize t hint => resizeTable t hint
  | @insert kind t key value => ValueCore.insert (keyingOf host kind) t key value
  | @lookup kind t key => discard (ValueCore.lookup (keyingOf host kind) t key)
  | @erase kind t key => discard (ValueCore.erase (keyingOf host kind) t key)
  | .clear t => ValueCore.clear t
  | .keys t => discard (keyList t)
  | .items t => discard (itemList t)
  | .freezeTable t => freezeDeep host t
  | .newDict hint => discard (ValueCore.newDict hint)
  | .createStruct ctor fields => discard (ValueCore.createStruct ctor fields)
  | .makeStruct positional fields => discard (ValueCore.makeStruct positional fields)
  | .mergeStructs x y => discard (ValueCore.mergeStructs host x y)
  | .intoDict s d => structIntoDict host s d
  | .field s name => discard (requireField host s name)
  | .hasField s name => discard (ValueCore.hasField s name)
  | .fieldNames s => discard (ValueCore.fieldNames s)
  | .hash v => discard (hashValue host v)
  | .equal depth x y => discard (equalWithin host depth x y)
  | .equalDicts depth x y => discard (dictsEqualWithin host depth x y)
  | .equalStructs depth x y => discard (structsEqualWithin host depth x y)
  | .display v => discard (ValueCore.display host v)
  | .displayStruct s => discard (ValueCore.displayStruct host s)
  | .freeze v => ValueCore.freeze host v

/-- The arguments name what is there, the field tables of structs are left alone, and only a table that is
empty and not held is sized. -/
def Valid (w : World ε) : Operation → Prop
  | .resize t _ => w.Open t ∧ (w.table t).length = 0 ∧ (w.table t).holds = 0
  | .insert t key value => w.Open t ∧ w.OwnsKey key ∧ w.Owns value
  | .lookup t key => w.Has t ∧ w.OwnsKey key
  | .erase t key => w.Open t ∧ w.OwnsKey key
  | .clear t => w.Open t
  | .freezeTable t => w.Has t
  | .createStruct ctor fields => w.Owns ctor ∧ OwnsFields w fields
  | .makeStruct _ fields => OwnsFields w fields
  | .mergeStructs x y | .equalStructs _ x y => w.Owns (.struct x) ∧ w.Owns (.struct y)
  | .intoDict s d => w.Owns (.struct s) ∧ w.Has d
  | .field s _ | .hasField s _ | .displayStruct s => w.Owns (.struct s)
  | .hash v | .display v | .freeze v => w.Owns v
  | .equal _ x y => w.Owns x ∧ w.Owns y
  | .equalDicts _ x y => w.Has x ∧ w.Has y
  | .newTable .. | .newDict .. | .keys .. | .items .. | .fieldNames .. => True

instance (w : World ε) : DecidablePred (Valid w) := fun op => by unfold Valid; cases op <;> infer_instance

end Operation

/-- The operation makes something, or changes the contents of a table. -/
def Operation.Changes : Operation → Prop
  | .newTable .. | .resize .. | .insert .. | .erase .. | .clear .. | .newDict .. | .createStruct .. | .makeStruct ..
  | .mergeStructs .. | .intoDict .. => True
  | _ => False

instance : DecidablePred Operation.Changes := fun op => by unfold Operation.Changes; cases op <;> infer_instance

/-- The operation makes a table, a dict or a struct. -/
def Operation.Makes : Operation → Prop
  | .newTable .. | .newDict .. | .createStruct .. | .makeStruct .. | .mergeStructs .. => True
  | _ => False

instance : DecidablePred Operation.Makes := fun op => by unfold Operation.Makes; cases op <;> infer_instance

/-- The operation freezes tables. -/
def Operation.Freezes : Operation → Prop
  | .freezeTable _ | .freeze _ => True
  | _ => False

instance : DecidablePred Operation.Freezes := fun op => by unfold Operation.Freezes; cases op <;> infer_instance

section
variable {R : World ε → World ε → Prop}

/-- Operations that change a table keep to what the host's answers keep to, if changes do. -/
theorem Operation.changes [Changing I n R] (hh : host.Follows I R) (h : w.Sound I) (op : Operation)
    (hv : op.Valid w) (hc : op.Changes) (hm : ¬ op.Makes) : R w (op.run host w).2 := by
  cases op with
  | resize t hint => exact (resizeTable_along hint hv.1.1 hv.1.not_sealed hv.2.1 hv.2.2).ends
  | insert t key value =>
    exact (insert_along (keyingOf_follows hh _) h hv.1.1 hv.1.not_sealed hv.2.1 hv.2.2).ends
  | erase t key => exact (erase_along (keyingOf_follows hh _) h hv.1.1 hv.1.not_sealed hv.2).discard
  | clear t => exact (clear_along h hv.1 hv.not_sealed).ends
  | intoDict s d => exact (structIntoDict_along hh h hv.2).ends
  | newTable | newDict | createStruct | makeStruct | mergeStructs => exact absurd trivial hm
  | _ => exact hc.elim

/-- Operations that change or make something keep to what the host's answers keep to, if work does. -/
theorem Operation.works [Working I n R] (hh : host.Follows I R) (h : w.Sound I) (hn : n ≤ w.structs.size)
    (op : Operation) (hv : op.Valid w) (hc : op.Changes) : R w (op.run host w).2 := by
  by_cases hm : op.Makes
  · cases op with
    | newTable kind hint => exact (newTable_along kind hint).discard
    | newDict hint => exact (newDict_along hint).discard
    | createStruct ctor fields => exact (createStruct_along h hn hv.1 hv.2).discard
    | makeStruct positional fields => exact (makeStruct_along h hn positional hv).discard
    | mergeStructs x y => exact (mergeStructs_along hh h hn hv.1 hv.2).discard
    | _ => exact hm.elim
  · exact op.changes hh h hv hc hm

/-- Every other operation keeps to what the host's answers keep to. -/
theorem Operation.along [BySteps I R] (hh : host.Follows I R) (h : w.Sound I) (op : Operation) (hv : op.Valid w)
    (hc : ¬ op.Changes) (hf : op.Freezes → R w (op.run host w).2) : R w (op.run host w).2 := by
  cases op with
  | lookup t key => exact (lookup_along (keyingOf_follows hh _) h hv.1 hv.2).discard
  | keys t => exact (keyList_along t).discard
  | items t => exact (itemList_along t).discard
  | field s name => exact (requireField_along hh h hv name).discard
  | hasField s name => exact (hasField_along h hv name).discard
  | fieldNames s => exact (fieldNames_along s).discard
  | hash v => exact (hashValue_handles hh v h hv).discard
  | equal depth x y => exact (equalWithin_handles hh depth x y h hv.1 hv.2).discard
  | equalDicts depth x y => exact (dictsEqualWithin_along hh h depth hv.1 hv.2).discard
  | equalStructs depth x y => exact (structsEqualWithin_along hh h depth hv.1 hv.2).discard
  | display v => exact (display_handles hh v h hv).discard
  | displayStruct s => exact (displayStruct_along hh h hv).discard
  | freezeTable t => exact hf trivial
  | freeze v => exact hf trivial
  | _ => exact absurd trivial hc

/-- Freezing keeps to whatever setting a flag and the host's answers keep to. -/
theorem Operation.freezes_along [BySteps I R] (hf : host.Freezes I R) (h : w.Sound I) (op : Operation)
    (hv : op.Valid w) (ho : op.Freezes) : R w (op.run host w).2 := by
  cases op with
  | freezeTable t => exact (freezeDeep_along hf h hv).ends
  | freeze v => exact (freeze_handles hf v h hv).ends
  | _ => exact False.elim ho

end

/-- **Every operation is a run of steps.** -/
theorem Operation.evolves (hh : host.Respects I) (h : w.Sound I) (op : Operation) (hv : op.Valid w) :
    Evolves I w.structs.size w (op.run host w).2 := by
  have hn := Nat.le_refl w.structs.size
  by_cases hc : op.Changes
  · exact (op.works (hh.spares w.structs.size) h hn hv hc).le (le_min hn hn)
  · exact op.along hh.follows h hv hc (op.freezes_along hh.freezes h hv)

/-! ## Programs and hosts -/

/-- Any sequence of operations, with values answered for by one of `hosts`. -/
inductive Attempts (I : Inventory ε) (hosts : Host ε → Prop) (w : World ε) : World ε → Prop
  | refl : Attempts I hosts w w
  | call {v : World ε} (host : Host ε) (op : Operation) : Attempts I hosts w v → hosts host → op.Valid v →
    Attempts I hosts w (op.run host v).2
  /-- Memory, messages, objects and views are the program's own business. -/
  | outside {v v' : World ε} : Attempts I hosts w v → Alike v v' → Attempts I hosts w v'
  | aside {v : World ε} (e : ε) : Attempts I hosts w v → I.cursors e = I.cursors v.env → v.Keeps I e →
    Attempts I hosts w { v with env := e }
  /-- A cursor is started and noted. -/
  | start {v v' : World ε} {kind : KeyKind} (t : TableId kind) (c : Cursor kind) (e : ε) : Attempts I hosts w v →
    v.Has t → Cursor.start t v = (.ok c, v') →
    I.cursors e = (if c.holding then plus (I.cursors v.env) ⟨kind, t⟩ else I.cursors v.env) → v.Keeps I e →
    Attempts I hosts w { v' with env := e }
  /-- A cursor is released and struck off. -/
  | finish {v : World ε} {kind : KeyKind} (c : Cursor kind) (e : ε) : Attempts I hosts w v →
    I.cursors v.env = (if c.holding then plus (I.cursors e) ⟨kind, c.table⟩ else I.cursors e) → v.Keeps I e →
    Attempts I hosts w { (c.finish v).2 with env := e }

/-- More hosts may be asked. -/
theorem Attempts.mono {hosts hosts' : Host ε → Prop} (hi : ∀ h, hosts h → hosts' h) (ha : Attempts I hosts w w') :
    Attempts I hosts' w w' := by
  induction ha with
  | refl => exact .refl
  | call host op _ hh hv ih => exact ih.call host op (hi host hh) hv
  | outside _ hv ih => exact ih.outside hv
  | aside e _ he hk ih => exact ih.aside e he hk
  | start t c e _ ht hc he hk ih => exact ih.start t c e ht hc he hk
  | finish c e _ he hk ih => exact ih.finish c e he hk

theorem Attempts.trans {hosts : Host ε → Prop} {v : World ε} (ha : Attempts I hosts w v) (hb : Attempts I hosts v w') :
    Attempts I hosts w w' := by
  induction hb with
  | refl => exact ha
  | call host op _ hh hv ih => exact ih.call host op hh hv
  | outside _ hv ih => exact ih.outside hv
  | aside e _ he hk ih => exact ih.aside e he hk
  | start t c e _ ht hc he hk ih => exact ih.start t c e ht hc he hk
  | finish c e _ he hk ih => exact ih.finish c e he hk

/-- A host whose answers are attempts on top of civil hosts. -/
inductive Civil (I : Inventory ε) : Host ε → Prop
  | intro {host : Host ε} (inner : Host ε → Prop) : (∀ h, inner h → Civil I h) →
    (∀ w i, w.Sound I → Attempts I inner w (host.display i w).2) →
    (∀ w i, w.Sound I → Attempts I inner w (host.hash i w).2) →
    (∀ w a b depth, w.Sound I → Attempts I inner w (host.equal a b depth w).2) →
    (∀ w i, w.Sound I → Attempts I inner w (host.freeze i w).2) → Civil I host

/-- A world without tables and structs, whose program keeps nothing. -/
structure World.Bare (I : Inventory ε) (w : World ε) : Prop where
  anyTables : w.anyTables = #[]
  textTables : w.textTables = #[]
  structs : w.structs = #[]
  kept : w.Keeps I w.env
  cursors : ∀ r, I.cursors w.env r = 0

/-- The worlds that a program with civil values can come to. -/
def Reachable (I : Inventory ε) (w : World ε) : Prop := ∃ w₀, World.Bare I w₀ ∧ Attempts I (Civil I) w₀ w

/-! ## Attempts are runs of steps -/

/-- Starting a cursor holds the table, if at all. -/
theorem run_start {kind : KeyKind} {t : TableId kind} {c : Cursor kind} (hc : Cursor.start t w = (.ok c, w')) :
    c.holding = false ∧ w' = w ∨ c.holding = true ∧ w' = w.held t := by
  unfold Cursor.start at hc
  rw [run_bind_ok (run_readTable t w)] at hc
  cases hf : (w.table t).frozen with
  | true =>
    simp only [hf, if_true, run_pure] at hc
    cases hc
    exact .inl ⟨rfl, rfl⟩
  | false =>
    simp only [hf, if_false, Bool.false_eq_true] at hc
    rw [run_bind_ok (run_modify _ w), run_pure] at hc
    cases hc
    exact .inr ⟨rfl, rfl⟩

/-- Finishing it lets the table go, if it was held. -/
theorem run_finish {kind : KeyKind} (c : Cursor kind) (w : World ε) :
    c.holding = false ∧ (c.finish w).2 = w ∨ c.holding = true ∧ (c.finish w).2 = w.letGo c.table := by
  unfold Cursor.finish
  cases hc : c.holding with
  | false => exact .inl ⟨rfl, rfl⟩
  | true => exact .inr ⟨rfl, rfl⟩

theorem start_evolves {kind : KeyKind} {t : TableId kind} {c : Cursor kind} {e : ε} (ht : w.Has t)
    (hc : Cursor.start t w = (.ok c, w'))
    (he : I.cursors e = if c.holding then plus (I.cursors w.env) ⟨kind, t⟩ else I.cursors w.env)
    (hk : w.Keeps I e) : Evolves I n w { w' with env := e } := by
  rcases run_start hc with ⟨hh, rfl⟩ | ⟨hh, rfl⟩
  · rw [hh, if_neg (by simp)] at he
    exact .step (.aside e he hk)
  · rw [hh, if_pos rfl] at he
    exact .step (.open t e ht he hk)

/-- A cursor that is on the ledger holds a table that is there. -/
theorem World.Sound.has_of_cursor (h : w.Sound I) {kind : KeyKind} {t : TableId kind} {g : TableRef → Nat}
    (hg : I.cursors w.env = plus g ⟨kind, t⟩) : w.Has t := by
  by_contra hn
  have hc := h.counted ⟨kind, t⟩
  have hz := holds_of_not_has t hn
  rw [hg, plus, if_pos rfl] at hc
  simp only [hz] at hc
  omega

theorem finish_evolves {kind : KeyKind} {c : Cursor kind} {e : ε} (h : w.Sound I)
    (he : I.cursors w.env = if c.holding then plus (I.cursors e) ⟨kind, c.table⟩ else I.cursors e)
    (hk : w.Keeps I e) : Evolves I n w { (c.finish w).2 with env := e } := by
  rcases run_finish c w with ⟨hh, hr⟩ | ⟨hh, hr⟩
  · rw [hh, if_neg (by simp)] at he
    rw [hr]
    exact .step (.aside e he.symm hk)
  · rw [hh, if_pos rfl] at he
    rw [hr]
    exact .step (.close c.table e (h.has_of_cursor he) he hk)

theorem Attempts.evolves {hosts : Host ε → Prop} (hi : ∀ h, hosts h → h.Respects I) (h : w.Sound I)
    (ha : Attempts I hosts w w') : Evolves I w.structs.size w w' := by
  induction ha with
  | refl => exact .refl
  | call host op _ hh hv ih =>
    exact ih.trans ((op.evolves (hi host hh) (ih.sound h) hv).le ih.within.size_le)
  | outside _ hv ih => exact ih.trans (.step (.outside hv))
  | aside e _ he hk ih => exact ih.trans (.step (.aside e he hk))
  | start t c e _ ht hc he hk ih => exact ih.trans (start_evolves ht hc he hk)
  | finish c e _ he hk ih => exact ih.trans (finish_evolves (ih.sound h) he hk)

/-- **The answers of a civil host are runs of steps.** The induction is on how deep calls nest. -/
theorem Civil.respects (hc : Civil I host) : host.Respects I := by
  induction hc with
  | intro inner _ hdisplay hhash hequal hfreeze ih =>
    refine ⟨fun i h hn => ?_, fun i h hn => ?_, fun a b depth h hn => ?_, fun i h hn => ?_⟩
    · exact ((hdisplay _ i h).evolves ih h).le hn
    · exact ((hhash _ i h).evolves ih h).le hn
    · exact ((hequal _ a b depth h).evolves ih h).le hn
    · exact ((hfreeze _ i h).evolves ih h).le hn

theorem World.Bare.table_eq (hb : w.Bare I) {kind : KeyKind} (t : TableId kind) : w.table t = Table.empty := by
  refine table_of_not_has t ?_
  cases kind
  · simp [Has, hb.anyTables]
  · simp [Has, hb.textTables]

theorem World.Bare.sound (hb : w.Bare I) : w.Sound I := by
  have hnot : ∀ {kind : KeyKind} (t : TableId kind), w.table t = Table.empty := fun t => hb.table_eq t
  refine ⟨fun t => hnot t ▸ Table.sound_empty, fun t => ?_, fun s hs => ?_, fun s hs => ?_, hb.kept, fun r => ?_⟩
  · rw [hnot t, Table.items_eq, Table.records_of_order_nil (Table.sound_empty.order_eq_nil rfl)]
    intro item hm
    cases hm
  · simp [hb.structs] at hs
  · simp [hb.structs] at hs
  · rw [hb.cursors]; exact Nat.zero_le _

theorem Reachable.sound (hr : Reachable I w) : w.Sound I := by
  obtain ⟨w₀, hb, ha⟩ := hr
  exact (ha.evolves (fun _ hc => hc.respects) hb.sound).sound hb.sound

/-! ## A host that meddles -/

/-- A host whose values do nothing when asked. -/
def mute : Host ε where
  typeName _ _ := ascii "mute"
  sameClass _ _ _ := false
  display _ := pure []
  hash _ := pure 0
  equal _ _ _ := pure false
  freeze _ := pure ()

theorem mute_civil : Civil I mute :=
  .intro (fun _ => False) (fun _ h => h.elim) (fun _ _ _ => .refl) (fun _ _ _ => .refl) (fun _ _ _ _ _ => .refl)
    fun _ _ _ => .refl

/-- One operation after the other, whether they fail or not. -/
def inTurn (ops : List Operation) (w : World ε) : World ε := ops.foldl (fun v op => (op.run mute v).2) w

/-- The operations may be done one after the other. -/
def ValidInTurn (w : World ε) : List Operation → Prop
  | [] => True
  | op :: ops => op.Valid w ∧ ValidInTurn (op.run mute w).2 ops

instance validInTurnDecidable : (ops : List Operation) → (w : World ε) → Decidable (ValidInTurn w ops)
  | [], _ => .isTrue trivial
  | op :: ops, w =>
    have := validInTurnDecidable ops (op.run mute w).2
    inferInstanceAs (Decidable (op.Valid w ∧ ValidInTurn (op.run mute w).2 ops))

theorem Attempts.inTurn {hosts : Host ε → Prop} (hm : hosts mute) : ∀ {ops : List Operation} {v : World ε},
    Attempts I hosts w v → ValidInTurn v ops → Attempts I hosts w (inTurn ops v)
  | [], _, ha, _ => ha
  | op :: _, _, ha, ⟨hv, hrest⟩ => (ha.call mute op hm hv).inTurn hm hrest

/-- Of a host that keeps no values, tables or cursors. -/
def Inventory.nothing : Inventory ε where
  values _ := []
  tables _ := []
  cursors _ _ := 0

/-- The state of a program before it has done anything. All the memory it asks for is granted. -/
def World.unused (e : ε) : World ε := ⟨Memory.new fun _ _ => true, 0, [], #[], #[], #[], #[], [], none, e⟩

theorem keeps_nothing (w : World ε) (e : ε) : w.Keeps Inventory.nothing e :=
  ⟨by simp [Inventory.nothing], by simp [Inventory.nothing]⟩

theorem bare_unused (e : ε) : (World.unused e).Bare Inventory.nothing :=
  ⟨rfl, rfl, rfl, keeps_nothing _ _, fun _ => rfl⟩

/-- A host that keeps one table in mind. -/
def oneTable : Inventory (Option (TableId .any)) where
  values _ := []
  tables e := e.toList.map fun t => ⟨.any, t⟩
  cursors _ _ := 0

/-- A host whose values collide, and that tries to insert into its table whenever it is asked to compare. -/
def meddler : Host (Option (TableId .any)) where
  typeName _ _ := ascii "meddler"
  sameClass _ _ _ := true
  display _ := pure (ascii "meddler")
  hash _ := pure 7
  equal a b _ := do
    match (← get).env with
    | none => pure ()
    | some t => discard (protect (insert (valueKeying mute) t (.int 0) .none))
    return a == b
  freeze _ := pure ()

theorem meddler_civil : Civil oneTable meddler := by
  refine .intro (· = mute) (fun _ h => h ▸ mute_civil) (fun _ _ _ => .refl) (fun _ _ _ => .refl) (fun w a b _ h => ?_)
    fun _ _ _ => .refl
  show Attempts _ _ w (((get >>= fun v => _) : Run _ Bool) w).2
  rw [run_bind_ok (run_get w)]
  cases he : w.env with
  | none => exact .refl
  | some t =>
    have ht : w.Open t := h.kept.tables ⟨.any, t⟩ (by simp [oneTable, he])
    have hcall : Attempts oneTable (· = mute) w ((Operation.insert t (.int 0) .none).run mute w).2 :=
      .call mute _ .refl rfl ⟨ht, trivial, trivial⟩
    have hdone := hcall.outside (alike_protect (insert (valueKeying mute) t (.int 0) .none))
    have hw := snd_run_discard (protect (insert (valueKeying mute) t (.int 0) .none)) (a == b) w
    exact hw ▸ hdone

/-- The state of a program before it has done anything. -/
def untouched : World (Option (TableId .any)) :=
  ⟨Memory.new fun _ _ => true, 0, [], #[], #[], #[], #[], [], none, none⟩

theorem bare_untouched : untouched.Bare oneTable :=
  ⟨rfl, rfl, rfl, ⟨by simp [oneTable], by simp [oneTable, untouched]⟩, fun _ => rfl⟩

/-- One table, which the host keeps in mind. -/
def noted : World (Option (TableId .any)) :=
  { ((Operation.newTable .any 0).run meddler untouched).2 with env := some ⟨0⟩ }

/-- The insertion of a value of the host, which is asked about it. -/
def insertHost (i : Nat) (w : World (Option (TableId .any))) : World (Option (TableId .any)) :=
  ((@Operation.insert .any ⟨0⟩ (.host ⟨i⟩) (.int 1)).run meddler w).2

theorem reachable_insertHost {w : World (Option (TableId .any))} (h : Reachable oneTable w)
    (ht : @Has _ w .any ⟨0⟩) (i : Nat) : Reachable oneTable (insertHost i w) := by
  obtain ⟨w₀, hb, ha⟩ := h
  exact ⟨w₀, hb, ha.call meddler _ meddler_civil ⟨open_any.2 ht, trivial, trivial⟩⟩

theorem reachable_noted : Reachable oneTable noted := by
  refine ⟨untouched, bare_untouched, ((Attempts.refl).call meddler (.newTable .any 0) meddler_civil trivial).aside _ rfl ?_⟩
  refine ⟨by simp [oneTable], fun r hr => ?_⟩
  obtain rfl : r = ⟨.any, ⟨0⟩⟩ := by simpa [oneTable] using hr
  have hhas : @Has _ ((Operation.newTable .any 0).run meddler untouched).2 .any ⟨0⟩ := by decide +kernel
  exact open_any.2 hhas

end ValueCore
