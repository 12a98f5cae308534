import ValueCore.Proofs.Carrying
import ValueCore.Proofs.Reentrancy

/-!
# Frozen tables never change

Once a table is frozen it stays frozen, with the keys and values that it has at that moment, in that order, and whoever
tries to change it is told so (`frozen_tables_never_change`). That goes for maps of both kinds, for dicts and for the
fields of structs.

The moment may be anywhere: between operations, or in the middle of one. For the middle of an operation this is told by
what a host writes down. A host may look at any table when it is asked about its values, freeze it or find it frozen, and
note what is in it (`Snapshot`). If a host notes nothing but what it sees (`Host.Truthful`) then all of its notes are
still true when the operation has ended, in whose midst they were made.

| the table is frozen | and then | |
| --- | --- | --- |
| between operations | anything is attempted, or something is going on | `During.preserves` |
| by the host, while it is asked | the operation goes on to its end | `Operation.vouches` |
| | it is to be changed | `Preserves.refuses` |
-/

namespace ValueCore

open World

variable {ε : Type} {I : Inventory ε} {w w' u : World ε} {kind : KeyKind} {t : TableId kind} {host : Host ε}

/-! ## What is refused -/

/-- Whoever tries to change the table is told that it is frozen, and nothing else happens. -/
structure World.Refuses (w : World ε) (t : TableId kind) : Prop where
  insert : ∀ (keying : Keying ε kind.Key) key value, ValueCore.insert keying t key value w =
    (.error (.raised .frozen), { w with message := (Fault.frozenTable .insert).message })
  erase : ∀ (keying : Keying ε kind.Key) key, ValueCore.erase keying t key w =
    (.error (.raised .frozen), { w with message := (Fault.frozenTable .erase).message })
  clear : ValueCore.clear t w = (.error (.raised .frozen), { w with message := (Fault.frozenTable .clear).message })

/-- The check for the flag comes first, before the key is hashed. -/
theorem refuses_of_frozen (hf : (w.table t).frozen = true) : w.Refuses t :=
  ⟨fun _ _ _ => run_bind_error (run_checkMutable_frozen .insert hf) _,
    fun _ _ => run_bind_error (run_checkMutable_frozen .erase hf) _,
    run_bind_error (run_checkMutable_frozen .clear hf) _⟩

/-! ## Snapshots -/

instance : {kind : KeyKind} → DecidableEq kind.Key
  | .any => inferInstanceAs (DecidableEq Value)
  | .text => inferInstanceAs (DecidableEq Bytes)

/-- What is in a frozen table. -/
structure Snapshot where
  kind : KeyKind
  table : TableId kind
  items : List (kind.Key × Value)
  deriving DecidableEq

/-- The table is there, is frozen and has just these keys and values, in this order. -/
structure World.Preserves (w : World ε) (s : Snapshot) : Prop where
  has : w.Has s.table
  frozen : (w.table s.table).frozen = true
  items : (w.table s.table).items = s.items

namespace World

variable {s : Snapshot}

theorem Preserves.refuses (h : w.Preserves s) : w.Refuses s.table := refuses_of_frozen h.frozen

/-- A run of steps changes nothing of it. -/
theorem Preserves.evolves {n : Nat} (h : w.Preserves s) (hw : w.Sound I) (he : Evolves I n w w') : w'.Preserves s := by
  obtain ⟨hf, hkept⟩ := he.frozen hw h.has h.frozen
  exact ⟨he.within.has _ h.has, hf, hkept.items_eq.trans h.items⟩

theorem Preserves.held (h : w.Preserves s) (ht : w.Has t) : (w.held t).Preserves s :=
  ⟨(has_modifyTable t _ s.table).2 h.has, (frozen_held t ht s.table).trans h.frozen,
    (same_held t ht s.table).kept.items_eq.trans h.items⟩

theorem Preserves.letGo (h : w.Preserves s) (ht : w.Has t) : (w.letGo t).Preserves s :=
  ⟨(has_modifyTable t _ s.table).2 h.has, (frozen_letGo t ht s.table).trans h.frozen,
    (same_letGo t ht s.table).kept.items_eq.trans h.items⟩

/-- Nor does whatever goes on meanwhile. -/
theorem During.preserves (h : w.Preserves s) (hw : w.Sound I) (hd : During I w u) : u.Preserves s := by
  obtain ⟨hf, hkept⟩ := hd.kept_of_frozen hw h.has h.frozen
  exact ⟨hd.within.has _ h.has, hf, hkept.items_eq.trans h.items⟩

/-! ## Notes

What the host has on record is read off its part of the world. -/

variable {notes : ε → List Snapshot}

/-- All notes are true. -/
def Truthful (notes : ε → List Snapshot) (w : World ε) : Prop := ∀ s ∈ notes w.env, w.Preserves s

/-- From `w` to `w'` by steps that leave true notes true, and add none but such. -/
def Vouches (I : Inventory ε) (notes : ε → List Snapshot) (w w' : World ε) : Prop :=
  Evolves I 0 w w' ∧ (w.Sound I → w.Truthful notes → w'.Truthful notes)

instance : Carried I (Truthful notes) where
  step hw hs henv hn s hmem := by
    rw [henv] at hmem
    exact (hn s hmem).evolves hw (.step hs)
  held t ht hn s hmem := by
    rw [World.held, env_modifyTable] at hmem
    exact (hn s hmem).held ht
  letGo t ht hn s hmem := by
    rw [World.letGo, env_modifyTable] at hmem
    exact (hn s hmem).letGo ht

end World

variable {notes : ε → List Snapshot}

/-- If all notes are true when the host is asked then so are those that it has made when it has answered. -/
structure Host.Truthful (I : Inventory ε) (notes : ε → List Snapshot) (host : Host ε) : Prop where
  display : ∀ i {w : World ε}, w.Sound I → w.Truthful notes → ∀ s ∈ notes (host.display i w).2.env,
    s ∈ notes w.env ∨ (host.display i w).2.Preserves s
  hash : ∀ i {w : World ε}, w.Sound I → w.Truthful notes → ∀ s ∈ notes (host.hash i w).2.env,
    s ∈ notes w.env ∨ (host.hash i w).2.Preserves s
  equal : ∀ a b depth {w : World ε}, w.Sound I → w.Truthful notes → ∀ s ∈ notes (host.equal a b depth w).2.env,
    s ∈ notes w.env ∨ (host.equal a b depth w).2.Preserves s
  freeze : ∀ i {w : World ε}, w.Sound I → w.Truthful notes → ∀ s ∈ notes (host.freeze i w).2.env,
    s ∈ notes w.env ∨ (host.freeze i w).2.Preserves s

/-- Old notes stay true, and new ones are. -/
theorem truthful_of_answer (he : Evolves I 0 w w') (hw : w.Sound I) (hn : w.Truthful notes)
    (ha : ∀ s ∈ notes w'.env, s ∈ notes w.env ∨ w'.Preserves s) : w'.Truthful notes :=
  fun s hs => (ha s hs).elim (fun hold => (hn s hold).evolves hw he) id

theorem Host.Truthful.minds (hc : Civil I host) (ht : host.Truthful I notes) : host.Minds I (World.Truthful notes) :=
  ⟨fun i _ hw hn => truthful_of_answer (hc.respects.display i hw (Nat.zero_le _)) hw hn (ht.display i hw hn),
    fun i _ hw hn => truthful_of_answer (hc.respects.hash i hw (Nat.zero_le _)) hw hn (ht.hash i hw hn),
    fun a b depth _ hw hn =>
      truthful_of_answer (hc.respects.equal a b depth hw (Nat.zero_le _)) hw hn (ht.equal a b depth hw hn),
    fun i _ hw hn => truthful_of_answer (hc.respects.freeze i hw (Nat.zero_le _)) hw hn (ht.freeze i hw hn)⟩

/-- **Notes that are made in the middle of an operation are true when it has ended.** -/
theorem Operation.vouches (hc : Civil I host) (ht : host.Truthful I notes) (h : w.Sound I) (op : Operation)
    (hv : op.Valid w) : Vouches I notes w (op.run host w).2 := op.carries hc (ht.minds hc) h hv

/-- **Frozen tables never change.** In every world, between operations or in the middle of some: what is frozen there
is frozen in all later ones, with the same keys and values in the same order, and cannot be changed. What the host finds
frozen while it is asked, in the middle of an operation, is frozen just so when the operation has ended. -/
theorem frozen_tables_never_change (hw : Midway I w) :
    (∀ {u w' : World ε}, Attempts I (Civil I) w u → During I u w' → ∀ s : Snapshot, w.Preserves s →
      w'.Preserves s ∧ w'.Refuses s.table) ∧
    (∀ (host : Host ε) (notes : ε → List Snapshot) (op : Operation), Civil I host → host.Truthful I notes → op.Valid w →
      w.Truthful notes → ∀ s ∈ notes (op.run host w).2.env,
        (op.run host w).2.Preserves s ∧ (op.run host w).2.Refuses s.table) := by
  have h := hw.sound
  refine ⟨fun ha hd s hs => ?_, fun host notes op hc ht hv hn s hs => ?_⟩
  · have he := ha.evolves (fun _ hc => hc.respects) h
    have hp := hd.preserves (hs.evolves h he) (he.sound h)
    exact ⟨hp, hp.refuses⟩
  · have hp := (op.vouches hc ht h hv).2 h hn s hs
    exact ⟨hp, hp.refuses⟩

/-! ## A host that freezes what is being searched -/

/-- What a host keeps that notes down what it finds frozen. -/
structure Diary where
  table : Option (TableId .any)
  snapshots : List Snapshot

/-- The table that it has an eye on. -/
def Diary.inventory : Inventory Diary where
  values _ := []
  tables e := e.table.toList.map fun t => ⟨.any, t⟩
  cursors _ _ := 0

/-- If the table is frozen then that is noted. -/
def Diary.noting (e : Diary) (t : TableId .any) (w : World Diary) : Diary :=
  if (w.table t).frozen then { e with snapshots := ⟨.any, t, (w.table t).items⟩ :: e.snapshots } else e

/-- The table is frozen, and what is in it is noted. -/
def Diary.sealing (t : TableId .any) (w : World Diary) : World Diary :=
  let v := ((Operation.freezeTable t).run mute w).2
  { v with env := w.env.noting t v }

/-- A host whose values collide, and that freezes its table whenever it is asked to compare. -/
def sealer : Host Diary where
  typeName _ _ := ascii "sealer"
  sameClass _ _ _ := true
  display _ := pure (ascii "sealer")
  hash _ := pure 7
  equal a b _ := fun w => (.ok (a == b), w.env.table.elim w fun t => Diary.sealing t w)
  freeze _ := pure ()

theorem attempts_freeze {t : TableId .any} {w : World Diary} (ht : w.Has t) :
    Attempts Diary.inventory (· = mute) w ((Operation.freezeTable t).run mute w).2 := .call mute _ .refl rfl ht

theorem sealer_civil : Civil Diary.inventory sealer := by
  refine .intro (· = mute) (fun _ h => h ▸ mute_civil) (fun _ _ _ => .refl) (fun _ _ _ => .refl) (fun w a b _ h => ?_)
    fun _ _ _ => .refl
  show Attempts _ _ w (w.env.table.elim w fun t => Diary.sealing t w)
  cases he : w.env.table with
  | none => exact .refl
  | some t =>
    have ht : w.Open t := h.kept.tables ⟨.any, t⟩ (by simp [Diary.inventory, he])
    have hcall := attempts_freeze ht.1
    have hin := (hcall.evolves (fun _ hc => hc ▸ mute_civil.respects) h).within
    -- the host keeps the same table in mind as before
    refine hcall.aside _ rfl ⟨fun v hv => (List.not_mem_nil hv).elim, fun r hr => hin.opens (h.kept.tables r ?_)⟩
    unfold Diary.noting at hr
    split at hr <;> exact hr

theorem sealer_truthful : sealer.Truthful Diary.inventory Diary.snapshots := by
  refine ⟨fun _ _ _ _ _ hs => .inl hs, fun _ _ _ _ _ hs => .inl hs, fun a b _ w h _ s hs => ?_,
    fun _ _ _ _ _ hs => .inl hs⟩
  change s ∈ (w.env.table.elim w fun t => Diary.sealing t w).env.snapshots at hs
  show s ∈ w.env.snapshots ∨ (w.env.table.elim w fun t => Diary.sealing t w).Preserves s
  cases he : w.env.table with
  | none =>
    rw [he] at hs
    exact .inl hs
  | some t =>
    rw [he] at hs
    have ht : w.Open t := h.kept.tables ⟨.any, t⟩ (by simp [Diary.inventory, he])
    have hin := ((attempts_freeze ht.1).evolves (fun _ hc => hc ▸ mute_civil.respects) h).within
    change s ∈ (w.env.noting t ((Operation.freezeTable t).run mute w).2).snapshots at hs
    unfold Diary.noting at hs
    split at hs
    · rename_i hf
      rcases List.mem_cons.1 hs with rfl | hs
      · exact .inr ⟨hin.has t ht.1, hf, rfl⟩
      · exact .inl hs
    · exact .inl hs

/-- The state of a program before it has done anything. -/
def blankDiary : Diary := ⟨none, []⟩

/-- A table that the host has an eye on, with one of its values as key. -/
def watchedTable : World Diary :=
  ((@Operation.insert .any ⟨0⟩ (.host ⟨0⟩) (.int 1)).run sealer
    { ((Operation.newTable .any 0).run sealer (.unused blankDiary)).2 with env := ⟨some ⟨0⟩, []⟩ }).2

theorem reachable_watchedTable : Reachable Diary.inventory watchedTable := by
  have hb : (World.unused blankDiary).Bare Diary.inventory :=
    ⟨rfl, rfl, rfl, ⟨fun v hv => (List.not_mem_nil hv).elim, fun r hr => (List.not_mem_nil hr).elim⟩, fun _ => rfl⟩
  have hnew : Attempts Diary.inventory (Civil Diary.inventory) (.unused blankDiary) _ :=
    (Attempts.refl).call sealer (.newTable .any 0) sealer_civil trivial
  have hkept := hnew.aside ⟨some ⟨0⟩, []⟩ rfl ⟨fun v hv => (List.not_mem_nil hv).elim, fun r hr => by
    obtain rfl : r = ⟨.any, ⟨0⟩⟩ := by simpa [Diary.inventory] using hr
    have hhas : @Has _ ((Operation.newTable .any 0).run sealer (.unused blankDiary)).2 .any ⟨0⟩ := by decide +kernel
    exact open_any.2 hhas⟩
  refine ⟨_, hb, hkept.call sealer _ sealer_civil ⟨open_any.2 ?_, trivial, trivial⟩⟩
  decide +kernel

/-- The insertion of another one. The host is asked whether it is equal to the first, and freezes the table. -/
def sealedMidway : World Diary := ((@Operation.insert .any ⟨0⟩ (.host ⟨1⟩) (.int 2)).run sealer watchedTable).2

/-- The insertion is refused, and the table is the one that the host has noted. -/
theorem frozen_tables_never_change_sealed :
    ((@Operation.insert .any ⟨0⟩ (.host ⟨1⟩) (.int 2)).run sealer watchedTable).1 = .error (.raised .frozen) ∧
    (watchedTable.table (⟨0⟩ : TableId .any)).frozen = false ∧
    sealedMidway.env.snapshots = [⟨.any, ⟨0⟩, [(.host ⟨0⟩, .int 1)]⟩] ∧
    sealedMidway.Preserves ⟨.any, ⟨0⟩, [(.host ⟨0⟩, .int 1)]⟩ ∧ sealedMidway.Refuses (⟨0⟩ : TableId .any) ∧
    ∀ w, Attempts Diary.inventory (Civil Diary.inventory) sealedMidway w → w.Preserves ⟨.any, ⟨0⟩, [(.host ⟨0⟩, .int 1)]⟩ := by
  have hnoted : sealedMidway.env.snapshots = [⟨.any, ⟨0⟩, [(.host ⟨0⟩, .int 1)]⟩] := by decide +kernel
  have hvalid : (@Operation.insert .any ⟨0⟩ (.host ⟨1⟩) (.int 2)).Valid watchedTable := by decide +kernel
  have hbefore : watchedTable.Truthful Diary.snapshots := by
    have hnone : watchedTable.env.snapshots = [] := by decide +kernel
    intro s hs
    rw [hnone] at hs
    exact (List.not_mem_nil hs).elim
  obtain ⟨hp, hr⟩ := (frozen_tables_never_change ⟨_, reachable_watchedTable, .start⟩).2 sealer Diary.snapshots _
    sealer_civil sealer_truthful hvalid hbefore ⟨.any, ⟨0⟩, [(.host ⟨0⟩, .int 1)]⟩ (hnoted ▸ List.mem_singleton_self _)
  refine ⟨by decide +kernel, by decide +kernel, hnoted, hp, hr, fun w ha => ?_⟩
  obtain ⟨w₀, hb, hreach⟩ := reachable_watchedTable
  have hafter : Reachable Diary.inventory sealedMidway := ⟨w₀, hb, hreach.call sealer _ sealer_civil hvalid⟩
  exact ((frozen_tables_never_change ⟨_, hafter, .start⟩).1 ha .start _ hp).1

end ValueCore
