import ValueCore.Proofs.Operations.Ascending
import ValueCore.Proofs.Operations.MixedKeys
import ValueCore.Proofs.Operations.Refusals
import ValueCore.Proofs.Table.Packing

/-!
# Room for the fields

A struct is sized for its fields when it is made. So its table is packed and not overloaded all the time that it is being
filled (`Table.Roomy`), it never grows, and every request that is made on the way is for a block of a reasonable size.
Hence nothing but a refused request keeps a struct from being made, if the limit on the size of tables admits it
(`spends_filledStruct`).
-/

namespace ValueCore

open World MapCall

variable {ε : Type} {w v : World ε} {kind : KeyKind} {t : TableId kind}

/-- The table has chains for `n` entries, and its chains are full but for their last buckets. -/
structure Table.Roomy {κ : Type} (T : Table κ) (n : Nat) : Prop where
  packed : T.Packed
  fits : overloaded n T.heads = false

/-! ## Filling a table -/

/-- A roomy table is far from the limit on its storage. -/
theorem Table.Roomy.capacity_lt {κ : Type} {T : Table κ} {n : Nat} (hr : T.Roomy n) (hs : T.Sound) (hn : T.length ≤ n)
    {hash : UInt32} (hvac : T.vacancy (T.home hash) = none) (hfull : T.used = T.capacity) : T.capacity < 2 * maxHeads := by
  obtain ⟨k, hk, hheads⟩ := hs.heads_pow
  have hmax : T.heads ≤ maxHeads := hheads ▸ Nat.pow_le_pow_right (by decide) hk
  have hused := hr.packed.used_lt hs (overloaded_mono hn hr.fits) hvac
  omega

/-- Setting a field in a table with room for it. -/
theorem spends_insert {t : TableId .text} {w₀ : World ε} {l : List Field} (h : @Lists ε .text textKeys t w₀ l w) {n : Nat}
    (hr : (w.table t).Roomy n) (hn : l.length ≤ n) (name : Bytes) (value : Value) :
    w.Spends (insert textKeying t name value) ∧
      ∀ v, insert textKeying t name value w = (.ok (), v) → (v.table t).Roomy n := by
  have hlen : (w.table t).length ≤ n := by
    rw [← h.keyed.sound.length_items, h.items]
    exact hn
  have ho := overloaded_mono hlen hr.fits
  obtain ⟨found, hscan⟩ : ∃ found, scan textKeying t name (storedHash name.fnv1a) w = (.ok found, w) :=
    ⟨_, run_scan_unasked (unasked_text name) t w⟩
  have hcheck := h.run_checkMutable .insert
  have hrun : insert textKeying t name value w = (match found with
      | some i => updateTable t (·.overwrite i value)
      | none => roomFor t (storedHash name.fnv1a) >>= fun i =>
          updateTable t (·.append i (storedHash name.fnv1a) name value) : Run ε Unit) w := by
    unfold insert
    rw [run_bind_ok hcheck]
    change insertHashed textKeying t name value (storedHash name.fnv1a) 26 w = _
    unfold insertHashed
    rw [run_bind_ok hscan, run_bind_ok hcheck]
    cases found with
    | some i => rfl
    | none =>
      dsimp only
      rw [run_bind_ok (run_readTable t w), if_neg (by simp [ho])]
  cases found with
  | some i =>
    have hdone : insert textKeying t name value w = (.ok (), w.modifyTable t (·.overwrite i value)) := hrun
    refine ⟨.of_ok hdone (memory_modifyTable t _), fun v hv => ?_⟩
    rw [hdone] at hv
    cases hv
    rw [table_modifyTable t _ h.keyed.has]
    exact ⟨hr.packed.overwrite i value, hr.fits⟩
  | none =>
    dsimp only at hrun
    have hroom : w.Spends (roomFor t (storedHash name.fnv1a) >>= fun i =>
        updateTable t (·.append i (storedHash name.fnv1a) name value)) :=
      (spends_roomFor (hr.capacity_lt h.keyed.sound hlen)).bind fun i v _ =>
        .of_ok (run_updateTable t _ v) (memory_modifyTable t _)
    refine ⟨.congr hrun hroom, fun v hv => ?_⟩
    rcases run_placed (storedHash name.fnv1a) name value h.keyed.sound h.keyed.has with ⟨u, _, hr'⟩ | ⟨u, t', hu, hp, hr'⟩
    · rw [hrun.trans hr'] at hv
      cases hv
    · rw [hrun.trans hr'] at hv
      cases hv
      obtain ⟨hpacked, hheads⟩ := hr.packed.placed h.keyed.sound hp
      rw [table_modifyTable t _ (hu.has_iff.2 h.keyed.has)]
      exact ⟨hpacked, hheads ▸ hr.fits⟩

theorem length_assign_le (name : Bytes) (value : Value) (l : List Field) :
    (assign textKeys.same name value l).length ≤ l.length + 1 := by
  have hnames := congrArg List.length (names_assign name value l)
  rw [List.length_map] at hnames
  split at hnames
  · rw [hnames, List.length_map]
    omega
  · rw [hnames, List.length_append, List.length_map, List.length_singleton]

theorem spends_fillFields {t : TableId .text} {w₀ : World ε} {n : Nat} : ∀ (fields : List Field) {l : List Field}
    {w : World ε}, @Lists ε .text textKeys t w₀ l w → (w.table t).Roomy n → l.length + fields.length ≤ n →
      w.Spends (fillFields t fields)
  | [], _, _, _, _, _ => .pure ()
  | (name, value) :: fields, l, w, h, hr, hn => by
    rw [List.length_cons] at hn
    obtain ⟨hspends, hroomy⟩ := spends_insert h hr (by omega : l.length ≤ n) name value
    show w.Spends (insert textKeying t name value >>= fun _ => fillFields t fields)
    refine hspends.bind fun _ v hv => ?_
    rcases Lists.run_insert h (textKeying_computes t w₀) trivial with ⟨u, hu, _⟩ | ⟨u, hu, hl⟩
    · rw [hu] at hv
      cases hv
    · rw [hu] at hv
      cases hv
      have hle := length_assign_le name value l
      exact spends_fillFields fields hl (hroomy v hu) (by omega)

/-! ## Making a struct -/

/-- The table of a new struct has the chains that were chosen for it. -/
theorem spends_newStruct (ctor : Value) {hint heads : Nat} (h : headsFor hint.toUInt32.toNat = some heads) :
    w.Spends (newStruct ctor hint) ∧ ∀ s v, newStruct ctor hint w = (.ok s, v) →
      v.Has (v.struct s).fields ∧ ∃ block, v.table (v.struct s).fields = .withStorage heads heads block := by
  refine ⟨.newObject (spends_allocate _) fun _ v _ => ?_, fun s v hr => ?_⟩
  · exact (spends_newTable h).1.bind fun _ u _ => .of_ok (run_modifyGet _ u) rfl
  unfold newStruct newObject at hr
  rcases (asks_allocate (w := w) structBytes).outcome with ⟨u, _, ha⟩ | ⟨u, b, _, ha⟩
  · rw [run_bind_error ha] at hr
    cases hr
  rw [run_bind_ok ha] at hr
  unfold madeIn at hr
  cases hm : newTable .text hint.toUInt32 u with
  | mk r x =>
    cases r with
    | error e =>
      rw [run_bind_error hm] at hr
      cases hr
    | ok t =>
      rw [run_bind_ok hm, run_modifyGet] at hr
      cases hr
      obtain ⟨y, block, heq⟩ := (spends_newTable h).2 t x hm
      cases heq
      have hself := struct_addStruct_self (w := y) ctor (.withStorage heads heads block)
      change (y.addStruct ctor (.withStorage heads heads block)).Has
          ((y.addStruct ctor (.withStorage heads heads block)).struct ⟨y.structs.size⟩).fields ∧
        ∃ block', (y.addStruct ctor (.withStorage heads heads block)).table
          ((y.addStruct ctor (.withStorage heads heads block)).struct ⟨y.structs.size⟩).fields = _
      rw [hself, has_addStruct, table_addStruct]
      exact ⟨has_addTable_self .text _, block, table_addTable_self .text _⟩

/-- **Only a refused request keeps a struct from being made**, if it is sized for its fields within the limit. -/
theorem spends_filledStruct (ctor : Value) {hint : Nat} {fields : List Field} (hfit : overloaded hint maxHeads = false)
    (hlen : fields.length ≤ hint) (w : World ε) : w.Spends (filledStruct ctor hint fields) := by
  have hhint := toNat_hint hfit
  obtain ⟨heads, hheads⟩ := headsFor_of_fits hfit
  rw [← hhint] at hheads
  obtain ⟨hspends, hmade⟩ := spends_newStruct (w := w) ctor hheads
  unfold filledStruct
  refine hspends.bind fun s v hs => .read (run_get v) (Spends.bind ?_ fun _ u _ => .pure s)
  obtain ⟨hhas, block, htable⟩ := hmade s v hs
  have hpow := Table.headsFor_pow hheads
  have hroomy : (v.table (v.struct s).fields).Roomy hint := by
    rw [htable]
    exact ⟨Table.packed_of_chain fun c => Table.chain_withStorage _ _ _ c, hhint ▸ (headsFor_fits hheads).1⟩
  exact spends_fillFields fields (lists_new hpow hhas htable) hroomy (by simpa using hlen)

end ValueCore
