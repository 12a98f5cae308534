import ValueCore.Proofs.Operations.Scans

/-!
# Operations on tables

Each operation on a table keeps to whatever course of work hashing and comparing keys keep to (`insert_along`,
`erase_along` and so on). A changed table is free at the moment of the change, as it is checked after the last time
that keys were compared.

In particular the operations are runs of steps: `insert_leads`, `erase_leads`.
-/

namespace ValueCore

open World

variable {ε : Type} {I : Inventory ε} {n : Nat} {w w' : World ε} {kind : KeyKind} {t : TableId kind}
  {R : World ε → World ε → Prop}

/-- What respects the first `n` structs that are there is a run of steps. -/
theorem Along.upTo {α : Type} {act : Run ε α} {Q : α → World ε → Prop} (h : Along (Spares I n) w act Q)
    (hn : n ≤ w.structs.size) : Leads I n w act Q := h.widen fun he => Evolves.le he (le_min (Nat.le_refl n) hn)

/-! ## Making tables -/

theorem asks_chooseHeads (hint : UInt32) : Asks w (chooseHeads hint : Run ε Nat) := by
  unfold chooseHeads
  cases headsFor hint.toNat with
  | none => exact .raise rfl
  | some heads => exact .pure _

theorem run_chooseHeads_some {hint : UInt32} (h : headsFor hint.toNat = some heads) (w : World ε) :
    chooseHeads hint w = (.ok heads, w) := by
  unfold chooseHeads
  rw [h]
  rfl

theorem run_chooseHeads_none {hint : UInt32} (h : headsFor hint.toNat = none) (w : World ε) :
    chooseHeads hint w = (.error (.raised .memory), { w with message := Fault.tableOverflow.message }) := by
  unfold chooseHeads
  rw [h]
  rfl

theorem chooseHeads_pow {hint : UInt32} {heads : Nat} (h : (chooseHeads hint : Run ε Nat) w = (.ok heads, w')) :
    ∃ k ≤ 24, heads = 2 ^ k := by
  cases hh : headsFor hint.toNat with
  | none =>
    simp only [chooseHeads, hh, run_raise] at h
    cases h
  | some k =>
    simp only [chooseHeads, hh, run_pure] at h
    cases h
    exact Table.headsFor_pow hh

theorem asks_allocateHeads (kind : KeyKind) (heads : Nat) : Asks w (allocateHeads kind heads : Run ε _) := by
  unfold allocateHeads
  split
  · exact asks_allocateArray _ _
  · exact .pure _

/-- A new table is there at once, or nothing is. -/
theorem run_newTable (kind : KeyKind) (hint : UInt32) (w : World ε) :
    (∃ v, Alike w v ∧ newTable kind hint w = (.error (.raised .memory), v)) ∨
    ∃ v heads block, Alike w v ∧ (∃ k ≤ 24, heads = 2 ^ k) ∧
      newTable kind hint w = (.ok (v.addTable kind (.withStorage heads heads block)).1,
        (v.addTable kind (.withStorage heads heads block)).2) := by
  unfold newTable
  rcases (asks_chooseHeads hint).outcome with ⟨u, hu, hc⟩ | ⟨u, heads, hu, hc⟩
  · exact .inl ⟨u, hu, run_bind_error hc _⟩
  rw [run_bind_ok hc]
  rcases (asks_allocateHeads kind heads).outcome with ⟨v, hv, ha⟩ | ⟨v, block, hv, ha⟩
  · exact .inl ⟨v, hu.trans hv, run_bind_error ha _⟩
  · exact .inr ⟨v, heads, block, hu.trans hv, chooseHeads_pow hc, run_bind_ok ha _⟩

theorem newTable_along [Working I n R] (kind : KeyKind) (hint : UInt32) :
    Along R w (newTable kind hint) fun t w' => ¬ w.Has t ∧ w'.Has t := by
  rcases run_newTable kind hint w with ⟨v, ha, hr⟩ | ⟨v, heads, block, ha, hp, hr⟩
  · exact ⟨by rw [hr]; exact Course.outside ha, fun _ _ he => by rw [hr] at he; cases he⟩
  · refine ⟨by rw [hr]; exact Course.trans (Course.outside ha) (Working.work (work_addTable kind block hp)), fun _ _ he => ?_⟩
    rw [hr] at he
    cases he
    exact ⟨fun hh => not_has_addTable _ _ (ha.has_iff.2 hh), has_addTable_self kind _⟩

/-- A table is sized, or nothing happens to it. -/
theorem run_resizeTable (t : TableId kind) (hint : UInt32) (w : World ε) :
    (∃ v, Alike w v ∧ resizeTable t hint w = (.error (.raised .memory), v)) ∨
    ∃ v heads block, Alike w v ∧ headsFor hint.toNat = some heads ∧
      resizeTable t hint w = (.ok (), v.modifyTable t (·.resized heads block)) := by
  unfold resizeTable
  cases hh : headsFor hint.toNat with
  | none => exact .inl ⟨{ w with message := Fault.tableOverflow.message }, ⟨rfl, rfl, rfl, rfl⟩,
      run_bind_error (run_chooseHeads_none hh w) _⟩
  | some heads =>
    rw [run_bind_ok (run_chooseHeads_some hh w)]
    rcases (asks_allocateHeads (w := w) kind heads).outcome with ⟨v, hv, ha⟩ | ⟨v, block, hv, ha⟩
    · exact .inl ⟨v, hv, run_bind_error ha _⟩
    · refine .inr ⟨v.freed (v.table t).block ((v.table t).capacity * kind.bucketBytes), heads, block,
        hv.trans (alike_freed _ _), rfl, ?_⟩
      rw [run_bind_ok ha, run_bind_ok (run_readTable t v), run_bind_ok (run_release _ _ v), run_updateTable]

/-- Sizing a table keeps to a course if putting it on its new storage does. -/
theorem resizeTable_along_of [Course R] (hint : UInt32) (hresize : ∀ {v : World ε} {heads : Nat} (block : Option Block),
    Alike w v → (∃ k ≤ 24, heads = 2 ^ k) → R v (v.modifyTable t (·.resized heads block))) :
    Along R w (resizeTable t hint) fun _ _ => True := by
  refine .answer ?_
  rcases run_resizeTable t hint w with ⟨v, hv, hr⟩ | ⟨v, heads, block, hv, hh, hr⟩
  · rw [hr]
    exact Course.outside hv
  · rw [hr]
    exact Course.trans (Course.outside hv) (hresize block hv (Table.headsFor_pow hh))

/-- Sizing a table that is empty and not held. -/
theorem resizeTable_along [Changing I n R] (hint : UInt32) (ht : w.Has t) (hseal : ¬ w.Sealed n t)
    (hlen : (w.table t).length = 0) (hh : (w.table t).holds = 0) :
    Along R w (resizeTable t hint) fun _ _ => True := by
  refine resizeTable_along_of hint fun {v heads} block hv hp => ?_
  have hin : Within w v := (Step.outside (I := I) (n := n) hv).within
  rw [← hv.table t] at hlen hh
  have hstep : Step I n v (v.modifyTable t (·.resized heads block)) :=
    .resize t heads block (hin.has t ht) (fun hs => hseal (hin.sealed_of_has ht hs)) hlen hh hp
  exact Changing.change (work_modifyTable (hin.has t ht) hstep rfl)

/-! ## Growing -/

/-- A table grows, or there is no memory and it is as before. -/
theorem run_growTable (t : TableId kind) (w : World ε) :
    (∃ v, Alike w v ∧ growTable t w = (.error (.raised .memory), v)) ∨
    ∃ v u block, (w.table t).heads < maxHeads ∧ Alike w v ∧ Alike (v.modifyTable t (·.grown block)) u ∧
      growTable t w = (.ok (), u) := by
  unfold growTable
  rw [run_bind_ok (run_readTable t w)]
  dsimp only
  split
  · exact .inl ⟨{ w with message := Fault.tableOverflow.message }, ⟨rfl, rfl, rfl, rfl⟩, run_bind_error (run_raise _ w) _⟩
  · rename_i hmax
    rcases (asks_allocateArray (w.table t).grownCapacity kind.bucketBytes).outcome with ⟨v, hv, ha⟩ | ⟨v, block, hv, ha⟩
    · exact .inl ⟨v, hv, run_bind_error ha _⟩
    · have hrun := (run_bind_ok ha fun block => updateTable t (·.grown block) >>= fun _ =>
        release (w.table t).block ((w.table t).capacity * kind.bucketBytes)).trans
          (run_bind_ok (run_updateTable t (·.grown block) v) _)
      exact .inr ⟨v, _, block, Nat.lt_of_not_le hmax, hv, alike_freed _ _, hrun⟩

theorem growTable_along [Changing I n R] (h : w.Sound I) (ht : w.Free n t)
    (ho : overloaded (w.table t).length (w.table t).heads = true) :
    Along R w (growTable t) fun _ _ => True := by
  refine .answer ?_
  rcases run_growTable t w with ⟨v, hv, hr⟩ | ⟨v, u, block, hmax, hv, hu, hr⟩
  · rw [hr]
    exact Course.outside hv
  · rw [hr]
    have hs : v.Sound I := Step.sound (n := n) h (.outside hv)
    rw [← hv.table t] at ho hmax
    have hgrow : Work I n v (v.modifyTable t (·.grown block)) := by
      refine (ht.alike hv).work (hs.tables t) (fun t => t.grown block) (.grow block ho hmax) ?_
      rw [Table.items_eq, ((hs.tables t).grown hmax block).2.2.1, ← Table.items_eq]
      exact hs.items t
    exact Course.trans (Course.outside hv) (Course.trans (Changing.change hgrow) (Course.outside hu))

/-- There is room for another bucket, or there is no memory and the table is as before. -/
theorem run_reserveBucket (t : TableId kind) (w : World ε) :
    (∃ v, Alike w v ∧ reserveBucket t w = (.error (.raised .memory), v)) ∨
    ((w.table t).used ≠ (w.table t).capacity ∧ reserveBucket t w = (.ok (), w)) ∨
    ∃ v block, (w.table t).used = (w.table t).capacity ∧ (w.table t).capacity < 2 * maxHeads ∧ Alike w v ∧
      reserveBucket t w = (.ok (), v.modifyTable t (·.doubled block)) := by
  have hask : ∀ {ask : Run ε (Option Block)}, Asks w ask → (w.table t).used = (w.table t).capacity →
      (w.table t).capacity < 2 * maxHeads → ∀ {act : Run ε Unit},
      act w = (ask >>= fun block => updateTable t (·.doubled block)) w →
      (∃ v, Alike w v ∧ act w = (.error (.raised .memory), v)) ∨
      ((w.table t).used ≠ (w.table t).capacity ∧ act w = (.ok (), w)) ∨
      ∃ v block, (w.table t).used = (w.table t).capacity ∧ (w.table t).capacity < 2 * maxHeads ∧ Alike w v ∧
        act w = (.ok (), v.modifyTable t (·.doubled block)) := by
    intro ask ha hu hc act hact
    rcases ha.outcome with ⟨v, hv, hr⟩ | ⟨v, block, hv, hr⟩
    · exact .inl ⟨v, hv, hact.trans (run_bind_error hr _)⟩
    · exact .inr (.inr ⟨v, block, hu, hc, hv, hact.trans (run_bind_ok hr _)⟩)
  by_cases hu : (w.table t).used = (w.table t).capacity
  · by_cases hc : 2 * maxHeads ≤ (w.table t).capacity
    · refine .inl ⟨{ w with message := Fault.tableOverflow.message }, ⟨rfl, rfl, rfl, rfl⟩, ?_⟩
      unfold reserveBucket
      rw [run_bind_ok (run_readTable t w), if_pos hu]
      dsimp only
      rw [if_pos hc]
      exact run_bind_error (run_raise _ w) _
    · have hc' := Nat.lt_of_not_le hc
      cases hb : (w.table t).block with
      | none =>
        refine hask (asks_allocateArray (2 * (w.table t).capacity) kind.bucketBytes) hu hc' ?_
        unfold reserveBucket
        rw [run_bind_ok (run_readTable t w), if_pos hu]
        dsimp only
        rw [if_neg hc, hb]
      | some b =>
        refine hask (asks_reallocateArray (w.table t).block (w.table t).capacity (2 * (w.table t).capacity)
          kind.bucketBytes) hu hc' ?_
        unfold reserveBucket
        rw [run_bind_ok (run_readTable t w), if_pos hu]
        dsimp only
        rw [if_neg hc, hb]
  · refine .inr (.inl ⟨hu, ?_⟩)
    unfold reserveBucket
    rw [run_bind_ok (run_readTable t w), if_neg hu]
    rfl

/-! ## Inserting -/

/-- Opening a bucket in the chain and putting the entry into its first slot. -/
theorem run_opened {hash : UInt32} {key : kind.Key} {value : Value} {head : Nat} (v : World ε) :
    ((readTable t >>= fun table => updateTable t (·.addOverflow head) >>= fun _ =>
      pure (bucketSize * table.used)) >>= fun i => updateTable t (·.append i hash key value)) v =
    (.ok (), v.modifyTable t fun _ =>
      ((v.table t).addOverflow head).append (bucketSize * (v.table t).used) hash key value) := by
  show (Except.ok (), (v.modifyTable t _).modifyTable t _) = _
  rw [modifyTable_modifyTable, modifyTable_const]

/-- A new entry is put in its place, or there is no memory and the table is as before. -/
theorem run_placed (hash : UInt32) (key : kind.Key) (value : Value) (h : (w.table t).Sound) (ht : w.Has t) :
    (∃ v, Alike w v ∧ (roomFor t hash >>= fun i => updateTable t (·.append i hash key value)) w =
      (.error (.raised .memory), v)) ∨
    ∃ v t', Alike w v ∧ Table.Placed (w.table t) hash key value t' ∧
      (roomFor t hash >>= fun i => updateTable t (·.append i hash key value)) w =
        (.ok (), v.modifyTable t fun _ => t') := by
  unfold roomFor
  rw [bind_assoc, run_bind_ok (run_readTable t w)]
  dsimp only
  cases hvac : (w.table t).vacancy ((w.table t).home hash) with
  | some i =>
    refine .inr ⟨w, _, .refl w, .fill i hvac, ?_⟩
    rw [run_bind_ok (run_pure i w), run_updateTable, modifyTable_const]
  | none =>
    rw [bind_assoc]
    rcases run_reserveBucket t w with ⟨v, hv, hr⟩ | ⟨hu, hr⟩ | ⟨v, block, hu, hc, hv, hr⟩
    · exact .inl ⟨v, hv, run_bind_error hr _⟩
    · have := h.used_le
      refine .inr ⟨w, _, .refl w, .extend hvac (by omega), ?_⟩
      rw [run_bind_ok hr, run_opened]
    · have htv : v.Has t := hv.has_iff.2 ht
      refine .inr ⟨v, _, hv, .doubled block hvac hu hc, ?_⟩
      rw [run_bind_ok hr, run_opened, modifyTable_modifyTable, table_modifyTable t _ htv, hv.table t]
      rfl

theorem ownsItems_append (h : w.Sound I) {t' : Table kind.Key} {hash : UInt32} {key : kind.Key} {value : Value}
    (hrec : t'.records = (w.table t).records ++ [(hash, key, value)]) (hkey : w.OwnsKey key) (hvalue : w.Owns value) :
    w.OwnsItems t'.items := by
  intro item hm
  rw [Table.items_eq, hrec, List.map_append, ← Table.items_eq] at hm
  rcases List.mem_append.1 hm with hm | hm
  · exact h.items t item hm
  · rw [List.mem_singleton.1 hm]
    exact ⟨hkey, hvalue⟩

theorem placed_changes [Changing I n R] {hash : UInt32} {key : kind.Key} {value : Value} (h : w.Sound I) (ht : w.Free n t)
    (ho : overloaded (w.table t).length (w.table t).heads = false) (hhash : hash ≠ 0) (hkey : w.OwnsKey key)
    (hvalue : w.Owns value) {t' : Table kind.Key} (hp : Table.Placed (w.table t) hash key value t') :
    R w (w.modifyTable t fun _ => t') := by
  have hown := ownsItems_append h (hp.records_eq (h.tables t) hhash) hkey hvalue
  rcases hp.changes (h.tables t) hhash ho with hc | ⟨block, hc, hc'⟩
  · exact Changing.change (ht.work (h.tables t) _ hc hown)
  · have hdouble : Work I n w (w.modifyTable t fun _ => (w.table t).doubled block) := by
      refine ht.work (h.tables t) _ hc ?_
      rw [Table.items_eq, (h.tables t).records_doubled block, ← Table.items_eq]
      exact h.items t
    have hin := within_modifyTable (w := w) t fun _ => (w.table t).doubled block
    have htable := table_modifyTable t (fun _ => (w.table t).doubled block) ht.has
    have hfree : (w.modifyTable t fun _ => (w.table t).doubled block).Free n t :=
      ⟨hin.has t ht.has, fun hs => ht.unsealed (hin.sealed_of_has ht.has hs),
        by rw [htable]; exact ht.unfrozen, by rw [htable]; exact ht.unheld⟩
    have hplace := hfree.work (I := I) ((hdouble.step.sound h).tables t) (fun _ => t') (by rw [htable]; exact hc')
      (hin.ownsItems hown)
    have hboth := Course.trans (Changing.change (R := R) hdouble) (Changing.change hplace)
    rwa [modifyTable_modifyTable] at hboth

theorem placed_along [Changing I n R] {hash : UInt32} {key : kind.Key} {value : Value} (h : w.Sound I) (ht : w.Free n t)
    (ho : overloaded (w.table t).length (w.table t).heads = false) (hhash : hash ≠ 0) (hkey : w.OwnsKey key)
    (hvalue : w.Owns value) :
    Along R w (roomFor t hash >>= fun i => updateTable t (·.append i hash key value)) fun _ _ => True := by
  refine .answer ?_
  rcases run_placed hash key value (h.tables t) ht.has with ⟨v, hv, hr⟩ | ⟨v, t', hv, hp, hr⟩
  · rw [hr]
    exact Course.outside hv
  · rw [hr]
    have hs : v.Sound I := Step.sound (n := n) h (.outside hv)
    have hin := (Step.outside (I := I) (n := n) hv).within
    have hvt := hv.table t
    rw [← hvt] at hp ho
    exact Course.trans (Course.outside hv)
      (placed_changes hs (ht.alike hv) ho hhash (hin.ownsKey hkey) (hin.owns hvalue) hp)

/-- The change of a table that was found free after a scan. -/
theorem free_of_checked (ht : w.Has t) (hseal : ¬ w.Sealed n t) (hin : Within w w') (hf : (w'.table t).frozen = false)
    (hh : (w'.table t).holds = 0) : w'.Free n t :=
  ⟨hin.has t ht, fun hs => hseal (hin.sealed_of_has ht hs), hf, hh⟩

theorem overwrite_work (h : w.Sound I) (ht : w.Free n t) {i : Nat} (hi : i ∈ (w.table t).order) {value : Value}
    (hvalue : w.Owns value) : Work I n w (w.modifyTable t (·.overwrite i value)) := by
  refine ht.work (h.tables t) (fun t => t.overwrite i value) (.overwrite i value hi) fun item hm => ?_
  obtain ⟨a, b, hab⟩ := List.append_of_mem hi
  obtain ⟨e, he⟩ := (h.tables t).slot_of_mem hi
  have hold := h.items t
  rw [Table.items_eq, (h.tables t).records_overwrite hab he, List.map_append, List.map_cons] at hm
  rw [Table.items_eq, Table.records_split hab he, List.map_append, List.map_cons] at hold
  rcases List.mem_append.1 hm with hm | hm
  · exact hold item (List.mem_append_left _ hm)
  · rcases List.mem_cons.1 hm with rfl | hm
    · exact ⟨(hold (e.key, e.value) (by simp)).1, hvalue⟩
    · exact hold item (List.mem_append_right _ (List.mem_cons_of_mem _ hm))

theorem remove_work (h : w.Sound I) (ht : w.Free n t) {i : Nat} (hi : i ∈ (w.table t).order) :
    Work I n w (w.modifyTable t (·.remove i)) := by
  refine ht.work (h.tables t) (fun t => t.remove i) (.remove i hi) fun item hm => h.items t item ?_
  rw [Table.items_eq] at hm ⊢
  exact (((h.tables t).records_remove_sublist hi).map _).subset hm

theorem clear_work (h : w.Sound I) (ht : w.Free n t) : Work I n w (w.modifyTable t (·.cleared)) := by
  refine ht.work (h.tables t) (fun t => t.cleared) .clear fun item hm => ?_
  rw [Table.items_eq, Table.records_of_order_nil (h.tables t).cleared.2] at hm
  cases hm

theorem storedHash_ne_zero (h : UInt32) : storedHash h ≠ 0 := by
  unfold storedHash
  split
  · decide
  · assumption

section
variable [Changing I n R] {keying : Keying ε kind.Key} {key : kind.Key}

/-- An insertion under a given hash is work, however often it has to grow the table. -/
theorem insertHashed_along (hk : keying.Follows I R) {value : Value} {hash : UInt32} (hhash : hash ≠ 0) :
    ∀ (fuel : Nat) {w : World ε}, w.Sound I → w.Has t → ¬ w.Sealed n t → w.OwnsKey key → w.Owns value →
      Along R w (insertHashed keying t key value hash fuel) fun _ _ => True
  | 0, _, _, _, _, _, _ => .throw
  | fuel + 1, w, h, ht, hseal, hkey, hvalue => by
    unfold insertHashed
    refine (scan_along hk hash h ht hkey).bind fun found _ hv ⟨hw, hfound⟩ => ?_
    refine (checkMutable_along .insert).bind ?_
    rintro _ v _ ⟨rfl, hf, hh⟩
    have he := BySteps.evolves h hv
    have hin := he.within
    have hs := he.sound h
    have hfree := free_of_checked ht hseal hin hf hh
    cases found with
    | some i =>
      have hi : i ∈ (v.table t).order := hw.kept.1 ▸ hfound i rfl
      exact .modify (Changing.change (overwrite_work hs hfree hi (hin.owns hvalue))) trivial
    | none =>
      refine .read (run_readTable t v) ?_
      split
      · rename_i ho
        refine (growTable_along hs hfree ho).bind fun _ u hu _ => ?_
        have he' := BySteps.evolves hs hu
        have hin' := hin.trans he'.within
        exact insertHashed_along hk hhash fuel (he'.sound hs) (hin'.has t ht)
          (fun hs => hseal (hin'.sealed_of_has ht hs)) (hin'.ownsKey hkey) (hin'.owns hvalue)
      · rename_i ho
        exact placed_along hs hfree (by simpa using ho) hhash (hin.ownsKey hkey) (hin.owns hvalue)

end

/-- An insertion keeps to a course if what follows the hashing of its key does. -/
theorem insert_along_of [BySteps I R] {keying : Keying ε kind.Key} (hk : keying.Follows I R) {key : kind.Key}
    {value : Value} (h : w.Sound I) (hkey : w.OwnsKey key) (hrest : ∀ {hash : UInt32} {v : World ε}, R w v →
      keying.hash key w = (.ok hash, v) →
      insert keying t key value w = insertHashed keying t key value (storedHash hash) 26 v →
      R v (insertHashed keying t key value (storedHash hash) 26 v).2) :
    Along R w (insert keying t key value) fun _ _ => True := by
  have hchecked : Along R w (checkMutable t .insert) fun _ v => v = w ∧ checkMutable t .insert w = (.ok (), w) :=
    (checkMutable_along .insert).weaken_eq fun _ _ hc ⟨heq, _⟩ => ⟨heq, heq ▸ hc⟩
  have hhash : Along R w (keying.hash key) fun hash v => keying.hash key w = (.ok hash, v) :=
    (Along.answer (hk.hash key h hkey)).weaken_eq fun _ _ hh _ => hh
  unfold insert
  refine hchecked.bind ?_
  rintro _ w _ ⟨rfl, hc⟩
  refine hhash.bind fun hash v hv hh => .answer (hrest hv hh ?_)
  rw [insert, run_bind_ok hc, run_bind_ok hh]

theorem insert_along [Changing I n R] {keying : Keying ε kind.Key} (hk : keying.Follows I R) {key : kind.Key}
    {value : Value} (h : w.Sound I) (ht : w.Has t) (hseal : ¬ w.Sealed n t) (hkey : w.OwnsKey key)
    (hvalue : w.Owns value) : Along R w (insert keying t key value) fun _ _ => True := by
  refine insert_along_of hk h hkey fun {hash v} hv _ _ => ?_
  have he := BySteps.evolves h hv
  have hin := he.within
  exact (insertHashed_along hk (storedHash_ne_zero hash) 26 (he.sound h) (hin.has t ht)
    (fun hs => hseal (hin.sealed_of_has ht hs)) (hin.ownsKey hkey) (hin.owns hvalue)).ends

theorem insert_leads {keying : Keying ε kind.Key} (hk : keying.Respects I) {key : kind.Key} {value : Value}
    (h : w.Sound I) (hn : n ≤ w.structs.size) (ht : w.Has t) (hseal : ¬ w.Sealed n t) (hkey : w.OwnsKey key)
    (hvalue : w.Owns value) : Leads I n w (insert keying t key value) fun _ _ => True :=
  (insert_along (hk.spares n) h ht hseal hkey hvalue).upTo hn

/-! ## Looking up and erasing -/

theorem owns_of_slot (h : w.Sound I) {i : Nat} (hi : i ∈ (w.table t).order) {e : Entry kind.Key}
    (he : (w.table t).slot i = some e) : w.Owns e.value := by
  have hm : (e.key, e.value) ∈ (w.table t).items := by
    rw [Table.items_eq, List.mem_map]
    exact ⟨_, Table.mem_records.2 ⟨i, hi, e, he, rfl⟩, rfl⟩
  exact (h.items t _ hm).2

section
variable [BySteps I R] {keying : Keying ε kind.Key} {key : kind.Key}

/-- The slot of a key that is found is live. -/
theorem findSlot_along (hk : keying.Follows I R) (h : w.Sound I) (ht : w.Has t) (hkey : w.OwnsKey key) :
    Along R w (findSlot keying t key) fun found w' => ∀ i ∈ found, i ∈ (w'.table t).order := by
  have hhash : Along R w (keying.hash key) fun _ _ => True := .answer (hk.hash key h hkey)
  unfold findSlot
  refine hhash.bind fun hash v hv _ => ?_
  have he := BySteps.evolves h hv
  have hin := he.within
  refine (scan_along hk _ (he.sound h) (hin.has t ht) (hin.ownsKey hkey)).weaken ?_
  rintro found u _ ⟨hw, hfound⟩ i hi
  rw [hw.kept.1]
  exact hfound i hi

/-- A value that is found is there. -/
theorem lookup_along (hk : keying.Follows I R) (h : w.Sound I) (ht : w.Has t) (hkey : w.OwnsKey key) :
    Along R w (lookup keying t key) fun found w' => ∀ v ∈ found, w'.Owns v := by
  unfold lookup
  refine (findSlot_along hk h ht hkey).bind fun found v hv hfound => ?_
  cases found with
  | none => exact .pure fun _ hv => by cases hv
  | some i =>
    refine .read (run_readTable t v) (.pure fun x hx => ?_)
    obtain ⟨e, hs, rfl⟩ := Option.map_eq_some_iff.1 hx
    exact owns_of_slot ((BySteps.evolves h hv).sound h) (hfound i rfl) hs

/-- A removal keeps to a course if taking the entry out does. -/
theorem erase_along_of (hk : keying.Follows I R) (h : w.Sound I) (ht : w.Has t) (hkey : w.OwnsKey key)
    (hremove : ∀ {v : World ε} {i : Nat}, R w v → (v.table t).frozen = false → (v.table t).holds = 0 →
      i ∈ (v.table t).order → R v (v.modifyTable t (·.remove i))) :
    Along R w (erase keying t key) fun _ _ => True := by
  unfold erase
  refine (checkMutable_along .erase).bind ?_
  rintro _ w _ ⟨rfl, -, -⟩
  refine (findSlot_along hk h ht hkey).bind fun found _ hv hfound => ?_
  refine (checkMutable_along .erase).bind ?_
  rintro _ v _ ⟨rfl, hf, hh⟩
  cases found with
  | none => exact .pure trivial
  | some i =>
    refine .read (run_readTable t v) ?_
    have hwrite : R v (v.modifyTable t (·.remove i)) := hremove hv hf hh (hfound i rfl)
    exact (Along.modify (Q := fun _ _ => True) hwrite trivial).bind fun _ _ _ _ => .pure trivial

end

theorem erase_along [Changing I n R] {keying : Keying ε kind.Key} (hk : keying.Follows I R) {key : kind.Key}
    (h : w.Sound I) (ht : w.Has t) (hseal : ¬ w.Sealed n t) (hkey : w.OwnsKey key) :
    Along R w (erase keying t key) fun _ _ => True := by
  refine erase_along_of hk h ht hkey fun {v i} hv hf hh hi => ?_
  have he := BySteps.evolves h hv
  exact Changing.change (remove_work (he.sound h) (free_of_checked ht hseal he.within hf hh) hi)

/-- Clearing a table keeps to a course if taking all entries out does. -/
theorem clear_along_of [Course R] (hclear : (w.table t).frozen = false → (w.table t).holds = 0 →
    R w (w.modifyTable t (·.cleared))) : Along R w (clear t) fun _ _ => True := by
  unfold clear
  refine (checkMutable_along .clear).bind ?_
  rintro _ w _ ⟨rfl, hf, hh⟩
  exact .modify (hclear hf hh) trivial

theorem clear_along [Changing I n R] (h : w.Sound I) (ht : w.Has t) (hseal : ¬ w.Sealed n t) :
    Along R w (clear t) fun _ _ => True :=
  clear_along_of fun hf hh => Changing.change (clear_work h ⟨ht, hseal, hf, hh⟩)

/-! ## Reading and freezing -/

theorem keyList_along [Course R] (t : TableId kind) : Along R w (keyList t) fun _ _ => True := by
  unfold keyList
  exact .read (run_readTable t w) (Along.withScratch (Q := fun _ _ => True) fun _ _ => .pure trivial).trivial

theorem itemList_along [Course R] (t : TableId kind) : Along R w (itemList t) fun _ _ => True := by
  unfold itemList
  exact .read (run_readTable t w) (Along.withScratch (Q := fun _ _ => True) fun _ _ => .pure trivial).trivial

section
variable [BySteps I R]

/-- Doing something for each member of a list, where each time keeps to `R`. -/
theorem forM_along {α : Type} {f : α → Run ε Unit} : ∀ (l : List α) {w : World ε}, w.Sound I →
    (∀ x ∈ l, ∀ v, Within w v → v.Sound I → Along R v (f x) fun _ _ => True) →
    Along R w (l.forM f) fun _ _ => True
  | [], _, _, _ => .pure trivial
  | x :: l, w, h, hf => by
    change Along R w (f x >>= fun _ => l.forM f) _
    refine (hf x (by simp) w (.refl w) h).bind fun _ v hv _ => ?_
    have he := BySteps.evolves h hv
    exact forM_along l (he.sound h) fun y hy u hu hs => hf y (by simp [hy]) u (he.within.trans hu) hs

theorem freezeTable_along {freezeKey : kind.Key → Run ε Unit} {freezeValue : Value → Run ε Unit} (h : w.Sound I)
    (hset : R w (w.modifyTable t fun t => { t with frozen := true }))
    (hkey : ∀ key v, Within w v → v.Sound I → v.OwnsKey key → Along R v (freezeKey key) fun _ _ => True)
    (hvalue : ∀ x v, Within w v → v.Sound I → v.Owns x → Along R v (freezeValue x) fun _ _ => True) :
    Along R w (freezeTable freezeKey freezeValue t) fun _ _ => True := by
  unfold freezeTable
  refine .read (run_readTable t w) ?_
  split
  · exact .pure trivial
  · refine (Along.modify (Q := fun _ _ => True) hset trivial).bind fun _ v hv _ => ?_
    have he := BySteps.evolves h hv
    refine forM_along _ (he.sound h) fun (key, x) hm u hu hs => ?_
    have hin := he.within.trans hu
    have hown := hin.ownsItems (h.items t) (key, x) hm
    refine (hkey key u hin hs hown.1).bind fun _ u' hu' _ => ?_
    have he' := BySteps.evolves hs hu'
    exact hvalue x u' (hin.trans he'.within) (he'.sound hs) (he'.within.owns hown.2)

end

end ValueCore
