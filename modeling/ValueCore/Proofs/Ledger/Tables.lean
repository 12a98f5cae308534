import ValueCore.Proofs.Ledger.Balance
import ValueCore.Proofs.Operations.Sizing

/-!
# The balance of tables

Whatever is done with tables, strings, dicts and structs keeps the balance of a world and loses nothing. Where a table gets
another block, the new one is held beside it until it takes the place of the old one, and the old one until it is given back.
A block for an object is held beside the world until the object is made.
-/

namespace ValueCore

open World

variable {ε α : Type} {w v : World ε} {kind : KeyKind} {t : TableId kind} {spoilt : UInt32 → Prop} {beside : Multiset Holding}

/-! ## Borrowed blocks, and blocks for objects -/

/-- A block is held while something runs, and then disposed of in one way or the other. What was lost meanwhile stays
lost. -/
theorem conserves_while {b : Option Block} {bytes : Nat} {m : Memory} {text : Bytes} {u : World ε} (hw : w.Tallies beside)
    (hm : m.Tallies stateBytes (inBlock b bytes + (w.holdings + beside))) (hrun : Conserves spoilt (w.ledgered m text) v)
    (hkept : v.Retains u) (hlast : ∀ {others}, v.Tallies (inBlock b bytes + others) → u.Tallies others) :
    ∃ lost, (∀ h ∈ lost, EntryArray spoilt h) ∧ u.Tallies (beside + lost) ∧ w.Retains u := by
  obtain ⟨lost, hl, hv, hretains⟩ := hrun _ (hw.granted hm)
  rw [add_assoc] at hv
  exact ⟨lost, hl, hlast hv, hretains.ledgered.trans hkept⟩

/-- Being refused a block loses nothing. -/
theorem conserves_refused {m : Memory} {text : Bytes} (hw : w.Tallies beside)
    (hm : m.Tallies stateBytes (w.holdings + beside)) :
    ∃ lost, (∀ h ∈ lost, EntryArray spoilt h) ∧ (w.ledgered m text).Tallies (beside + lost) ∧ w.Retains (w.ledgered m text) :=
  ⟨0, by simp, by rw [add_zero]; exact hw.ledgered hm, .of_eq rfl rfl⟩

theorem withScratch_conserves (count size : Nat) {act : Run ε α} {w : World ε}
    (h : ∀ m text, Conserves spoilt (w.ledgered m text) (act (w.ledgered m text)).2) :
    Conserves spoilt w (withScratch count size act w).2 := by
  intro beside hw
  have hask := obtained_allocateElements count size hw.ledger
  unfold withScratch
  generalize hr : allocateElements count size w = r at hask
  cases hask with
  | refused e hm =>
    rw [run_bind_error hr]
    exact conserves_refused hw hm
  | granted b hm =>
    rw [run_bind_ok hr, run_afterwards]
    exact conserves_while hw hm (h _ _) (.of_eq rfl rfl) Tallies.freed

theorem newObject_conserves (bytes : Nat) {make : Run ε α} (h : Upholds (Conserves spoilt) make) :
    Upholds (Conserves spoilt) (newObject bytes make) := by
  intro w beside hw
  have hask := obtained_allocate bytes hw.ledger
  unfold newObject
  generalize hr : allocate bytes w = r at hask
  cases hask with
  | refused e hm =>
    rw [run_bind_error hr]
    exact conserves_refused hw hm
  | @granted b m hm =>
    rw [run_bind_ok hr]
    unfold madeIn
    have hmake := h (w.ledgered m w.message)
    cases hmade : make (w.ledgered m w.message) with
    | mk r v =>
      rw [hmade] at hmake
      cases r with
      | ok a => exact conserves_while hw hm hmake (.of_eq rfl rfl) Tallies.adopt
      | error e => exact conserves_while hw hm hmake (.of_eq rfl rfl) Tallies.freed

/-! ## Trails -/

theorem onTrail_conserves {act : Run ε α} (h : Upholds (Conserves spoilt) act) :
    Upholds (Conserves spoilt) (onTrail act) := by
  intro w beside hw
  rw [run_onTrail]
  obtain ⟨lost, hl, hv, hkept⟩ := h w.newTrail _ hw.newTrail
  rw [add_assoc] at hv
  have hsame : (act w.newTrail).2.views = ((act w.newTrail).2.offTrail w.trail).views := by
    unfold World.offTrail
    cases (act w.newTrail).2.trail <;> rfl
  refine ⟨lost, hl, hv.offTrail, ⟨hsame ▸ hkept.views, fun hnone => ?_⟩⟩
  rw [hnone]
  unfold World.offTrail
  cases (act w.newTrail).2.trail <;> rfl

theorem extendTrail_conserves (length : Nat) : Upholds (Conserves spoilt) (extendTrail length : Run ε Unit) := by
  intro w
  unfold extendTrail
  rw [run_bind_ok (run_get w)]
  cases ht : w.trail with
  | none => exact .refl w
  | some t =>
    dsimp only
    split
    · refine .keep fun {beside} hw => ?_
      obtain ⟨rest, hrest, hkeep, hmodify⟩ := hw.focusTrail
      have hask := obtained_allocate ((length + max length 1) * trailEntryBytes) hrest
      generalize hr : allocate ((length + max length 1) * trailEntryBytes) w = r at hask
      cases hask with
      | refused e hm =>
        rw [run_bind_error hr]
        exact ⟨hkeep hm, .of_eq rfl rfl⟩
      | @granted b m hm =>
        rw [run_bind_ok hr, run_bind_ok (run_release _ _ _), run_modify, ledgered_freed]
        rw [ht, add_left_comm] at hm
        refine ⟨?_, Nat.le_refl _, fun hnone => ?_⟩
        · exact hmodify _ (some ⟨b, length + max length 1⟩) hm.releaseOption
        · rw [ht] at hnone
          cases hnone
    · exact .refl w

/-! ## Tables -/

/-- A choice of chains is within the limit, and nothing has been done for it. -/
theorem run_chooseHeads (hint : UInt32) (w : World ε) :
    (chooseHeads hint w = raise .tableOverflow w) ∨ ∃ heads ≤ maxHeads, headsFor hint.toNat = some heads ∧
      chooseHeads hint w = (.ok heads, w) := by
  cases hh : headsFor hint.toNat with
  | none => exact .inl (run_chooseHeads_none hh w)
  | some heads =>
    obtain ⟨k, hk, rfl⟩ := Table.headsFor_pow hh
    exact .inr ⟨2 ^ k, Nat.pow_le_pow_right (by decide) hk, rfl, run_chooseHeads_some hh w⟩

theorem obtained_allocateHeads (kind : KeyKind) {heads : Nat} (hheads : heads ≤ maxHeads) {rest : Multiset Holding}
    (h : w.memory.Tallies stateBytes rest) :
    w.Obtained rest rest (heads * kind.bucketBytes) (allocateHeads kind heads w) := by
  unfold allocateHeads
  split
  · refine obtained_allocateArray kind.bucketBytes_le.1 ?_ h
    simp only [maxHeads, Memory.wordSpan] at *
    omega
  · exact .granted none (by rwa [inBlock_none, zero_add])

/-- Adding a table with the block that it was given. -/
theorem World.Tallies.addTable (hw : w.Tallies beside) {T : Table kind.Key} (hT : T.Fits) {m : Memory} {text : Bytes}
    (hm : m.Tallies stateBytes (T.holding kind.bucketBytes + (w.holdings + beside))) :
    ((w.ledgered m text).addTable kind T).2.Tallies beside := by
  refine ⟨?_, fun {k} u => ?_, fun v => ?_⟩
  · have hmem : ((w.ledgered m text).addTable kind T).2.memory = m := by cases kind <;> rfl
    rw [hmem, holdings_addTable, add_assoc]
    exact hm
  · by_cases hu : (⟨k, u⟩ : TableRef) = ⟨kind, ((w.ledgered m text).addTable kind T).1⟩
    · cases hu
      rw [table_addTable_self]
      exact hT
    · rw [table_addTable_of_ne kind T u hu, table_ledgered]
      exact hw.tables u
  · have hview : ((w.ledgered m text).addTable kind T).2.view v = w.view v := by cases kind <;> rfl
    rw [hview]
    exact hw.views v

theorem newTable_conserves (kind : KeyKind) (hint : UInt32) :
    Upholds (Conserves spoilt) (newTable kind hint : Run ε _) := by
  refine fun w => .keep fun {beside} hw => ?_
  unfold newTable
  rcases run_chooseHeads hint w with hc | ⟨heads, hheads, _, hc⟩
  · rw [run_bind_error hc]
    exact ⟨hw.message _, .of_eq rfl rfl⟩
  rw [run_bind_ok hc]
  have hask := obtained_allocateHeads kind hheads hw.ledger
  generalize hr : allocateHeads kind heads w = r at hask
  cases hask with
  | refused e hm =>
    rw [run_bind_error hr]
    exact ⟨hw.ledgered hm, .of_eq rfl rfl⟩
  | @granted b m hm =>
    rw [run_bind_ok hr]
    refine ⟨hw.addTable (Table.fits_withStorage hheads b) hm, ?_⟩
    cases kind <;> exact .of_eq rfl rfl

/-- Sizing a table that is there and has no entries. -/
theorem resizeTable_conserves (hint : UInt32) (ht : w.Has t) (hlength : (w.table t).length = 0) :
    Conserves spoilt w (resizeTable t hint w).2 := by
  refine .keep fun {beside} hw => ?_
  unfold resizeTable
  rcases run_chooseHeads hint w with hc | ⟨heads, hheads, _, hc⟩
  · rw [run_bind_error hc]
    exact ⟨hw.message _, .of_eq rfl rfl⟩
  rw [run_bind_ok hc]
  obtain ⟨rest, hrest, hkeep, hmodify⟩ := hw.focus ht
  have hask := obtained_allocateHeads kind hheads hrest
  generalize hr : allocateHeads kind heads w = r at hask
  cases hask with
  | refused e hm =>
    rw [run_bind_error hr]
    exact ⟨hkeep hm, .of_eq rfl rfl⟩
  | @granted b m hm =>
    have hfits : ((w.table t).resized heads b).Fits := by
      refine ⟨?_, ?_, ?_⟩
      · show heads ≤ 2 * maxHeads
        omega
      · show (w.table t).length ≤ _
        omega
      · show heads ≤ 4 * maxHeads
        omega
    have hfreed : (m.releaseOption (w.table t).block ((w.table t).capacity * kind.bucketBytes)).Tallies stateBytes
        (((w.table t).resized heads b).holding kind.bucketBytes + rest) :=
      Memory.Tallies.releaseOption (add_left_comm _ _ rest ▸ hm)
    have hrun := hmodify (·.resized heads b) _ w.message hfits hfreed
    rw [run_bind_ok hr, run_bind_ok (run_readTable t _), table_ledgered, run_bind_ok (run_release _ _ _), run_updateTable,
      ledgered_freed]
    rw [← modifyTable_ledgered] at hrun
    exact ⟨hrun, (Retains.modifyTable t (·.resized heads b)).ledgered⟩

/-! ## Growing -/

namespace Table

variable {κ : Type} {T : Table κ}

theorem length_entries_le (T : Table κ) : T.entries.length ≤ T.length := by
  have hwalk : ∀ (n : Nat) (start : Option Nat), (T.walk n start).length ≤ n := by
    intro n
    induction n with
    | zero => exact fun _ => Nat.le_refl _
    | succ n ih =>
      intro start
      cases start with
      | none => exact Nat.zero_le _
      | some i => exact Nat.succ_le_succ (ih _)
  exact Nat.le_trans (List.length_filterMap_le _ _) (hwalk _ _)

/-- What putting entries into a table under construction does to its sizes. -/
theorem reinsert_sizes (T : Table κ) (e : Entry κ) : (T.reinsert e).heads = T.heads ∧
    (T.reinsert e).capacity = T.capacity ∧ (T.reinsert e).block = T.block ∧ (T.reinsert e).length = T.length + 1 := by
  unfold reinsert
  dsimp only
  split
  · rename_i i _
    obtain ⟨h1, _, h3, _, _, h6, _⟩ := append_frame (t := T) i e.hash e.key e.value
    exact ⟨h1, h3, h6, (append_ends i e.hash e.key e.value).2.2⟩
  · obtain ⟨g1, g2, _, _, g5, _⟩ := addOverflow_frame (t := T) (T.home e.hash)
    have gblock : (T.addOverflow (T.home e.hash)).block = T.block := by simp only [addOverflow, resetBucket]
    obtain ⟨h1, _, h3, _, _, h6, _⟩ := append_frame (t := T.addOverflow (T.home e.hash)) (bucketSize * T.used) e.hash e.key
      e.value
    have hlength := (append_ends (t := T.addOverflow (T.home e.hash)) (bucketSize * T.used) e.hash e.key e.value).2.2
    exact ⟨h1.trans g1, h3.trans g2, h6.trans gblock, by rw [hlength, g5]⟩

theorem foldl_reinsert_sizes : ∀ (es : List (Entry κ)) (T : Table κ), (es.foldl reinsert T).heads = T.heads ∧
    (es.foldl reinsert T).capacity = T.capacity ∧ (es.foldl reinsert T).block = T.block ∧
    (es.foldl reinsert T).length = T.length + es.length
  | [], _ => ⟨rfl, rfl, rfl, rfl⟩
  | e :: es, T => by
    obtain ⟨h1, h2, h3, h4⟩ := reinsert_sizes T e
    obtain ⟨i1, i2, i3, i4⟩ := foldl_reinsert_sizes es (T.reinsert e)
    refine ⟨i1.trans h1, i2.trans h2, i3.trans h3, i4.trans ?_⟩
    rw [h4, List.length_cons]
    omega

/-- A table that has grown fits, and its storage is the one that was asked for. -/
theorem Fits.grown (h : T.Fits) (hmax : T.heads < maxHeads) (block : Option Block) (bucketBytes : Nat) :
    (T.grown block).Fits ∧ (T.grown block).holding bucketBytes = inBlock block (T.grownCapacity * bucketBytes) := by
  obtain ⟨h1, h2, h3, h4⟩ := foldl_reinsert_sizes T.entries
    { (withStorage (2 * T.heads) T.grownCapacity block : Table κ) with holds := T.holds, frozen := T.frozen }
  have hheads : (T.grown block).heads = 2 * T.heads := h1
  have hcapacity : (T.grown block).capacity = T.grownCapacity := h2
  have hlength : (T.grown block).length = 0 + T.entries.length := h4
  have hentries := T.length_entries_le
  have hold := h.length
  refine ⟨⟨by omega, by omega, ?_⟩, ?_⟩
  · rw [hcapacity, grownCapacity]
    simp only [maxHeads, bucketSize] at *
    omega
  · rw [holding, hcapacity]
    exact congrArg (inBlock · _) h3

end Table

theorem growTable_conserves (t : TableId kind) (w : World ε) (ho : overloaded (w.table t).length (w.table t).heads = true) :
    Conserves spoilt w (growTable t w).2 := by
  have ht : w.Has t := by
    by_contra hno
    rw [table_of_not_has t hno] at ho
    cases ho
  refine .keep fun {beside} hw => ?_
  unfold growTable
  rw [run_bind_ok (run_readTable t w)]
  dsimp only
  by_cases hmax : maxHeads ≤ (w.table t).heads
  · rw [if_pos hmax]
    exact ⟨hw.message _, .of_eq rfl rfl⟩
  rw [if_neg hmax]
  have hlt := Nat.lt_of_not_le hmax
  have hfits := hw.tables t
  obtain ⟨rest, hrest, hkeep, hmodify⟩ := hw.focus ht
  have hcount : (w.table t).grownCapacity + 1 < Memory.wordSpan := by
    have hlength := hfits.length
    simp only [Table.grownCapacity, maxHeads, bucketSize, Memory.wordSpan] at *
    omega
  have hask := obtained_allocateArray kind.bucketBytes_le.1 hcount hrest
  cases hr : allocateArray (w.table t).grownCapacity kind.bucketBytes w with
  | mk r v =>
    rw [hr] at hask
    cases hask with
    | refused e hm =>
      rw [run_bind, hr]
      exact ⟨hkeep hm, .of_eq rfl rfl⟩
    | @granted b m hm =>
      obtain ⟨hgrown, hholding⟩ := hfits.grown hlt b kind.bucketBytes
      rw [run_bind, hr]
      have hfreed : (m.releaseOption (w.table t).block ((w.table t).capacity * kind.bucketBytes)).Tallies stateBytes
          (((w.table t).grown b).holding kind.bucketBytes + rest) := by
        rw [hholding]
        exact Memory.Tallies.releaseOption (add_left_comm _ _ rest ▸ hm)
      have hrun := hmodify (·.grown b) _ w.message hgrown hfreed
      rw [← ledgered_freed, ← modifyTable_ledgered] at hrun
      exact ⟨hrun, (Retains.modifyTable (w := w.ledgered m w.message) t (·.grown b)).ledgered.trans (.of_eq rfl rfl)⟩

/-! ## Placing an entry -/

/-- An entry that is placed in a table that is not overloaded leaves it fitting. -/
theorem Table.Fits.append {κ : Type} {T : Table κ} (h : T.Fits) (ho : overloaded T.length T.heads = false) (i : Nat)
    (hash : UInt32) (key : κ) (value : Value) : (T.append i hash key value).Fits := by
  obtain ⟨h1, _, h3, _⟩ := append_frame (t := T) i hash key value
  have hlength := (append_ends (t := T) i hash key value).2.2
  refine ⟨h1 ▸ h.heads, ?_, h3 ▸ h.capacity⟩
  rw [hlength, h1]
  simp only [overloaded, Bool.and_eq_false_iff, decide_eq_false_iff_not] at ho
  omega

/-- Work on a table that keeps the balance, and the table with as many chains and entries. -/
structure World.Prepared (w : World ε) (t : TableId kind) (beside : Multiset Holding) (v : World ε) : Prop where
  tallies : v.Tallies beside
  kept : w.Retains v
  heads : (v.table t).heads = (w.table t).heads
  length : (v.table t).length = (w.table t).length

namespace World.Prepared

theorem ledgered {m : Memory} {text : Bytes} (hw : (w.ledgered m text).Tallies beside) : w.Prepared t beside (w.ledgered m text) :=
  ⟨hw, .of_eq rfl rfl, by rw [table_ledgered], by rw [table_ledgered]⟩

/-- Another bucket is put into a chain. -/
theorem addOverflow (h : w.Prepared t beside v) (head : Nat) : w.Prepared t beside (v.modifyTable t (·.addOverflow head)) := by
  by_cases ht : v.Has t
  · obtain ⟨h1, h2, _, _, h5, _⟩ := Table.addOverflow_frame (t := v.table t) head
    have hblock : ((v.table t).addOverflow head).block = (v.table t).block := by
      simp only [Table.addOverflow, Table.resetBucket]
    have hfits := h.tallies.tables t
    have htable := table_modifyTable t (·.addOverflow head) ht
    exact ⟨h.tallies.write t h2 hblock ⟨by rw [h1]; exact hfits.heads, by rw [h5, h1]; exact hfits.length, by rw [h2]; exact hfits.capacity⟩,
      h.kept.trans (.modifyTable t _), by rw [htable, h1, h.heads], by rw [htable, h5, h.length]⟩
  · rw [modifyTable_of_not_has ht]
    exact h

end World.Prepared

/-- Storage is doubled when a block of twice the size is granted in place of the one there is. -/
theorem doubled_prepares (hw : w.Tallies beside) (ht : w.Has t) (hcapacity : (w.table t).capacity < 2 * maxHeads)
    {ask : Run ε (Option Block)} (hask : ∀ {rest}, w.memory.Tallies stateBytes ((w.table t).holding kind.bucketBytes + rest) →
      w.Obtained ((w.table t).holding kind.bucketBytes + rest) rest (2 * (w.table t).capacity * kind.bucketBytes) (ask w)) :
    w.Prepared t beside ((ask >>= fun block => updateTable t (·.doubled block)) w).2 := by
  obtain ⟨rest, hrest, hkeep, hmodify⟩ := hw.focus ht
  have hask := hask hrest
  cases hr : ask w with
  | mk r v =>
    rw [hr] at hask
    cases hask with
    | refused e hm =>
      rw [run_bind_error hr]
      exact .ledgered (hkeep hm)
    | @granted b m hm =>
      rw [run_bind_ok hr, run_updateTable]
      have hfits := hw.tables t
      have hcapacity' : 2 * (w.table t).capacity ≤ 4 * maxHeads := by omega
      have hdoubled := hmodify (·.doubled b) m w.message ⟨hfits.heads, hfits.length, hcapacity'⟩ hm
      rw [← modifyTable_ledgered] at hdoubled
      have htable := table_modifyTable (w := w.ledgered m w.message) t (·.doubled b) ((has_congr rfl rfl t).2 ht)
      rw [table_ledgered] at htable
      exact ⟨hdoubled, (Retains.modifyTable t (·.doubled b)).ledgered, by rw [htable]; rfl, by rw [htable]; rfl⟩

theorem reserveBucket_prepares (hw : w.Tallies beside) (ht : w.Has t) : w.Prepared t beside (reserveBucket t w).2 := by
  unfold reserveBucket
  rw [run_bind_ok (run_readTable t w)]
  dsimp only
  split
  · split
    · exact .ledgered (hw.message _)
    · rename_i hmax
      obtain ⟨hpos, hle⟩ := kind.bucketBytes_le
      have hcapacity := Nat.lt_of_not_le hmax
      have hcount : 2 * (w.table t).capacity + 1 < Memory.wordSpan := by
        simp only [maxHeads, Memory.wordSpan] at *
        omega
      have hold : (w.table t).capacity * kind.bucketBytes < Memory.wordSpan := by
        refine Nat.lt_of_le_of_lt (Nat.mul_le_mul_left _ hle) ?_
        simp only [maxHeads, Memory.wordSpan] at *
        omega
      cases hb : (w.table t).block with
      | none =>
        have hnone : (w.table t).holding kind.bucketBytes = 0 := by rw [Table.holding, hb, inBlock_none]
        refine doubled_prepares hw ht hcapacity fun {rest} hrest => ?_
        rw [hnone, zero_add] at hrest ⊢
        exact obtained_allocateArray hpos hcount hrest
      | some b =>
        refine doubled_prepares hw ht hcapacity fun {rest} hrest => ?_
        rw [← hb]
        exact obtained_reallocateArray hpos hold hcount hrest
  · exact .ledgered hw

/-- A table that there is not has room for an entry, and nothing is done for it. -/
theorem run_roomFor_of_not_has (ht : ¬ w.Has t) (hash : UInt32) : ∃ i, roomFor t hash w = (.ok i, w) := by
  refine ⟨7, ?_⟩
  unfold roomFor
  rw [run_bind_ok (run_readTable t w), table_of_not_has t ht]
  have hhome : (Table.empty : Table kind.Key).home hash = 0 := Nat.mod_one _
  have hvacancy : (Table.empty : Table kind.Key).vacancy 0 = some 7 := rfl
  dsimp only
  rw [hhome, hvacancy]
  rfl

theorem roomFor_prepares (hw : w.Tallies beside) (t : TableId kind) (hash : UInt32) :
    w.Prepared t beside (roomFor t hash w).2 := by
  by_cases ht : w.Has t
  · unfold roomFor
    rw [run_bind_ok (run_readTable t w)]
    dsimp only
    cases (w.table t).vacancy ((w.table t).home hash) with
    | some i => exact .ledgered hw
    | none =>
      have hp := reserveBucket_prepares hw ht
      dsimp only
      rw [run_bind]
      cases hr : reserveBucket t w with
      | mk r v =>
        rw [hr] at hp
        cases r with
        | error e => exact hp
        | ok => exact hp.addOverflow _
  · obtain ⟨i, hr⟩ := run_roomFor_of_not_has ht hash
    rw [hr]
    exact .ledgered hw

theorem place_conserves (t : TableId kind) (hash : UInt32) (key : kind.Key) (value : Value) (w : World ε)
    (ho : overloaded (w.table t).length (w.table t).heads = false) :
    Conserves spoilt w ((roomFor t hash >>= fun i => updateTable t (·.append i hash key value)) w).2 := by
  refine .keep fun {beside} hw => ?_
  have hp := roomFor_prepares hw t hash
  rw [run_bind]
  cases hr : roomFor t hash w with
  | mk r v =>
    rw [hr] at hp
    cases r with
    | error e => exact ⟨hp.tallies, hp.kept⟩
    | ok i =>
      obtain ⟨_, _, h3, _, _, h6, _⟩ := Table.append_frame (t := v.table t) i hash key value
      rw [← hp.heads, ← hp.length] at ho
      exact ⟨hp.tallies.write t h3 h6 ((hp.tallies.tables t).append ho i hash key value),
        hp.kept.trans (.modifyTable t _)⟩

/-- **Whatever is done with tables loses nothing.** -/
instance routine_conserves : Routine (Conserves spoilt : World ε → World ε → Prop) where
  refl := .refl
  trans := .trans
  message w text := .keep fun h => ⟨h.message text, .of_eq rfl rfl⟩
  write t f hf w := .keep fun h => ⟨h.write t (hf _).capacity (hf _).block ((h.tables t).within (hf _)),
    .modifyTable t f⟩
  newTable := newTable_conserves
  grow := growTable_conserves
  place := place_conserves
  addStruct w s := .keep fun h => ⟨⟨h.ledger, fun t => by rw [table_congr rfl rfl t]; exact h.tables t, h.views⟩, .of_eq rfl rfl⟩
  trail := onTrail_conserves
  extend := extendTrail_conserves
  scratch count size _ h w := withScratch_conserves count size fun m text => h (w.ledgered m text)
  object := newObject_conserves

end ValueCore
