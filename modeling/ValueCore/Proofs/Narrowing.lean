import ValueCore.Proofs.Narrowing.Views

/-!
# Signed 32-bit integers suffice

Numbers of buckets and of entries, and the indices of slots, are computed with here as natural numbers; to store them, signed
32-bit integers are enough. Where such a number is computed or converted, a conversion that fails unless it is exact may be
put in (`Proofs.Narrowing.Tables` and `Proofs.Narrowing.Views`), and nothing changes: not for any size hint, and after
whatever has been done before (`signed_integers_suffice`).

Size hints may be too large for these integers. They are then too large for a table as well, and are refused as such before
they are converted: 6.5 entries for each of `maxHeads` chains are less than the integers hold. What grows in the end is
refused likewise, or cannot be reached: the load that lets a container grow is kept by all that is done with it
(`Midway.moderate`, `WellKept.moderate`), and so bounds its other numbers too.
-/

namespace ValueCore

open World

variable {ε α : Type} {I : Inventory ε} {w : World ε} {kind : KeyKind} {t : TableId kind} {v : ViewId} {hint : UInt32}

/-- What is done with a table comes to the same with every number in a signed 32-bit integer. The size hint that its length
makes is that length. -/
structure World.NarrowTable (I : Inventory ε) (w : World ε) (t : TableId kind) : Prop where
  inRange : (w.table t).InRange
  hint : (w.table t).length.toUInt32.toNat = (w.table t).length
  resize : ∀ hint, Narrow.resizeTable t hint w = resizeTable t hint w
  grow : Narrow.growTable t w = growTable t w
  reserve : Narrow.reserveBucket t w = reserveBucket t w
  room : w.Has t → ∀ hash, Narrow.roomFor t hash w = roomFor t hash w
  insert : ∀ {host : Host ε}, Civil I host → w.Has t → ∀ (key : kind.Key) (value : Value), w.OwnsKey key →
    Narrow.insert (keyingOf host kind) t key value w = insert (keyingOf host kind) t key value w

/-- What is done with a view comes to the same with every number in a signed 32-bit integer. -/
structure World.NarrowView (w : World ε) (v : ViewId) : Prop where
  inRange : (w.view v).InRange
  resize : (w.view v).length = 0 → ∀ hint, Narrow.resizeView v hint w = resizeView v hint w
  rehash : ∀ heads, (∃ k ≤ 24, heads = 2 ^ k) → Narrow.rehashView v heads w = rehashView v heads w
  append : ∀ hash key value, Narrow.appendHashed v hash key value w = appendHashed v hash key value w

theorem Midway.narrowTable (h : Midway I w) (t : TableId kind) : w.NarrowTable I t where
  inRange := (h.moderate ⟨kind, t⟩).inRange (h.sound.tables t).toStorage
  hint := by
    have hlength := ((h.moderate ⟨kind, t⟩).inRange (h.sound.tables t).toStorage).length
    exact UInt32.toNat_ofNat_of_lt' (Nat.lt_trans hlength (by decide))
  resize hint := congrFun (Narrow.resizeTable_eq t hint) w
  grow := Narrow.growTable_eq (h.sound.tables t) (h.moderate ⟨kind, t⟩)
  reserve := Narrow.reserveBucket_eq (h.moderate ⟨kind, t⟩)
  room ht := Narrow.roomFor_eq (h.sound.tables t) (h.moderate ⟨kind, t⟩) ht
  insert hc ht _ value hkey :=
    Narrow.insert_eq (keyingOf_respects hc.respects kind) h.sound h.moderate ht hkey value

theorem WellKept.narrowView (h : WellKept v w) : w.NarrowView v where
  inRange := h.moderate.2.inRange
  resize := Narrow.resizeView_eq h.moderate
  rehash _ := Narrow.rehashView_eq h.moderate
  append := Narrow.appendHashed_eq h.moderate

/-! ## Hints that are refused -/

/-- Whatever begins with choosing the chains for too many entries ends there. -/
theorem run_of_overflow (h : 13 * maxHeads ≤ 2 * hint.toNat) (f : Nat → Run ε α) (w : World ε) :
    (chooseHeads hint >>= f) w = raise .tableOverflow w := by
  have hnone : headsFor hint.toNat = none :=
    Option.not_isSome_iff_eq_none.1 fun hs => Nat.not_lt.2 h ((headsFor_isSome _).1 hs)
  exact run_bind_error (run_chooseHeads_none hnone w) f

/-- A new view that is given up is empty, as it was already. -/
theorem modifyView_addView (w : World ε) : w.addView.2.modifyView w.addView.1 (fun _ => View.empty) = w.addView.2 := by
  have hempty : w.addView.2.views.getD w.addView.1.index View.empty = View.empty := view_addView w
  have hconst : w.addView.2.views.modify w.addView.1.index id =
      w.addView.2.views.modify w.addView.1.index fun _ => View.empty := by
    rw [modify_const (f := id) (d := View.empty), hempty]
    rfl
  have hsame := hconst.symm.trans (modify_id (f := id) fun _ => rfl)
  exact congrArg (fun views => ({ w.addView.2 with views } : World ε)) hsame

/-- The view that was to be made is there, and empty. -/
theorem newView_of_overflow (h : 13 * maxHeads ≤ 2 * hint.toNat) (w : World ε) :
    newView hint w = raise .tableOverflow w.addView.2 := by
  have hzero : hint ≠ 0 := by
    rintro rfl
    exact absurd h (by decide +kernel)
  have hr : newView hint w = raise .tableOverflow (w.addView.2.modifyView w.addView.1 fun _ => View.empty) :=
    run_newView_error hzero (run_of_overflow h _ w.addView.2)
  rw [hr, modifyView_addView]

/-! ## Every world -/

/-- **Signed 32-bit integers suffice** for what tables and views count, and for where they keep their entries, in every world
that a program comes to, in the middle of an operation too. A hint that is too large is refused before anything else is done
with it. -/
theorem signed_integers_suffice :
    (∀ {w : World ε}, Midway I w → ∀ {kind : KeyKind} (t : TableId kind), w.NarrowTable I t) ∧
    (∀ {w : World ε} {v : ViewId}, WellKept v w → w.NarrowView v) ∧
    ∀ hint : UInt32,
      (∀ kind, (Narrow.newTable kind hint : Run ε _) = newTable kind hint) ∧
      (Narrow.newView hint : Run ε _) = newView hint ∧
      (13 * maxHeads ≤ 2 * hint.toNat → ∀ w : World ε,
        (∀ kind, newTable kind hint w = raise .tableOverflow w) ∧
        (∀ {kind : KeyKind} (t : TableId kind), resizeTable t hint w = raise .tableOverflow w) ∧
        newView hint w = raise .tableOverflow w.addView.2 ∧
        ∀ v, resizeView v hint w = raise .tableOverflow w) := by
  refine ⟨?_, ?_, fun hint => ⟨?_, Narrow.newView_eq hint, ?_⟩⟩
  · intro w hw kind t
    exact hw.narrowTable t
  · intro w v hv
    exact hv.narrowView
  · intro kind
    exact Narrow.newTable_eq kind hint
  · intro h w
    exact ⟨fun _ => run_of_overflow h _ w, fun _ => run_of_overflow h _ w, newView_of_overflow h w,
      fun _ => run_of_overflow h _ w⟩

/-- A table of nine entries grows, or takes another one; the ninth entry of a view has its index rebuilt. The greatest hint is
refused. -/
theorem signed_integers_suffice_ninth :
    let w : World Unit := inTurn lopsidedTable (World.unused ())
    let t : TableId .any := ⟨0⟩
    let v : ViewId := ⟨0⟩
    ((w.table t).InRange ∧ Narrow.growTable t w = growTable t w ∧ ((growTable t w).2.table t).capacity = 6 ∧
      Narrow.insert (keyingOf mute .any) t (.int 36) .none w = insert (keyingOf mute .any) t (.int 36) .none w) ∧
    ((fullView.view v).InRange ∧ Narrow.appendHashed v 0 [8] .none fullView = appendHashed v 0 [8] .none fullView ∧
      ((appendHashed v 0 [8] .none fullView).2.view v).capacity = 4) ∧
    resizeView v 0xffffffff fullView = raise .tableOverflow fullView := by
  have hw : Midway .nothing (inTurn lopsidedTable (World.unused ())) := ⟨_, (reachable_inTurn (by decide +kernel)).1, .start⟩
  have hv : WellKept ⟨0⟩ fullView := WellKept.colliding eightKeys (.made (w := World.unused ()) 0 rfl)
  obtain ⟨htables, hviews, hhints⟩ := signed_integers_suffice (I := .nothing)
  have ht := htables hw (⟨0⟩ : TableId .any)
  obtain ⟨-, -, hrefused⟩ := hhints 0xffffffff
  refine ⟨⟨ht.inRange, ht.grow, by decide +kernel, ht.insert mute_civil (by decide +kernel) (.int 36) .none trivial⟩,
    ⟨(hviews hv).inRange, (hviews hv).append 0 [8] .none, by decide +kernel⟩, ?_⟩
  exact (hrefused (by decide +kernel) fullView).2.2.2 ⟨0⟩

end ValueCore
