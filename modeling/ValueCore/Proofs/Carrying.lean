import ValueCore.Proofs.Reachable

/-!
# What operations carry along

A property of worlds may hold from start to end although operations know nothing of it: what a host has on record, or how
its cursors stand to their tables. A property is `Carried` if the single steps of the core keep it that leave the host's
part alone, and holding a table and letting it go. Then every operation keeps it, provided that the answers of the host do
(`Operation.carries`): also if the host does much in the middle of the operation, and if that fails.
-/

namespace ValueCore

open World

variable {ε : Type} {I : Inventory ε} {J : World ε → Prop} {w w' : World ε} {host : Host ε}

namespace World

/-- Whatever the core does by itself keeps `J`. -/
class Carried (I : Inventory ε) (J : World ε → Prop) : Prop where
  step : ∀ {w w' : World ε}, w.Sound I → Step I 0 w w' → w'.env = w.env → J w → J w'
  held : ∀ {w : World ε} {kind : KeyKind} (t : TableId kind), w.Has t → J w → J (w.held t)
  letGo : ∀ {w : World ε} {kind : KeyKind} (t : TableId kind), w.Has t → J w → J (w.letGo t)

/-- From `w` to `w'` by steps that keep `J`. -/
def Carries (I : Inventory ε) (J : World ε → Prop) (w w' : World ε) : Prop :=
  Evolves I 0 w w' ∧ (w.Sound I → J w → J w')

/-- One step that leaves the host's part alone. -/
theorem carries_step [Carried I J] (hs : Step I 0 w w') (henv : w'.env = w.env) : Carries I J w w' :=
  ⟨.step hs, fun h hj => Carried.step h hs henv hj⟩

instance [Carried I J] : Working I 0 (Carries I J) where
  outside h := carries_step (.outside h) h.env
  trans h h' := ⟨h.1.trans h'.1, fun hw hj => h'.2 (h.1.sound hw) (h.2 hw hj)⟩
  bracket {w w'} _ t ht hf h := by
    have ht' : w'.Has t := h.1.within.has t ((has_modifyTable t _ t).2 ht)
    refine ⟨.bracket t ht hf h.1, fun hw hj => ?_⟩
    exact Carried.letGo I t ht' (h.2 (hw.held t ht) (Carried.held I t ht hj))
  evolves _ h := h.1
  work h := carries_step h.step h.env

end World

/-- The answers of the host keep `J`. -/
structure Host.Minds (I : Inventory ε) (J : World ε → Prop) (host : Host ε) : Prop where
  display : ∀ i {w : World ε}, w.Sound I → J w → J (host.display i w).2
  hash : ∀ i {w : World ε}, w.Sound I → J w → J (host.hash i w).2
  equal : ∀ a b depth {w : World ε}, w.Sound I → J w → J (host.equal a b depth w).2
  freeze : ∀ i {w : World ε}, w.Sound I → J w → J (host.freeze i w).2

theorem Host.Minds.follows (hc : Civil I host) (hm : host.Minds I J) : host.Follows I (Carries I J) :=
  ⟨fun i hw => ⟨hc.respects.display i hw (Nat.zero_le _), fun _ => hm.display i hw⟩,
    fun i hw => ⟨hc.respects.hash i hw (Nat.zero_le _), fun _ => hm.hash i hw⟩,
    fun a b depth hw => ⟨hc.respects.equal a b depth hw (Nat.zero_le _), fun _ => hm.equal a b depth hw⟩⟩

theorem Host.Minds.freezes [Carried I J] (hc : Civil I host) (hm : host.Minds I J) : host.Freezes I (Carries I J) :=
  ⟨fun i hw => ⟨hc.respects.freeze i hw (Nat.zero_le _), fun _ => hm.freeze i hw⟩,
    fun t _ ht => carries_step (.freeze t ht) (env_modifyTable t _)⟩

/-- **Operations keep what the answers of the host keep**, whether they return or fail. -/
theorem Operation.carries [Carried I J] (hc : Civil I host) (hm : host.Minds I J) (h : w.Sound I) (op : Operation)
    (hv : op.Valid w) : Carries I J w (op.run host w).2 := by
  by_cases hchanges : op.Changes
  · exact op.works (hm.follows hc) h (Nat.zero_le _) hv hchanges
  · exact op.along (hm.follows hc) h hv hchanges (op.freezes_along (hm.freezes hc) h hv)

end ValueCore
