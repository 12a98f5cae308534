import ValueCore.Proofs.Operations.Averting
import ValueCore.Proofs.Operations.Outcomes
import ValueCore.Proofs.Reentrancy
import ValueCore.Proofs.World.Parts

/-!
# Keys that the host is not asked about

A key that leads to none of the host's values is hashed without asking the host. It is compared without asking with every
key that leads to none of them either, and with every key that it is told from at once: a number, say, with whatever there
is. In a table with such keys only, or among such, the key is secluded (`World.Secluded`), whatever else there is in the
world.

What hashing the key and scanning for it come to is then computed from the world, and is the same with any other host
(`World.Unasking`), also with one that never raises anything. So no status is raised that only the host would raise, and
nothing happens to the host's part. An insertion may grow the table and scan again; that changes nothing of what the key
leads to (`steady_secluded`).
-/

namespace ValueCore

open World

variable {ε α : Type} {I : Inventory ε} {w v : World ε} {kind : KeyKind} {t : TableId kind} {key : kind.Key}
  {status : Status} {host : Host ε}

/-! ## Computations that ask nothing -/

/-- The computation comes to the same with every host. -/
def World.Unasking (w : World ε) (act : Host ε → Run ε α) : Prop := ∃ o, ∀ host, w.Answers (act host) o

namespace World.Unasking

variable {act : Host ε → Run ε α}

theorem alike (h : w.Unasking act) (host : Host ε) : Alike w (act host w).2 := by
  obtain ⟨o, ho⟩ := h
  exact (ho host).alike w (.refl w)

/-- What is not raised with a host that raises nothing is not raised. -/
theorem averts (h : w.Unasking act) (hmemory : status ≠ .memory) (hmute : Averts status (act mute)) (host : Host ε) :
    (act host w).1 ≠ .error (.raised status) := by
  obtain ⟨o, ho⟩ := h
  intro he
  have hgranted : w.Mirrors (w.allocating true) := (Mirrors.refl w).alike (alike_allocating w true)
  rcases (ho host).outcome w (.refl w) with hout | ⟨-, hrefused⟩
  · generalize act host w = r at hout he
    cases hout with
    | returned | exhausted => cases he
    | raised f =>
      -- where all requests are granted the silent host meets the same fault
      rcases (ho mute).outcome _ hgranted with hsilent | ⟨hg, -⟩
      · have hnot := hmute (w.allocating true)
        generalize act mute (w.allocating true) = r' at hsilent hnot
        cases hsilent
        exact hnot he
      · exact hg (granting_allocating w)
  · exact hmemory (Failure.raised.inj (Except.error.inj (he.symm.trans hrefused)))

end World.Unasking

theorem mute_averts : (mute : Host ε).Averts status := ⟨fun _ _ => nofun, fun _ _ _ _ => nofun, fun _ _ => nofun⟩

/-! ## Secluded keys -/

/-- The key leads to none of the host's values. Neither does any key of the table, unless it is told from the key at once. -/
def World.Secluded (w : World ε) : {kind : KeyKind} → TableId kind → kind.Key → Prop
  | .any, t, key => w.HostFree key ∧ ∀ item ∈ (w.table t).items, key.Apart item.1 ∨ w.HostFree item.1
  | .text, _, _ => True

/-- Numbers and byte strings are secluded in every table. -/
theorem secluded_scalar {t : TableId .any} {x : Value} (hx : x.Scalar) : w.Secluded t x := by
  refine ⟨fun y hr => ?_, fun _ _ => .inl (apart_of_scalar hx)⟩
  cases x with
  | dict | struct | host => exact hx.elim
  | none | bool | int | float | str =>
    rcases hr.cases_head with rfl | ⟨_, hp, _⟩
    · trivial
    · cases hp

theorem World.Secluded.sameItems (h : w.Secluded t key) (hs : SameItems w v) : v.Secluded t key := by
  cases kind with
  | any => exact ⟨h.1.sameItems hs, fun item hm => (h.2 item (hs.items t ▸ hm)).imp_right fun hf => hf.sameItems hs⟩
  | text => trivial

theorem World.Secluded.hash (h : w.Secluded t key) : w.Unasking fun host => (keyingOf host kind).hash key := by
  cases kind with
  | any => exact ⟨_, fun _ => answers_hashValue h.1.not_hosted⟩
  | text => exact ⟨_, fun _ => .pure _⟩

theorem answers_equal_apart {x y : Value} (h : x.Apart y) : w.Answers (equal host x y) (.ok (x.same y)) := by
  refine .of_run fun v _ => ?_
  rw [run_equal_apart h v]
  exact ⟨.refl v, .refl v.memory, .inl (.returned _ v)⟩

/-- The key is compared with a key of the table. -/
theorem World.Secluded.equal (h : w.Secluded t key) (hsound : w.Sound I) (hkey : w.OwnsKey key) {hash : UInt32}
    {c : Nat × kind.Key} (hc : c ∈ (w.table t).candidates hash) :
    w.Unasking fun host => (keyingOf host kind).equal key c.2 := by
  have hitem := (hsound.tables t).item_of_candidate hc
  have hother := ownsKey_of_candidate hsound hc
  cases kind with
  | any =>
    obtain ⟨e, -, -, he, hm⟩ := hitem
    rcases h.2 _ hm with hapart | hfree
    · rw [he] at hapart
      exact ⟨_, fun _ => answers_equal_apart hapart⟩
    · rw [he] at hfree
      exact ⟨_, fun _ => answers_equalWithin (region_free hsound) (fun _ hx => hx.2) ⟨h.1, hkey⟩ ⟨hfree, hother⟩ fullBudget⟩
  | text => exact ⟨_, fun _ => .pure _⟩

theorem World.Secluded.scan (h : w.Secluded t key) (hsound : w.Sound I) (hkey : w.OwnsKey key) (hash : UInt32) :
    w.Unasking fun host => ValueCore.scan (keyingOf host kind) t key hash := by
  have hequal : ∀ k, (∃ c ∈ (w.table t).candidates hash, c.2 = k) →
      ∃ o, ∀ host : Host ε, w.Answers ((keyingOf host kind).equal key k) o := by
    rintro _ ⟨c, hc, rfl⟩
    exact h.equal hsound hkey hc
  choose! of hof using hequal
  exact ⟨_, fun host => answers_scan hash fun c hc => hof c.2 ⟨c, hc, rfl⟩ host⟩

/-! ## Nothing foreign is raised -/

theorem World.Secluded.hash_averts (h : w.Secluded t key) (hs : status.Foreign) (host : Host ε) :
    ((keyingOf host kind).hash key w).1 ≠ .error (.raised status) :=
  h.hash.averts hs.memory ((keyingOf_averts hs mute_averts kind).hash key) host

theorem World.Secluded.scan_averts (h : w.Secluded t key) (hsound : w.Sound I) (hkey : w.OwnsKey key) (hash : UInt32)
    (hs : status.Foreign) (host : Host ε) :
    (ValueCore.scan (keyingOf host kind) t key hash w).1 ≠ .error (.raised status) :=
  (h.scan hsound hkey hash).averts hs.memory (ValueCore.scan_averts (keyingOf_averts hs mute_averts kind) t key hash) host

/-! ## Nothing changes -/

/-- The worlds that an insertion of a secluded key goes through have the same keys and values, and nothing has happened to
the host's part. -/
theorem steady_secluded (hh : host.Respects I) (hw : w.Sound I) (ht : w.Has t) (hkey : w.OwnsKey key)
    (hs : w.Secluded t key) (hash : UInt32) :
    Steady (keyingOf host kind) t key hash fun v => Evolves I 0 w v ∧ SameItems w v ∧ v.env = w.env := by
  refine (steady_respects (keyingOf_respects hh kind) hash hw ht hkey).and (fun {u} he hu => ?_) (fun hu ha => ?_)
    fun {u} block he hu hmax => ?_
  · have hasks := ((hs.sameItems hu.1).scan (he.sound hw) (he.within.ownsKey hkey) hash).alike host
    exact ⟨hu.1.trans (.of_stores (.of_alike hasks)), hasks.env.trans hu.2⟩
  · exact ⟨hu.1.trans (.of_stores (.of_alike ha)), ha.env.trans hu.2⟩
  · have hgrown := (((he.sound hw).tables t).grown hmax block).2.2.1
    have hitems : ((u.table t).grown block).items = (u.table t).items := by rw [Table.items_eq, hgrown, ← Table.items_eq]
    exact ⟨hu.1.trans (.modify (he.within.has t ht) _ hitems), (env_modifyTable t _).trans hu.2⟩

end ValueCore
