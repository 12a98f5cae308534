import ValueCore.Proofs.Consistency
import ValueCore.Proofs.Reentrancy

/-!
# A change that fails leaves the table as it was

An insertion, a removal or a clearing may fail at many points. Nothing is written before the last of them, except
that an insertion may have grown the table by then. So whatever made it fail, the table has the entries it had, in
their order, and the same flags and holds (`Table.Intact`); only where the entries are stored may differ.

| fails | the table |
| --- | --- |
| when it is checked whether the table may be changed | is the same |
| while the key is hashed or compared | is the same, or has grown |
| when memory is asked for to grow, or for another bucket | is the same, or has grown |
| when it is checked again after the scan | never, if the host leaves the table alone |

Hashing and comparing keys runs the code of the host, which might change the table in its own right. What is asked
of it is to leave the table alone in all worlds that may come about meanwhile (`Host.Spares`).
-/

namespace ValueCore

open World

variable {ε : Type} {I : Inventory ε} {w w' u v : World ε} {kind : KeyKind} {t : TableId kind} {host : Host ε}

/-- As before, but for where the entries are stored. -/
structure Table.Intact {κ : Type} (T T' : Table κ) : Prop where
  items : T'.items = T.items
  /-- The hashes that the entries are stored under are the same, too. -/
  records : T'.records = T.records
  length : T'.length = T.length
  frozen : T'.frozen = T.frozen
  holds : T'.holds = T.holds
  consistent : T'.Consistent

theorem Table.Sound.intact {κ : Type} {T T' : Table κ} (hT : T.Sound) (hT' : T'.Sound) (hrec : T'.records = T.records)
    (hf : T'.frozen = T.frozen) (hh : T'.holds = T.holds) : T.Intact T' := by
  refine ⟨?_, hrec, ?_, hf, hh, hT'.consistent⟩
  · rw [Table.items_eq, hrec, ← Table.items_eq]
  · rw [← hT'.length_records, hrec, hT.length_records]

theorem Table.Sound.intact_of_eq {κ : Type} {T T' : Table κ} (hT : T.Sound) (heq : T' = T) : T.Intact T' := by
  subst heq
  exact hT.intact hT rfl rfl rfl

/-- A change that fails when it is checked whether the table may be changed, or that leaves it intact when it may. -/
theorem intact_of_checked {α : Type} {change : TableChange} {f : Unit → Run ε α} {e : Failure} (h : w.Sound I)
    (hi : (checkMutable t change >>= f) w = (.error e, w'))
    (hf : (w.table t).frozen = false → (w.table t).holds = 0 → f () w = (.error e, w') → (w.table t).Intact (w'.table t)) :
    (w.table t).Intact (w'.table t) := by
  have hself := h.tables t
  cases hfrozen : (w.table t).frozen with
  | true =>
    rw [run_bind_error (run_checkMutable_frozen change hfrozen)] at hi
    cases hi
    exact hself.intact_of_eq (table_congr rfl rfl t)
  | false =>
    rcases Nat.eq_zero_or_pos (w.table t).holds with hz | hz
    · rw [run_bind_ok (run_checkMutable change hfrozen hz)] at hi
      exact hf hfrozen hz hi
    · rw [run_bind_error (run_checkMutable_held change hfrozen hz)] at hi
      cases hi
      exact hself.intact_of_eq (table_congr rfl rfl t)

/-! ## Hosts that leave a table alone -/

/-- The worlds that may come about while an operation on `t` hashes and compares keys, if nothing happens to `t` but
that it is held, let go and grown. -/
inductive World.Amid (host : Host ε) (t : TableId kind) (w : World ε) : World ε → Prop
  | start : Amid host t w w
  | outside {u v : World ε} : Amid host t w u → Alike u v → Amid host t w v
  | held {u : World ε} {k : KeyKind} (d : TableId k) : Amid host t w u → Amid host t w (u.held d)
  | letGo {u : World ε} {k : KeyKind} (d : TableId k) : Amid host t w u → Amid host t w (u.letGo d)
  | grown {u : World ε} (block : Option Block) : Amid host t w u → Amid host t w (u.modifyTable t (·.grown block))
  | display {u : World ε} (i : HostId) : Amid host t w u → Amid host t w (host.display i u).2
  | hash {u : World ε} (i : HostId) : Amid host t w u → Amid host t w (host.hash i u).2
  | equal {u : World ε} (a b : HostId) (depth : Int) : Amid host t w u → Amid host t w (host.equal a b depth u).2

/-- Whenever it is asked meanwhile, the host leaves the table as it finds it. -/
structure Host.Spares (I : Inventory ε) (host : Host ε) (t : TableId kind) (w : World ε) : Prop where
  display : ∀ u, Amid host t w u → u.Sound I → ∀ i, (host.display i u).2.table t = u.table t
  hash : ∀ u, Amid host t w u → u.Sound I → ∀ i, (host.hash i u).2.table t = u.table t
  equal : ∀ u, Amid host t w u → u.Sound I → ∀ a b depth, (host.equal a b depth u).2.table t = u.table t

/-- A run of steps from one of these worlds to another, which leaves the table as it was. -/
structure World.Spared (I : Inventory ε) (host : Host ε) (t : TableId kind) (w u v : World ε) : Prop where
  evolves : Evolves I 0 u v
  amid : Amid host t w u → Amid host t w v ∧ v.table t = u.table t

/-- A table that is let go after it was held, and is the same otherwise, is as before. -/
theorem letGo_of_held {k : KeyKind} (d : TableId k) (hd : u.Has d) (hin : Within (u.held d) v)
    (heq : v.table t = (u.held d).table t) : (v.letGo d).table t = u.table t := by
  by_cases h : (⟨kind, t⟩ : TableRef) = ⟨k, d⟩
  · cases h
    have hv : v.Has t := hin.has t ((has_modifyTable t _ t).2 hd)
    rw [World.letGo, table_modifyTable t _ hv, heq, World.held, table_modifyTable t _ hd]
    rfl
  · rw [World.letGo, table_modifyTable_of_ne _ h, heq, World.held, table_modifyTable_of_ne _ h]

instance : BySteps I (Spared I host t w) where
  outside h := ⟨.step (.outside h), fun hu => ⟨hu.outside h, h.table t⟩⟩
  trans h h' := by
    refine ⟨h.evolves.trans h'.evolves, fun hu => ?_⟩
    obtain ⟨hv, heq⟩ := h.amid hu
    obtain ⟨hx, heq'⟩ := h'.amid hv
    exact ⟨hx, heq'.trans heq⟩
  bracket d hd hf h := by
    refine ⟨.bracket d hd hf h.evolves, fun hu => ?_⟩
    obtain ⟨hv, heq⟩ := h.amid (hu.held d)
    exact ⟨hv.letGo d, letGo_of_held d hd h.evolves.within heq⟩
  evolves _ h := h.evolves

/-- Whatever is asked of such a host spares the table. -/
theorem Host.Spares.follows (hs : host.Spares I t w) (hh : host.Respects I) : host.Follows I (Spared I host t w) := by
  refine ⟨fun i h => ⟨hh.display i h (Nat.zero_le _), fun hu => ?_⟩, fun i h => ⟨hh.hash i h (Nat.zero_le _), fun hu => ?_⟩,
    fun a b depth h => ⟨hh.equal a b depth h (Nat.zero_le _), fun hu => ?_⟩⟩
  · exact ⟨hu.display i, hs.display _ hu h i⟩
  · exact ⟨hu.hash i, hs.hash _ hu h i⟩
  · exact ⟨hu.equal a b depth, hs.equal _ hu h a b depth⟩

/-! ## Insertions -/

/-- The table may be changed, in one of the worlds that come about meanwhile. -/
structure World.Ready (host : Host ε) (t : TableId kind) (w u : World ε) : Prop where
  amid : Amid host t w u
  frozen : (u.table t).frozen = false
  holds : (u.table t).holds = 0

theorem World.Ready.spared (h : Ready host t w u) (hs : Spared I host t w u v) : Ready host t w v := by
  obtain ⟨hv, heq⟩ := hs.amid h.amid
  exact ⟨hv, heq ▸ h.frozen, heq ▸ h.holds⟩

section
variable {keying : Keying ε kind.Key} {key : kind.Key} (hk : keying.Respects I) (hf : keying.Follows I (Spared I host t w))
  (h : w.Sound I) (ht : w.Has t) (hkey : w.OwnsKey key)
include hk hf h ht hkey

/-- An insertion goes through worlds in which the table may be changed. -/
theorem steady_spared (hash : UInt32) :
    Steady keying t key hash fun u => Evolves I 0 w u ∧ Ready host t w u := by
  refine (steady_respects hk hash h ht hkey).and (fun he hr => ?_) (fun hr ha => ?_) fun block he hr hmax => ?_
  · exact hr.spared (scan_along hf hash (he.sound h) (he.within.has t ht) (he.within.ownsKey hkey)).ends
  · exact ⟨hr.amid.outside ha, ha.table t ▸ hr.frozen, ha.table t ▸ hr.holds⟩
  · obtain ⟨-, -, -, -, -, hholds, hfrozen⟩ := ((he.sound h).tables t).grown hmax block
    refine ⟨hr.amid.grown block, ?_, ?_⟩
    · rw [table_modifyTable t _ (he.within.has t ht), hfrozen]
      exact hr.frozen
    · rw [table_modifyTable t _ (he.within.has t ht), hholds]
      exact hr.holds

/-- An insertion that fails after its key was hashed leaves the table intact. -/
theorem intact_insertHashed {hash : UInt32} {value : Value} {e : Failure} (he : Evolves I 0 w u)
    (hr : Ready host t w u) (hi : insertHashed keying t key value hash 26 u = (.error e, w')) :
    (u.table t).Intact (w'.table t) := by
  have hJ := steady_spared hk hf h ht hkey hash
  have hsound : ∀ {x : World ε}, Evolves I 0 w x → (x.table t).Sound := fun he => (he.sound h).tables t
  obtain ⟨x, _, ⟨hex, hrx⟩, hrec, hc⟩ := insertHashed_ends hJ value ⟨he, hr⟩
  have hscan := (scan_along hf hash (hex.sound h) (hex.within.has t ht) (hex.within.ownsKey hkey)).ends
  -- wherever the last scan leads, the table is the one that it found
  have hend : ∀ {y z : World ε}, (scan keying t key hash x).2 = y → Alike y z → (u.table t).Intact (z.table t) := by
    intro y z hy hz
    rw [hy] at hscan
    have heq : z.table t = x.table t := (hz.table t).trans (hscan.amid hrx.amid).2
    rw [heq]
    exact (hsound he).intact (hsound hex) hrec (hrx.frozen.trans hr.frozen.symm) (hrx.holds.trans hr.holds.symm)
  rw [hi] at hc
  cases hc with
  | failed hs => exact hend (congrArg Prod.snd hs) (.refl _)
  | frozen hs _ => exact hend (congrArg Prod.snd hs) ⟨rfl, rfl, rfl, rfl⟩
  | held hs _ _ => exact hend (congrArg Prod.snd hs) ⟨rfl, rfl, rfl, rfl⟩
  | refused hs _ _ hz => exact hend (congrArg Prod.snd hs) hz

theorem intact_insert {value : Value} {e : Failure} (hi : insert keying t key value w = (.error e, w')) :
    (w.table t).Intact (w'.table t) := by
  unfold insert at hi
  refine intact_of_checked h hi fun hfrozen hz hi => ?_
  have hhash := hf.hash key h hkey
  have hready : Ready host t w w := ⟨.start, hfrozen, hz⟩
  cases hr : keying.hash key w with
  | mk r u =>
    rw [hr] at hhash
    have heq := (hhash.amid .start).2
    cases r with
    | error e' =>
      rw [run_bind_error hr] at hi
      cases hi
      exact (h.tables t).intact_of_eq heq
    | ok hash =>
      rw [run_bind_ok hr] at hi
      exact heq ▸ intact_insertHashed hk hf h ht hkey hhash.evolves (hready.spared hhash) hi

/-! ## Removals -/

omit hk in
/-- A removal fails only before it writes. -/
theorem intact_erase {e : Failure} (hi : erase keying t key w = (.error e, w')) :
    (w.table t).Intact (w'.table t) := by
  unfold erase at hi
  refine intact_of_checked h hi fun hfrozen hz hi => ?_
  have hfind := (findSlot_along hf h ht hkey).ends
  cases hr : findSlot keying t key w with
  | mk r u =>
    rw [hr] at hfind
    have heq := (hfind.amid .start).2
    cases r with
    | error e' =>
      rw [run_bind_error hr] at hi
      cases hi
      exact (h.tables t).intact_of_eq heq
    | ok found =>
      -- the second check finds the table as the first one did
      rw [run_bind_ok hr, run_bind_ok (run_checkMutable .erase (heq ▸ hfrozen) (heq ▸ hz))] at hi
      cases found <;> cases hi

end

/-- A clearing fails only when it is checked whether it may be done. -/
theorem intact_clear {e : Failure} (h : w.Sound I) (hi : clear t w = (.error e, w')) :
    (w.table t).Intact (w'.table t) := by
  unfold clear at hi
  refine intact_of_checked h hi fun _ _ hi => ?_
  cases hi

/-- **A change that fails leaves the table intact**, whatever the failure and wherever it comes from: in every world,
be it in the middle of other operations, and for every host that leaves the table alone. -/
theorem failed_change_intact (hc : Civil I host) (hw : Midway I w) (ht : w.Has t) {key : kind.Key}
    (hkey : w.OwnsKey key) (hs : host.Spares I t w) :
    (∀ value e w', insert (keyingOf host kind) t key value w = (.error e, w') → (w.table t).Intact (w'.table t)) ∧
    (∀ e w', erase (keyingOf host kind) t key w = (.error e, w') → (w.table t).Intact (w'.table t)) ∧
    ∀ e w', clear t w = (.error e, w') → (w.table t).Intact (w'.table t) := by
  have hk := keyingOf_respects hc.respects kind
  have hf := keyingOf_follows (hs.follows hc.respects) kind
  refine ⟨fun value e w' hi => ?_, fun e w' hi => ?_, fun e w' hi => ?_⟩
  · exact intact_insert hk hf hw.sound ht hkey hi
  · exact intact_erase hf hw.sound ht hkey hi
  · exact intact_clear hw.sound hi

/-! ## A host that gives up -/

/-- A host whose values collide, and that fails when it is asked to compare for the `n`-th time. -/
def weary (n : Nat) : Host Nat where
  typeName _ _ := ascii "weary"
  sameClass _ _ _ := true
  display _ := pure (ascii "weary")
  hash _ := pure 7
  equal a b _ := do
    modify fun w => { w with env := w.env + 1 }
    if (← get).env = n then raise (.reported .runtime (ascii "enough"))
    return a == b
  freeze _ := pure ()

/-- The world after a comparison: one more is counted. -/
theorem snd_equal_weary (n : Nat) (a b : HostId) (depth : Int) (u : World Nat) :
    Alike { u with env := u.env + 1 } ((weary n).equal a b depth u).2 := by
  show Alike _ (((modify fun w => { w with env := w.env + 1 }) >>= fun _ => get >>= fun w => _ : Run Nat Bool) u).2
  rw [run_bind_ok (run_modify _ u), run_bind_ok (run_get _)]
  split
  · exact ⟨rfl, rfl, rfl, rfl⟩
  · exact .refl _

theorem weary_civil (n : Nat) : Civil .nothing (weary n) := by
  refine .intro (fun _ => False) (fun _ h => h.elim) (fun _ _ _ => .refl) (fun _ _ _ => .refl) (fun u a b depth _ => ?_)
    fun _ _ _ => .refl
  exact (Attempts.refl.aside (u.env + 1) rfl (keeps_nothing _ _)).outside (snd_equal_weary n a b depth u)

/-- It never touches a table. -/
theorem weary_spares (n : Nat) {t : TableId kind} (w : World Nat) : (weary n).Spares .nothing t w := by
  refine ⟨fun _ _ _ _ => rfl, fun _ _ _ _ => rfl, fun u _ _ a b depth => ?_⟩
  rw [(snd_equal_weary n a b depth u).table t]
  exact table_congr rfl rfl t

/-- A dict with so many values of the host in it, all of them in one chain. -/
def crowded : Nat → World Nat
  | 0 => ((Operation.newDict 0).run (weary 37) (.unused 0)).2
  | n + 1 => ((@Operation.insert .any ⟨0⟩ (.host ⟨n⟩) (.int 1)).run (weary 37) (crowded n)).2

theorem reachable_crowded : ∀ n, Reachable .nothing (crowded n) ∧ @Has _ (crowded n) .any ⟨0⟩
  | 0 => by
    refine ⟨⟨_, bare_unused 0, .call (weary 37) _ .refl (weary_civil 37) trivial⟩, ?_⟩
    decide +kernel
  | n + 1 => by
    obtain ⟨hr, ht⟩ := reachable_crowded n
    have hv : (@Operation.insert .any ⟨0⟩ (.host ⟨n⟩) (.int 1)).Valid (crowded n) := ⟨open_any.2 ht, trivial, trivial⟩
    have he := Operation.evolves (weary_civil 37).respects hr.sound _ hv
    obtain ⟨w₀, hb, ha⟩ := hr
    exact ⟨⟨w₀, hb, ha.call (weary 37) _ (weary_civil 37) hv⟩, he.within.has _ ht⟩

/-- Eight insertions take 28 comparisons. The ninth scans the chain in vain, with 8 more, grows the table and fails
when it scans the new chain. -/
theorem failed_change_intact_crowded :
    let T := @World.table _ (crowded 8) .any ⟨0⟩
    let r := @insert _ .any (valueKeying (weary 37)) ⟨0⟩ (.host ⟨8⟩) (.int 1) (crowded 8)
    let T' := @World.table _ r.2 .any ⟨0⟩
    r.1 = .error (.raised .runtime) ∧ T.heads = 1 ∧ T'.heads = 2 ∧
    T'.items = (List.range 8).map (fun i => (.host ⟨i⟩, .int 1)) ∧ T.Intact T' := by
  intro T r T'
  have herror : r.1 = .error (.raised .runtime) := by decide +kernel
  obtain ⟨hr, ht⟩ := reachable_crowded 8
  have hkey : @OwnsKey _ (crowded 8) .any (.host ⟨8⟩) := trivial
  have hfailed : ∀ {p : Except Failure Unit × World Nat} {e : Failure}, p.1 = .error e → p = (.error e, p.2) :=
    fun he => Prod.ext he rfl
  refine ⟨herror, by decide +kernel, by decide +kernel, by decide +kernel, ?_⟩
  exact (failed_change_intact (weary_civil 37) ⟨_, hr, .start⟩ ht hkey (weary_spares 37 _)).1 (.int 1) _ r.2
    (hfailed herror)

end ValueCore
