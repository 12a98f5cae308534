import ValueCore.Proofs.Operations.Freezing
import ValueCore.Proofs.Reachable

/-!
# Freezing goes all the way

Freezing a value freezes every container that it leads to through keys, values and fields, and between operations
nothing is frozen but what is frozen all the way (`deep_freeze_closed`). That holds for containers that are shared or
contain themselves, and whatever the host does when it is asked: it may change and freeze anything then.

Two things are asked of a host besides that it is civil, and of all hosts that its answers call on (`CivilWith`). It
freezes each of its values when it is told to (`Host.Obliging`). And the freezes in which it is told so are not cut short
(`Host.Uncut`). A search could be kept going for ever by a host that puts a new container into the one that is searched next,
each time that it is asked. A host that changes and freezes what there is makes no containers, so freezing with it ends
(`Host.MakesNone.frugal`); so it does with a host that makes fewer than are allowed for (`Host.Frugal.uncut`).

If a host may fail to freeze some of its values then what is frozen is so all the way unless it leads to one of these
(`Attempts.closes`).
-/

namespace ValueCore

open World
open Relation (ReflTransGen)

variable {ε : Type} {I : Inventory ε} {F : HostId → Prop} {w w' v : World ε} {kind : KeyKind} {t : TableId kind}
  {host : Host ε} {P : Host ε → Prop}

/-! ## Hosts -/

/-- A civil host that is `P`, as are all hosts that its answers call on. -/
inductive CivilWith (I : Inventory ε) (P : Host ε → Prop) : Host ε → Prop
  | intro {host : Host ε} (inner : Host ε → Prop) : P host → (∀ h, inner h → CivilWith I P h) →
    (∀ w i, w.Sound I → Attempts I inner w (host.display i w).2) →
    (∀ w i, w.Sound I → Attempts I inner w (host.hash i w).2) →
    (∀ w a b depth, w.Sound I → Attempts I inner w (host.equal a b depth w).2) →
    (∀ w i, w.Sound I → Attempts I inner w (host.freeze i w).2) → CivilWith I P host

theorem CivilWith.civil (hc : CivilWith I P host) : Civil I host := by
  induction hc with
  | intro inner _ _ hdisplay hhash hequal hfreeze ih => exact .intro inner ih hdisplay hhash hequal hfreeze

/-- The host does not fail to freeze its values. -/
def Host.Obliging (I : Inventory ε) (host : Host ε) : Prop :=
  ∀ (i : HostId) (w : World ε), w.Sound I → (host.freeze i w).1 = .ok ()

/-- While a value is being frozen fewer containers are made than the fuel of the search allows for. -/
def Host.Frugal (I : Inventory ε) (host : Host ε) : Prop :=
  ∀ (x : Value) (w : World ε), w.Sound I → w.Owns x → (ValueCore.freeze host x w).2.containers < w.containers + 4096

theorem Host.Frugal.uncut (hh : host.Frugal I) : host.Uncut I :=
  fun x w h hx hcut => Nat.not_le_of_lt (hh x w h hx) hcut.2

/-- No new containers are made. -/
def World.MakesNone (I : Inventory ε) (w w' : World ε) : Prop := Evolves I 0 w w' ∧ w'.containers = w.containers

theorem containers_modifyTable (t : TableId kind) (f : Table kind.Key → Table kind.Key) :
    (w.modifyTable t f).containers = w.containers := by
  cases kind <;> simp [World.containers, World.modifyTable]

instance : Changing I 0 (MakesNone I) where
  outside h := ⟨.step (.outside h), by rw [World.containers, h.anyTables, h.structs, World.containers]⟩
  trans h h' := ⟨h.1.trans h'.1, h'.2.trans h.2⟩
  bracket t ht hf h := ⟨.bracket t ht hf h.1, by
    rw [World.letGo, containers_modifyTable, h.2, World.held, containers_modifyTable]⟩
  evolves _ h := h.1
  change h := ⟨.step h.step, containers_modifyTable _ _⟩

/-- What the host does when it is asked makes no containers. -/
structure Host.MakesNone (I : Inventory ε) (host : Host ε) : Prop where
  follows : host.Follows I (World.MakesNone I)
  freeze : ∀ (i : HostId) {w : World ε}, w.Sound I → World.MakesNone I w (host.freeze i w).2

theorem Host.MakesNone.freezes (hh : host.MakesNone I) : host.Freezes I (World.MakesNone I) :=
  ⟨fun i h => hh.freeze i h, fun t _ ht => ⟨.step (.freeze t ht), containers_modifyTable t _⟩⟩

/-- Operations that change and freeze tables make no containers. -/
theorem Operation.makes_none (hh : host.MakesNone I) (h : w.Sound I) (op : Operation) (hv : op.Valid w)
    (hm : ¬ op.Makes) : World.MakesNone I w (op.run host w).2 := by
  by_cases hc : op.Changes
  · exact op.changes hh.follows h hv hc hm
  · exact op.along hh.follows h hv hc (op.freezes_along hh.freezes h hv)

/-- A host that makes no containers is frugal. -/
theorem Host.MakesNone.frugal (hh : host.MakesNone I) : host.Frugal I := by
  intro x w h hx
  rw [(freeze_handles hh.freezes x h hx).ends.2]
  omega

/-! ## Operations and attempts -/

/-- **Every operation leaves closed what it freezes.** -/
theorem Operation.closes (hh : host.Closes I F) (h : w.Sound I) (op : Operation) (hv : op.Valid w) :
    World.Closes I F w (op.run host w).2 := by
  by_cases hc : op.Changes
  · exact op.works hh.follows h (Nat.zero_le _) hv hc
  · refine op.along hh.follows h hv hc fun hf => ?_
    cases op with
    | freezeTable t => exact freezeDeep_closes hh h hv
    | freeze x =>
      obtain ⟨he, ho⟩ := freeze_stiffens hh ((ValueCore.freeze host x w).2.containers + 1) h hv
      exact ⟨he, fun _ => (ho.resolve_left not_cutShort).1⟩
    | _ => exact hf.elim

theorem Attempts.closes {hosts : Host ε → Prop} (hi : ∀ h, hosts h → h.Closes I F ∧ h.Respects I) (h : w.Sound I)
    (ha : Attempts I hosts w w') : World.Closes I F w w' := by
  have hsound : ∀ {u : World ε}, World.Closes I F w u → u.Sound I := fun hc => hc.1.sound h
  induction ha with
  | refl => exact Course.outside (.refl w)
  | call host op _ hh hv ih => exact Course.trans ih (op.closes (hi host hh).1 (hsound ih) hv)
  | outside _ hv ih => exact Course.trans ih (Course.outside hv)
  | @aside v e _ he hk ih =>
    refine Course.trans ih (closes_of_unfrozen (.step (.aside e he hk)) fun u hf => ?_)
    rwa [show ({ v with env := e } : World ε).table u = v.table u from table_congr rfl rfl u] at hf
  | @start v v' _ t c e _ ht hc he hk ih =>
    refine Course.trans ih (closes_of_unfrozen (start_evolves ht hc he hk) fun u hf => ?_)
    rw [show ({ v' with env := e } : World ε).table u = v'.table u from table_congr rfl rfl u] at hf
    rcases run_start hc with ⟨_, rfl⟩ | ⟨_, rfl⟩
    · exact hf
    · rwa [frozen_held t ht] at hf
  | @finish v _ c e _ he hk ih =>
    refine Course.trans ih (closes_of_unfrozen (finish_evolves (hsound ih) he hk) fun u hf => ?_)
    rw [show ({ (c.finish v).2 with env := e } : World ε).table u = ((c.finish v).2).table u from
      table_congr rfl rfl u] at hf
    rcases run_finish c v with ⟨_, hr⟩ | ⟨hh, hr⟩
    · rwa [hr] at hf
    · rw [hh, if_pos rfl] at he
      rwa [hr, frozen_letGo c.table ((hsound ih).has_of_cursor he)] at hf

/-- What hosts do that freeze all their values but those of `F`. The induction is on how deep calls nest. -/
theorem CivilWith.closes (hP : ∀ h, P h → h.Uncut I ∧ ∀ (i : HostId) (w : World ε), w.Sound I → ¬ F i →
    (h.freeze i w).1 = .ok ()) (hc : CivilWith I P host) : host.Closes I F := by
  induction hc with
  | intro inner hp hinner hdisplay hhash hequal hfreeze ih =>
    have hi : ∀ h, inner h → h.Closes I F ∧ h.Respects I := fun h hh => ⟨ih h hh, (hinner h hh).civil.respects⟩
    exact ⟨⟨fun i h => (hdisplay _ i h).closes hi h, fun i h => (hhash _ i h).closes hi h,
      fun a b depth h => (hequal _ a b depth h).closes hi h⟩, fun i h => (hfreeze _ i h).closes hi h,
      fun i h => (hP _ hp).2 i _ h, (hP _ hp).1⟩

/-- **Between operations nothing is left to be closed.** -/
theorem Attempts.closed {hosts : Host ε → Prop} (hi : ∀ h, hosts h → h.Closes I F ∧ h.Respects I) (hb : w.Bare I)
    (ha : Attempts I hosts w w') : w'.Closed F fun _ => False := by
  refine (ha.closes hi hb.sound).2 hb.sound _ fun r hf => ?_
  rw [hb.table_eq] at hf
  cases hf

/-- What is in a frozen container that is not spoiled is frozen, and not spoiled. -/
theorem World.Closed.inside {x y : Value} (hc : w.Closed F fun _ => False) (hf : w.Frozen x) (hs : ¬ w.Spoiled F x)
    (hin : w.Inside x y) : w.Frozen y ∧ ¬ w.Spoiled F y := by
  have hall : ∀ r : TableRef, (w.table r.2).frozen = true → w.Content r.2 y →
      (∀ z, w.Content r.2 z → ¬ w.Spoiled F z) → w.Frozen y ∧ ¬ w.Spoiled F y := fun r hf hy hnot =>
    ⟨((hc r hf).resolve_left id).resolve_left (fun ⟨z, hz, hsp⟩ => hnot z hz hsp) y hy, hnot y hy⟩
  cases hin with
  | @key t item hm => exact hall ⟨.any, t⟩ hf ⟨item, hm, .inl rfl⟩ fun z hz hsp => hs (.dict hf hz hsp)
  | @value t item hm => exact hall ⟨.any, t⟩ hf ⟨item, hm, .inr rfl⟩ fun z hz hsp => hs (.dict hf hz hsp)
  | @field s item hm => exact hall ⟨.text, _⟩ hf ⟨item, hm, rfl⟩ fun z hz hsp => hs (.struct hf hz hsp)

theorem World.Closed.reaches {x y : Value} (hc : w.Closed F fun _ => False) (hf : w.Frozen x) (hs : ¬ w.Spoiled F x)
    (hr : ReflTransGen w.Inside x y) : w.Frozen y ∧ ¬ w.Spoiled F y := by
  induction hr with
  | refl => exact ⟨hf, hs⟩
  | tail _ hin ih => exact hc.inside ih.1 ih.2 hin

/-! ## Everything is frozen -/

/-- Freezes with the host are not cut short, and it is obliging. -/
def Host.Willing (I : Inventory ε) (host : Host ε) : Prop := host.Uncut I ∧ host.Obliging I

theorem CivilWith.willing (hc : CivilWith I (Host.Willing I) host) : host.Closes I (fun _ => False) ∧ host.Respects I :=
  ⟨hc.closes fun _ hw => ⟨hw.1, fun i w h _ => hw.2 i w h⟩, hc.civil.respects⟩

/-- If the host does not fail then freezing does not. -/
theorem freeze_returns {x : Value} (hh : host.Closes I fun _ => False) (h : w.Sound I) (hx : w.Owns x) :
    (freeze host x w).1 = .ok () ∧ (freeze host x w).2.Frozen x ∧
      ∀ P, w.Closed (fun _ => False) P → (freeze host x w).2.Closed (fun _ => False) P := by
  obtain ⟨_, ho⟩ := freeze_stiffens hh ((freeze host x w).2.containers + 1) h hx
  obtain ⟨hcloses, hend⟩ := ho.resolve_left not_cutShort
  obtain ⟨hok, hf⟩ := hend.resolve_right fun ⟨_, _, hs⟩ => not_spoiled hs
  exact ⟨hok, hf x rfl, hcloses⟩

/-- **Freezing goes all the way.** It does not fail, whatever the containers look like and whatever the host does, and then
all is frozen that the value leads to. Between operations, all that is in a frozen table, as a key or as a value, is frozen
as well. That freezes are not cut short is no matter of chance: with hosts that change and freeze what there is, and make
nothing new, none is. -/
theorem deep_freeze_closed {w₀ : World ε} (hb : w₀.Bare I) (ha : Attempts I (CivilWith I (Host.Willing I)) w₀ w) :
    (∀ (host : Host ε) (x : Value), CivilWith I (Host.Willing I) host → w.Owns x →
      (freeze host x w).1 = .ok () ∧ ∀ y, ReflTransGen (freeze host x w).2.Inside x y → (freeze host x w).2.Frozen y) ∧
    (∀ {kind : KeyKind} (t : TableId kind), (w.table t).frozen = true → ∀ y, w.Content t y → w.Frozen y) ∧
    (∀ host : Host ε, host.MakesNone I → host.Frugal I) ∧
    (∀ host : Host ε, host.Frugal I → host.Obliging I → host.Willing I) := by
  have hi : ∀ h, CivilWith I (Host.Willing I) h → h.Closes I (fun _ => False) ∧ h.Respects I := fun _ hc => hc.willing
  have hclosed := ha.closed hi hb
  have h : w.Sound I := (ha.closes hi hb.sound).1.sound hb.sound
  refine ⟨fun host x hc hx => ?_, fun t hf y hy => ?_, fun _ hm => hm.frugal, fun _ hfrugal ho => ⟨hfrugal.uncut, ho⟩⟩
  · obtain ⟨hok, hf, hcloses⟩ := freeze_returns (hi host hc).1 h hx
    exact ⟨hok, fun y hy => ((hcloses _ hclosed).reaches hf not_spoiled hy).1⟩
  · exact ((hclosed ⟨_, t⟩ hf).resolve_left id).resolve_left (fun ⟨_, _, hs⟩ => not_spoiled hs) y hy

/-! ## A host that freezes what is still to come -/

theorem mute_makesNone : (mute : Host ε).MakesNone I :=
  ⟨⟨fun _ _ => ⟨.refl, rfl⟩, fun _ _ => ⟨.refl, rfl⟩, fun _ _ _ _ => ⟨.refl, rfl⟩⟩, fun _ _ _ => ⟨.refl, rfl⟩⟩

theorem mute_civilWith (hP : P mute) : CivilWith I P mute :=
  .intro (fun _ => False) hP (fun _ h => h.elim) (fun _ _ _ => .refl) (fun _ _ _ => .refl) (fun _ _ _ _ _ => .refl)
    fun _ _ _ => .refl

theorem mute_willing : CivilWith I (Host.Willing I) (mute : Host ε) :=
  mute_civilWith ⟨mute_makesNone.frugal.uncut, fun _ _ _ => rfl⟩

/-- Whenever it is told to freeze a value, the host puts its table into itself, if that is still possible, and freezes
it. -/
def knotter : Host (Option (TableId .any)) :=
  { mute with freeze := fun _ w => (.ok (), w.env.elim w fun t => inTurn [.insert t (.int 0) (.dict t), .freezeTable t] w) }

theorem knotted_valid {t : TableId .any} {w : World (Option (TableId .any))} (h : w.Sound oneTable) (ht : w.Has t) :
    ValidInTurn w [.insert t (.int 0) (.dict t), .freezeTable t] := by
  have hins : (Operation.insert t (.int 0) (.dict t)).Valid w := ⟨open_any.2 ht, trivial, ht⟩
  exact ⟨hins, (Operation.makes_none mute_makesNone h _ hins id).1.within.has t ht, trivial⟩

theorem knotter_has {t : TableId .any} {w : World (Option (TableId .any))} (h : w.Sound oneTable) (he : w.env = some t) :
    w.Has t := (h.kept.tables ⟨.any, t⟩ (by simp [oneTable, he])).1

theorem knotter_makesNone : knotter.MakesNone oneTable := by
  refine ⟨⟨fun _ _ => ⟨.refl, rfl⟩, fun _ _ => ⟨.refl, rfl⟩, fun _ _ _ _ => ⟨.refl, rfl⟩⟩, fun i w h => ?_⟩
  show World.MakesNone oneTable w (w.env.elim w fun t => inTurn [.insert t (.int 0) (.dict t), .freezeTable t] w)
  cases he : w.env with
  | none => exact ⟨.refl, rfl⟩
  | some t =>
    obtain ⟨hins, hfreeze, _⟩ := knotted_valid h (knotter_has h he)
    have hfirst := Operation.makes_none mute_makesNone h _ hins id
    exact Course.trans hfirst (Operation.makes_none mute_makesNone (hfirst.1.sound h) _ hfreeze id)

theorem knotter_willing : CivilWith oneTable (Host.Willing oneTable) knotter := by
  refine .intro (CivilWith oneTable (Host.Willing oneTable)) ⟨knotter_makesNone.frugal.uncut, fun _ _ _ => rfl⟩ (fun _ h => h)
    (fun _ _ _ => .refl) (fun _ _ _ => .refl) (fun _ _ _ _ _ => .refl) fun w _ h => ?_
  show Attempts _ _ w (w.env.elim w fun t => inTurn [.insert t (.int 0) (.dict t), .freezeTable t] w)
  cases he : w.env with
  | none => exact .refl
  | some t => exact Attempts.refl.inTurn mute_willing (knotted_valid h (knotter_has h he))

/-- A dict with another one in it that contains it in turn, with a value of the host and with a struct, which has the
table of the host in a field and a dict as constructor. -/
def tangle : List Operation :=
  [.newDict 0, .newDict 0, .newDict 0, .newDict 0, .createStruct (.dict ⟨3⟩) [(ascii "a", .dict ⟨2⟩)],
    @Operation.insert .any ⟨0⟩ (.int 1) (.dict ⟨1⟩), @Operation.insert .any ⟨0⟩ (.int 2) (.host ⟨0⟩),
    @Operation.insert .any ⟨0⟩ (.int 3) (.struct ⟨0⟩), @Operation.insert .any ⟨1⟩ (.int 1) (.dict ⟨0⟩)]

def tangled : World (Option (TableId .any)) := { inTurn tangle untouched with env := some ⟨2⟩ }

/-- The host keeps no cursors, whatever table it has in mind. -/
theorem oneTable_cursors (e e' : Option (TableId .any)) : oneTable.cursors e = oneTable.cursors e' := rfl

theorem attempts_tangled : Attempts oneTable (CivilWith oneTable (Host.Willing oneTable)) untouched tangled := by
  have hvalid : ValidInTurn untouched tangle := by decide +kernel
  refine (Attempts.refl.inTurn mute_willing hvalid).aside (some ⟨2⟩) (oneTable_cursors _ _)
    ⟨fun v hv => (List.not_mem_nil hv).elim, fun r hr => ?_⟩
  obtain rfl : r = ⟨.any, ⟨2⟩⟩ := by simpa [oneTable] using hr
  have hhas : @Has _ (inTurn tangle untouched) .any ⟨2⟩ := by decide +kernel
  exact open_any.2 hhas

/-- The table of the host is frozen as it is, with itself in it, before the search comes to it by way of the struct. The
constructor of the struct is not frozen. -/
theorem deep_freeze_closed_tangled :
    (freeze knotter (.dict ⟨0⟩) tangled).1 = .ok () ∧
    (@World.table _ (freeze knotter (.dict ⟨0⟩) tangled).2 .any ⟨2⟩).items = [(.int 0, .dict ⟨2⟩)] ∧
    (freeze knotter (.dict ⟨0⟩) tangled).2.Frozen (.dict ⟨1⟩) ∧
    (freeze knotter (.dict ⟨0⟩) tangled).2.Frozen (.dict ⟨2⟩) ∧
    ¬ (freeze knotter (.dict ⟨0⟩) tangled).2.Frozen (.dict ⟨3⟩) := by
  obtain ⟨hok, hreach⟩ := (deep_freeze_closed bare_untouched attempts_tangled).1 knotter (.dict ⟨0⟩) knotter_willing
    (by decide +kernel)
  have hone : (freeze knotter (.dict ⟨0⟩) tangled).2.Inside (.dict ⟨0⟩) (.dict ⟨1⟩) :=
    @Inside.value _ _ ⟨0⟩ (.int 1, .dict ⟨1⟩) (by decide +kernel)
  have hstruct : (freeze knotter (.dict ⟨0⟩) tangled).2.Inside (.dict ⟨0⟩) (.struct ⟨0⟩) :=
    @Inside.value _ _ ⟨0⟩ (.int 3, .struct ⟨0⟩) (by decide +kernel)
  have htwo : (freeze knotter (.dict ⟨0⟩) tangled).2.Inside (.struct ⟨0⟩) (.dict ⟨2⟩) :=
    @Inside.field _ _ ⟨0⟩ (ascii "a", .dict ⟨2⟩) (by decide +kernel)
  exact ⟨hok, by decide +kernel, hreach _ (.single hone), hreach _ (.tail (.single hstruct) htwo), by decide +kernel⟩

end ValueCore
