import ValueCore.Proofs.Operations.Values
import ValueCore.Proofs.World.Containers
import ValueCore.Proofs.World.Plain

/-!
# Freezing, as a search

Freezing sets the flag of a container before it visits what is in it, and turns back at containers that have the flag.
So at any moment there are containers with the flag whose contents are not frozen yet: those that are being visited,
further up or by some other search that the host has started in between. When a search ends, it has left behind none that
it did not find (`Closed`).

A search fails if the host fails to freeze one of its values. Then a container that leads to this value, through frozen
containers, is as good as it gets: it is `Spoiled` for good, since nothing in it can change any more.

| after | what is left | |
| --- | --- | --- |
| a search that returned | its value is frozen | `freezeAt_stiffens` |
| a search that failed | its value is spoiled | |
| either | no container with the flag, besides those that were there, has contents that are not frozen unless it is spoiled | |
-/

namespace ValueCore

open World

variable {ε : Type} {I : Inventory ε} {F : HostId → Prop} {w w' v : World ε} {kind : KeyKind} {t : TableId kind}
  {host : Host ε} {x : Value}

namespace World

/-- The value leads through frozen containers to one of the host's values that the host may fail to freeze (`F`). -/
inductive Spoiled (F : HostId → Prop) (w : World ε) : Value → Prop
  | host {i : HostId} : F i → Spoiled F w (.host i)
  | dict {t : TableId .any} {x : Value} : (w.table t).frozen = true → w.Content t x → Spoiled F w x →
    Spoiled F w (.dict t)
  | struct {s : StructId} {x : Value} : (w.table (w.struct s).fields).frozen = true →
    w.Content (w.struct s).fields x → Spoiled F w x → Spoiled F w (.struct s)

/-- Apart from the tables `P`, what is in a frozen table is frozen, unless something in it is spoiled. -/
def Closed (F : HostId → Prop) (P : TableRef → Prop) (w : World ε) : Prop :=
  ∀ r : TableRef, (w.table r.2).frozen = true →
    P r ∨ (∃ x, w.Content r.2 x ∧ w.Spoiled F x) ∨ ∀ x, w.Content r.2 x → w.Frozen x

theorem Spoiled.hardens (hs : w.Spoiled F x) (hw : Hardens w w') (h : w.Sound I) : w.Owns x → w'.Spoiled F x := by
  induction hs with
  | host hi => exact fun _ => .host hi
  | dict hf hc _ ih => exact fun _ => .dict (hw.frozen _ hf) (hc.congr (hw.items_eq _ hf)) (ih (hc.owns h))
  | @struct s x hf hc _ ih =>
    intro hx
    have heq := hw.struct_eq s hx
    refine .struct (x := x) ?_ ?_ (ih (hc.owns h))
    · rw [heq]
      exact hw.frozen _ hf
    · rw [heq]
      exact hc.congr (hw.items_eq _ hf)

/-- If nothing may fail then nothing is spoiled. -/
theorem not_spoiled (hs : w.Spoiled (fun _ => False) x) : False := by
  induction hs with
  | host hi => exact hi
  | dict _ _ _ ih => exact ih
  | struct _ _ _ ih => exact ih

variable {P : TableRef → Prop}

/-- Where nothing new is frozen there is nothing new to be closed. -/
theorem Closed.hardens (hc : w.Closed F P) (hw : Hardens w w') (h : w.Sound I)
    (hnew : ∀ {kind : KeyKind} (t : TableId kind), (w'.table t).frozen = true → (w.table t).frozen = true) :
    w'.Closed F P := by
  intro r hf
  have hold := hnew r.2 hf
  have hback : ∀ x, w'.Content r.2 x → w.Content r.2 x := fun x hx => hx.congr (hw.items_eq r.2 hold).symm
  rcases hc r hold with hp | ⟨x, hx, hs⟩ | hall
  · exact .inl hp
  · exact .inr (.inl ⟨x, hx.congr (hw.items_eq r.2 hold), hs.hardens hw h (hx.owns h)⟩)
  · exact .inr (.inr fun x hx => (hall x (hback x hx)).hardens hw ((hback x hx).owns h))

/-- From `w` to `w'` by steps that leave nothing behind that would have to be closed. -/
def Closes (I : Inventory ε) (F : HostId → Prop) (w w' : World ε) : Prop :=
  Evolves I 0 w w' ∧ (w.Sound I → ∀ P, w.Closed F P → w'.Closed F P)

theorem closes_of_unfrozen (he : Evolves I 0 w w')
    (hnew : ∀ {kind : KeyKind} (t : TableId kind), (w'.table t).frozen = true → (w.table t).frozen = true) :
    Closes I F w w' := ⟨he, fun h _ hc => hc.hardens (he.hardens h) h hnew⟩

instance : Working I 0 (Closes I F) where
  outside ha := closes_of_unfrozen (.step (.outside ha)) fun t hf => by rwa [ha.table t] at hf
  trans h h' := ⟨h.1.trans h'.1, fun hw P hc => h'.2 (h.1.sound hw) P (h.2 hw P hc)⟩
  bracket {w w'} _ t ht hf h := by
    have hw' : w'.Has t := h.1.within.has t ((has_modifyTable t _ t).2 ht)
    refine ⟨.bracket t ht hf h.1, fun hs P hc => ?_⟩
    have hheld : (w.held t).Closed F P := by
      have hh : Hardens w (w.held t) :=
        ⟨fun u hf => (frozen_held t ht u).trans hf, fun u _ => (same_held t ht u).kept.items_eq,
          fun s _ => by simp only [struct, World.held, structs_modifyTable]⟩
      exact hc.hardens hh hs fun u hf => (frozen_held t ht u).symm.trans hf
    have hs' : w'.Sound I := h.1.sound (hs.held t ht)
    exact (h.2 (hs.held t ht) P hheld).hardens (hardens_letGo t hw') hs' fun u hf => (frozen_letGo t hw' u).symm.trans hf
  evolves _ h := h.1
  work h := closes_of_unfrozen (.step h.step) fun t hf => h.unfrozen t hf

end World

/-! ## What a search does -/

/-- The fuel is used up, among so many containers. -/
def CutShort (bound : Nat) (out : Except Failure Unit × World ε) : Prop :=
  out.1 = .error .exhausted ∧ bound ≤ out.2.containers

/-- There are not more containers than there are. -/
theorem not_cutShort {out : Except Failure Unit × World ε} : ¬ CutShort (out.2.containers + 1) out :=
  fun ⟨_, h⟩ => Nat.not_succ_le_self _ h

/-- No freeze needs more fuel than it has. -/
def Host.Uncut (I : Inventory ε) (host : Host ε) : Prop :=
  ∀ (x : Value) (w : World ε), w.Sound I → w.Owns x → ¬ CutShort (freezingFuel w) (ValueCore.freeze host x w)

/-- What the host does when it is asked keeps to `Closes`, it freezes all of its values but those of `F`, and freezing is
not cut short. -/
structure Host.Closes (I : Inventory ε) (F : HostId → Prop) (host : Host ε) : Prop where
  follows : host.Follows I (World.Closes I F)
  freeze : ∀ {w : World ε} (i : HostId), w.Sound I → World.Closes I F w (host.freeze i w).2
  returns : ∀ {w : World ε} (i : HostId), w.Sound I → ¬ F i → (host.freeze i w).1 = .ok ()
  uncut : host.Uncut I

/-- Freezing the values `C` leaves nothing behind, and freezes them all unless one of them is spoiled. Or it is cut short,
and then there are as many containers as its bound tells. -/
structure Stiffens (I : Inventory ε) (F : HostId → Prop) (bound : Nat) (C : Value → Prop) (w : World ε)
    (act : Run ε Unit) : Prop where
  evolves : Evolves I 0 w (act w).2
  outcome : CutShort bound (act w) ∨ (∀ P, w.Closed F P → (act w).2.Closed F P) ∧
    ((act w).1 = .ok () ∧ (∀ x, C x → (act w).2.Frozen x) ∨ ∃ x, C x ∧ (act w).2.Spoiled F x)

namespace Stiffens

variable {bound : Nat} {C C' : Value → Prop} {act : Run ε Unit}

theorem pure (hf : ∀ x, C x → w.Frozen x) : Stiffens I F bound C w (pure ()) :=
  ⟨.refl, .inr ⟨fun _ hc => hc, .inl ⟨rfl, hf⟩⟩⟩

/-- One after the other. -/
theorem bind {f : Run ε Unit} (h : w.Sound I) (hown : ∀ x, C x → w.Owns x) (hx : Stiffens I F bound C w act)
    (hf : ∀ v, act w = (.ok (), v) → v.Sound I → Stiffens I F bound C' v f) :
    Stiffens I F bound (fun x => C x ∨ C' x) w (act >>= fun _ => f) := by
  obtain ⟨he, ho⟩ := hx
  cases hr : act w with
  | mk r v =>
    rw [hr] at he ho
    have hs := he.sound h
    have hin : ∀ x, C x → v.Owns x := fun x hx => he.within.owns (hown x hx)
    cases r with
    | error e =>
      refine ⟨by rw [run_bind_error hr]; exact he, ?_⟩
      rw [run_bind_error hr]
      rcases ho with ⟨hend, hb⟩ | ⟨hc, ⟨hok, _⟩ | ⟨x, hx, hsp⟩⟩
      · cases hend
        exact .inl ⟨rfl, hb⟩
      · cases hok
      · exact .inr ⟨hc, .inr ⟨x, .inl hx, hsp⟩⟩
    | ok a =>
      obtain ⟨he', ho'⟩ := hf v hr hs
      refine ⟨by rw [run_bind_ok hr]; exact he.trans he', ?_⟩
      rw [run_bind_ok hr]
      have hard := he'.hardens hs
      rcases ho with ⟨hend, _⟩ | ⟨hc, hfirst⟩
      · cases hend
      rcases ho' with hcut | ⟨hc', hsecond⟩
      · exact .inl hcut
      refine .inr ⟨fun P hp => hc' P (hc P hp), ?_⟩
      rcases hfirst with ⟨_, hall⟩ | ⟨x, hx, hsp⟩
      · rcases hsecond with ⟨hok, hall'⟩ | ⟨x, hx, hsp⟩
        · exact .inl ⟨hok, fun x hx => hx.elim (fun hx => (hall x hx).hardens hard (hin x hx)) (hall' x)⟩
        · exact .inr ⟨x, .inr hx, hsp⟩
      · exact .inr ⟨x, .inl hx, hsp.hardens hard hs (hin x hx)⟩

theorem weaken (h : Stiffens I F bound C w act) (hc : ∀ x, C x ↔ C' x) : Stiffens I F bound C' w act := by
  obtain rfl : C = C' := funext fun x => propext (hc x)
  exact h

/-- For each member of a list. -/
theorem forM {α : Type} {f : α → Run ε Unit} {C : α → Value → Prop} : ∀ (l : List α) {w : World ε}, w.Sound I →
    (∀ a ∈ l, ∀ x, C a x → w.Owns x) →
    (∀ a ∈ l, ∀ v, Evolves I 0 w v → v.Sound I → Stiffens I F bound (C a) v (f a)) →
    Stiffens I F bound (fun x => ∃ a ∈ l, C a x) w (l.forM f)
  | [], _, _, _, _ => .pure fun x ⟨_, hm, _⟩ => (List.not_mem_nil hm).elim
  | a :: l, w, h, hown, hf => by
    have ha := hf a List.mem_cons_self w .refl h
    have hrest : ∀ v, f a w = (.ok (), v) → v.Sound I → Stiffens I F bound (fun x => ∃ b ∈ l, C b x) v (l.forM f) := by
      intro v hr hs
      have he : Evolves I 0 w v := by
        have := ha.evolves
        rwa [hr] at this
      refine forM l hs (fun b hb x hx => he.within.owns (hown b (List.mem_cons_of_mem _ hb) x hx)) fun b hb u hu hsu => ?_
      exact hf b (List.mem_cons_of_mem _ hb) u (he.trans hu) hsu
    exact (ha.bind h (hown a List.mem_cons_self) hrest).weaken fun x => by simp

end Stiffens

/-- What freezing an item comes to. -/
def ItemContent : {kind : KeyKind} → kind.Key × Value → Value → Prop
  | .any, item, x => x = item.1 ∨ x = item.2
  | .text, item, x => x = item.2

theorem content_iff : w.Content t x ↔ ∃ item ∈ (w.table t).items, ItemContent item x := by
  cases kind <;> exact Iff.rfl

theorem ItemContent.owns {item : kind.Key × Value} (hx : ItemContent item x) (h : w.OwnsKey item.1 ∧ w.Owns item.2) :
    w.Owns x := by
  cases kind with
  | any => exact hx.elim (fun he => he ▸ h.1) fun he => he ▸ h.2
  | text =>
    obtain rfl : x = item.2 := hx
    exact h.2

/-- The search turns back at a table that has the flag. -/
theorem run_freezeTable_of_frozen (f : kind.Key → Run ε Unit) (g : Value → Run ε Unit)
    (hf : (w.table t).frozen = true) : freezeTable f g t w = (.ok (), w) := by
  unfold freezeTable
  rw [run_bind_ok (run_readTable t w), hf]
  rfl

/-- Otherwise it sets the flag and goes through the items. -/
theorem run_freezeTable (f : kind.Key → Run ε Unit) (g : Value → Run ε Unit) (hf : (w.table t).frozen = false) :
    freezeTable f g t w = (w.table t).items.forM (fun item => f item.1 >>= fun _ => g item.2)
      (w.modifyTable t fun t => { t with frozen := true }) := by
  unfold freezeTable
  rw [run_bind_ok (run_readTable t w)]
  simp only [hf, Bool.false_eq_true, if_false]
  exact run_bind_ok (run_updateTable t _ w) _

/-- **A table is frozen together with what is in it.** While the search is in it, it is the one table that may have the
flag and contents that are not frozen. -/
theorem freezeTable_stiffens {f : kind.Key → Run ε Unit} {g : Value → Run ε Unit} {b : Nat}
    (h : w.Sound I) (ht : w.Has t)
    (hitem : (w.table t).frozen = false → ∀ item ∈ (w.table t).items, ∀ u, Evolves I 0 w u → (u.table t).frozen = true →
      u.Sound I → Stiffens I F b (ItemContent item) u (f item.1 >>= fun _ => g item.2)) :
    Evolves I 0 w (freezeTable f g t w).2 ∧
    (CutShort b (freezeTable f g t w) ∨
      (∀ P, w.Closed F P → (freezeTable f g t w).2.Closed F P) ∧
      ((freezeTable f g t w).2.table t).frozen = true ∧
      ((freezeTable f g t w).1 = .ok () ∨
        ∃ x, (freezeTable f g t w).2.Content t x ∧
          (freezeTable f g t w).2.Spoiled F x)) := by
  cases hf : (w.table t).frozen with
  | true =>
    rw [run_freezeTable_of_frozen f g hf]
    exact ⟨.refl, .inr ⟨fun _ hc => hc, hf, .inl rfl⟩⟩
  | false =>
    let u := w.modifyTable t fun t => { t with frozen := true }
    have hstep : Evolves I 0 w u := .step (.freeze t ht)
    have hu : u.Sound I := hstep.sound h
    have htable : u.table t = { w.table t with frozen := true } := table_modifyTable t _ ht
    have hfrozen : (u.table t).frozen = true := by rw [htable]
    have hitems : (u.table t).items = (w.table t).items := by rw [htable, Table.items_flags]
    rw [run_freezeTable f g hf]
    have hloop := @Stiffens.forM _ I F b _ _ ItemContent (w.table t).items _ hu
      (fun item hm x hx => hx.owns (hstep.within.ownsItems (h.items t) item hm)) fun item hm z hz hsz =>
        hitem hf item hm z (hstep.trans hz) ((hz.hardens hu).frozen t hfrozen) hsz
    obtain ⟨he, ho⟩ := hloop
    generalize ((w.table t).items.forM fun item => f item.1 >>= fun _ => g item.2) u = out at he ho ⊢
    obtain ⟨r, z⟩ := out
    dsimp only at he ho ⊢
    refine ⟨hstep.trans he, ho.imp_right fun ⟨hclosed, hend⟩ => ?_⟩
    have hard := he.hardens hu
    have hcontent : ∀ x, z.Content t x ↔ ∃ item ∈ (w.table t).items, ItemContent item x := fun x => by
      rw [content_iff, hard.items_eq t hfrozen, hitems]
    have hopen : ∀ P, w.Closed F P → z.Closed F fun r => P r ∨ r = ⟨kind, t⟩ := by
      intro P hp
      refine hclosed _ fun r hr => ?_
      by_cases hty : r = ⟨kind, t⟩
      · exact .inl (.inr hty)
      -- elsewhere the flag of `t` only adds to what is frozen
      have hold : u.table r.2 = w.table r.2 := table_modifyTable_of_ne _ hty
      have hweak := hstep.hardens h
      have hback : ∀ x, u.Content r.2 x → w.Content r.2 x := fun x hx => hx.congr (by rw [hold])
      rcases hp r (hold ▸ hr) with hp | ⟨x, hx, hs⟩ | hall
      · exact .inl (.inl hp)
      · exact .inr (.inl ⟨x, hx.congr (by rw [hold]), hs.hardens hweak h (hx.owns h)⟩)
      · exact .inr (.inr fun x hx => (hall x (hback x hx)).hardens hweak ((hback x hx).owns h))
    refine ⟨fun P hp => ?_, hard.frozen t hfrozen, hend.imp (·.1) fun ⟨x, hx, hs⟩ => ⟨x, (hcontent x).2 hx, hs⟩⟩
    intro r hr
    rcases hopen P hp r hr with (hpr | rfl) | hrest
    · exact .inl hpr
    · rcases hend with ⟨_, hall⟩ | ⟨x, hx, hs⟩
      · exact .inr (.inr fun x hx => hall x ((hcontent x).1 hx))
      · exact .inr (.inl ⟨x, (hcontent x).2 hx, hs⟩)
    · exact .inr hrest

theorem freezeAt_dict (fuel : Nat) (t : TableId .any) :
    freezeAt host (fuel + 1) (.dict t) = freezeTable (freezeAt host fuel) (freezeAt host fuel) t := rfl

theorem run_freezeAt_struct (fuel : Nat) (s : StructId) (w : World ε) : freezeAt host (fuel + 1) (.struct s) w =
    freezeTable (fun _ => pure ()) (freezeAt host fuel) (w.struct s).fields w := rfl

theorem freezeAt_host (fuel : Nat) (i : HostId) : freezeAt host (fuel + 1) (.host i) = host.freeze i := rfl

/-- **A search ends with its value frozen, or spoiled.** The induction is on the fuel, of which there is enough as the
containers on the way are different ones. -/
theorem freezeAt_stiffens (hh : host.Closes I F) : ∀ (fuel : Nat) {path : List Value} {x : Value} {w : World ε},
    w.Sound I → w.Owns x → w.Path path → (∀ y ∈ path, w.Frozen y) →
      Stiffens I F (fuel + path.length) (· = x) w (freezeAt host fuel x)
  | 0, path, _, _, _, _, hp, _ => ⟨.refl, .inl ⟨rfl, by rw [Nat.zero_add]; exact hp.length_le⟩⟩
  | fuel + 1, path, x, w, h, hx, hp, hfrozen => by
    -- what is in a container is searched with the container on the path
    have hdeeper : ∀ {u : World ε} {y : Value}, x.Container → ¬ w.Frozen x → Evolves I 0 w u → u.Frozen x →
        u.Sound I → u.Owns y → Stiffens I F (fuel + 1 + path.length) (· = y) u (freezeAt host fuel y) := by
      intro u y hc hnew he hxf hs hy
      have hpath : u.Path (x :: path) := (hp.cons hc hx fun hm => hnew (hfrozen x hm)).within he.within
      have hall : ∀ z ∈ x :: path, u.Frozen z := List.forall_mem_cons.2
        ⟨hxf, fun z hz => (hfrozen z hz).hardens (he.hardens h) (hp.owns z hz)⟩
      have := freezeAt_stiffens hh fuel hs hy hpath hall
      rwa [List.length_cons, ← Nat.add_assoc, Nat.add_right_comm] at this
    have hdone : w.Frozen x → Stiffens I F (fuel + 1 + path.length) (· = x) w (pure ()) :=
      fun hf => .pure fun z hz => hz ▸ hf
    cases x with
    | none | bool | int | float | str => exact hdone trivial
    | host i =>
      rw [freezeAt_host]
      have hc := hh.freeze i h
      refine ⟨hc.1, .inr ⟨hc.2 h, ?_⟩⟩
      by_cases hi : F i
      · exact .inr ⟨_, rfl, .host hi⟩
      · exact .inl ⟨hh.returns i h hi, fun z hz => by rw [hz]; trivial⟩
    | dict t =>
      rw [freezeAt_dict]
      have hsearch : (w.table t).frozen = false → ∀ item ∈ (w.table t).items, ∀ u, Evolves I 0 w u →
          (u.table t).frozen = true → u.Sound I → Stiffens I F (fuel + 1 + path.length) (@ItemContent .any item) u
            (freezeAt host fuel item.1 >>= fun _ => freezeAt host fuel item.2) := by
        intro hf item hm u hu hft hs
        have hown := hu.within.ownsItems (h.items t) item hm
        have hnew : ¬ w.Frozen (.dict t) := fun hft => Bool.false_ne_true (hf.symm.trans hft)
        have hkey := hdeeper (y := item.1) trivial hnew hu hft hs hown.1
        refine hkey.bind hs (fun z hz => hz ▸ hown.1) fun v hr hv => ?_
        have he := hkey.evolves
        rw [hr] at he
        exact hdeeper trivial hnew (hu.trans he) ((he.hardens hs).frozen t hft) hv (he.within.owns hown.2)
      have ht : w.Has t := hx
      obtain ⟨he, ho⟩ := freezeTable_stiffens h ht hsearch
      refine ⟨he, ho.imp_right fun ⟨hc, hft, hend⟩ => ⟨hc, ?_⟩⟩
      rcases hend with hok | ⟨z, hz, hsp⟩
      · exact .inl ⟨hok, fun z hz => by rw [hz]; exact hft⟩
      · exact .inr ⟨_, rfl, .dict hft hz hsp⟩
    | struct s =>
      have hst : ∀ {u : World ε}, Evolves I 0 w u → u.struct s = w.struct s := fun he => he.within.struct_eq s hx
      have hsearch : (w.table (w.struct s).fields).frozen = false → ∀ item ∈ (w.table (w.struct s).fields).items,
          ∀ u, Evolves I 0 w u → (u.table (w.struct s).fields).frozen = true → u.Sound I →
            Stiffens I F (fuel + 1 + path.length) (@ItemContent .text item) u
              ((pure () : Run ε Unit) >>= fun _ => freezeAt host fuel item.2) := by
        intro hf item hm u hu hft hs
        have hnew : ¬ w.Frozen (.struct s) := fun hft => Bool.false_ne_true (hf.symm.trans hft)
        have hsf : u.Frozen (.struct s) := by
          show (u.table (u.struct s).fields).frozen = true
          rw [hst hu]
          exact hft
        exact hdeeper trivial hnew hu hsf hs (hu.within.ownsItems (h.items _) item hm).2
      obtain ⟨he, ho⟩ := freezeTable_stiffens (f := fun _ => pure ()) h (h.fields s hx) hsearch
      rw [← run_freezeAt_struct] at he ho
      rw [← hst he] at ho
      refine ⟨he, ho.imp_right fun ⟨hc, hft, hend⟩ => ⟨hc, ?_⟩⟩
      rcases hend with hok | ⟨z, hz, hsp⟩
      · exact .inl ⟨hok, fun z hz => by rw [hz]; exact hft⟩
      · exact .inr ⟨_, rfl, .struct hft hz hsp⟩

/-- With all the fuel there is, the bound is out of reach. -/
theorem freeze_stiffens (hh : host.Closes I F) (bound : Nat) (h : w.Sound I) (hx : w.Owns x) :
    Stiffens I F bound (· = x) w (freeze host x) := by
  have hrun : freeze host x w = freezeAt host (freezingFuel w) x w := run_bind_ok (run_get w) _
  obtain ⟨he, ho⟩ := freezeAt_stiffens hh (freezingFuel w) h hx (.nil w) nofun
  rw [← hrun] at he ho
  exact ⟨he, .inr (ho.resolve_left (hh.uncut x w h hx))⟩

theorem freezeDeep_closes (hh : host.Closes I F) (h : w.Sound I) (ht : w.Has t) :
    World.Closes I F w (freezeDeep host t w).2 := by
  have hvalue : ∀ {u : World ε} {y : Value} (bound : Nat), u.Sound I → u.Owns y →
      Stiffens I F bound (· = y) u (freeze host y) := fun bound hs hy => freeze_stiffens hh bound hs hy
  cases kind with
  | any =>
    obtain ⟨he, ho⟩ := freezeTable_stiffens (F := F) (b := (freezeDeep host t w).2.containers + 1)
      (f := freeze host) (g := freeze host) h ht fun _ item hm u hu _ hs => by
        have hown := hu.within.ownsItems (h.items t) item hm
        have hk := hvalue ((freezeDeep host t w).2.containers + 1) hs hown.1
        refine hk.bind hs (fun z hz => hz ▸ hown.1) fun v hr hv => ?_
        have hev := hk.evolves
        rw [hr] at hev
        exact hvalue _ hv (hev.within.owns hown.2)
    exact ⟨he, fun _ => (ho.resolve_left not_cutShort).1⟩
  | text =>
    obtain ⟨he, ho⟩ := freezeTable_stiffens (F := F) (b := (freezeDeep host t w).2.containers + 1)
      (f := fun _ => pure ()) (g := freeze host) h ht fun _ item hm u hu _ hs =>
        hvalue _ hs (hu.within.ownsItems (h.items t) item hm).2
    exact ⟨he, fun _ => (ho.resolve_left not_cutShort).1⟩

/-! ## Without values of the host -/

theorem same_freezeTable {f : kind.Key → Run ε Unit} {g : Value → Run ε Unit} (hitem : ∀ item ∈ (w.table t).items,
    ∀ v, SameStores w v → SameStores v (f item.1 v).2 ∧ ∀ u, SameStores w u → SameStores u (g item.2 u).2) :
    SameStores w (freezeTable f g t w).2 := by
  cases hf : (w.table t).frozen with
  | true =>
    rw [run_freezeTable_of_frozen f g hf]
    exact .refl w
  | false =>
    rw [run_freezeTable f g hf]
    have hflag : SameStores w (w.modifyTable t fun t => { t with frozen := true }) := .flags t _ fun _ => .flags _ _ _
    refine hflag.trans (same_drift.forM _ fun item hm v hv => ?_)
    obtain ⟨hfirst, hsecond⟩ := hitem item hm v (hflag.trans hv)
    exact same_drift.bind hfirst fun _ u _ hu => hsecond u ((hflag.trans hv).trans hu)

theorem same_freezeAt {C : Value → Prop} (hC : w.Region C) : ∀ (fuel : Nat) (x : Value) (v : World ε), C x →
    SameStores w v → SameStores v (freezeAt host fuel x v).2
  | 0, _, v, _, _ => .refl v
  | fuel + 1, x, v, hx, hv => by
    have hdeeper := fun y u hy hu => same_freezeAt hC fuel y u hy hu
    cases x with
    | none | bool | int | float | str => exact .refl v
    | host i => exact (hC.plain hx).elim
    | dict t =>
      rw [freezeAt_dict]
      refine same_freezeTable fun item hm u hu => ?_
      obtain ⟨hkey, hvalue⟩ := hC.item hx item (hv.items t ▸ hm)
      exact ⟨hdeeper _ u hkey (hv.trans hu), fun z hz => hdeeper _ z hvalue (hv.trans hz)⟩
    | struct s =>
      rw [run_freezeAt_struct]
      refine same_freezeTable fun item hm u _ => ⟨.refl u, fun z hz => hdeeper _ z ?_ (hv.trans hz)⟩
      rw [hv.struct s, hv.items] at hm
      exact hC.field hx item hm

/-- **Freezing sets flags**, if there are no values of the host in what is frozen. -/
theorem same_freeze {C : Value → Prop} (hC : w.Region C) (hx : C x) : SameStores w (freeze host x w).2 :=
  same_freezeAt hC _ x w hx (.refl w)

end ValueCore
