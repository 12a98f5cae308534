import ValueCore.Proofs.Closing

/-!
# Views stay in order

Every view of every world that a program comes to is in order (`World.Supplied.viewsSound`). A program makes tables, structs
and views and works on them in any way, and may append to a view under whatever hash it gives (`Supplies`). Its answers about
its own values are such programs in turn (`Supplier`). They are asked for in the middle of operations, in worlds where tables,
memory and anything else may be in the making; only the views are as the program left them.

Work on tables leaves the views alone, and so does memory that is taken and given back. Work on one view leaves the others
alone, and the view itself is in order after each of its writes, granted or refused. So what is carried from one world to a
later one is that all views are in order if they were (`KeepsViews`), which everything done to tables upholds as long as the
host does.
-/

namespace ValueCore

open World

variable {ε α β : Type} {w u x : World ε} {v : ViewId} {host : Host ε} {kind : KeyKind}

/-! ## From one world to a later one -/

/-- All views are in order. -/
def World.ViewsSound (w : World ε) : Prop := ∀ v, (w.view v).Sound

/-- If all views are in order then they still are, and none is gone. -/
def KeepsViews (w u : World ε) : Prop := w.ViewsSound → u.ViewsSound ∧ w.views.size ≤ u.views.size

theorem World.ViewsSound.modifyView (h : w.ViewsSound) {f : View → View} (hf : (f (w.view v)).Sound) :
    (w.modifyView v f).ViewsSound := by
  intro z
  by_cases hz : z.index = v.index
  · by_cases hv : v.index < w.views.size
    · have hview : (w.modifyView v f).view z = f (w.view v) := by
        rw [World.view, hz]
        exact view_modifyView hv
      rw [hview]
      exact hf
    · rw [modifyView_of_not_has hv]
      exact h z
  · have hview : (w.modifyView v f).view z = w.view z := getD_modify_of_ne f default hz
    rw [hview]
    exact h z

/-- Work on a view that is there may rely on all views being in order, and on their number. -/
theorem viewsSound_indifferent {n : Nat} (hv : v.index < n) :
    Indifferent v fun u : World ε => u.views.size = n ∧ u.ViewsSound where
  has h := h.1.symm ▸ hv
  sound h := h.2 v
  same h he := ⟨he ▸ h.1, fun z => view_of_views he z ▸ h.2 z⟩
  keep h hs _ _ := ⟨(Array.size_modify ..).trans h.1, h.2.modifyView hs⟩

namespace KeepsViews

theorem of_views (h : u.views = w.views) : KeepsViews w u := fun hw =>
  ⟨fun z => view_of_views h z ▸ hw z, Nat.le_of_eq (congrArg Array.size h).symm⟩

theorem refl (w : World ε) : KeepsViews w w := of_views rfl

theorem trans (h : KeepsViews w u) (h' : KeepsViews u x) : KeepsViews w x := fun hw =>
  ⟨(h' (h hw).1).1, Nat.le_trans (h hw).2 (h' (h hw).1).2⟩

theorem bind {act : Run ε α} {k : α → Run ε β} (h : KeepsViews w (act w).2)
    (hk : ∀ a u, act w = (.ok a, u) → KeepsViews u (k a u).2) : KeepsViews w ((act >>= k) w).2 :=
  holds_bind h fun a u hr hu => hu.trans (hk a u hr)

/-- A view may be written to in ways that leave it in order. -/
theorem modifyView {f : View → View} (hf : (w.view v).Sound → (f (w.view v)).Sound) : KeepsViews w (w.modifyView v f) :=
  fun hw => ⟨hw.modifyView (hf (hw v)), Nat.le_of_eq (Array.size_modify ..).symm⟩

/-- What work on a view leaves that is indifferent to how its entries are stored. -/
theorem of_leaves {P : α → World ε → Prop} {r : Except Failure α × World ε}
    (h : w.ViewsSound → Leaves (fun u : World ε => u.views.size = w.views.size ∧ u.ViewsSound) P r) : KeepsViews w r.2 :=
  fun hw => ⟨(h hw).ends.2, Nat.le_of_eq (h hw).ends.1.symm⟩

end KeepsViews

/-! ## Tables -/

/-- A relation from one world to a later one that holds if the views are the same. -/
structure Viewwise (R : World ε → World ε → Prop) : Prop where
  of_views : ∀ {w u}, u.views = w.views → R w u
  trans : ∀ {w u x}, R w u → R u x → R w x

namespace Viewwise

variable {R : World ε → World ε → Prop} (hR : Viewwise R)
include hR

theorem asks {act : Run ε α} (h : Asks w act) : R w (act w).2 := hR.of_views h.views

theorem bind {act : Run ε α} {k : α → Run ε β} (h : R w (act w).2)
    (hk : ∀ a u, act w = (.ok a, u) → R u (k a u).2) : R w ((act >>= k) w).2 :=
  holds_bind h fun a u hr hu => hR.trans hu (hk a u hr)

theorem modifyTable (t : TableId kind) (f : Table kind.Key → Table kind.Key) (w : World ε) : R w (w.modifyTable t f) :=
  hR.of_views (views_modifyTable t f)

theorem newTable (kind : KeyKind) (hint : UInt32) : Upholds R (newTable kind hint) :=
  fun _ => hR.bind (hR.asks (asks_chooseHeads hint)) fun heads _ _ => hR.bind (hR.asks (asks_allocateHeads kind heads))
    fun _ _ _ => hR.of_views (by cases kind <;> rfl)

theorem resizeTable (t : TableId kind) (hint : UInt32) : Upholds R (resizeTable t hint) :=
  fun _ => hR.bind (hR.asks (asks_chooseHeads hint)) fun heads _ _ => hR.bind (hR.asks (asks_allocateHeads kind heads))
    fun _ _ _ => hR.bind (hR.of_views rfl) fun _ _ _ => hR.bind (hR.of_views rfl) fun _ _ _ => hR.modifyTable t _ _

theorem growTable (t : TableId kind) : Upholds R (growTable t) := by
  refine fun w => hR.bind (hR.of_views rfl) fun table u _ => ?_
  dsimp only
  split
  · exact hR.bind (hR.of_views rfl) fun _ _ hr => by cases hr
  · exact hR.bind (hR.asks (asks_allocateArray _ _)) fun _ _ _ => hR.bind (hR.modifyTable t _ _) fun _ _ _ =>
      hR.of_views rfl

theorem reserveBucket (t : TableId kind) : Upholds R (reserveBucket t) := by
  refine fun w => hR.bind (hR.of_views rfl) fun table u _ => ?_
  have hdouble : ∀ {ask : Run ε (Option Block)}, Asks u ask →
      R u ((ask >>= fun block => updateTable t (·.doubled block)) u).2 := fun hask =>
    hR.bind (hR.asks hask) fun _ _ _ => hR.modifyTable t _ _
  dsimp only
  split
  · split
    · exact hR.bind (hR.of_views rfl) fun _ _ hr => by cases hr
    · cases table.block with
      | none => exact hdouble (asks_allocateArray _ _)
      | some b => exact hdouble (asks_reallocateArray _ _ _ _)
  · exact hR.of_views rfl

theorem place (t : TableId kind) (hash : UInt32) (key : kind.Key) (value : Value) :
    Upholds R (roomFor t hash >>= fun i => updateTable t (·.append i hash key value)) := by
  refine fun w => hR.bind ?_ fun i u _ => hR.modifyTable t _ u
  refine hR.bind (hR.of_views rfl) fun table u _ => ?_
  dsimp only
  cases table.vacancy (table.home hash) with
  | some i => exact hR.of_views rfl
  | none =>
    exact hR.bind (hR.reserveBucket t u) fun _ _ _ => hR.bind (hR.of_views rfl) fun _ _ _ =>
      hR.bind (hR.modifyTable t _ _) fun _ _ _ => hR.of_views rfl

theorem withScratch (count size : Nat) {act : Run ε α} (h : ∀ u : World ε, u.views = w.views → R u (act u).2) :
    R w (withScratch count size act w).2 := by
  have hask := asks_allocateElements (w := w) count size
  refine hR.bind (hR.asks hask) fun block u hr => hR.trans (h u ?_) (hR.of_views rfl)
  rw [← hask.views, hr]

theorem onTrail {act : Run ε α} (h : Upholds R act) : Upholds R (onTrail act) := by
  intro w
  rw [run_onTrail]
  have hstart : R w w.newTrail := hR.of_views rfl
  refine hR.trans (hR.trans hstart (h w.newTrail)) (hR.of_views ?_)
  unfold World.offTrail
  cases (act w.newTrail).2.trail <;> rfl

theorem newObject (bytes : Nat) {make : Run ε α} (h : Upholds R make) : Upholds R (newObject bytes make) := by
  refine fun w => hR.bind (hR.asks (asks_allocate bytes)) fun block u _ => ?_
  have hmake := h u
  unfold madeIn
  generalize make u = out at hmake ⊢
  obtain ⟨e | a, x⟩ := out
  · exact hR.trans hmake (hR.of_views rfl)
  · exact hR.trans hmake (hR.of_views rfl)

/-- **Whatever is done with tables leaves the views alone.** -/
theorem routine : Routine R where
  refl _ := hR.of_views rfl
  trans := hR.trans
  message _ _ := hR.of_views rfl
  write t f _ w := hR.modifyTable t f w
  newTable := hR.newTable
  grow t w _ := hR.growTable t w
  place t hash key value w _ := hR.place t hash key value w
  addStruct _ _ := hR.of_views rfl
  trail := hR.onTrail
  extend length _ := hR.asks (asks_extendTrail length)
  scratch count size _ h _ := hR.withScratch count size fun u _ => h u
  object := hR.newObject

end Viewwise

theorem viewwise_keepsViews : Viewwise (KeepsViews : World ε → World ε → Prop) := ⟨.of_views, .trans⟩

instance routine_keepsViews : Routine (KeepsViews : World ε → World ε → Prop) := viewwise_keepsViews.routine

/-! ## Views -/

theorem resizeView_keepsViews (hv : v.index < w.views.size) (hint : UInt32) : KeepsViews w (resizeView v hint w).2 :=
  .of_leaves fun hw => (viewsSound_indifferent hv).resize ⟨rfl, hw⟩ hint

/-- **Appending to a view**, under whatever hash. -/
theorem appendHashed_keepsViews (hv : v.index < w.views.size) (hash : UInt32) (key : Bytes) (value : Value) :
    KeepsViews w (appendHashed v hash key value w).2 := by
  cases hfind : (w.view v).find hash key with
  | some p =>
    rw [run_appendHashed_found (by rw [hfind]; rfl)]
    exact .of_views rfl
  | none =>
    rw [run_appendHashed_new hfind]
    intro hw
    rcases (viewsSound_indifferent hv).makeRoom ⟨rfl, hw⟩ with ⟨u, hr, hsize, hu⟩ | ⟨_, u, hr, ⟨hsize, hu⟩, hbucket, hentry⟩
    · rw [run_bind_error hr]
      exact ⟨hu, Nat.le_of_eq hsize.symm⟩
    · rw [run_bind_ok hr]
      exact ⟨hu.modifyView ((hu v).push hash key value hbucket hentry), Nat.le_of_eq ((Array.size_modify ..).trans hsize).symm⟩

theorem setEntry_keepsViews (v : ViewId) (key : Bytes) (value : Value) :
    Upholds KeepsViews (setEntry v key value : Run ε _) := by
  refine fun w => .bind (.refl w) fun V u _ => ?_
  cases V.find key.fnv1a key with
  | none => exact .refl u
  | some p => exact .bind (.modifyView fun hs => hs.setValue p value) fun _ _ _ => .refl _

theorem dropView_keepsViews (v : ViewId) (w : World ε) : KeepsViews w (w.dropView v) :=
  .trans (.of_views rfl) (.modifyView fun _ => View.sound_empty)

/-- There is one more view, and it is empty. -/
theorem addView_keepsViews (w : World ε) : KeepsViews w w.addView.2 := by
  refine fun hw => ⟨fun z => ?_, by simp [World.addView]⟩
  by_cases hz : z.index = w.views.size
  · have hview : w.addView.2.view z = View.empty := by
      rw [World.view, hz]
      exact getD_push_self _ _
    rw [hview]
    exact View.sound_empty
  · have hview : w.addView.2.view z = w.view z := getD_push_of_ne _ _ hz
    rw [hview]
    exact hw z

theorem newView_keepsViews (hint : UInt32) : Upholds KeepsViews (newView hint : Run ε _) := by
  intro w
  have hadd := addView_keepsViews w
  have hsize := resizeView_keepsViews (has_addView w) hint
  unfold newView
  dsimp only
  split
  · exact hadd
  · generalize resizeView w.addView.1 hint w.addView.2 = out at hsize ⊢
    obtain ⟨e | _, x⟩ := out
    · exact (hadd.trans hsize).trans (.modifyView fun _ => View.sound_empty)
    · exact hadd.trans hsize

theorem appendKeys_keepsViews (t : TableId .text) : ∀ (keys : List Bytes) {w : World ε}, v.index < w.views.size →
    KeepsViews w (appendKeys v t keys w).2
  | [], w, _ => .refl w
  | key :: keys, w, hv => by
    intro hw
    have hlookup : KeepsViews w (lookup textKeying t key w).2 := Upholds.lookup Upholds.textKeying_upholds t key w
    have hone : KeepsViews w ((lookup textKeying t key >>= fun value => appendEntry v key (value.getD .none)) w).2 :=
      hlookup.bind fun value u hr => by
        rw [hr] at hlookup
        exact appendHashed_keepsViews (Nat.lt_of_lt_of_le hv (hlookup hw).2) _ key _
    refine hone.bind (fun _ u hr => ?_) hw
    rw [hr] at hone
    exact appendKeys_keepsViews t keys (Nat.lt_of_lt_of_le hv (hone hw).2)

theorem orDropView_keepsViews {fill : Run ε Unit} (h : KeepsViews w (fill w).2) : KeepsViews w (orDropView v fill w).2 := by
  unfold orDropView
  generalize fill w = out at h ⊢
  obtain ⟨e | _, x⟩ := out
  · exact h.trans (dropView_keepsViews v x)
  · exact h

theorem viewOfTable_keepsViews (t : TableId .text) : Upholds KeepsViews (viewOfTable t : Run ε _) := by
  refine fun w => .bind (.refl w) fun table u _ => .bind (newView_keepsViews _ u) fun v x hr => ?_
  have hv : v.index < x.views.size := by
    rcases run_newView table.length.toUInt32 u with ⟨y, hy⟩ | ⟨v', y, hy, hshows⟩
    · cases hr.symm.trans hy
    · cases hr.symm.trans hy
      exact hshows.has
  exact orDropView_keepsViews (viewwise_keepsViews.withScratch _ _ fun y hy => appendKeys_keepsViews t _ (hy ▸ hv))

/-! ## Programs -/

/-- **Whatever else is done leaves them in order too.** -/
instance regular_keepsViews : Regular (fun _ => True) (KeepsViews : World ε → World ε → Prop) where
  resizeTable t hint w _ _ := viewwise_keepsViews.resizeTable t hint w
  newView hint w _ := newView_keepsViews hint w
  viewOfTable t w _ := viewOfTable_keepsViews t w
  resizeView _ hint _ hv := resizeView_keepsViews hv hint
  append _ hash key value _ hv := appendHashed_keepsViews hv hash key value
  set := setEntry_keepsViews
  dropView := dropView_keepsViews
  aside _ _ := .of_views rfl
  policy _ _ _ := .of_views rfl

/-- What a program does that may also append to views under hashes that it gives, be it in the middle of an operation. -/
inductive Supplies (hosts : Host ε → Prop) (w : World ε) : World ε → Prop
  | refl : Supplies hosts w w
  | conduct {u x : World ε} : Supplies hosts w u → Conducts (fun _ => True) hosts u x → Supplies hosts w x
  | append {u : World ε} (v : ViewId) (hash : UInt32) (key : Bytes) (value : Value) : Supplies hosts w u →
    v.index < u.views.size → Supplies hosts w (appendHashed v hash key value u).2
  /-- Something was done that leaves the views alone, such as a part of an operation on a table. -/
  | aside {u x : World ε} : Supplies hosts w u → x.views = u.views → Supplies hosts w x

/-- A host whose answers are such programs on top of hosts of this kind. -/
inductive Supplier : Host ε → Prop
  | intro {host : Host ε} (inner : Host ε → Prop) : (∀ h, inner h → Supplier h) →
    (∀ w i, Supplies inner w (host.display i w).2) → (∀ w i, Supplies inner w (host.hash i w).2) →
    (∀ w a b depth, Supplies inner w (host.equal a b depth w).2) →
    (∀ w i, Supplies inner w (host.freeze i w).2) → Supplier host

/-- A world that a program comes to from where it was opened, in the middle of an operation or not. -/
def World.Supplied (w : World ε) : Prop :=
  ∃ (grants : Nat → Nat → Bool) (env : ε) (w₀ : World ε), World.open? grants env = some w₀ ∧ Supplies Supplier w₀ w

theorem Supplies.keepsViews {hosts : Host ε → Prop} (hh : ∀ h, hosts h → h.Upholds KeepsViews)
    (hc : Supplies hosts w u) : KeepsViews w u := by
  induction hc with
  | refl => exact .refl w
  | conduct _ hc ih => exact ih.trans (hc.regular hh)
  | append v hash key value _ hv ih => exact ih.trans (appendHashed_keepsViews hv hash key value)
  | aside _ he ih => exact ih.trans (.of_views he)

/-- The induction is on how deep calls nest. -/
theorem Supplier.upholds (ht : Supplier host) : host.Upholds KeepsViews := by
  induction ht with
  | intro inner _ hdisplay hhash hequal hfreeze ih =>
    exact ⟨fun i w => (hdisplay w i).keepsViews ih, fun i w => (hhash w i).keepsViews ih,
      fun a b depth w => (hequal w a b depth).keepsViews ih, fun i w => (hfreeze w i).keepsViews ih⟩

/-- A world that has just been opened has no views. -/
theorem viewsSound_open {grants : Nat → Nat → Bool} {env : ε} (h : World.open? grants env = some w) : w.ViewsSound := by
  unfold World.open? at h
  generalize (Memory.new grants).request stateBytes = out at h
  obtain ⟨_ | own, memory⟩ := out
  · cases h
  dsimp only at h
  have hbare : (⟨{ memory with total := 0 }, own, [], #[], #[], #[], #[], [], none, env⟩ : World ε).ViewsSound := fun _ =>
    View.sound_empty
  generalize (⟨{ memory with total := 0 }, own, [], #[], #[], #[], #[], [], none, env⟩ : World ε) = bare at h hbare
  have hnamed : KeepsViews bare (protect (newString constructorText) bare).2 :=
    Upholds.protect (Upholds.newString constructorText) bare
  split at h
  · rename_i hp
    cases h
    rw [hp] at hnamed
    exact (hnamed hbare).1
  · cases h

/-- **All views are in order**, in every world that a program comes to. -/
theorem World.Supplied.viewsSound (h : w.Supplied) : w.ViewsSound := by
  obtain ⟨grants, env, w₀, hopen, hw⟩ := h
  exact (hw.keepsViews (fun _ hh => hh.upholds) (viewsSound_open hopen)).1

end ValueCore
