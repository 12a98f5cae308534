import ValueCore.Proofs.Reports.Tables
import ValueCore.Proofs.World.Plain

/-!
# Worlds on the way

A computation is a function on worlds, and what it does to a world and undoes again cannot be told from that. A `Program`
for it says of which steps it is made, and so through which worlds it goes (`Program.worlds`): one before and one after each
step, the last of them being the one in which it ends.

Reading holds tables that are not frozen, adds views, and takes and gives back memory. Every world on the way is then the
first one but for that (`World.Lends`): a table that is frozen is not touched at any time. This is said of programs, one
rule for each way to put them together (`Program.OnlyReads`). It is required of plain worlds only, and as reading leads from
plain worlds to plain worlds it can be said of what is done next, wherever that starts.
-/

namespace ValueCore

open World

variable {ε α β : Type} {discreet : Prop} {w v u : World ε} {n : Nat} {kind : KeyKind}

/-! ## What reading leaves -/

namespace World

/-- The same world but for how often tables are held that are not frozen, and for all views but the first `n`. Memory and
messages do not matter. -/
structure Lends (n : Nat) (w v : World ε) : Prop where
  tables : ∀ {kind : KeyKind} (t : TableId kind), v.table t = { w.table t with holds := (v.table t).holds }
  frozen : ∀ {kind : KeyKind} (t : TableId kind), (w.table t).frozen = true → v.table t = w.table t
  anyTables : v.anyTables.size = w.anyTables.size
  textTables : v.textTables.size = w.textTables.size
  structs : v.structs = w.structs
  views : ∀ i < n, v.views[i]? = w.views[i]?
  env : v.env = w.env

namespace Lends

theorem of_alike (h : Alike w v) (hviews : ∀ i < n, v.views[i]? = w.views[i]?) : w.Lends n v where
  tables t := by rw [h.table t]
  frozen t _ := h.table t
  anyTables := by rw [h.anyTables]
  textTables := by rw [h.textTables]
  structs := h.structs
  views := hviews
  env := h.env

theorem refl (n : Nat) (w : World ε) : w.Lends n w := .of_alike (.refl w) fun _ _ => rfl

theorem frozen_eq (h : w.Lends n v) (t : TableId kind) : (v.table t).frozen = (w.table t).frozen := by rw [h.tables t]

theorem trans (h : w.Lends n v) (h' : v.Lends n u) : w.Lends n u where
  tables t := by rw [h'.tables t, h.tables t]
  frozen t hf := (h'.frozen t ((h.frozen_eq t).trans hf)).trans (h.frozen t hf)
  anyTables := h'.anyTables.trans h.anyTables
  textTables := h'.textTables.trans h.textTables
  structs := h'.structs.trans h.structs
  views i hi := (h'.views i hi).trans (h.views i hi)
  env := h'.env.trans h.env

theorem same (h : w.Lends n v) : SameStores w v := by
  refine ⟨fun t => ?_, h.structs⟩
  rw [h.tables t]
  exact .flags _ _ _

/-- Holding a table that is not frozen, or letting go of it. -/
theorem counting (n : Nat) {t : TableId kind} (hf : (w.table t).frozen = false) (count : Nat → Nat) :
    w.Lends n (w.modifyTable t fun T => { T with holds := count T.holds }) := by
  refine ⟨fun {k} t' => ?_, fun {k} t' hf' => ?_, ?_, ?_, structs_modifyTable t _, fun i _ => ?_, env_modifyTable t _⟩
  · by_cases ht : w.Has t
    · exact table_modifyTable_cases t _ ht (P := fun u T => T = { w.table u with holds := T.holds }) rfl (fun _ _ => rfl) t'
    · rw [table_modifyTable_of_not_has _ ht]
  · refine table_modifyTable_of_ne _ fun he => ?_
    cases he
    rw [hf] at hf'
    cases hf'
  · cases kind
    · exact Array.size_modify
    · rfl
  · cases kind
    · rfl
    · exact Array.size_modify
  · cases kind <;> rfl

theorem memory (n : Nat) (w : World ε) (memory : Memory) : w.Lends n { w with memory } :=
  .of_alike ⟨rfl, rfl, rfl, rfl⟩ fun _ _ => rfl

theorem freed (n : Nat) (w : World ε) (b : Option Block) (bytes : Nat) : w.Lends n (w.freed b bytes) := memory n w _

theorem newTrail (n : Nat) (w : World ε) : w.Lends n w.newTrail := .of_alike (alike_newTrail w) fun _ _ => rfl

theorem offTrail (n : Nat) (w : World ε) (outer : Option Trail) : w.Lends n (w.offTrail outer) := by
  refine .of_alike (alike_offTrail w outer) fun _ _ => ?_
  unfold World.offTrail
  cases w.trail <;> rfl

theorem said (n : Nat) (w : World ε) (text : Bytes) : w.Lends n (w.saying text) :=
  .of_alike ⟨rfl, rfl, rfl, rfl⟩ fun _ _ => rfl

theorem modifyView {v : ViewId} (hv : n ≤ v.index) (w : World ε) (f : View → View) : w.Lends n (w.modifyView v f) := by
  refine .of_alike ⟨rfl, rfl, rfl, rfl⟩ fun i hi => ?_
  have hne : v.index ≠ i := by omega
  simp [World.modifyView, Array.getElem?_modify, hne]

theorem addView (hn : n ≤ w.views.size) : w.Lends n w.addView.2 := by
  refine .of_alike ⟨rfl, rfl, rfl, rfl⟩ fun i hi => ?_
  have hne : i ≠ w.views.size := by omega
  simp [World.addView, Array.getElem?_push, hne]

theorem dropView {v : ViewId} (hv : n ≤ v.index) (w : World ε) : w.Lends n (w.dropView v) :=
  ((freed n w _ _).trans (freed n _ _ _)).trans (modifyView hv _ _)

end Lends

end World

/-! ## The way of a run -/

namespace Program

/-- The worlds that a run goes through. -/
def worlds : {α : Type} → {act : Run ε α} → Program discreet act → World ε → List (World ε)
  | _, _, .pure _, w => [w]
  | _, _, .read _ p, w => (p w).worlds w
  | _, _, .quiet f _, w => [w, (f w).2]
  | _, _, .say text, w => [w, w.saying (clip text.untilNul)]
  | _, _, .raise f, w => [w, w.saying f.message]
  | _, _, .stop _ _, w => [w]
  | _, _, @bind _ _ _ _ act _ p q, w => p.worlds w ++ match act w with
    | (.ok a, v) => (q a).worlds v
    | (.error _, _) => []
  | _, _, @protect _ _ _ act p, w => p.worlds w ++ [(ValueCore.protect act w).2]
  | _, _, @caught _ _ _ _ act _ _ p q _ r, w => p.worlds w ++ match ValueCore.protect act w with
    | (.ok (.ok a), v) => v :: (q a).worlds v
    | (.ok (.error status), v) => v :: (r status v.message).worlds v
    | (.error _, v) => [v]
  | _, _, @settled _ _ _ _ _ whole _ _ _ _ _ p, w => p.worlds w ++ [(whole w).2]

/-- The way begins in the world in which the run starts. -/
theorem head?_worlds {act : Run ε α} (p : Program discreet act) (w : World ε) : (p.worlds w).head? = some w := by
  induction p generalizing w with
  | pure _ | quiet _ _ | say _ | raise _ | stop _ _ => rfl
  | read _ _ ih => exact ih w w
  | bind _ _ ih _ | protect _ ih | caught _ _ _ _ ih _ _ | settled _ _ _ _ _ _ ih =>
    unfold worlds
    rw [List.head?_append, ih]
    rfl

/-- It ends in the one in which the run ends. -/
theorem getLast?_worlds {act : Run ε α} (p : Program discreet act) (w : World ε) :
    (p.worlds w).getLast? = some (act w).2 := by
  induction p generalizing w with
  | pure _ | quiet _ _ | say _ | raise _ | stop _ _ => rfl
  | read _ _ ih => exact ih w w
  | @bind _ _ act k _ _ ih ih' =>
    unfold worlds
    rw [run_bind, List.getLast?_append]
    have h := ih w
    cases hr : act w with
    | mk r v =>
      rw [hr] at h
      cases r with
      | ok a =>
        dsimp only
        rw [ih' a v]
        rfl
      | error e => exact h
  | protect _ _ | settled _ _ _ _ _ _ _ =>
    unfold worlds
    rw [List.getLast?_append]
    rfl
  | @caught _ _ act k failed _ _ hfailed _ _ ih' ih'' =>
    unfold worlds
    rw [run_bind, List.getLast?_append]
    cases hr : ValueCore.protect act w with
    | mk r v =>
      rcases r with e | status | a
      · rfl
      · dsimp only
        rw [List.getLast?_cons, ih'' status v.message v, hfailed]
        rfl
      · dsimp only
        rw [List.getLast?_cons, ih' a v]
        rfl

theorem end_mem_worlds {act : Run ε α} (p : Program discreet act) (w : World ε) : (act w).2 ∈ p.worlds w :=
  List.mem_of_getLast? (p.getLast?_worlds w)

/-! ## Programs that only read -/

/-- All that the run does to tables that are there, and to the first `n` views, is to hold tables that are not frozen; if
there are no values of the host. -/
def OnlyReads (n : Nat) {act : Run ε α} (p : Program discreet act) (w : World ε) : Prop :=
  w.Plain → ∀ v ∈ p.worlds w, w.Lends n v

namespace OnlyReads

section
variable {act : Run ε α} {p : Program discreet act}

theorem ends (h : p.OnlyReads n w) (hw : w.Plain) : w.Lends n (act w).2 := h hw _ (p.end_mem_worlds w)

theorem of_plain (h : w.Plain → p.OnlyReads n w) : p.OnlyReads n w := fun hw => h hw hw

theorem pure (a : α) : (Program.pure a : Program discreet (Pure.pure a : Run ε α)).OnlyReads n w := by
  intro _ v hv
  cases List.mem_singleton.1 hv
  exact .refl n w

theorem stop {e : Failure} {he : ∀ status, e ≠ .raised status} :
    (Program.stop e he : Program discreet (throw e : Run ε α)).OnlyReads n w := by
  intro _ v hv
  cases List.mem_singleton.1 hv
  exact .refl n w

theorem raise (f : Fault) : (Program.raise f : Program discreet (ValueCore.raise f : Run ε α)).OnlyReads n w := by
  intro _ v hv
  rcases List.mem_pair.1 hv with rfl | rfl
  · exact .refl n v
  · exact .said n w _

theorem read {k : World ε → Run ε β} {hk : discreet → ∀ w text, k (w.saying text) = k w}
    {q : ∀ w, Program discreet (k w)} (h : (q w).OnlyReads n w) : (Program.read hk q).OnlyReads n w := h

theorem quiet {f : World ε → α × World ε} {hf : ∀ w text, f (w.saying text) = ((f w).1, (f w).2.saying text)}
    (h : w.Lends n (f w).2) : (Program.quiet f hf : Program discreet (modifyGet f)).OnlyReads n w := by
  intro _ v hv
  rcases List.mem_pair.1 hv with rfl | rfl
  · exact .refl n v
  · exact h

/-- What comes next is looked at in the world in which it starts. -/
theorem bind {k : α → Run ε β} {q : ∀ a, Program discreet (k a)} (h : p.OnlyReads n w)
    (hq : ∀ a v, act w = (.ok a, v) → w.Lends n v → (q a).OnlyReads n v) : (Program.bind p q).OnlyReads n w := by
  intro hw u hu
  unfold worlds at hu
  rcases List.mem_append.1 hu with hu | hu
  · exact h hw u hu
  · have hend := h.ends hw
    cases hr : act w with
    | mk r v =>
      rw [hr] at hu hend
      cases r with
      | error e => cases hu
      | ok a => exact hend.trans (hq a v hr hend (hw.same hend.same) u hu)

theorem settled {whole : Run ε β} {kept : α → World ε → β × World ε} {dropped : World ε → World ε}
    {hkept : ∀ a w text, kept a (w.saying text) = ((kept a w).1, (kept a w).2.saying text)}
    {hdropped : ∀ w text, dropped (w.saying text) = (dropped w).saying text}
    {hwhole : ∀ w, whole w = match act w with
      | (.ok a, v) => (.ok (kept a v).1, (kept a v).2)
      | (.error e, v) => (.error e, dropped v)}
    (h : p.OnlyReads n w) (hk : ∀ a v, w.Lends n v → w.Lends n (kept a v).2)
    (hd : ∀ v, w.Lends n v → w.Lends n (dropped v)) :
    (Program.settled kept dropped hkept hdropped hwhole p).OnlyReads n w := by
  intro hw u hu
  rcases List.mem_append.1 hu with hu | hu
  · exact h hw u hu
  · rw [List.mem_singleton.1 hu, hwhole]
    have hend := h.ends hw
    cases hr : act w with
    | mk r v =>
      rw [hr] at hend
      cases r with
      | error e => exact hd v hend
      | ok a => exact hk a v hend

/-- After a protected call, whatever came of it. -/
theorem caught {k : Except Status α → Run ε β} {failed : Status → Bytes → Run ε β}
    {q : ∀ a, Program discreet (k (.ok a))} {hk : ∀ status, k (.error status) = get >>= fun w => failed status w.message}
    {r : ∀ status text, Program discreet (failed status text)} (h : p.OnlyReads n w)
    (hq : ∀ a v, w.Lends n v → (q a).OnlyReads n v) (hr : ∀ status text v, w.Lends n v → (r status text).OnlyReads n v) :
    (Program.caught p q hk r).OnlyReads n w := by
  intro hw u hu
  unfold worlds at hu
  rcases List.mem_append.1 hu with hu | hu
  · exact h hw u hu
  · have hend : w.Lends n (ValueCore.protect act w).2 := by
      have hact := h.ends hw
      unfold ValueCore.protect
      generalize act w = out at hact ⊢
      rcases out with ⟨(status | _ | _ | reason) | a, v⟩
      · exact hact
      · exact hact.trans (.said n v _)
      · exact hact
      · exact hact
      · exact hact.trans (.said n v _)
    cases hp : ValueCore.protect act w with
    | mk out v =>
      rw [hp] at hu hend
      rcases out with e | status | a
      · rw [List.mem_singleton.1 hu]
        exact hend
      · rcases List.mem_cons.1 hu with rfl | hu
        · exact hend
        · exact hend.trans (hr status v.message v hend (hw.same hend.same) u hu)
      · rcases List.mem_cons.1 hu with rfl | hu
        · exact hend
        · exact hend.trans (hq a v hend (hw.same hend.same) u hu)

end

end OnlyReads

end Program

end ValueCore
