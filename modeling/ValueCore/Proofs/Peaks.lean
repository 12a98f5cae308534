import Mathlib.Logic.Relation
import ValueCore.Proofs.Atomicity
import ValueCore.Proofs.Table.Population

/-!
# Overflow buckets are used again

A chain never gives a bucket back before the table is rebuilt, and does not get another one as long as it has an empty
slot. So how many it has tells how many entries it once held: as many as that takes, and at least one.

That is a statement about what a table has been through, and nothing in the table tells it. So notes are taken on the
side, of all tables, while the world goes on (`World.Event`): how often the table was rebuilt, and how many entries
there were on its chains after each write since (`Past`). `World.Recorded` are the worlds that can be come to with the
notes taken on the way. Every world that a program comes to is one, in the middle of an operation also, and whatever
notes there may be, the chains are as the peaks in them tell (`overflow_storage_reused`).

| what happens to a table | what is noted |
|---|---|
| held, let go, frozen; or nothing | nothing |
| an entry is put in or taken out or gets another value, or the storage is doubled | the entries on its chains |
| it is made, grows, is cleared or is sized | that it was rebuilt, and the entries on its chains from then on |
-/

namespace ValueCore

open World

variable {ε : Type} {I : Inventory ε} {w w' u v : World ε} {kind : KeyKind}

/-! ## Notes -/

/-- What a table has been through: how often it was rebuilt, and how many entries were on its chains then and after each
write since, the latest first. -/
structure Past where
  rebuilds : Nat
  counts : List (Nat → Nat)

namespace Past

/-- The most entries that a chain has held since the table was last rebuilt. -/
def peak (p : Past) (c : Nat) : Nat := (p.counts.map (· c)).foldr max 0

/-- After a write. -/
def noted (p : Past) (population : Nat → Nat) : Past := { p with counts := population :: p.counts }

/-- After a rebuild. -/
def renewed (p : Past) (population : Nat → Nat) : Past := ⟨p.rebuilds + 1, [population]⟩

/-- Of a table that is still to be made. -/
def new (population : Nat → Nat) : Past := ⟨0, [population]⟩

theorem peak_renewed (p : Past) (n : Nat → Nat) : (p.renewed n).peak = n := funext fun c => Nat.max_zero (n c)

theorem peak_new (n : Nat → Nat) : (new n).peak = n := funext fun c => Nat.max_zero (n c)

end Past

namespace Table

variable {κ : Type} {t t' : Table κ} {p p' : Past}

/-- What becomes of a table, and of the notes on it. -/
inductive Noted (t : Table κ) (p : Past) : Table κ → Past → Prop
  | same {t' : Table κ} : SameStore t t' → Noted t p t' p
  | written {t' : Table κ} : Written t t' → Noted t p t' (p.noted t'.population)
  | rebuilt {t' : Table κ} : Rebuilt t t' → Noted t p t' (p.renewed t'.population)

/-- **A write keeps every chain as long as its peak needs.** -/
theorem Written.stretched (h : Sound t) {q : Nat → Nat} (hs : Stretched t q) (hw : Written t t') :
    Stretched t' fun c => max (t'.population c) (q c) := by
  cases hw with
  | overwrite i v =>
    refine hs.shrink rfl (fun _ => rfl) fun j hj => ?_
    rw [Table.overwrite, slot_modifySlot] at hj
    by_cases hji : j = i
    · rw [if_pos hji, Option.isSome_map] at hj
      exact hji ▸ hj
    · rwa [if_neg hji] at hj
  | fill i hash key v _ hi =>
    obtain ⟨hmem, hempty⟩ := vacancy_eq_some hi
    exact hs.fill h.toStorage hmem hempty key v
  | extend hash key v _ hfull hroom => exact hs.extend h.toStorage (fun _ hi => isSome_of_vacancy hfull hi) hroom key v
  | remove i hi =>
    obtain ⟨hheads, -, -, hover, -⟩ := remove_frame (t := t) i
    obtain ⟨e, he⟩ := h.slot_of_mem hi
    refine hs.shrink hheads (fun c => by simp only [chain, hover]) fun j hj => ?_
    have hslot := slot_remove he j
    cases hold : t.slot j with
    | some => rfl
    | none =>
      rw [hslot, hold] at hj
      split at hj
      · cases hj
      · simp at hj
  | double block => exact hs.shrink rfl (fun _ => rfl) fun j hj => by rwa [slot_doubled] at hj

/-- After a rebuild every chain is as long as what is on it needs. -/
theorem Rebuilt.stretched (h : Sound t) (hr : Rebuilt t t') : Stretched t' t'.population := by
  cases hr with
  | grow block hmax => exact stretched_grown h hmax block
  | clear => exact stretched_cleared h
  | size heads block _ _ => exact stretched_resized heads block

/-- **What may happen to a table keeps its chains as the notes tell.** -/
theorem Noted.stretched (h : Sound t) (hs : Stretched t p.peak) (hn : Noted t p t' p') :
    Sound t' ∧ Stretched t' p'.peak := by
  cases hn with
  | same hsame =>
    rw [hsame]
    exact ⟨h.flags _ _, hs⟩
  | written hw => exact ⟨hw.sound h, hw.stretched h hs⟩
  | rebuilt hr =>
    rw [Past.peak_renewed]
    exact ⟨hr.sound h, hr.stretched h⟩

/-- Without a rebuild the chains are the same, and no peak sinks. -/
theorem Noted.kept (hn : Noted t p t' p') :
    p.rebuilds ≤ p'.rebuilds ∧ (p'.rebuilds = p.rebuilds → t'.heads = t.heads ∧ ∀ c, p.peak c ≤ p'.peak c) := by
  cases hn with
  | same hsame => exact ⟨Nat.le_refl _, fun _ => ⟨by rw [hsame], fun c => Nat.le_refl _⟩⟩
  | written hw => exact ⟨Nat.le_refl _, fun _ => ⟨hw.heads_eq, fun c => Nat.le_max_right _ _⟩⟩
  | rebuilt hr => exact ⟨Nat.le_succ _, fun h => absurd h (Nat.succ_ne_self _)⟩

end Table

/-! ## Worlds with notes on their tables -/

namespace World

/-- Notes on all tables. Those that are still to be made count as empty. -/
abbrev Annals := TableRef → Past

/-- Before there are any tables. -/
def Annals.blank : Annals := fun r => .new (Table.empty : Table r.1.Key).population

/-- Something happens, and notes are taken of it: a step of the world, or a table is held or let go. -/
inductive Event (I : Inventory ε) : World ε × Annals → World ε × Annals → Prop
  | step {w w' : World ε} {a a' : Annals} : Step I 0 w w' →
    (∀ r, (w.table r.2).Noted (a r) (w'.table r.2) (a' r)) → Event I (w, a) (w', a')
  | hold {w : World ε} {a : Annals} {kind : KeyKind} (t : TableId kind) : w.Has t → Event I (w, a) (w.held t, a)
  | letGo {w : World ε} {a : Annals} {kind : KeyKind} (t : TableId kind) : w.Has t → Event I (w, a) (w.letGo t, a)

/-- One thing happens after the other. -/
abbrev Goes (I : Inventory ε) : World ε × Annals → World ε × Annals → Prop := Relation.ReflTransGen (Event I)

/-- A world that can be come to with these notes on the way. -/
def Recorded (I : Inventory ε) (w : World ε) (a : Annals) : Prop := ∃ w₀, w₀.Bare I ∧ Goes I (w₀, .blank) (w, a)

/-- What a step may make of a table. -/
theorem Step.outcome {n : Nat} (hs : Step I n w w') {kind' : KeyKind} (t' : TableId kind') :
    Table.SameStore (w.table t') (w'.table t') ∨ Table.Written (w.table t') (w'.table t') ∨
      Table.Rebuilt (w.table t') (w'.table t') := by
  rcases hs.change_or_size t' with hsame | hc | ⟨hlen, heads, block, hp, hsized⟩
  · exact .inl hsame
  · exact .inr hc.written_or_rebuilt
  · rw [hsized]
    exact .inr (.inr (.size heads block hp hlen))

/-- Notes can be taken of every step. -/
theorem Step.event (hs : Step I 0 w w') (a : Annals) : ∃ a', Event I (w, a) (w', a') := by
  have hnoted : ∀ r : TableRef, ∃ p, (w.table r.2).Noted (a r) (w'.table r.2) p := fun r => by
    rcases hs.outcome r.2 with hsame | hw | hr
    · exact ⟨_, .same hsame⟩
    · exact ⟨_, .written hw⟩
    · exact ⟨_, .rebuilt hr⟩
  choose a' ha' using hnoted
  exact ⟨a', .step hs ha'⟩

/-- **Notes can be taken of every run.** -/
theorem Evolves.goes (he : Evolves I 0 w w') : ∀ a, ∃ a', Goes I (w, a) (w', a') := by
  induction he with
  | refl => exact fun a => ⟨a, .refl⟩
  | step hs =>
    intro a
    obtain ⟨a', ha'⟩ := hs.event a
    exact ⟨a', .single ha'⟩
  | trans _ _ ih ih' =>
    intro a
    obtain ⟨b, hb⟩ := ih a
    obtain ⟨c, hc⟩ := ih' b
    exact ⟨c, hb.trans hc⟩
  | bracket t ht _ he ih =>
    intro a
    obtain ⟨b, hb⟩ := ih a
    have ht' := he.within.has t ((has_modifyTable t _ t).2 ht)
    exact ⟨b, (hb.head (.hold t ht)).tail (.letGo t ht')⟩

theorem During.goes (hd : During I w u) (a : Annals) : ∃ a', Goes I (w, a) (u, a') := by
  induction hd with
  | start => exact ⟨a, .refl⟩
  | run _ he ih =>
    obtain ⟨b, hb⟩ := ih
    obtain ⟨c, hc⟩ := he.goes b
    exact ⟨c, hb.trans hc⟩
  | hold t _ ht ih =>
    obtain ⟨b, hb⟩ := ih
    exact ⟨b, hb.tail (.hold t ht)⟩

/-! ## Chains are as long as their peaks need -/

/-- Every table is sound, and its chains are as the notes on it tell. -/
def Documented (w : World ε) (a : Annals) : Prop :=
  ∀ r : TableRef, (w.table r.2).Sound ∧ (w.table r.2).Stretched (a r).peak

theorem Bare.documented (hb : w.Bare I) : w.Documented .blank := fun r => by
  rw [hb.table_eq r.2]
  refine ⟨Table.sound_empty, ?_⟩
  rw [Annals.blank, Past.peak_new]
  exact Table.stretched_withStorage 1 1 none

/-- What happens to all tables in an event. -/
theorem Event.noted {s s' : World ε × Annals} (he : Event I s s') (r : TableRef) :
    (s.1.table r.2).Noted (s.2 r) (s'.1.table r.2) (s'.2 r) := by
  cases he with
  | step _ hn => exact hn r
  | hold t ht => exact .same (same_held t ht r.2)
  | letGo t ht => exact .same (same_letGo t ht r.2)

/-- **Whatever happens, the chains are as the notes tell.** -/
theorem Goes.documented {s s' : World ε × Annals} (hg : Goes I s s') (hd : s.1.Documented s.2) :
    s'.1.Documented s'.2 := by
  induction hg with
  | refl => exact hd
  | tail _ he ih => exact fun r => (he.noted r).stretched (ih r).1 (ih r).2

theorem Recorded.documented {a : Annals} (h : w.Recorded I a) : w.Documented a := by
  obtain ⟨w₀, hb, hg⟩ := h
  exact Goes.documented hg hb.documented

/-! ## As long as nothing is rebuilt -/

/-- A table that is not rebuilt keeps its chains, and their peaks do not sink. -/
theorem Goes.kept {s s' : World ε × Annals} (hg : Goes I s s') (r : TableRef) :
    (s.2 r).rebuilds ≤ (s'.2 r).rebuilds ∧ ((s'.2 r).rebuilds = (s.2 r).rebuilds →
      (s'.1.table r.2).heads = (s.1.table r.2).heads ∧ ∀ c, (s.2 r).peak c ≤ (s'.2 r).peak c) := by
  induction hg with
  | refl => exact ⟨Nat.le_refl _, fun _ => ⟨rfl, fun c => Nat.le_refl _⟩⟩
  | tail _ he ih =>
    obtain ⟨hle, hkept⟩ := ih
    obtain ⟨hle', hkept'⟩ := (he.noted r).kept
    refine ⟨hle.trans hle', fun heq => ?_⟩
    obtain ⟨hheads, hpeak⟩ := hkept (by omega)
    obtain ⟨hheads', hpeak'⟩ := hkept' (by omega)
    exact ⟨hheads'.trans hheads, fun c => (hpeak c).trans (hpeak' c)⟩

end World

theorem Table.Stretched.used_eq {κ : Type} {t t' : Table κ} {p p' : Nat → Nat} (h : t.Storage) (h' : t'.Storage)
    (hs : t.Stretched p) (hs' : t'.Stretched p') (hheads : t'.heads = t.heads) (hp : ∀ c < t.heads, p' c = p c) :
    t'.used = t.used := by
  rw [h.used_eq, h'.used_eq, hheads]
  refine congrArg List.sum (List.map_congr_left fun c hc => ?_)
  have hc := List.mem_range.1 hc
  rw [(hs c hc).1, (hs' c (hheads ▸ hc)).1, hp c hc]

/-- **As long as a table is not rebuilt and no chain exceeds its peak, it has as many buckets.** -/
theorem World.Documented.used_eq {a a' : Annals} (hd : w.Documented a) (hg : Goes I (w, a) (w', a')) (t : TableId kind)
    (hr : (a' ⟨kind, t⟩).rebuilds = (a ⟨kind, t⟩).rebuilds)
    (hp : ∀ c < (w.table t).heads, (a' ⟨kind, t⟩).peak c ≤ (a ⟨kind, t⟩).peak c) :
    (w'.table t).used = (w.table t).used := by
  obtain ⟨hheads, hpeak⟩ := (hg.kept ⟨kind, t⟩).2 hr
  obtain ⟨h, hs⟩ := hd ⟨kind, t⟩
  obtain ⟨h', hs'⟩ := hg.documented hd ⟨kind, t⟩
  exact hs.used_eq h.toStorage h'.toStorage hs' hheads fun c hc => Nat.le_antisymm (hp c hc) (hpeak c)

/-! ## When a chain gets another bucket -/

namespace Table

variable {κ : Type} {T T' : Table κ} {hash : UInt32}

/-- From `T` to `T'` no chain gets another bucket but that of `hash`, and that one only if every slot on it is
occupied. -/
def LengthensFull (T T' : Table κ) (hash : UInt32) : Prop :=
  ∀ c < T.heads, (T'.chain c).length = (T.chain c).length ∨
    c = T.home hash ∧ (∀ i ∈ T.chainSlots c, (T.slot i).isSome) ∧ (T'.chain c).length = (T.chain c).length + 1

theorem SameStore.lengthensFull (h : SameStore T T') : LengthensFull T T' hash := fun _ _ => .inl (by rw [h]; rfl)

theorem lengthensFull_extend (h : Storage T) (hfull : T.vacancy (T.home hash) = none) (i : Nat) (key : κ) (v : Value) :
    LengthensFull T ((T.addOverflow (T.home hash)).append i hash key v) hash := by
  intro c _
  rw [chain_append, chain_addOverflow h (h.home_lt hash)]
  by_cases hc : c = T.home hash
  · exact .inr ⟨hc, fun i hi => isSome_of_vacancy hfull (hc ▸ hi), by rw [if_pos hc, List.length_append]; rfl⟩
  · exact .inl (by rw [if_neg hc, List.append_nil])

theorem Placed.lengthensFull (h : Sound T) {key : κ} {v : Value} (hp : Placed T hash key v T') :
    LengthensFull T T' hash := by
  cases hp with
  | fill i _ => exact fun c _ => .inl (by rw [chain_append])
  | extend hfull _ => exact lengthensFull_extend h.toStorage hfull _ key v
  | doubled block hfull _ _ =>
    have hfull' : (T.doubled block).vacancy ((T.doubled block).home hash) = none := (vacancy_doubled block _).trans hfull
    have hextend := lengthensFull_extend (h.doubled block).1.toStorage hfull' (bucketSize * T.used) key v
    simp only [LengthensFull, slot_doubled] at hextend
    exact hextend

end Table

section
variable {t : TableId kind} {keying : Keying ε kind.Key} (hk : keying.Respects I) {key : kind.Key}
  (h : w.Sound I) (ht : w.Has t) (hkey : w.OwnsKey key)
include hk h ht hkey

/-- A scan leaves the storage of its table as it was. -/
theorem same_scan (hash : UInt32) : Table.SameStore (w.table t) ((scan keying t key hash w).2.table t) := by
  have hJ := steady_respects hk hash h ht hkey
  cases hf : (w.table t).frozen with
  | false => exact (hJ.watched .refl).same hf
  | true =>
    rcases ((hJ.scan .refl).steady h ht hf).2 with hsame | ⟨_, hempty, _⟩
    · exact hsame
    · -- without entries there is nothing to compare with
      have hnone : (w.table t).candidates hash = [] := List.eq_nil_iff_forall_not_mem.2 fun c hc => by
        have hm := ((h.tables t).mem_candidates.1 hc).1
        rw [(h.tables t).order_eq_nil hempty] at hm
        cases hm
      unfold scan
      rw [run_bind_ok (run_readTable t w), run_holding_of_frozen hf, hnone]
      exact .refl _

/-- **An insertion adds a bucket to a full chain only**: to that of its key, if after its last scan there is no empty slot
on it. -/
theorem insert_lengthens (hf : (w.table t).frozen = false) (hz : (w.table t).holds = 0) (value : Value) {hash : UInt32}
    (hr : keying.hash key w = (.ok hash, u)) : ∃ x, Rounds keying t key (storedHash hash) u x ∧
      Table.LengthensFull (x.table t) ((insert keying t key value w).2.table t) (storedHash hash) := by
  have hJ := steady_respects hk (storedHash hash) h ht hkey
  have hu : Evolves I 0 w u := by
    have := hk.hash key h (Nat.zero_le _) hkey
    rwa [hr] at this
  obtain ⟨x, hx, he, _, hc⟩ := insertHashed_ends hJ value hu
  have hscan := same_scan hk (he.sound h) (he.within.has t ht) (he.within.ownsKey hkey) (storedHash hash)
  have hend : ∀ {y z : World ε}, (scan keying t key (storedHash hash) x).2 = y → Alike y z →
      Table.LengthensFull (x.table t) (z.table t) (storedHash hash) := by
    intro y z hy hz
    rw [hz.table t, ← hy]
    exact hscan.lengthensFull
  refine ⟨x, hx, ?_⟩
  unfold insert
  rw [run_bind_ok (run_checkMutable .insert hf hz), run_bind_ok hr]
  generalize insertHashed keying t key value (storedHash hash) 26 u = r at hc
  cases hc with
  | failed hs => exact hend (congrArg Prod.snd hs) (.refl _)
  | frozen hs _ => exact hend (congrArg Prod.snd hs) ⟨rfl, rfl, rfl, rfl⟩
  | held hs _ _ => exact hend (congrArg Prod.snd hs) ⟨rfl, rfl, rfl, rfl⟩
  | refused hs _ _ hz _ => exact hend (congrArg Prod.snd hs) hz
  | @overwrites i v hs _ _ _ =>
    have hv := hJ.scan he
    rw [hs] at hscan hv
    rw [table_modifyTable t _ (hJ.has hv)]
    exact hscan.lengthensFull
  | @appends v z t' hs _ _ _ ha hp =>
    have hv := hJ.scan he
    rw [hs] at hscan hv
    rw [table_modifyTable t _ (ha.has_iff.2 (hJ.has hv))]
    have hfull := hp.lengthensFull (hJ.sound hv)
    rw [hscan] at hfull
    exact hfull

end

/-! ## Insertions and removals -/

namespace Table

variable {κ : Type} {T T' X : Table κ} {q : Nat → Nat}

/-- One write, or none; the storage may be doubled first. -/
def WrittenOnce (T T' : Table κ) : Prop := T' = T ∨ Written T T' ∨ ∃ block, Written (T.doubled block) T'

theorem Placed.writtenOnce (h : Sound T) {hash : UInt32} {key : κ} {v : Value} (hhash : hash ≠ 0)
    (hp : Placed T hash key v T') : WrittenOnce T T' := by
  cases hp with
  | fill i hi => exact .inr (.inl (.fill i hash key v hhash hi))
  | extend hi hroom => exact .inr (.inl (.extend hash key v hhash hi hroom))
  | doubled block hi hfull hmax =>
    refine .inr (.inr ⟨block, .extend hash key v hhash ((vacancy_doubled block _).trans hi) ?_⟩)
    have := h.heads_pos
    have := h.heads_le
    show T.used < 2 * T.capacity
    omega

theorem WrittenOnce.heads_eq (hw : WrittenOnce T T') : T'.heads = T.heads := by
  rcases hw with rfl | hw | ⟨block, hw⟩
  · rfl
  · exact hw.heads_eq
  · exact hw.heads_eq

/-- A write that takes no chain beyond its peak needs no bucket. -/
theorem Written.stay (h : Sound T) (hs : Stretched T q) (hw : Written T T')
    (hq : ∀ c < T.heads, T'.population c ≤ q c) : Sound T' ∧ Stretched T' q ∧ T'.used = T.used := by
  have hs' : Stretched T' q := fun c hc => by
    have hc' := hw.stretched h hs c hc
    beta_reduce at hc'
    rwa [Nat.max_eq_right (hq c (hw.heads_eq ▸ hc))] at hc'
  exact ⟨hw.sound h, hs', hs.used_eq h.toStorage (hw.sound h).toStorage hs' hw.heads_eq fun _ _ => rfl⟩

theorem WrittenOnce.stay (h : Sound T) (hs : Stretched T q) (hw : WrittenOnce T T')
    (hq : ∀ c < T.heads, T'.population c ≤ q c) :
    Sound T' ∧ Stretched T' q ∧ T'.used = T.used := by
  rcases hw with rfl | hw | ⟨block, hw⟩
  · exact ⟨h, hs, rfl⟩
  · exact hw.stay h hs hq
  · have hpop : ∀ c, (T.doubled block).population c = T.population c := fun c =>
      population_congr rfl fun i _ => by rw [slot_doubled]
    have hd : Stretched (T.doubled block) q := fun c hc => ⟨(hs c hc).1, (hpop c).trans_le (hs c hc).2⟩
    obtain ⟨hsound, hs', hused⟩ := hw.stay (h.doubled block).1 hd hq
    exact ⟨hsound, hs', hused⟩

end Table

/-- What an insertion scans last is the table that it found, or has more chains. -/
theorem Rounds.heads {t : TableId kind} {keying : Keying ε kind.Key} {key : kind.Key} {hash : UInt32}
    {J : World ε → Prop} (hJ : Steady keying t key hash J) (hr : Rounds keying t key hash w w') :
    J w → w' = w ∨ (w.table t).heads < (w'.table t).heads := by
  induction hr with
  | done => exact fun _ => .inl rfl
  | @again w v u w' hs hf hh ho hg _ ih =>
    intro hj
    obtain ⟨hju, _, hheads⟩ := hJ.round hj hs hf hh ho hg
    have hpos := (hJ.sound hj).heads_pos
    rcases ih hju with rfl | hlt
    · exact .inr (by omega)
    · exact .inr (by omega)

/-- A change that is refused when it is checked whether the table may be changed leaves the table as it is. -/
theorem table_checked {α : Type} (t : TableId kind) (change : TableChange) (f : Unit → Run ε α) (w : World ε) :
    ((checkMutable t change >>= f) w).2.table t = w.table t ∨
      (w.table t).frozen = false ∧ (w.table t).holds = 0 ∧ (checkMutable t change >>= f) w = f () w := by
  cases hf : (w.table t).frozen with
  | true =>
    rw [run_bind_error (run_checkMutable_frozen change hf)]
    exact .inl (table_congr rfl rfl t)
  | false =>
    rcases Nat.eq_zero_or_pos (w.table t).holds with hz | hz
    · exact .inr ⟨rfl, hz, run_bind_ok (run_checkMutable change hf hz) f⟩
    · rw [run_bind_error (run_checkMutable_held change hf hz)]
      exact .inl (table_congr rfl rfl t)

section
variable {t : TableId kind} {keying : Keying ε kind.Key} {host : Host ε} {key : kind.Key} (hk : keying.Respects I)
  (hf : keying.Follows I (Spared I host t w)) (h : w.Sound I) (ht : w.Has t) (hkey : w.OwnsKey key)
include hf h ht hkey

/-- What follows from the last scan of an insertion that is left alone is one write at most. -/
theorem Concludes.writes {value : Value} {hash : UInt32} (hhash : hash ≠ 0) {x : World ε} (he : Evolves I 0 w x)
    (hr : Ready host t w x) {r : Except Failure Unit × World ε} (hc : Concludes keying t key value hash x r) :
    (x.table t).WrittenOnce (r.2.table t) := by
  have hs := he.sound h
  have hscan := (scan_along hf hash hs (he.within.has t ht) (he.within.ownsKey hkey)).ends
  have heq := (hscan.amid hr.amid).2
  have hend : ∀ {y z : World ε}, (scan keying t key hash x).2 = y → Alike y z → (x.table t).WrittenOnce (z.table t) := by
    intro y z hy hz
    exact .inl ((hz.table t).trans (hy ▸ heq))
  have hin : ∀ {y : World ε}, (scan keying t key hash x).2 = y → y.Has t := fun hy =>
    hy ▸ (he.trans hscan.evolves).within.has t ht
  cases hc with
  | failed hs => exact hend (congrArg Prod.snd hs) (.refl _)
  | frozen hs _ => exact hend (congrArg Prod.snd hs) ⟨rfl, rfl, rfl, rfl⟩
  | held hs _ _ => exact hend (congrArg Prod.snd hs) ⟨rfl, rfl, rfl, rfl⟩
  | refused hs _ _ hz _ => exact hend (congrArg Prod.snd hs) hz
  | @overwrites i v hscan _ _ _ =>
    rw [hscan] at heq
    rw [table_modifyTable t _ (hin (congrArg Prod.snd hscan)), heq]
    exact .inr (.inl (.overwrite i value))
  | @appends v z t' hscan _ _ _ ha hp =>
    rw [hscan] at heq
    rw [table_modifyTable t _ (ha.has_iff.2 (hin (congrArg Prod.snd hscan)))]
    exact (heq ▸ hp).writtenOnce (hs.tables t) hhash

include hk in
/-- **An insertion that is left alone is one write at most**, unless the table grows. -/
theorem insert_writes (value : Value) : ((insert keying t key value w).2.table t).heads ≠ (w.table t).heads ∨
    (w.table t).WrittenOnce ((insert keying t key value w).2.table t) := by
  unfold insert
  rcases table_checked t .insert _ w with heq | ⟨hfrozen, hz, hrun⟩
  · exact .inr (.inl heq)
  · rw [hrun]
    have hhash := hf.hash key h hkey
    have hready : Ready host t w w := ⟨.start, hfrozen, hz⟩
    cases hr : keying.hash key w with
    | mk r u =>
      rw [hr] at hhash
      have heq : u.table t = w.table t := (hhash.amid .start).2
      cases r with
      | error e =>
        rw [run_bind_error hr]
        exact .inr (.inl heq)
      | ok hash =>
        rw [run_bind_ok hr]
        have hJ := steady_spared hk hf h ht hkey (storedHash hash)
        have hu : Evolves I 0 w u ∧ Ready host t w u := ⟨hhash.evolves, hready.spared hhash⟩
        obtain ⟨x, hx, ⟨hex, hrx⟩, _, hc⟩ := insertHashed_ends hJ value hu
        have hwrites := hc.writes hf h ht hkey (storedHash_ne_zero hash) hex hrx
        rcases hx.heads hJ hu with rfl | hlt
        · exact .inr (heq ▸ hwrites)
        · refine .inl ?_
          rw [hwrites.heads_eq, ← heq]
          omega

/-- So is a removal. -/
theorem erase_writes : (w.table t).WrittenOnce ((erase keying t key w).2.table t) := by
  unfold erase
  rcases table_checked t .erase _ w with heq | ⟨_, _, hrun⟩
  · exact .inl heq
  · rw [hrun]
    have hfind := findSlot_along hf h ht hkey
    cases hr : findSlot keying t key w with
    | mk r u =>
      have hends := hfind.ends
      rw [hr] at hends
      have heq : u.table t = w.table t := (hends.amid .start).2
      cases r with
      | error e =>
        rw [run_bind_error hr]
        exact .inl heq
      | ok found =>
        rw [run_bind_ok hr]
        rcases table_checked t .erase _ u with heq' | ⟨_, _, hrun⟩
        · exact .inl (heq'.trans heq)
        · rw [hrun]
          cases found with
          | none => exact .inl heq
          | some i =>
            have hi := hfind.post _ _ hr i rfl
            refine .inr (.inl ?_)
            show Table.Written _ ((u.modifyTable t (·.remove i)).table t)
            rw [table_modifyTable t _ (hends.evolves.within.has t ht), heq]
            exact .remove i (heq ▸ hi)

end

/-- Entries are put into a table and taken out of it, one after the other, by operations that either succeed or fail, with
keys whose hashing and comparing leaves the table alone. The table does not grow, and after each operation no chain has
more entries than `p` tells. -/
inductive World.Churns (I : Inventory ε) (t : TableId kind) (p : Nat → Nat) (w : World ε) : World ε → Prop
  | start : Churns I t p w w
  | turn {v : World ε} (host : Host ε) (op : Operation) : Churns I t p w v → Civil I host → host.Spares I t v →
    op.Valid v → ((∃ key value, op = .insert t key value) ∨ ∃ key, op = .erase t key) →
    ((op.run host v).2.table t).heads = (v.table t).heads →
    (∀ c < (v.table t).heads, ((op.run host v).2.table t).population c ≤ p c) → Churns I t p w (op.run host v).2

/-- **However entries come and go**, the table has as many buckets as before. -/
theorem World.Churns.used_eq {t : TableId kind} {p : Nat → Nat} (hc : Churns I t p w w') (h : w.Sound I)
    (hs : (w.table t).Stretched p) :
    w'.Sound I ∧ (w'.table t).Stretched p ∧ (w'.table t).used = (w.table t).used := by
  induction hc with
  | start => exact ⟨h, hs, rfl⟩
  | @turn v host op _ hcivil hspares hv hop hheads hp ih =>
    obtain ⟨hsound, hstretched, hused⟩ := ih
    have hk := keyingOf_respects hcivil.respects kind
    have hf := keyingOf_follows (hspares.follows hcivil.respects) kind
    have hw : (v.table t).WrittenOnce ((op.run host v).2.table t) := by
      rcases hop with ⟨key, value, rfl⟩ | ⟨key, rfl⟩
      · exact (insert_writes hk hf hsound hv.1.1 hv.2.1 value).resolve_left (not_not_intro hheads)
      · have hrun : ((Operation.erase t key).run host v).2 = (erase (keyingOf host kind) t key v).2 := by
          show (discard (erase (keyingOf host kind) t key) v).2 = _
          rw [run_discard]
          cases erase (keyingOf host kind) t key v with
          | mk r u => cases r <;> rfl
        rw [hrun]
        exact erase_writes hf hsound hv.1.1 hv.2
    obtain ⟨-, hs', hused'⟩ := hw.stay (hsound.tables t) hstretched hp
    exact ⟨(op.evolves hcivil.respects hsound hv).sound hsound, hs', hused'.trans hused⟩

/-! ## The storage is used again -/

/-- **Overflow buckets are used again.** Let `w` be a world that a program comes to, be it in the middle of operations.
Notes can have been taken on the way there, and of whatever is attempted or goes on from there. Whatever they are, every
chain of every table has as many buckets as its peak needs, and at least one. An insertion adds a bucket only to the chain
of its key, and only if every slot on it is occupied when it has scanned the chain for the last time. So as long as a
table is not rebuilt and no chain exceeds its peak, the table has as many buckets as before; in particular however entries
are put in and taken out. -/
theorem overflow_storage_reused (hw : Midway I w) :
    (∃ a, Recorded I w a) ∧
    ∀ a, Recorded I w a →
      (∀ {kind : KeyKind} (t : TableId kind), ∀ c < (w.table t).heads,
        ((w.table t).chain c).length = max 1 (((a ⟨kind, t⟩).peak c + 7) / 8) ∧
        (w.table t).population c ≤ (a ⟨kind, t⟩).peak c) ∧
      (∀ w', Attempts I (Civil I) w w' ∨ During I w w' → ∃ a', Goes I (w, a) (w', a')) ∧
      (∀ {kind : KeyKind} (t : TableId kind) (host : Host ε) (key : kind.Key) (value : Value), Civil I host →
        w.Has t → w.OwnsKey key → (w.table t).frozen = false → (w.table t).holds = 0 →
        ∀ hash u, (keyingOf host kind).hash key w = (.ok hash, u) →
          ∃ x, Rounds (keyingOf host kind) t key (storedHash hash) u x ∧
            Table.LengthensFull (x.table t) ((insert (keyingOf host kind) t key value w).2.table t) (storedHash hash)) ∧
      ∀ {kind : KeyKind} (t : TableId kind) (w' : World ε),
        (∀ a', Goes I (w, a) (w', a') → (a' ⟨kind, t⟩).rebuilds = (a ⟨kind, t⟩).rebuilds →
          (∀ c < (w.table t).heads, (a' ⟨kind, t⟩).peak c ≤ (a ⟨kind, t⟩).peak c) → (w'.table t).used = (w.table t).used) ∧
        (Churns I t (a ⟨kind, t⟩).peak w w' → (w'.table t).used = (w.table t).used) := by
  have hs := hw.sound
  obtain ⟨w₀, hr, hd⟩ := hw
  obtain ⟨w₁, hb, ha⟩ := hr
  refine ⟨?_, fun a hrec => ?_⟩
  · have he := ha.evolves (fun _ hc => hc.respects) hb.sound
    obtain ⟨b, hb'⟩ := (he.le (Nat.zero_le _)).goes .blank
    obtain ⟨a, hd'⟩ := hd.goes b
    exact ⟨a, w₁, hb, hb'.trans hd'⟩
  · have hdoc := hrec.documented
    refine ⟨fun {kind} t c hc => (hdoc ⟨kind, t⟩).2 c hc, fun w' hw' => ?_,
      fun {kind} t host key value hcivil ht hkey hf hz hash u hh => ?_,
      fun {kind} t w' => ⟨fun a' hg hrebuilds hpeak => hdoc.used_eq hg t hrebuilds hpeak, fun hc => ?_⟩⟩
    · rcases hw' with hattempts | hduring
      · exact ((hattempts.evolves (fun _ hc => hc.respects) hs).le (Nat.zero_le _)).goes a
      · exact hduring.goes a
    · exact insert_lengthens (keyingOf_respects hcivil.respects kind) hs ht hkey hf hz value hh
    · exact (hc.used_eq hs (hdoc ⟨kind, t⟩).2).2.2

/-- Even numbers are all on one chain of two. With the ninth of them the table has grown, and the chain has another
bucket. -/
def evens : List Operation :=
  .newDict 0 :: [2, 4, 6, 8, 10, 12, 14, 16, 18].map fun i => @Operation.insert .any ⟨0⟩ (.int i) .none

/-- Three of them are taken out, one that is not there is not, and others take their places. -/
def exchanges : List Operation :=
  [@Operation.erase .any ⟨0⟩ (.int 4), @Operation.erase .any ⟨0⟩ (.int 18), @Operation.insert .any ⟨0⟩ (.int 20) .none,
    @Operation.erase .any ⟨0⟩ (.int 3), @Operation.erase .any ⟨0⟩ (.int 2), @Operation.insert .any ⟨0⟩ (.int 22) .none,
    @Operation.insert .any ⟨0⟩ (.int 24) .none]

def evenWorld : World Unit := inTurn evens (.unused ())

theorem mute_spares {t : TableId kind} : (mute : Host ε).Spares I t w :=
  ⟨fun _ _ _ _ => rfl, fun _ _ _ _ => rfl, fun _ _ _ _ _ _ => rfl⟩

/-- One operation of `mute` after the other, if each leaves the chains and no more on them than `p` tells. -/
theorem churns_inTurn {t : TableId kind} {p : Nat → Nat} : ∀ (ops : List Operation) {v : World ε}, Churns I t p w v →
    ValidInTurn v ops → (∀ op ∈ ops, (∃ key value, op = .insert t key value) ∨ ∃ key, op = .erase t key) →
    (∀ n < ops.length, ((inTurn (ops.take (n + 1)) v).table t).heads = (v.table t).heads ∧
      ∀ c < (v.table t).heads, ((inTurn (ops.take (n + 1)) v).table t).population c ≤ p c) → Churns I t p w (inTurn ops v)
  | [], _, hc, _, _, _ => hc
  | op :: ops, v, hc, ⟨hv, hrest⟩, hops, hstay => by
    obtain ⟨hheads, hp⟩ := hstay 0 (Nat.succ_pos _)
    have hturn := hc.turn mute op mute_civil mute_spares hv (hops op List.mem_cons_self) hheads hp
    have hheads : ((op.run mute v).2.table t).heads = (v.table t).heads := hheads
    refine churns_inTurn ops hturn hrest (fun x hx => hops x (List.mem_cons_of_mem _ hx)) fun n hn => ?_
    obtain ⟨hheads', hp'⟩ := hstay (n + 1) (Nat.succ_lt_succ hn)
    rw [hheads]
    exact ⟨hheads', hp'⟩

/-- The chain has two buckets because it held nine entries. It never holds more again, so there are three buckets in use
when all that is over, as before. -/
theorem overflow_storage_reused_evens : ∃ a, Recorded .nothing evenWorld a ∧
    (evenWorld.table (⟨0⟩ : TableId .any)).used = 3 ∧ 9 ≤ (a ⟨.any, ⟨0⟩⟩).peak 1 ∧ (a ⟨.any, ⟨0⟩⟩).peak 1 ≤ 16 ∧
    Churns .nothing (⟨0⟩ : TableId .any) (a ⟨.any, ⟨0⟩⟩).peak evenWorld (inTurn exchanges evenWorld) ∧
    ((inTurn exchanges evenWorld).table (⟨0⟩ : TableId .any)).used = 3 := by
  have hr : Reachable .nothing evenWorld :=
    ⟨_, bare_unused (), Attempts.refl.inTurn mute_civil (by decide +kernel)⟩
  obtain ⟨⟨a, ha⟩, hall⟩ := overflow_storage_reused ⟨_, hr, .start⟩
  obtain ⟨hpeaks, _, _, hreused⟩ := hall a ha
  obtain ⟨hlength, hpopulation⟩ := hpeaks (⟨0⟩ : TableId .any) 1 (by decide +kernel)
  have hnine : (evenWorld.table (⟨0⟩ : TableId .any)).population 1 = 9 := by decide +kernel
  have htwo : ((evenWorld.table (⟨0⟩ : TableId .any)).chain 1).length = 2 := by decide +kernel
  have hused : (evenWorld.table (⟨0⟩ : TableId .any)).used = 3 := by decide +kernel
  have hchurns : Churns .nothing (⟨0⟩ : TableId .any) (a ⟨.any, ⟨0⟩⟩).peak evenWorld (inTurn exchanges evenWorld) := by
    refine churns_inTurn exchanges .start (by decide +kernel) (by simp [exchanges]) fun n hn => ?_
    have hstay : ∀ n < exchanges.length, ((inTurn (exchanges.take (n + 1)) evenWorld).table (⟨0⟩ : TableId .any)).heads =
        (evenWorld.table (⟨0⟩ : TableId .any)).heads ∧ ∀ c < (evenWorld.table (⟨0⟩ : TableId .any)).heads,
        ((inTurn (exchanges.take (n + 1)) evenWorld).table (⟨0⟩ : TableId .any)).population c ≤
          (evenWorld.table (⟨0⟩ : TableId .any)).population c := by decide +kernel
    obtain ⟨hheads, hle⟩ := hstay n hn
    exact ⟨hheads, fun c hc => (hle c hc).trans (hpeaks _ c hc).2⟩
  exact ⟨a, ha, hused, by omega, by omega, hchurns, ((hreused _ _).2 hchurns).trans hused⟩

end ValueCore
