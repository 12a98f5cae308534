import ValueCore.Proofs.Verdict.Outcome
import ValueCore.Proofs.World.Containers
import ValueCore.Proofs.World.Parts

/-!
# What cannot change reads as before

A value is `Still` if no dict that it leads to can be changed. Structs cannot be changed anyhow, so all that writing and
comparing still values looks at is in a later world as it was (`Lasts`). That world may have more containers, and so the
functions that compute the text and the outcome have more fuel there:

| | in the later world | |
| --- | --- | --- |
| the text | is the same, as there was enough fuel before | `shown_lasts` |
| the outcome of a comparison | is the same, unless the fuel was used up | `judged_persists` |
-/

namespace ValueCore

open World

variable {ε α β : Type} {I : Inventory ε} {w w' : World ε} {x y : Value}

namespace World

/-! ## Still values -/

/-- Every dict that the value leads to is frozen, and none of the host's values is reached. -/
structure Still (w : World ε) (x : Value) : Prop where
  owns : w.Owns x
  free : w.HostFree x
  dicts : ∀ t : TableId .any, w.Reaches x (.dict t) → (w.table t).frozen = true

theorem Still.part (hx : w.Still x) (h : w.Sound I) (hp : w.Part x y) : w.Still y :=
  ⟨hp.owns h hx.owns, hx.free.part hp, fun t ht => hx.dicts t (.head hp ht)⟩

/-- What is in a still value is still. -/
theorem region_still (h : w.Sound I) : w.Region w.Still :=
  ⟨h.tables, fun hx => hx.free _ .refl, fun hx _ hm => ⟨hx.part h (.key hm), hx.part h (.value hm)⟩,
    fun hx => hx.part h (.ctor _), fun hx _ hm => hx.part h (.field hm)⟩

/-- All that there is in `w` and cannot be changed is in `w'` as it was. -/
structure Lasts (w w' : World ε) : Prop where
  within : Within w w'
  frozen : ∀ t : TableId .any, (w.table t).frozen = true → (w'.table t).frozen = true
  dict : ∀ t : TableId .any, (w.table t).frozen = true → Table.Steady (w.table t) (w'.table t)
  fields : ∀ s : StructId, w.Owns (.struct s) →
    Table.SameStore (w.table (w.struct s).fields) (w'.table (w.struct s).fields)

theorem lasts_of_evolves (h : w.Sound I) (he : Evolves I w.structs.size w w') : Lasts w w' :=
  ⟨he.within, fun _ hf => (he.steady h (has_of_frozen hf) hf).1, fun _ hf => (he.steady h (has_of_frozen hf) hf).2,
    fun s hs => he.same_of_sealed h (h.fields s hs) ⟨s, hs, hs, rfl⟩⟩

namespace Lasts

variable (hl : Lasts w w')
include hl

theorem struct_eq {s : StructId} (hs : w.Still (.struct s)) : w'.struct s = w.struct s := hl.within.struct_eq s hs.owns

theorem items_dict {t : TableId .any} (ht : w.Still (.dict t)) : (w'.table t).items = (w.table t).items :=
  (hl.dict t (ht.dicts t .refl)).kept.items_eq

theorem items_struct {s : StructId} (hs : w.Still (.struct s)) :
    (w'.table (w'.struct s).fields).items = (w.table (w.struct s).fields).items := by
  rw [hl.struct_eq hs]
  exact (hl.fields s hs.owns).kept.items_eq

theorem length_struct {s : StructId} (hs : w.Still (.struct s)) :
    (w'.table (w'.struct s).fields).length = (w.table (w.struct s).fields).length := by
  rw [hl.struct_eq hs]
  exact (hl.fields s hs.owns).length_eq

/-- A still value gets no new parts. -/
theorem part_back (hx : w.Still x) (hp : w'.Part x y) : w.Part x y := by
  cases hp with
  | key hm => exact .key (hl.items_dict hx ▸ hm)
  | value hm => exact .value (hl.items_dict hx ▸ hm)
  | ctor s =>
    rw [hl.struct_eq hx]
    exact .ctor s
  | @field s item hm => exact .field (s := s) (hl.items_struct hx ▸ hm)

theorem reaches_back (h : w.Sound I) (hx : w.Still x) (hr : w'.Reaches x y) : w.Reaches x y ∧ w.Still y := by
  induction hr with
  | refl => exact ⟨.refl, hx⟩
  | tail _ hp ih =>
    have hpart := hl.part_back ih.2 hp
    exact ⟨ih.1.tail hpart, ih.2.part h hpart⟩

end Lasts

/-- **What is still stays so.** -/
theorem Still.lasts (hx : w.Still x) (h : w.Sound I) (hl : Lasts w w') : w'.Still x :=
  ⟨hl.within.owns hx.owns, fun _ hr => hx.free _ (hl.reaches_back h hx hr).1,
    fun t hr => hl.frozen t (hx.dicts t (hl.reaches_back h hx hr).1)⟩

end World

/-! ## Texts -/

theorem dictWritten_congr {write write' : Value → Bytes} {items : List (Value × Value)}
    (h : ∀ item ∈ items, write' item.1 = write item.1 ∧ write' item.2 = write item.2) :
    dictWritten write' items = dictWritten write items := by
  unfold dictWritten
  rw [List.map_congr_left fun item hm => by rw [(h item hm).1, (h item hm).2]]

theorem structWritten_congr {write write' : Value → Bytes} {ctor : Value} {fields : List (Bytes × Value)}
    (hctor : write' ctor = write ctor) (h : ∀ field ∈ fields, write' field.2 = write field.2) :
    structWritten write' ctor fields = structWritten write ctor fields := by
  unfold structWritten
  rw [hctor, List.map_congr_left fun field hm => by rw [h field hm]]

/-- Either amount of fuel is enough, since what is on the path are different containers of the first world. -/
theorem text_lasts (h : w.Sound I) (hl : w.Lasts w') : ∀ (fuel fuel' : Nat) (path : List Value) (x : Value),
    w.Still x → w.Path path → w.containers + 2 ≤ fuel + path.length → w.containers + 2 ≤ fuel' + path.length →
      w'.text fuel' path x = w.text fuel path x
  | 0, _, path, _, _, hp, hfuel, _ => by
    have := hp.length_le
    omega
  | _ + 1, 0, path, _, _, hp, _, hfuel' => by
    have := hp.length_le
    omega
  | fuel + 1, fuel' + 1, path, x, hx, hp, hfuel, hfuel' => by
    have hdeeper : x.Container → x ∉ path → ∀ y, w.Part x y → w'.text fuel' (x :: path) y = w.text fuel (x :: path) y := by
      intro hc hnew y hy
      exact text_lasts h hl fuel fuel' (x :: path) y (hx.part h hy) (hp.cons hc hx.owns hnew)
        (by rw [List.length_cons]; omega) (by rw [List.length_cons]; omega)
    unfold text
    cases x with
    | none | bool | int | float | str | host => rfl
    | dict t =>
      dsimp only
      split
      · rfl
      · rename_i hnew
        rw [hl.items_dict hx]
        exact dictWritten_congr fun item hm => ⟨hdeeper trivial hnew _ (.key hm), hdeeper trivial hnew _ (.value hm)⟩
    | struct s =>
      dsimp only
      split
      · rfl
      · rename_i hnew
        rw [hl.items_struct hx, hl.struct_eq hx]
        exact structWritten_congr (hdeeper trivial hnew _ (.ctor s)) fun field hm => hdeeper trivial hnew _ (.field hm)

/-- **The text stays the same.** -/
theorem shown_lasts (h : w.Sound I) (hl : w.Lasts w') (hx : w.Still x) : w'.shown x = w.shown x := by
  have hle := hl.within.containers_le
  exact text_lasts h hl _ _ [] x hx (.nil w) (by rw [List.length_nil]) (by rw [List.length_nil]; omega)

/-! ## Outcomes -/

/-- If there is an answer or an error then it is the other one as well. -/
def Persists (o o' : Judged α) : Prop := Settled o → o' = o

theorem Persists.refl (o : Judged α) : Persists o o := fun _ => rfl

theorem persists_threads : Judged.Threads Persists := by
  refine ⟨fun a => .refl _, fun {α β o o' g g'} ho hg hs => ?_⟩
  cases o with
  | ok a =>
    obtain rfl : o' = .ok a := ho nofun
    exact hg a rfl hs
  | error e =>
    obtain rfl : o' = .error e := ho fun he => hs (by cases he; rfl)
    rfl

/-- A fault is reported with the same texts. -/
theorem constructorsJudged_persists {equal equal' : Value → Value → Judged Bool} {use : ConstructorUse}
    (hx : w'.shown x = w.shown x) (hy : w'.shown y = w.shown y) (h : Persists (equal x y) (equal' x y)) :
    Persists (w.constructorsJudged equal use x y) (w'.constructorsJudged equal' use x y) := by
  intro hs
  have hsettled : Settled (equal x y) := fun he => hs (by unfold constructorsJudged; rw [he])
  unfold constructorsJudged
  rw [h hsettled, hx, hy]

section
variable (h : w.Sound I) (hl : w.Lasts w')
include h hl

theorem digest_persists : ∀ (fuel fuel' : Nat) (x : Value), w.Still x → fuel ≤ fuel' →
    Persists (w.digest fuel x) (w'.digest fuel' x)
  | 0, _, _, _, _ => fun hs => absurd rfl hs
  | _ + 1, 0, _, _, hle => absurd hle (Nat.not_succ_le_zero _)
  | fuel + 1, fuel' + 1, x, hx, hle => by
    cases x with
    | none | bool | int | float | str | dict | host => exact .refl _
    | struct s =>
      rw [digest_struct, digest_struct, hl.items_struct hx]
      exact persists_threads.digestFields _ _ fun field hm =>
        digest_persists fuel fuel' field.2 (hx.part h (.field hm)) (Nat.le_of_succ_le_succ hle)

/-- **What a comparison comes to, it comes to later.** -/
theorem judged_persists (h' : w'.Sound I) : ∀ (fuel fuel' : Nat) (depth : Int) (x y : Value), w.Still x → w.Still y →
    fuel ≤ fuel' → Persists (w.judged fuel depth x y) (w'.judged fuel' depth x y)
  | 0, _, _, _, _, _, _, _ => fun hs => absurd rfl hs
  | _ + 1, 0, _, _, _, _, _, hle => absurd hle (Nat.not_succ_le_zero _)
  | fuel + 1, fuel' + 1, depth, x, y, hx, hy, hle => by
    have hdeeper : ∀ (d : Int) (a b : Value), w.Still a → w.Still b →
        Persists (w.judged fuel d a b) (w'.judged fuel' d a b) := fun d a b ha hb =>
      judged_persists h' fuel fuel' d a b ha hb (Nat.le_of_succ_le_succ hle)
    by_cases hd : depth < 1
    · rw [judged_spent hd, judged_spent hd]
      exact .refl _
    rcases pair_cases x y with ⟨a, b, rfl, rfl⟩ | ⟨a, b, rfl, rfl⟩ | ⟨a, b, rfl, rfl⟩ | hapart
    · rw [judged_dicts hd, judged_dicts hd]
      have hsteady : Table.Steady (w.table b) (w'.table b) := hl.dict b (hy.dicts b .refl)
      rw [(hl.dict a (hx.dicts a .refl)).length_eq, hsteady.length_eq, hl.items_dict hx]
      split
      · exact .refl _
      split
      · exact .refl _
      refine persists_threads.itemsJudged _ fun item hm => ⟨?_, fun z hz => ?_⟩
      · have hkey := hx.part h (.key hm)
        have hsize : w.structs.size + 2 ≤ w'.structs.size + 2 := Nat.add_le_add_right hl.within.size_le 2
        exact persists_threads.soughtIn (h.tables b) (h'.tables b) hsteady (digest_persists h hl _ _ _ hkey hsize)
          fun e _ c hc => hdeeper _ _ _ hkey ((region_still h).candidate hy hc)
      · obtain ⟨k, hk⟩ := item_of_soughtIn (h.tables b) hz
        exact hdeeper _ _ _ (hx.part h (.value hm)) (hy.part h (.value hk))
    · rw [judged_structs hd, judged_structs hd, hl.length_struct hx, hl.length_struct hy, hl.items_struct hx,
        hl.items_struct hy, hl.struct_eq hx, hl.struct_eq hy]
      split
      · exact .refl _
      have hctor := hx.part h (.ctor a)
      have hctor' := hy.part h (.ctor b)
      refine persists_threads.bind (constructorsJudged_persists (shown_lasts h hl hctor) (shown_lasts h hl hctor')
        (hdeeper _ _ _ hctor hctor')) fun verdict _ => ?_
      split
      · exact persists_threads.fieldsJudged _ _ fun f hf g hg => hdeeper _ _ _ (hx.part h (.field hf)) (hy.part h (.field hg))
      · exact .refl _
    · exact (hx.free _ .refl).elim
    · rw [judged_apart hd hapart, judged_apart hd hapart]
      exact .refl _

end

end ValueCore
