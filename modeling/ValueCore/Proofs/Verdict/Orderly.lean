import ValueCore.Proofs.Verdict.Tidy

/-!
# Order among keys and structs

Whatever a program does, and however the host's own values behave, some order is kept in its world
(`World.Orderly`):

* a struct is made of what was there before it, so structs contain each other in one direction only, dicts apart;
* a key is stored under its hash, unless the hash is the host's business (`Hosted`);
* of two keys of a table the later one is not equal to the earlier one, unless one of them comes to a dict or to a
  value of the host (`Fluid`), so that what they are equal to may change.

What is said of a key depends on structs and their fields only. These never change, so it stays true of the key as
the world goes on (`Arranged.stands`). That is why it is enough to look at a key when it is inserted.
-/

namespace ValueCore

open World

variable {ε : Type} {I : Inventory ε} {w w' : World ε} {kind : KeyKind} {t : TableId kind} {x y : Value}
  {C : Value → Prop}

/-- If the value is a struct then it is one of the first `n`. -/
def Value.Below (n : Nat) : Value → Prop
  | .struct s => s.index < n
  | _ => True

namespace World

/-- Comparing the value may come to a dict or to a value of the host. -/
inductive Fluid (w : World ε) : Value → Prop
  | dict (t : TableId .any) : Fluid w (.dict t)
  | host (i : HostId) : Fluid w (.host i)
  | ctor {s : StructId} : Fluid w (w.struct s).ctor → Fluid w (.struct s)
  | field {s : StructId} {item : Bytes × Value} : item ∈ (w.table (w.struct s).fields).items → Fluid w item.2 →
    Fluid w (.struct s)

theorem Hosted.fluid (h : w.Hosted x) : w.Fluid x := by
  induction h with
  | host i => exact .host i
  | field hm _ ih => exact .field hm ih

/-- What a struct is made of was there before it. -/
structure Founded (w : World ε) (s : StructId) : Prop where
  ctor : (w.struct s).ctor.Below s.index
  fields : ∀ item ∈ (w.table (w.struct s).fields).items, item.2.Below s.index

/-- The key is stored under its hash. -/
def FiledKey (w : World ε) : {kind : KeyKind} → UInt32 → kind.Key → Prop
  | .any, a, x => w.Hosted x ∨ ∃ h, w.hashOf (w.structs.size + 2) x = some h ∧ a = storedHash h
  | .text, a, s => a = storedHash s.fnv1a

/-- The keys are not equal, and will not become equal. -/
def UnlikeKey (w : World ε) : {kind : KeyKind} → kind.Key → kind.Key → Prop
  | .any, x, y => w.Fluid x ∨ w.Fluid y ∨ ¬ w.Equal x y
  | .text, x, y => x ≠ y

/-- Stored keys in order: each is stored under its hash, and none is equal to an earlier one. -/
structure Arranged (w : World ε) {kind : KeyKind} (keys : List (UInt32 × kind.Key)) : Prop where
  filed : ∀ r ∈ keys, w.FiledKey r.1 r.2
  unlike : keys.Pairwise fun r s => w.UnlikeKey s.2 r.2

/-- **The invariant.** -/
structure Orderly (w : World ε) : Prop where
  founded : ∀ s : StructId, s.index < w.structs.size → w.Founded s
  arranged : ∀ {kind : KeyKind} (t : TableId kind), w.Arranged (w.table t).storedKeys

/-! ## Keys under different hashes -/

/-- Keys that are stored under different hashes are not equal. -/
theorem unlike_of_filed (hs : ∀ {kind : KeyKind} (t : TableId kind), (w.table t).Sound) {a b : UInt32}
    {x y : kind.Key} (hx : w.FiledKey a x) (hy : w.FiledKey b y) (hab : a ≠ b) : w.UnlikeKey x y := by
  cases kind with
  | any =>
    rcases hx with hx | ⟨h, hx, rfl⟩
    · exact .inl hx.fluid
    rcases hy with hy | ⟨h', hy, rfl⟩
    · exact .inr (.inl hy.fluid)
    refine .inr (.inr fun heq => hab ?_)
    rw [heq.hashOf_eq hs, hy] at hx
    cases hx
    rfl
  | text =>
    rintro rfl
    exact hab (hx.trans hy.symm)

/-! ## As the world goes on -/

theorem Stands.symm (hw : Stands C w w') : Stands C w' w := by
  refine ⟨fun s hs => (hw.struct_eq s hs).symm, fun s hs => ?_, fun s hs => ?_, fun s hs => ?_, fun s hs => ?_⟩
  · rw [hw.struct_eq s hs, hw.items_eq s hs]
  · rw [hw.struct_eq s hs, hw.length_eq s hs]
  · rw [hw.struct_eq s hs]
    exact hw.ctor s hs
  · rw [hw.struct_eq s hs, hw.items_eq s hs]
    exact hw.field s hs

section
variable (hw : Stands C w w')
include hw

theorem Stands.fields_eq {s : StructId} (hs : C (.struct s)) :
    (w'.table (w'.struct s).fields).items = (w.table (w.struct s).fields).items := by
  rw [hw.struct_eq s hs, hw.items_eq s hs]

theorem Hosted.stands (h : w.Hosted x) : C x → w'.Hosted x := by
  induction h with
  | host i => exact fun _ => .host i
  | @field s item hm _ ih =>
    intro hx
    refine .field (hw.fields_eq hx ▸ hm) (ih (hw.field s hx item hm))

theorem Fluid.stands (h : w.Fluid x) : C x → w'.Fluid x := by
  induction h with
  | dict t => exact fun _ => .dict t
  | host i => exact fun _ => .host i
  | @ctor s _ ih =>
    intro hx
    refine .ctor ?_
    rw [hw.struct_eq s hx]
    exact ih (hw.ctor s hx)
  | @field s item hm _ ih =>
    intro hx
    exact .field (hw.fields_eq hx ▸ hm) (ih (hw.field s hx item hm))

/-- Values that come to no dict stay equal. -/
theorem Equal.stands (h : w.Equal x y) : C x → C y → ¬ w.Fluid x → w'.Equal x y := by
  induction h with
  | same hap hsame => exact fun _ _ _ => .same hap hsame
  | itself t => exact fun _ _ _ => .itself t
  | dicts => exact fun _ _ hf => absurd (.dict _) hf
  | @structs a b hl _ hname _ ihctor ihfield =>
    intro hx hy hf
    have hpairs : w'.fieldPairs a b = w.fieldPairs a b := by
      unfold fieldPairs
      rw [hw.fields_eq hx, hw.fields_eq hy]
    refine .structs ?_ ?_ (hpairs ▸ hname) fun p hp => ?_
    · rw [hw.struct_eq a hx, hw.struct_eq b hy, hw.length_eq a hx, hw.length_eq b hy, hl]
    · rw [hw.struct_eq a hx, hw.struct_eq b hy]
      exact ihctor (hw.ctor a hx) (hw.ctor b hy) fun h => hf (.ctor h)
    · rw [hpairs] at hp
      obtain ⟨hpa, hpb⟩ := List.of_mem_zip hp
      exact ihfield p hp (hw.field a hx _ hpa) (hw.field b hy _ hpb) fun h => hf (.field hpa h)

theorem Founded.stands {s : StructId} (h : w.Founded s) (hs : C (.struct s)) : w'.Founded s := by
  refine ⟨?_, ?_⟩
  · rw [hw.struct_eq s hs]
    exact h.ctor
  · rw [hw.fields_eq hs]
    exact h.fields

end

section
variable (hw : Stands w.Owns w w')
include hw

theorem filedKey_stands (hsize : w.structs.size ≤ w'.structs.size) {a : UInt32} {x : kind.Key} (hx : w.OwnsKey x)
    (h : w.FiledKey a x) : w'.FiledKey a x := by
  cases kind with
  | any =>
    rcases h with h | ⟨b, hb, hab⟩
    · exact .inl (h.stands hw hx)
    · exact .inr ⟨b, hashOf_stands hw hx (by omega) hb, hab⟩
  | text => exact h

theorem unlikeKey_stands {x y : kind.Key} (hx : w.OwnsKey x) (hy : w.OwnsKey y) (h : w.UnlikeKey x y) :
    w'.UnlikeKey x y := by
  cases kind with
  | any =>
    rcases h with h | h | h
    · exact .inl (h.stands hw hx)
    · exact .inr (.inl (h.stands hw hy))
    · by_cases hf : w'.Fluid x
      · exact .inl hf
      · exact .inr (.inr fun heq => h (heq.stands hw.symm hx hy hf))
  | text => exact h

/-- **What is known of keys stays so.** -/
theorem Arranged.stands {keys : List (UInt32 × kind.Key)} (h : w.Arranged keys)
    (hsize : w.structs.size ≤ w'.structs.size) (hown : ∀ r ∈ keys, w.OwnsKey r.2) : w'.Arranged keys := by
  refine ⟨fun r hr => filedKey_stands hw hsize (hown r hr) (h.filed r hr), h.unlike.imp_of_mem ?_⟩
  intro r s hr hs hrs
  exact unlikeKey_stands hw (hown s hs) (hown r hr) hrs

end

theorem Arranged.sublist {keys keys' : List (UInt32 × kind.Key)} (h : w.Arranged keys) (hs : keys'.Sublist keys) :
    w.Arranged keys' := ⟨fun r hr => h.filed r (hs.subset hr), h.unlike.sublist hs⟩

/-- One more key, under its hash, that is not equal to the others. -/
theorem Arranged.append {keys : List (UInt32 × kind.Key)} (h : w.Arranged keys) {a : UInt32} {x : kind.Key}
    (hx : w.FiledKey a x) (hnew : ∀ r ∈ keys, w.UnlikeKey x r.2) : w.Arranged (keys ++ [(a, x)]) := by
  refine ⟨fun r hr => ?_, List.pairwise_append.2 ⟨h.unlike, List.pairwise_singleton _ _, fun r hr s hs => ?_⟩⟩
  · rcases List.mem_append.1 hr with hr | hr
    · exact h.filed r hr
    · rw [List.mem_singleton.1 hr]
      exact hx
  · rw [List.mem_singleton.1 hs]
    exact hnew r hr

/-- **Order is kept** if what was there stands, tables lose keys at most or are in order by themselves, and new
structs are made of what was there. -/
theorem Orderly.stands (ho : w.Orderly) (h : w.Sound I) (hw : Stands w.Owns w w')
    (hsize : w.structs.size ≤ w'.structs.size)
    (htables : ∀ {kind : KeyKind} (t : TableId kind),
      (w'.table t).storedKeys.Sublist (w.table t).storedKeys ∨ w'.Arranged (w'.table t).storedKeys)
    (hnew : ∀ s : StructId, w.structs.size ≤ s.index → s.index < w'.structs.size → w'.Founded s) : w'.Orderly := by
  refine ⟨fun s hs => ?_, fun t => ?_⟩
  · rcases Nat.lt_or_ge s.index w.structs.size with hlt | hge
    · exact (ho.founded s hlt).stands hw hlt
    · exact hnew s hge hs
  · rcases htables t with hsub | harr
    · exact ((ho.arranged t).stands hw hsize fun r hr => ownsKey_of_stored h hr).sublist hsub
    · exact harr

theorem stands_of_same (h : w.Sound I) (hs : SameStores w w') : Stands w.Owns w w' :=
  ⟨fun s _ => hs.struct s, fun _ _ => hs.items _, fun _ _ => hs.length _, fun s hs => h.ctors s hs,
    fun _ _ item hm => (h.items _ item hm).2⟩

theorem Orderly.same (ho : w.Orderly) (h : w.Sound I) (hs : SameStores w w') : w'.Orderly := by
  refine ho.stands h (stands_of_same h hs) (by rw [hs.structs]) (fun t => .inl ?_) fun s hge hlt => ?_
  · rw [Table.storedKeys, (hs.tables t).kept.records_eq, Table.storedKeys]
  · rw [hs.structs] at hlt
    omega

/-! ## Computations that keep order -/

/-- A run of steps that respects all structs there are and keeps order. -/
structure Orders (I : Inventory ε) (w w' : World ε) : Prop where
  passes : Passes I w w'
  keeps : w.Sound I → w.Orderly → w'.Orderly

theorem Orders.sound (h : Orders I w w') (hs : w.Sound I) : w'.Sound I := Evolves.sound h.passes hs

theorem Orders.within (h : Orders I w w') : Within w w' := Evolves.within h.passes

theorem Orders.stands (h : Orders I w w') (hs : w.Sound I) : Stands w.Owns w w' := stands_of_evolves hs h.passes

theorem Orders.of_same (hp : Passes I w w') (hs : SameStores w w') : Orders I w w' :=
  ⟨hp, fun h ho => ho.same h hs⟩

end World

instance : BySteps I (Orders (ε := ε) I) where
  outside h := .of_same (Course.outside h) (.of_alike h)
  trans h h' := ⟨Course.trans h.passes h'.passes, fun hs ho => h'.keeps (h.sound hs) (h.keeps hs ho)⟩
  bracket {w w' kind} t ht hf h := by
    refine ⟨Course.bracket t ht hf h.passes, fun hs ho => ?_⟩
    have hheld : (w.held t).Sound I := hs.held t ht
    have ho' := h.keeps hheld (ho.same hs ((SameStores.refl w).held t))
    exact ho'.same (h.sound hheld) (.flags t (fun t => { t with holds := t.holds - 1 }) fun _ => .flags _ _ _)
  evolves h ho := BySteps.evolves h ho.passes

end ValueCore
