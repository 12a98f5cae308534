import Mathlib.Logic.Relation
import ValueCore.Proofs.World.Plain

/-!
# The parts of a value

The parts of a dict are its keys and values, those of a struct its constructor and the values of its fields. What
can be reached from a value through parts is all that hashing, comparing and writing it may come to. In
particular, a value that reaches none of the host's (`World.HostFree`) lies in a region without such values,
whatever else there is in the world.
-/

namespace ValueCore.World

open Relation (ReflTransGen)

variable {ε : Type} {w v : World ε} {x y z : Value}

/-- The second value is a part of the first. -/
inductive Part (w : World ε) : Value → Value → Prop
  | key {t : TableId .any} {item : Value × Value} : item ∈ (w.table t).items → Part w (.dict t) item.1
  | value {t : TableId .any} {item : Value × Value} : item ∈ (w.table t).items → Part w (.dict t) item.2
  | ctor (s : StructId) : Part w (.struct s) (w.struct s).ctor
  | field {s : StructId} {item : Bytes × Value} : item ∈ (w.table (w.struct s).fields).items →
    Part w (.struct s) item.2

/-- The second value is reached from the first through parts. -/
def Reaches (w : World ε) : Value → Value → Prop := ReflTransGen w.Part

/-- The parts of a value. -/
def parts (w : World ε) : Value → List Value
  | .dict t => (w.table t).items.flatMap fun item => [item.1, item.2]
  | .struct s => (w.struct s).ctor :: (w.table (w.struct s).fields).items.map (·.2)
  | _ => []

theorem mem_parts : y ∈ w.parts x ↔ w.Part x y := by
  constructor
  · intro hm
    cases x with
    | dict t =>
      obtain ⟨item, hi, hm⟩ := List.mem_flatMap.1 hm
      rcases List.mem_pair.1 hm with rfl | rfl
      · exact .key hi
      · exact .value hi
    | struct s =>
      rcases List.mem_cons.1 hm with rfl | hm
      · exact .ctor s
      · obtain ⟨item, hi, rfl⟩ := List.mem_map.1 hm
        exact .field hi
    | _ => cases hm
  · intro hp
    cases hp with
    | key hi => exact List.mem_flatMap.2 ⟨_, hi, List.mem_cons_self⟩
    | value hi => exact List.mem_flatMap.2 ⟨_, hi, List.mem_cons_of_mem _ List.mem_cons_self⟩
    | ctor s => exact List.mem_cons_self
    | field hi => exact List.mem_cons_of_mem _ (List.mem_map.2 ⟨_, hi, rfl⟩)

/-- What is reached from a list of values that has all parts of its values is in it. -/
theorem Reaches.mem {l : List Value} (hl : ∀ z ∈ l, ∀ p ∈ w.parts z, p ∈ l) (hx : x ∈ l) (hr : w.Reaches x y) :
    y ∈ l := by
  induction hr with
  | refl => exact hx
  | tail _ hp ih => exact hl _ ih _ (mem_parts.2 hp)

/-- None of the host's values is reached. -/
def HostFree (w : World ε) (x : Value) : Prop := ∀ y, w.Reaches x y → y.Plain

/-- The tables have the same keys and values, and the structs are the same. How the tables store what they have may differ. -/
structure SameItems (w v : World ε) : Prop where
  items : ∀ {kind : KeyKind} (t : TableId kind), (v.table t).items = (w.table t).items
  structs : v.structs = w.structs

namespace SameItems

theorem symm (h : SameItems w v) : SameItems v w := ⟨fun t => (h.items t).symm, h.structs.symm⟩

theorem trans {u : World ε} (h : SameItems w v) (h' : SameItems v u) : SameItems w u :=
  ⟨fun t => (h'.items t).trans (h.items t), h'.structs.trans h.structs⟩

theorem of_stores (h : SameStores w v) : SameItems w v := ⟨h.items, h.structs⟩

theorem modify {kind : KeyKind} {t : TableId kind} (ht : w.Has t) (f : Table kind.Key → Table kind.Key)
    (h : (f (w.table t)).items = (w.table t).items) : SameItems w (w.modifyTable t f) :=
  ⟨table_modifyTable_cases t f ht (P := fun u T => T.items = (w.table u).items) h fun _ _ => rfl, structs_modifyTable t f⟩

theorem struct (h : SameItems w v) (s : StructId) : v.struct s = w.struct s := by simp only [World.struct, h.structs]

end SameItems

theorem Part.sameItems (h : SameItems w v) (hp : w.Part x y) : v.Part x y := by
  cases hp with
  | @key t item hm =>
    rw [← h.items t] at hm
    exact .key hm
  | @value t item hm =>
    rw [← h.items t] at hm
    exact .value hm
  | ctor s =>
    rw [← h.struct s]
    exact .ctor s
  | @field s item hm =>
    refine .field (s := s) ?_
    rw [h.struct s, h.items]
    exact hm

theorem Reaches.sameItems (h : SameItems w v) (hr : w.Reaches x y) : v.Reaches x y :=
  ReflTransGen.mono (fun _ _ hp => Part.sameItems h hp) _ _ hr

theorem HostFree.sameItems (h : SameItems w v) (hx : w.HostFree x) : v.HostFree x := fun y hr => hx y (hr.sameItems h.symm)

theorem HostFree.same (h : SameStores w v) (hx : w.HostFree x) : v.HostFree x := hx.sameItems (.of_stores h)

theorem HostFree.part (h : w.HostFree x) (hp : w.Part x y) : w.HostFree y := fun z hz => h z (.head hp hz)

theorem HostFree.not_hosted (h : w.HostFree x) : ¬ w.Hosted x := by
  intro hh
  induction hh with
  | host i => exact h _ .refl
  | field hm _ ih => exact ih (h.part (.field hm))

/-- If there are no values of the host then none is reached. -/
theorem Plain.hostFree (h : w.Plain) (hx : x.Plain) : w.HostFree x := by
  intro y hr
  induction hr with
  | refl => exact hx
  | tail _ hp _ =>
    cases hp with
    | key hm => exact (h.items _ _ hm).1
    | value hm => exact (h.items _ _ hm).2
    | ctor s => exact h.ctors s
    | field hm => exact (h.items _ _ hm).2

/-- **Values that reach none of the host's make up a region.** -/
theorem region_hostFree (h : ∀ {kind : KeyKind} (t : TableId kind), (w.table t).Sound) : w.Region w.HostFree :=
  ⟨h, fun hx => hx _ .refl, fun hx _ hm => ⟨hx.part (.key hm), hx.part (.value hm)⟩, fun hx => hx.part (.ctor _),
    fun hx _ hm => hx.part (.field hm)⟩

variable {I : Inventory ε}

/-- The parts of what is there are there. -/
theorem Part.owns (hp : w.Part x y) (h : w.Sound I) (hx : w.Owns x) : w.Owns y := by
  cases hp with
  | key hm => exact (h.items _ _ hm).1
  | value hm => exact (h.items _ _ hm).2
  | ctor s => exact h.ctors s hx
  | field hm => exact (h.items _ _ hm).2

/-- So do those of them that are there. -/
theorem region_free (h : w.Sound I) : w.Region fun x => w.HostFree x ∧ w.Owns x := by
  have hfree : w.Region w.HostFree := region_hostFree h.tables
  exact ⟨h.tables, fun hx => hfree.plain hx.1,
    fun hx _ hm => ⟨⟨hx.1.part (.key hm), (Part.key hm).owns h hx.2⟩, ⟨hx.1.part (.value hm), (Part.value hm).owns h hx.2⟩⟩,
    fun hx => ⟨hx.1.part (.ctor _), (Part.ctor _).owns h hx.2⟩,
    fun hx _ hm => ⟨hx.1.part (.field hm), (Part.field hm).owns h hx.2⟩⟩

end ValueCore.World
