import Mathlib.Data.Finset.Card
import Mathlib.Logic.Relation
import ValueCore.Proofs.World.Evolution

/-!
# Containers

Dicts and structs are the containers of a world. A path through containers that meets none of them twice is no longer
than there are containers (`Path.length_le`): that is why walks that stop at what they have met before come to an end.

What is in a container is told for the table that it keeps it in (`Content`) and for the container itself (`Inside`). The
constructor of a struct is not in it, in this sense: it is a part that freezing leaves alone.
-/

namespace ValueCore

/-- A dict or a struct. -/
def Value.Container : Value → Prop
  | .dict _ | .struct _ => True
  | _ => False

/-- Different numbers below `n` are no more than `n`. -/
theorem length_le_of_lt {l : List Nat} {n : Nat} (hl : l.Nodup) (hn : ∀ i ∈ l, i < n) : l.length ≤ n := by
  have hsub : l.toFinset ⊆ Finset.range n := fun i hi => Finset.mem_range.2 (hn i (List.mem_toFinset.1 hi))
  have hcard := Finset.card_le_card hsub
  rwa [List.toFinset_card_of_nodup hl, Finset.card_range] at hcard

namespace World

variable {ε : Type} {w w' : World ε} {kind : KeyKind} {I : Inventory ε} {n : Nat}

/-! ## Paths -/

/-- Different containers that are there. -/
structure Path (w : World ε) (path : List Value) : Prop where
  nodup : path.Nodup
  container : ∀ x ∈ path, x.Container
  owns : ∀ x ∈ path, w.Owns x

/-- Containers are numbered, the structs after the dicts. -/
def number (w : World ε) : Value → Nat
  | .dict t => t.index
  | .struct s => w.anyTables.size + s.index
  | _ => 0

theorem number_lt {x : Value} (hc : x.Container) (hx : w.Owns x) : w.number x < w.containers := by
  cases x with
  | none | bool | int | float | str | host => exact hc.elim
  | dict t =>
    have ht : t.index < w.anyTables.size := hx
    show t.index < w.anyTables.size + _
    omega
  | struct s => exact Nat.add_lt_add_left hx _

theorem number_injective {x y : Value} (hx : x.Container) (hy : y.Container) (ox : w.Owns x) (oy : w.Owns y)
    (h : w.number x = w.number y) : x = y := by
  cases x with
  | none | bool | int | float | str | host => exact hx.elim
  | dict t =>
    have ht : t.index < w.anyTables.size := ox
    cases y with
    | none | bool | int | float | str | host => exact hy.elim
    | dict u => exact congrArg Value.dict (congrArg TableId.mk h)
    | struct s => exact absurd (show t.index = w.anyTables.size + s.index from h) (by omega)
  | struct s =>
    cases y with
    | none | bool | int | float | str | host => exact hy.elim
    | dict u =>
      have hu : u.index < w.anyTables.size := oy
      exact absurd (show w.anyTables.size + s.index = u.index from h) (by omega)
    | struct u => exact congrArg Value.struct (congrArg StructId.mk (Nat.add_left_cancel h))

namespace Path

variable {path : List Value} {x : Value}

theorem nil (w : World ε) : w.Path [] := ⟨List.nodup_nil, nofun, nofun⟩

theorem cons (h : w.Path path) (hc : x.Container) (hx : w.Owns x) (hnew : x ∉ path) : w.Path (x :: path) :=
  ⟨List.nodup_cons.2 ⟨hnew, h.nodup⟩, List.forall_mem_cons.2 ⟨hc, h.container⟩, List.forall_mem_cons.2 ⟨hx, h.owns⟩⟩

theorem within (h : w.Path path) (hw : Within w w') : w'.Path path :=
  ⟨h.nodup, h.container, fun x hx => hw.owns (h.owns x hx)⟩

/-- **A path is no longer than there are containers.** -/
theorem length_le (h : w.Path path) : path.length ≤ w.containers := by
  have hnumbers : (path.map w.number).Nodup := h.nodup.map_on fun x hx y hy heq =>
    number_injective (h.container x hx) (h.container y hy) (h.owns x hx) (h.owns y hy) heq
  have hle := length_le_of_lt hnumbers (List.forall_mem_map.2 fun x hx => number_lt (h.container x hx) (h.owns x hx))
  rwa [List.length_map] at hle

end Path

/-- Containers are only added. -/
theorem Within.containers_le (h : Within w w') : w.containers ≤ w'.containers := by
  refine Nat.add_le_add ?_ h.size_le
  by_contra hlt
  have hlast : w'.Has (⟨w'.anyTables.size⟩ : TableId .any) := h.has _ (Nat.lt_of_not_le hlt)
  exact Nat.lt_irrefl _ hlast

/-! ## What is in a container -/

/-- The value is in the table, as a key or as a value. -/
def Content (w : World ε) : {kind : KeyKind} → TableId kind → Value → Prop
  | .any, t, x => ∃ item ∈ (w.table t).items, x = item.1 ∨ x = item.2
  | .text, t, x => ∃ item ∈ (w.table t).items, x = item.2

/-- The second value is a key or a value of the first, a dict, or in a field of the first, a struct. -/
inductive Inside (w : World ε) : Value → Value → Prop
  | key {t : TableId .any} {item : Value × Value} : item ∈ (w.table t).items → Inside w (.dict t) item.1
  | value {t : TableId .any} {item : Value × Value} : item ∈ (w.table t).items → Inside w (.dict t) item.2
  | field {s : StructId} {item : Bytes × Value} : item ∈ (w.table (w.struct s).fields).items →
    Inside w (.struct s) item.2

theorem Content.congr {t : TableId kind} {x : Value} (hc : w.Content t x)
    (h : (w'.table t).items = (w.table t).items) : w'.Content t x := by
  cases kind with
  | any =>
    obtain ⟨item, hm, hx⟩ := hc
    exact ⟨item, h ▸ hm, hx⟩
  | text =>
    obtain ⟨item, hm, hx⟩ := hc
    exact ⟨item, h ▸ hm, hx⟩

theorem Content.owns {t : TableId kind} {x : Value} (hc : w.Content t x) (h : w.Sound I) : w.Owns x := by
  cases kind with
  | any =>
    obtain ⟨item, hm, rfl | rfl⟩ := hc
    · exact (h.items t item hm).1
    · exact (h.items t item hm).2
  | text =>
    obtain ⟨item, hm, rfl⟩ := hc
    exact (h.items t item hm).2

/-! ## What is frozen -/

/-- The value is not a container that could be changed. -/
def Frozen (w : World ε) : Value → Prop
  | .dict t => (w.table t).frozen = true
  | .struct s => (w.table (w.struct s).fields).frozen = true
  | _ => True

instance (w : World ε) : DecidablePred w.Frozen
  | .dict t => Bool.decEq (w.table t).frozen true
  | .struct s => Bool.decEq (w.table (w.struct s).fields).frozen true
  | .none | .bool _ | .int _ | .float _ | .str _ | .host _ => .isTrue trivial

theorem has_of_frozen {t : TableId kind} (hf : (w.table t).frozen = true) : w.Has t := by
  by_contra hn
  rw [table_of_not_has t hn] at hf
  cases hf

/-- What is frozen stays as it is. -/
structure Hardens (w w' : World ε) : Prop where
  frozen : ∀ {kind : KeyKind} (t : TableId kind), (w.table t).frozen = true → (w'.table t).frozen = true
  items_eq : ∀ {kind : KeyKind} (t : TableId kind), (w.table t).frozen = true →
    (w'.table t).items = (w.table t).items
  struct_eq : ∀ s : StructId, w.Owns (.struct s) → w'.struct s = w.struct s

theorem Evolves.hardens (he : Evolves I n w w') (h : w.Sound I) : Hardens w w' :=
  ⟨fun _ hf => (he.frozen h (has_of_frozen hf) hf).1, fun _ hf => (he.frozen h (has_of_frozen hf) hf).2.items_eq,
    fun s hs => he.within.struct_eq s hs⟩

theorem hardens_letGo (t : TableId kind) (ht : w.Has t) : Hardens w (w.letGo t) :=
  ⟨fun u hf => (frozen_letGo t ht u).trans hf, fun u _ => (same_letGo t ht u).kept.items_eq,
    fun s _ => by simp only [struct, World.letGo, structs_modifyTable]⟩

theorem Frozen.hardens {x : Value} (hf : w.Frozen x) (hw : Hardens w w') (hx : w.Owns x) : w'.Frozen x := by
  cases x with
  | none | bool | int | float | str | host => trivial
  | dict t => exact hw.frozen t hf
  | struct s =>
    show (w'.table (w'.struct s).fields).frozen = true
    rw [hw.struct_eq s hx]
    exact hw.frozen _ hf

end World

end ValueCore
