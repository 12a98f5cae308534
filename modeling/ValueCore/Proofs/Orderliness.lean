import ValueCore.Proofs.Operations.Building
import ValueCore.Proofs.Operations.Ordering

/-!
# Reachable worlds are in order

What is left to look at are the operations that make something. New tables are empty, so there is no order among
their keys to be kept. A struct is made of values that are there, and its fields are inserted one after the other
into a table that nothing else knows of, so they are in order at once (`run_filledStruct`).

With that every operation keeps order (`Operation.orders`), whatever a program attempts and whatever its values do when
they are asked, and so every reachable world is in order (`Reachable.orderly`).
-/

namespace ValueCore

open World MapCall

variable {ε : Type} {I : Inventory ε} {w w' v : World ε} {kind : KeyKind} {t : TableId kind} {host : Host ε}

/-! ## Tables and dicts -/

theorem newTable_orders (h : w.Sound I) (kind : KeyKind) (hint : UInt32) :
    Along (Orders I) w (newTable kind hint) fun _ _ => True := by
  have hpass : Passes I w (newTable kind hint w).2 := (newTable_along (R := Evolves I w.structs.size) kind hint).ends
  refine .answer ⟨hpass, fun _ ho => ?_⟩
  rcases run_newTable kind hint w with ⟨v, hv, hr⟩ | ⟨v, heads, block, hv, hp, hr⟩
  · rw [hr]
    exact ho.same h (.of_alike hv)
  · rw [hr] at hpass ⊢
    have hstructs : (v.addTable kind (.withStorage heads heads block)).2.structs = w.structs :=
      (structs_addTable kind _).trans hv.structs
    refine ho.stands h (stands_of_evolves h hpass) (by rw [hstructs]) (fun {k} u => .inl ?_) fun s hge hlt => ?_
    · by_cases hu : (⟨k, u⟩ : TableRef) = ⟨kind, (v.addTable kind (.withStorage heads heads block)).1⟩
      · cases hu
        have hnew := Table.sound_withStorage (κ := kind.Key) block hp (Nat.le_refl heads)
        rw [table_addTable_self, Table.storedKeys, Table.records_of_order_nil (hnew.order_eq_nil rfl)]
        exact List.nil_sublist _
      · rw [table_addTable_of_ne kind _ u hu, hv.table u]
    · rw [hstructs] at hlt
      omega

theorem newDict_orders (h : w.Sound I) (hint : UInt32) : Along (Orders I) w (newDict hint) fun _ _ => True := by
  refine (Along.newObject (Q := fun _ _ => True) fun v hv => ?_).trivial
  exact newTable_orders (Step.sound (n := 0) h (.outside hv)) .any hint

theorem resizeTable_orders (h : w.Sound I) (hint : UInt32) (ht : w.Open t) (hlen : (w.table t).length = 0)
    (hh : (w.table t).holds = 0) : Along (Orders I) w (resizeTable t hint) fun _ _ => True := by
  refine resizeTable_along_of hint fun {v heads} block hv hp => ?_
  have hs : v.Sound I := Step.sound (n := 0) h (.outside hv)
  have hopen : v.Open t := (Step.outside (I := I) (n := 0) hv).within.opens ht
  rw [← hv.table t] at hlen hh
  have hkept := (hs.tables t).kept_resized block hp hlen
  refine orders_modify hopen.1 (.step (.resize t heads block hopen.1 hopen.2 hlen hh hp)) ?_
  rw [Table.storedKeys_of_records hkept.records_eq]

/-! ## Structs -/

theorem Keyed.arranged {t : TableId .text} (h : @Keyed ε .text textKeys t w) : w.Arranged (w.table t).storedKeys := by
  refine ⟨fun r hr => ?_, ?_⟩
  · obtain ⟨q, hq, rfl⟩ := List.mem_map.1 hr
    exact (h.hashed q hq).1
  · have hdistinct := h.distinct
    rw [Table.keys_eq, List.pairwise_map] at hdistinct
    refine List.pairwise_map.2 (hdistinct.imp fun {p q} hpq => ?_)
    exact fun heq => of_decide_eq_false hpq heq.symm

theorem below_of_owns {x : Value} (h : w.Owns x) : x.Below w.structs.size := by
  cases x with
  | struct s => exact h
  | none | bool | int | float | str | dict | host => trivial

/-- A new struct is made of what was there. -/
theorem filledStruct_orders (h : w.Sound I) {ctor : Value} (hctor : w.Owns ctor) (hint : Nat) {fields : List Field}
    (hown : OwnsFields w fields) : Orders I w (filledStruct ctor hint fields w).2 := by
  have hpass : Passes I w (filledStruct ctor hint fields w).2 :=
    (filledStruct_along (R := Evolves I w.structs.size) h (Nat.le_refl _) hctor hint hown).ends
  refine ⟨hpass, fun _ ho => ?_⟩
  rcases filledStruct_leaves ctor hint fields w with hv | ⟨s, done, hdone, hadds⟩
  · exact ho.same h (.of_alike hv)
  generalize (filledStruct ctor hint fields w).2 = v at hpass hadds ⊢
  refine ho.stands h (stands_of_evolves h hpass) (by rw [hadds.size]; omega) (fun {k} x => ?_) fun s' hge hlt => ?_
  · by_cases hx : (⟨k, x⟩ : TableRef) = ⟨.text, (v.struct s).fields⟩
    · cases hx
      exact .inr hadds.keyed.arranged
    · exact .inl (by rw [hadds.table x hx])
  · obtain rfl := hadds.eq_of_index hge hlt
    have hbelow : ∀ {x : Value}, w.Owns x → x.Below s'.index := fun hx => hadds.index ▸ below_of_owns hx
    refine ⟨?_, fun item hm => ?_⟩
    · rw [hadds.ctor]
      exact hbelow hctor
    · rw [hadds.items] at hm
      rcases mem_setFields done hm with hm | ⟨field, hf, heq⟩
      · cases hm
      · rw [heq]
        exact hbelow (hown field (hdone.subset hf))

instance : Building I (Orders I) where
  same := .of_same
  filled hint _ h hctor hown _ := filledStruct_orders h hctor hint hown

theorem structIntoDict_orders (hh : host.Follows I (Orders I)) (h : w.Sound I) (s : StructId) {d : TableId .any}
    (hd : w.Has d) : Along (Orders I) w (structIntoDict host s d) fun _ _ => True :=
  structIntoDict_along_of h hd fun _ hs hd hvalue =>
    insert_orders (valueKeying_follows hh) (valueKeying_tells host) hs (open_any.2 hd) trivial hvalue

/-! ## Operations -/

/-- **Every operation keeps order.** -/
theorem Operation.orders (hh : host.Follows I (Orders I)) (hf : host.Freezes I (Orders I)) (h : w.Sound I)
    (op : Operation) (hv : op.Valid w) : Orders I w (op.run host w).2 := by
  by_cases hc : op.Changes
  · cases op with
    | newTable kind hint => exact (newTable_orders h kind hint).discard
    | resize t hint => exact (resizeTable_orders h hint hv.1 hv.2.1 hv.2.2).ends
    | insert t key value =>
      exact (insert_orders (keyingOf_follows hh _) (keyingOf_tells host _) h hv.1 hv.2.1 hv.2.2).ends
    | erase t key => exact (erase_orders (keyingOf_follows hh _) h hv.1 hv.2).discard
    | clear t => exact (clear_orders h hv).ends
    | newDict hint => exact (newDict_orders h hint).discard
    | createStruct ctor fields => exact (createStruct_builds h hv.1 hv.2).discard
    | makeStruct positional fields => exact (makeStruct_builds h positional hv).discard
    | mergeStructs x y => exact (mergeStructs_builds hh h hv.1 hv.2).discard
    | intoDict s d => exact (structIntoDict_orders hh h s hv.2).ends
    | _ => exact False.elim hc
  · exact op.along hh h hv hc (op.freezes_along hf h hv)

/-! ## Reachable worlds -/

theorem World.Bare.orderly (hb : w.Bare I) : w.Orderly := by
  refine ⟨fun s hs => ?_, fun t => ?_⟩
  · simp [hb.structs] at hs
  · rw [hb.table_eq t, Table.storedKeys, Table.records_of_order_nil (Table.sound_empty.order_eq_nil rfl)]
    refine ⟨fun r hr => ?_, .nil⟩
    cases hr

/-- **Reachable worlds are in order.** -/
theorem Reachable.orderly (hr : Reachable I w) : w.Orderly := by
  obtain ⟨w₀, hb, ha⟩ := hr
  have hop : ∀ {host : Host ε} {v : World ε} (op : Operation), Civil I host → v.Sound I → op.Valid v →
      Orders I v (op.run host v).2 := fun op hc hs hv => by
    obtain ⟨hfollows, hfreezes⟩ := hc.builds fun op hh hf h hv => op.orders hh hf h hv
    exact op.orders hfollows hfreezes hs hv
  exact (ha.builds hop hb.sound).keeps hb.sound hb.orderly

end ValueCore
