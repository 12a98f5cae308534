import ValueCore.Proofs.Collation
import ValueCore.Proofs.Merging
import ValueCore.Proofs.Operations.ViewBuilding
import ValueCore.Proofs.Orderliness

/-!
# Conversions agree

The fields of a struct are kept in a table of byte strings, and can be put into a view and into a dict. The three stores
hash, chain and compare keys in different ways, and the answers are the same:

| store | the fields are | a name is looked up with |
| --- | --- | --- |
| the table of the struct | in ascending order, as they were set | `hasField`, `requireField` |
| a view of it | in ascending order, as they were sorted | `View.get?` |
| a dict that was empty | in ascending order, as they were inserted | `lookup` |

What holds of the view of a struct holds of the view of any table of byte strings, frozen or held as it may be. A dict that
was not empty keeps its other entries, whatever their keys are: names are not compared with them (`putFields_eq`).
-/

namespace ValueCore

open World
open MapCall (assign valueOf)

variable {ε : Type} {I : Inventory ε} {w u : World ε} {host : Host ε} {s : StructId} {d : TableId .any}

/-! ## Fields among other items -/

/-- The items of a dict after fields were put into it, one after the other. -/
def putFields (fields : List Field) (items : List (Value × Value)) : List (Value × Value) :=
  fields.foldl (fun items field => assign Value.same (.str field.1) field.2 items) items

/-- The item of the same key afterwards: that of a field has its value, any other one stays. -/
def overwritten (fields : List Field) : Value × Value → Value × Value
  | (.str name, value) => (.str name, (fields.lookup name).getD value)
  | item => item

/-- The item that a field becomes. -/
def Field.item (field : Field) : Value × Value := (.str field.1, field.2)

theorem same_str (name : Bytes) (k : Value) : (Value.str name).same k = decide (.str name = k) := by
  cases k <;> rfl

/-- No name is the key of two items. -/
def NamesOnce (items : List (Value × Value)) : Prop :=
  items.Pairwise fun a b => ∀ name, a.1 = .str name → b.1 ≠ .str name

theorem Table.Files.namesOnce {T : Table Value} (h : T.Files scalarKeys) : NamesOnce T.items := by
  have hd : (T.records.map fun r => (r.1, r.2.1)).Pairwise _ := h.distinct
  rw [NamesOnce, Table.items_eq]
  refine List.pairwise_map.2 ((List.pairwise_map.1 hd).imp fun {r q} hne name hr hq => ?_)
  have hsame := hne (by rw [hr]; trivial) (by rw [hq]; trivial)
  dsimp only at hsame hr hq
  rw [hr, hq] at hsame
  exact Bool.false_ne_true (hsame.symm.trans ((same_str name _).trans (decide_eq_true rfl)))

@[simp] theorem overwritten_fst (fields : List Field) (item : Value × Value) : (overwritten fields item).1 = item.1 := by
  obtain ⟨k, x⟩ := item
  cases k <;> rfl

theorem overwritten_of_ne {fields : List Field} {item : Value × Value} (h : ∀ f ∈ fields, item.1 ≠ .str f.1) :
    overwritten fields item = item := by
  obtain ⟨k, x⟩ := item
  cases k with
  | str name =>
    have hnone : fields.lookup name = none := List.lookup_eq_none_iff.2 fun f hf => by
      simpa using fun heq : name = f.1 => h f hf (congrArg Value.str heq)
    simp [overwritten, hnone]
  | none | bool | int | float | dict | struct | host => rfl

/-- Fields are put into an item one after the other. -/
theorem overwritten_cons {field : Field} {fields : List Field} (hnew : field.1 ∉ fields.map (·.1)) (item : Value × Value) :
    overwritten fields (overwritten [field] item) = overwritten (field :: fields) item := by
  obtain ⟨k, x⟩ := item
  cases k with
  | str name =>
    obtain ⟨n, value⟩ := field
    simp only [overwritten, lookup_field_cons, List.lookup_nil]
    by_cases hname : name = n
    · subst hname
      have hnone : fields.lookup name = none := by
        rw [← Option.not_isSome_iff_eq_none, ← mem_names_iff]
        exact hnew
      simp [hnone]
    · simp [hname]
  | none | bool | int | float | dict | struct | host => rfl

/-- Setting one field: the item of its name is overwritten, or there is a new one at the end. -/
theorem assign_str (field : Field) : ∀ {items : List (Value × Value)}, NamesOnce items →
    assign Value.same (.str field.1) field.2 items =
      items.map (overwritten [field]) ++ if .str field.1 ∈ items.map (·.1) then [] else [field.item]
  | [], _ => rfl
  | (k, x) :: items, h => by
    obtain ⟨hk, hitems⟩ := List.pairwise_cons.1 h
    unfold assign
    rw [same_str]
    by_cases heq : Value.str field.1 = k
    · subst heq
      have hrest : items.map (overwritten [field]) = items := by
        refine (List.map_congr_left fun item hm => overwritten_of_ne fun f hf => ?_).trans (List.map_id _)
        obtain rfl := List.mem_singleton.1 hf
        exact hk item hm _ rfl
      have hself : overwritten [field] (.str field.1, x) = (.str field.1, field.2) := by
        rw [overwritten, show [field] = [(field.1, field.2)] from rfl, lookup_field_cons, if_pos rfl]
        rfl
      rw [decide_eq_true rfl, if_pos rfl, List.map_cons, hself, hrest, if_pos (by simp), List.append_nil]
    · have hself : overwritten [field] (k, x) = (k, x) := overwritten_of_ne fun f hf => by
        obtain rfl := List.mem_singleton.1 hf
        exact Ne.symm heq
      have hmem : Value.str field.1 ∈ ((k, x) :: items).map (·.1) ↔ Value.str field.1 ∈ items.map (·.1) := by
        rw [List.map_cons, List.mem_cons, or_iff_right heq]
      rw [decide_eq_false heq, if_neg Bool.false_ne_true, assign_str field hitems, List.map_cons, hself, List.cons_append]
      simp only [hmem]

/-- **Putting fields into a dict**, as one operation: other items stay in their places, those of the names get the values of
the fields, and there is a new one for each further name, in the order of the fields. -/
theorem putFields_eq : ∀ {fields : List Field} {items : List (Value × Value)}, (fields.map (·.1)).Nodup → NamesOnce items →
    putFields fields items = items.map (overwritten fields) ++
      (fields.filter fun field => .str field.1 ∉ items.map (·.1)).map Field.item
  | [], items, _, _ => by
    have hsame : items.map (overwritten []) = items :=
      (List.map_congr_left fun item _ => overwritten_of_ne fun f hf => absurd hf List.not_mem_nil).trans (List.map_id _)
    rw [hsame]
    exact (List.append_nil items).symm
  | field :: fields, items, hd, hitems => by
    obtain ⟨hnew, hd⟩ := List.nodup_cons.1 hd
    have hkeys : (items.map (overwritten [field])).map (·.1) = items.map (·.1) := by simp
    have hover : (items.map (overwritten [field])).map (overwritten fields) = items.map (overwritten (field :: fields)) := by
      rw [List.map_map]
      exact List.map_congr_left fun item _ => overwritten_cons hnew item
    have hmapped : NamesOnce (items.map (overwritten [field])) := by
      refine List.pairwise_map.2 (hitems.imp fun {a b} h => ?_)
      simpa using h
    show putFields fields (assign Value.same (.str field.1) field.2 items) = _
    rw [assign_str field hitems]
    by_cases hmem : Value.str field.1 ∈ items.map (·.1)
    · rw [if_pos hmem, List.append_nil, putFields_eq hd hmapped, hover, hkeys, List.filter_cons_of_neg (by simpa using hmem)]
    · have honce : NamesOnce (items.map (overwritten [field]) ++ [field.item]) := by
        refine List.pairwise_append.2 ⟨hmapped, List.pairwise_singleton _ _, fun a ha b hb name hname heq => ?_⟩
        rw [List.mem_singleton.1 hb] at heq
        refine hmem ?_
        rw [show Value.str field.1 = a.1 from heq.trans hname.symm, ← hkeys]
        exact List.mem_map_of_mem ha
      have hne : ∀ f ∈ fields, f.1 ≠ field.1 := fun f hf heq => hnew (List.mem_map.2 ⟨f, hf, heq⟩)
      have hself : overwritten fields field.item = field.item := overwritten_of_ne fun f hf heq =>
        hne f hf (Value.str.inj heq).symm
      have hfilter : (fields.filter fun f => .str f.1 ∉ (items.map (overwritten [field]) ++ [field.item]).map (·.1)) =
          fields.filter fun f => .str f.1 ∉ items.map (·.1) := by
        refine List.filter_congr fun f hf => ?_
        have hother : Value.str f.1 ∉ [field.item].map (·.1) := fun hm =>
          hne f hf (Value.str.inj (List.mem_singleton.1 hm))
        rw [List.map_append, hkeys]
        exact decide_eq_decide.2 (not_congr (List.mem_append.trans (or_iff_left hother)))
      rw [if_neg hmem, putFields_eq hd honce, hfilter, List.map_append, hover, List.map_singleton, hself,
        List.filter_cons_of_pos (by simpa using hmem)]
      simp

/-! ## Into a dict -/

/-- Inserts fields into a dict, in the order given. -/
def insertFields (host : Host ε) (d : TableId .any) (fields : List Field) : Run ε Unit :=
  fields.forM fun field => insert (valueKeying host) d (.str field.1) field.2

theorem insertFields_cons (field : Field) (fields : List Field) : insertFields host d (field :: fields) =
    (insert (valueKeying host) d (.str field.1) field.2 >>= fun _ => insertFields host d fields) := rfl

theorem structIntoDict_eq (host : Host ε) (s : StructId) (d : TableId .any) (w : World ε) :
    structIntoDict host s d w = insertFields host d (w.fields s) w := by
  unfold structIntoDict
  rw [run_bind_ok (run_fieldsOf s w)]
  rfl

/-- Inserting fields puts them into the list of items: all of them, or the first few if there is no memory for more. -/
theorem run_insertFields (host : Host ε) : ∀ (fields : List Field) {items : List (Value × Value)} {v : World ε},
    @Stores ε .any scalarKeys d w items v →
      ∃ done u, done <+: fields ∧ @Stores ε .any scalarKeys d w (putFields done items) u ∧
        (insertFields host d fields v = (.ok (), u) ∧ done = fields ∨
          insertFields host d fields v = (.error (.raised .memory), u))
  | [], _, v, h => ⟨[], v, List.nil_prefix, h, .inl ⟨rfl, rfl⟩⟩
  | field :: fields, items, v, h => by
    rw [insertFields_cons]
    rcases h.run_insert (unasked_scalar host (x := .str field.1) trivial) field.2 with ⟨u, hr, hu⟩ | ⟨u, hr, hu⟩
    · exact ⟨[], u, List.nil_prefix, hu, .inr (run_bind_error hr _)⟩
    · obtain ⟨done, x, hdone, hx, hend⟩ := run_insertFields host fields hu
      refine ⟨field :: done, x, List.cons_prefix_cons.2 ⟨rfl, hdone⟩, hx, ?_⟩
      rw [run_bind_ok hr]
      rcases hend with ⟨hr, rfl⟩ | hr
      · exact .inl ⟨hr, rfl⟩
      · exact .inr hr

/-- From `w` to `u` some fields were put into dict `d`, and nothing else has changed. -/
structure World.Receives (w : World ε) (d : TableId .any) (fields : List Field) (u : World ε) : Prop where
  beside : Beside d w u
  files : (u.table d).Files scalarKeys
  items : (u.table d).items = putFields fields (w.table d).items

section
variable (ho : w.Orderly) (hs : (w.table d).Sound) (hd : w.Has d)
include ho hs hd

theorem run_structIntoDict (host : Host ε) (s : StructId) (hf : (w.table d).frozen = false) (hh : (w.table d).holds = 0) :
    (∃ u, structIntoDict host s d w = (.ok (), u) ∧ w.Receives d (w.fields s) u) ∨
    ∃ u, structIntoDict host s d w = (.error (.raised .memory), u) := by
  have hstores : @Stores ε .any scalarKeys d w (w.table d).items w :=
    ⟨ho.files_scalar hs, hd, hf, hh, .refl d w, rfl⟩
  rw [structIntoDict_eq]
  obtain ⟨done, u, -, hu, ⟨hr, rfl⟩ | hr⟩ := run_insertFields host (w.fields s) hstores
  · exact .inl ⟨u, hr, hu.beside, hu.files, hu.items⟩
  · exact .inr ⟨u, hr⟩

/-- **What comes of putting the fields of a struct into a dict** that is not refused. -/
theorem receives_of_intoDict (hr : structIntoDict host s d w = (.ok (), u)) : w.Receives d (w.fields s) u := by
  have hrun := structIntoDict_eq host s d w
  cases hfields : w.fields s with
  | nil =>
    -- a struct without fields goes into any dict
    rw [hrun, hfields] at hr
    cases hr
    exact ⟨.refl d w, ho.files_scalar hs, rfl⟩
  | cons field rest =>
    have hopen : (w.table d).frozen = false ∧ (w.table d).holds = 0 := by
      rw [hrun, hfields, insertFields_cons] at hr
      obtain ⟨_, x, hinsert, -⟩ := run_bind_eq_ok hr
      obtain ⟨_, y, hcheck, -⟩ := run_bind_eq_ok hinsert
      cases hf : (w.table d).frozen with
      | true =>
        rw [run_checkMutable_frozen .insert hf] at hcheck
        cases hcheck
      | false =>
        refine ⟨rfl, Nat.eq_zero_of_not_pos fun hpos => ?_⟩
        rw [run_checkMutable_held .insert hf hpos] at hcheck
        cases hcheck
    rcases run_structIntoDict ho hs hd host s hopen.1 hopen.2 with ⟨v, hv, hall⟩ | ⟨v, hv⟩
    · cases hv.symm.trans hr
      exact hfields ▸ hall
    · cases hv.symm.trans hr

end

/-- A name is found among fields that were put into a dict as it is among the fields. -/
theorem valueOf_item (name : Bytes) : ∀ fields : List Field,
    valueOf Value.same (.str name) (fields.map Field.item) = fields.lookup name
  | [] => rfl
  | (n, x) :: fields => by
    rw [lookup_field_cons, ← valueOf_item name fields]
    by_cases h : name = n <;> simp [valueOf, Field.item, same_str, h]

/-! ## Into a view -/

theorem World.Shows.get?_eq {v : ViewId} {l : List Field} (h : u.Shows v l) (name : Bytes) :
    (u.view v).get? name = l.lookup name := by
  rw [run_get? (l := ⟨l, h.distinct⟩) h, ← valueOf_eq_lookup, Pairs.get?, valueOf]
  simp only [textKeys, eq_comm]

/-- In `u` the view `v` has the pairs of table `t`, in ascending order, and answers as the table does. -/
structure World.Presents (w : World ε) (t : TableId .text) (u : World ε) (v : ViewId) : Prop where
  alike : Alike w u
  pairs : (u.view v).items.Perm (w.table t).items
  ascending : StrictlyAscending (u.view v).items
  answers : ∀ name, lookup textKeying t name w = (.ok ((u.view v).get? name), w) ∧
    lookup textKeying t name u = (.ok ((u.view v).get? name), u)

theorem lookup_text {t : TableId .text} (hf : (w.table t).Files textKeys) (name : Bytes) :
    lookup textKeying t name w = (.ok ((w.table t).items.lookup name), w) := by
  rw [run_lookup_unasked (unasked_text name) hf, valueOf_eq_lookup]

/-- What makes a view of table `t` presents the table, or there is no memory. If the limit admits as many entries, then
nothing but a refused request is in the way. -/
structure World.Viewable (w : World ε) (t : TableId .text) (make : Run ε ViewId) : Prop where
  outcome : (∃ u, make w = (.error (.raised .memory), u)) ∨ ∃ v u, make w = (.ok v, u) ∧ w.Presents t u v
  spends : overloaded (w.table t).length maxHeads = false → w.Spends make

theorem World.Viewable.presents {t : TableId .text} {make : Run ε ViewId} {v : ViewId} (h : w.Viewable t make)
    (hr : make w = (.ok v, u)) : w.Presents t u v := by
  rcases h.outcome with ⟨x, hx⟩ | ⟨v', x, hx, hpresents⟩
  · cases hx.symm.trans hr
  · cases hx.symm.trans hr
    exact hpresents

theorem viewable_table {t : TableId .text} (hf : (w.table t).Files textKeys) : w.Viewable t (viewOfTable t) := by
  refine ⟨?_, spends_viewOfTable hf⟩
  rcases run_viewOfTable hf with ⟨u, -, hr⟩ | ⟨v, u, hu, hr, hshows⟩
  · exact .inl ⟨u, hr⟩
  obtain ⟨hperm, hascending⟩ := hf.entriesOf_sorted
  have hget : ∀ name, (u.view v).get? name = (w.table t).items.lookup name := fun name =>
    (hshows.get?_eq name).trans (lookup_perm hperm hascending.nodup name)
  have htable := hu.table t
  refine .inr ⟨v, u, hr, hu, by rw [hshows.items]; exact hperm, by rw [hshows.items]; exact hascending, fun name => ?_⟩
  rw [hget, lookup_text hf, lookup_text (w := u) (htable ▸ hf), htable]
  exact ⟨rfl, rfl⟩

theorem run_viewOfStruct (s : StructId) (w : World ε) : viewOfStruct s w = viewOfTable (w.struct s).fields w := by
  unfold viewOfStruct
  rw [run_bind_ok (run_get w)]

theorem viewable_struct (hf : (w.table (w.struct s).fields).Files textKeys) :
    w.Viewable (w.struct s).fields (viewOfStruct s) := by
  obtain ⟨houtcome, hspends⟩ := viewable_table hf
  exact ⟨by rw [run_viewOfStruct]; exact houtcome, fun hfit => .congr (run_viewOfStruct s w) (hspends hfit)⟩

/-! ## Conversions agree -/

/-- What the struct, a view of it and a dict made of it answer to a name. The dict may be asked by any host. -/
structure World.AgreesOn (w : World ε) (s : StructId) (name : Bytes) (answer : Option Value) : Prop where
  has : hasField s name w = (.ok answer.isSome, w)
  field : ∀ (host : Host ε) (x : Value), (requireField host s name w).1 = .ok x ↔ answer = some x
  view : ∀ v u, viewOfStruct s w = (.ok v, u) → (u.view v).get? name = answer
  dict : ∀ (host : Host ε) (d : TableId .any) (u : World ε), w.Has d → (w.table d).items = [] →
    structIntoDict host s d w = (.ok (), u) → ∀ asking : Host ε, lookup (valueKeying asking) d (.str name) u = (.ok answer, u)

theorem requireField_ok_iff (host : Host ε) (hf : (w.table (w.struct s).fields).Files textKeys) (name : Bytes) (x : Value) :
    (requireField host s name w).1 = .ok x ↔ (w.fields s).lookup name = some x := by
  have hfield : field? s name w = (.ok ((w.fields s).lookup name), w) := lookup_text hf name
  unfold requireField
  rw [run_bind_ok hfield]
  cases (w.fields s).lookup name with
  | some y => exact ⟨fun h => congrArg some (Except.ok.inj h), fun h => congrArg Except.ok (Option.some.inj h)⟩
  | none =>
    refine ⟨fun h => ?_, nofun⟩
    -- whatever is written of the constructor, an error follows
    obtain ⟨_, u, -, hr⟩ := run_bind_eq_ok (run_eq_of_answer h)
    dsimp only at hr
    split at hr <;>
    · obtain ⟨_, _, -, hraise⟩ := run_bind_eq_ok hr
      cases hraise

theorem answers_fields (hr : Reachable I w) (hs : w.Owns (.struct s)) (name : Bytes) :
    w.AgreesOn s name ((w.fields s).lookup name) := by
  have hsound := hr.sound
  have hf := hr.orderly.files_text (hsound.tables (w.struct s).fields)
  have hfield : field? s name w = (.ok ((w.fields s).lookup name), w) := lookup_text hf name
  refine ⟨?_, fun host x => requireField_ok_iff host hf name x, fun v u hv => ?_, fun host d u hd hempty hu asking => ?_⟩
  · unfold hasField
    rw [run_bind_ok hfield]
    rfl
  · have hlookup := lookup_text hf name
    rw [(((viewable_struct hf).presents hv).answers name).1] at hlookup
    exact Except.ok.inj (congrArg Prod.fst hlookup)
  · have hall := receives_of_intoDict hr.orderly (hsound.tables d) hd hu
    have hitems : (u.table d).items = (w.fields s).map Field.item := by
      have hd : ((w.fields s).map (·.1)).Nodup := (hr.collated s hs).nodup
      rw [hall.items, hempty, putFields_eq hd .nil]
      simp
    have hkey : @Unasked ε .any (valueKeying asking) scalarKeys (.str name) := unasked_scalar asking trivial
    rw [run_lookup_unasked hkey hall.files, hitems]
    exact congrArg (fun answer => (Except.ok answer, u)) (valueOf_item name (w.fields s))

/-- **Conversions agree.** A view of any table of byte strings, in any reachable world, has the pairs of the table in
ascending order of their keys, and answers to every byte string what the table answers. It is built unless memory is refused,
or the table has more entries than a view can be sized for.

A view of a struct lists the fields in the order of the struct. Asking the struct whether there is a field, asking it for the
field, asking the view, and asking a dict that the fields were put into when it was empty, all come to the same answer for
every name.

Putting the fields into a dict, if it is not refused, sets one field after the other in ascending order of the names. So the
items of other keys stay as they were and where they were, those of the names get the values of the fields in their places,
and the fields that were not there come after them in ascending order. Unless the dict is frozen or held, there is nothing
that it can be refused for but memory. -/
theorem conversions_agree (hr : Reachable I w) :
    (∀ t : TableId .text, w.Viewable t (viewOfTable t)) ∧
    (∀ s : StructId, w.Owns (.struct s) → w.Viewable (w.struct s).fields (viewOfStruct s) ∧
      (∀ v u, viewOfStruct s w = (.ok v, u) → (u.view v).items = w.fields s) ∧
      ∀ name, w.AgreesOn s name ((w.fields s).lookup name)) ∧
    ∀ (host : Host ε) (s : StructId) (d : TableId .any), w.Owns (.struct s) → w.Has d →
      StrictlyAscending (w.fields s) ∧
      ((w.table d).frozen = false → (w.table d).holds = 0 →
        (structIntoDict host s d w).1 = .ok () ∨ (structIntoDict host s d w).1 = .error (.raised .memory)) ∧
      ∀ u, structIntoDict host s d w = (.ok (), u) → Beside d w u ∧
        (u.table d).items = putFields (w.fields s) (w.table d).items ∧
        (u.table d).items = (w.table d).items.map (overwritten (w.fields s)) ++
          ((w.fields s).filter fun field => .str field.1 ∉ (w.table d).items.map (·.1)).map Field.item := by
  have hsound := hr.sound
  have htext : ∀ t : TableId .text, (w.table t).Files textKeys := fun t => hr.orderly.files_text (hsound.tables t)
  have hascending : ∀ s, w.Owns (.struct s) → StrictlyAscending (w.fields s) := hr.collated
  refine ⟨fun t => viewable_table (htext t), fun s hs => ⟨viewable_struct (htext _), fun v u hv => ?_,
    answers_fields hr hs⟩, fun host s d hs hd => ⟨hascending s hs, fun hf hh => ?_, fun u hu => ?_⟩⟩
  · have hpresents := (viewable_struct (htext _)).presents hv
    exact hpresents.ascending.eq_of_lookup (hascending s hs) (lookup_perm hpresents.pairs hpresents.ascending.nodup)
  · rcases run_structIntoDict hr.orderly (hsound.tables d) hd host s hf hh with ⟨u, hu, -⟩ | ⟨u, hu⟩
    · exact .inl (by rw [hu])
    · exact .inr (by rw [hu])
  · have hall := receives_of_intoDict hr.orderly (hsound.tables d) hd hu
    refine ⟨hall.beside, hall.items, hall.items.trans (putFields_eq (hascending s hs).nodup ?_)⟩
    exact (hr.orderly.files_scalar (hsound.tables d)).namesOnce

/-- A dict with a number and a name for keys, an empty one, and a struct. -/
def labelled : World Unit :=
  inTurn [.newDict 0, @Operation.insert .any ⟨0⟩ (.int 7) .none, @Operation.insert .any ⟨0⟩ (.str [0x79]) (.bool true),
    .newDict 0, .createStruct .none [([0x79], .int 2), ([0x78], .int 1)]] (.unused ())

/-- The struct has the fields in the order `x`, `y`, and in the dict `y` stays where it was. -/
theorem conversions_agree_labelled :
    ((viewOfStruct ⟨0⟩ labelled).2.view ⟨0⟩).items = [([0x78], .int 1), ([0x79], .int 2)] ∧
    (∀ name, labelled.AgreesOn ⟨0⟩ name ((labelled.fields ⟨0⟩).lookup name)) ∧
    ((structIntoDict mute ⟨0⟩ ⟨0⟩ labelled).2.table (⟨0⟩ : TableId .any)).items =
      [(.int 7, .none), (.str [0x79], .int 2), (.str [0x78], .int 1)] ∧
    ((structIntoDict mute ⟨0⟩ ⟨1⟩ labelled).2.table (⟨1⟩ : TableId .any)).items =
      [(.str [0x78], .int 1), (.str [0x79], .int 2)] := by
  have hr : Reachable .nothing labelled := ⟨_, bare_unused (), Attempts.refl.inTurn mute_civil (by decide +kernel)⟩
  obtain ⟨-, hstructs, hdicts⟩ := conversions_agree hr
  have hs : labelled.Owns (.struct ⟨0⟩) := by decide +kernel
  obtain ⟨-, hview, hanswers⟩ := hstructs ⟨0⟩ hs
  have hbuilt := run_eq_of_answer (x := viewOfStruct ⟨0⟩) (w := labelled) (a := ⟨0⟩) (by decide +kernel)
  have hfields : labelled.fields ⟨0⟩ = [([0x78], .int 1), ([0x79], .int 2)] := by decide +kernel
  refine ⟨(hview _ _ hbuilt).trans hfields, hanswers, ?_, ?_⟩
  · obtain ⟨-, -, hput⟩ := hdicts mute ⟨0⟩ ⟨0⟩ hs (by decide +kernel)
    obtain ⟨-, -, hitems⟩ := hput _ (run_eq_of_answer (by decide +kernel))
    rw [hitems]
    decide +kernel
  · obtain ⟨-, -, hput⟩ := hdicts mute ⟨0⟩ ⟨1⟩ hs (by decide +kernel)
    obtain ⟨-, -, hitems⟩ := hput _ (run_eq_of_answer (by decide +kernel))
    rw [hitems]
    decide +kernel

end ValueCore
