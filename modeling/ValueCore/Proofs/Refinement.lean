import ValueCore.Proofs.Moderation
import ValueCore.Proofs.Operations.PureKeys

/-!
# A table is a list of keys and values

`MapCall` are the operations on one table as a map from keys to values, `MapCall.onList` says what they mean
for a plain list of keys and values, and `tableRun` runs a row of them on a new table. With pure keys the
replies are those of the list (`table_refines_list`), for every hint and every row of operations. Neither the
hint nor the hashes occur in what the list does, nor chains, growth, and the slots that erased keys leave
behind.

The one thing that a list does not do is to run out of memory, which ends a run. There is a reason for it each time
(`MapCall.Starves`, `RunsShort`): the allocator refused a request, or the table came to the limit on the size of tables.
-/

namespace ValueCore

open World

variable {ε κ : Type}

/-- An operation on a map. -/
inductive MapCall (κ : Type)
  | insert (key : κ) (value : Value)
  | lookup (key : κ)
  | erase (key : κ)
  | clear
  | length
  | keys
  | items
  | first

/-- What an operation on a map replies. -/
inductive MapReply (κ : Type)
  | done
  | found (value : Option Value)
  | length (count : Nat)
  | keys (keys : List κ)
  | items (items : List (κ × Value))
  | first (key : Option κ)
  deriving DecidableEq

namespace MapCall

/-- The key that an operation is about. -/
def key? : MapCall κ → Option κ
  | .insert key _ | .lookup key | .erase key => some key
  | .clear | .length | .keys | .items | .first => none

/-! ## On a list -/

/-- A list after `key` was given `value`: the pair of an equal key keeps its place and its key. -/
def assign (same : κ → κ → Bool) (key : κ) (value : Value) : List (κ × Value) → List (κ × Value)
  | [] => [(key, value)]
  | (k, x) :: rest => if same key k then (k, value) :: rest else (k, x) :: assign same key value rest

/-- The value of `key` in a list. -/
def valueOf (same : κ → κ → Bool) (key : κ) (l : List (κ × Value)) : Option Value :=
  (l.find? fun item => same key item.1).map (·.2)

/-- What a list of keys and values replies, and what it is then. -/
def onList (same : κ → κ → Bool) (l : List (κ × Value)) : MapCall κ → MapReply κ × List (κ × Value)
  | .insert key value => (.done, assign same key value l)
  | .lookup key => (.found (valueOf same key l), l)
  | .erase key => (.found (valueOf same key l), l.eraseP fun item => same key item.1)
  | .clear => (.done, [])
  | .length => (.length l.length, l)
  | .keys => (.keys (l.map (·.1)), l)
  | .items => (.items l, l)
  | .first => (.first (l.head?.map (·.1)), l)

/-- The replies of a list to a row of operations. -/
def repliesOf (same : κ → κ → Bool) : List (κ × Value) → List (MapCall κ) → List (MapReply κ)
  | _, [] => []
  | l, call :: rest => (call.onList same l).1 :: repliesOf same (call.onList same l).2 rest

section
variable {same : κ → κ → Bool} {key k : κ} {value x : Value} {a b l : List (κ × Value)}

theorem assign_of_found (ha : ∀ item ∈ a, same key item.1 = false) (hk : same key k = true) :
    assign same key value (a ++ (k, x) :: b) = a ++ (k, value) :: b := by
  induction a with
  | nil => simp [assign, hk]
  | cons item a ih =>
    have hitem := ha item List.mem_cons_self
    simp only [List.cons_append, assign, hitem, Bool.false_eq_true, if_false]
    rw [ih fun y hy => ha y (List.mem_cons_of_mem _ hy)]

theorem assign_of_not_found (hl : ∀ item ∈ l, same key item.1 = false) :
    assign same key value l = l ++ [(key, value)] := by
  induction l with
  | nil => rfl
  | cons item l ih =>
    have hitem := hl item List.mem_cons_self
    simp only [List.cons_append, assign, hitem, Bool.false_eq_true, if_false]
    rw [ih fun y hy => hl y (List.mem_cons_of_mem _ hy)]

theorem valueOf_of_found (ha : ∀ item ∈ a, same key item.1 = false) (hk : same key k = true) :
    valueOf same key (a ++ (k, x) :: b) = some x := by
  have hnone : a.find? (fun item => same key item.1) = none := List.find?_eq_none.2 fun item hm => by simp [ha item hm]
  simp [valueOf, List.find?_append, hnone, hk]

theorem valueOf_of_not_found (hl : ∀ item ∈ l, same key item.1 = false) : valueOf same key l = none := by
  rw [valueOf, List.find?_eq_none.2 fun item hm => by simp [hl item hm]]
  rfl

theorem eraseP_of_found (ha : ∀ item ∈ a, same key item.1 = false) (hk : same key k = true) :
    (a ++ (k, x) :: b).eraseP (fun item => same key item.1) = a ++ b := by
  rw [List.eraseP_append_right _ fun item hm => by simp [ha item hm]]
  simp [hk]

theorem eraseP_of_not_found (hl : ∀ item ∈ l, same key item.1 = false) :
    l.eraseP (fun item => same key item.1) = l :=
  List.eraseP_of_forall_not fun item hm => by simp [hl item hm]

end

/-! ## On a table -/

variable {kind : KeyKind}

/-- Why an operation from `w` to `u` may be out of memory. The key that it inserts was looked for in vain, and the table is
denied another entry; or a request for a list was refused. -/
def Starves (keying : Keying ε kind.Key) (t : TableId kind) (w u : World ε) : MapCall kind.Key → Prop
  | .insert key _ => ∃ h x y v, keying.hash key w = (.ok h, x) ∧ Rounds keying t key (storedHash h) x y ∧
      scan keying t key (storedHash h) y = (.ok none, v) ∧ v.Denied t (storedHash h) u
  | .keys | .items => w.memory.Refused u.memory
  | .lookup _ | .erase _ | .clear | .length | .first => False

/-- An operation on a table. -/
def run (keying : Keying ε kind.Key) (t : TableId kind) : MapCall kind.Key → Run ε (MapReply kind.Key)
  | .insert key value => do
    ValueCore.insert keying t key value
    return .done
  | .lookup key => return .found (← ValueCore.lookup keying t key)
  | .erase key => return .found (← ValueCore.erase keying t key)
  | .clear => do
    ValueCore.clear t
    return .done
  | .length => return .length (← readTable t).length
  | .keys => return .keys (← keyList t)
  | .items => return .items (← itemList t)
  | .first => return .first (← readTable t).firstKey

end MapCall

open MapCall

/-- In `w` table `t` holds the list `l`; the rest is as in `w₀`. -/
structure Lists (K : PureKeys kind.Key) (t : TableId kind) (w₀ : World ε) (l : List (kind.Key × Value)) (w : World ε) :
    Prop where
  keyed : Keyed K t w
  beside : Beside t w₀ w
  items : (w.table t).items = l
  moderate : (w.table t).Moderate

section
variable {K : PureKeys kind.Key} {t : TableId kind} {w₀ w v : World ε} {l l' : List (kind.Key × Value)}
  {keying : Keying ε kind.Key} {key : kind.Key} {value : Value}

theorem Lists.alike (h : Lists K t w₀ l w) (ha : Alike w v) : Lists K t w₀ l v :=
  ⟨h.keyed.alike ha, h.beside.alike ha, by rw [ha.table]; exact h.items, by rw [ha.table]; exact h.moderate⟩

theorem Lists.modify (h : Lists K t w₀ l w) {f : Table kind.Key → Table kind.Key} (hk : Keyed K t (w.modifyTable t f))
    (hi : (f (w.table t)).items = l') (hm : (f (w.table t)).Moderate) : Lists K t w₀ l' (w.modifyTable t f) := by
  have htable := table_modifyTable t f h.keyed.has
  exact ⟨hk, h.beside.modify f, by rw [htable]; exact hi, by rw [htable]; exact hm⟩

/-- What became of an operation: it replied and left the list `l'`, or there was no memory, for such a reason, and nothing
changed. -/
def Settles {α : Type} (K : PureKeys kind.Key) (t : TableId kind) (w₀ : World ε) (l : List (kind.Key × Value))
    (why : World ε → Prop) (reply : α) (l' : List (kind.Key × Value)) (r : Except Failure α × World ε) : Prop :=
  (∃ v, r = (.error (.raised .memory), v) ∧ Lists K t w₀ l v ∧ why v) ∨ ∃ v, r = (.ok reply, v) ∧ Lists K t w₀ l' v

theorem Lists.run_checkMutable (h : Lists K t w₀ l w) (change : TableChange) : checkMutable t change w = (.ok (), w) :=
  ValueCore.run_checkMutable change h.keyed.unfrozen h.keyed.unheld

/-! ## Scanning -/

/-- What a scan finds, said of the list. -/
theorem Lists.run_scan (h : Lists K t w₀ l w) (hc : keying.Computes K t w₀) (hkey : K.keys key) :
    ∃ v found, Lists K t w₀ l v ∧ scan keying t key (storedHash (K.hash key)) w = (.ok found, v) ∧
      (∀ i ∈ found, ∃ a b e, (v.table t).order = a ++ i :: b ∧ (v.table t).slot i = some e ∧
        K.same key e.key = true) ∧
      (found = none → ∀ item ∈ l, K.same key item.1 = false) := by
  obtain ⟨v, found, hv, hr, hfound, hnone⟩ := run_scan_pure hc h.beside h.keyed hkey
  refine ⟨v, found, h.alike hv, hr, ?_, fun hn item hm => ?_⟩
  · rw [hv.table t]
    exact hfound
  · refine hnone hn item.1 ?_
    rw [Table.keys, h.items]
    exact List.mem_map_of_mem hm

/-- The list around the entry that is equal to a key. -/
theorem Lists.split (h : Lists K t w₀ l w) (hkey : K.keys key) {a b : List Nat} {i : Nat} {e : Entry kind.Key}
    (ho : (w.table t).order = a ++ i :: b) (he : (w.table t).slot i = some e) (hsame : K.same key e.key = true) :
    l = (a.filterMap (w.table t).recordAt).map (·.2) ++ (e.key, e.value) :: (b.filterMap (w.table t).recordAt).map (·.2) ∧
      ∀ item ∈ (a.filterMap (w.table t).recordAt).map (·.2), K.same key item.1 = false := by
  refine ⟨?_, fun item hm => ?_⟩
  · rw [← h.items, Table.items_eq, Table.records_split ho he, List.map_append, List.map_cons]
  · obtain ⟨r, hr, rfl⟩ := List.mem_map.1 hm
    exact h.keyed.not_same_before hkey ho he hsame r hr

/-! ## Single operations -/

theorem Lists.overwrite (h : Lists K t w₀ l w) (hkey : K.keys key) {a b : List Nat} {i : Nat} {e : Entry kind.Key}
    (ho : (w.table t).order = a ++ i :: b) (he : (w.table t).slot i = some e) (hsame : K.same key e.key = true) :
    Lists K t w₀ (assign K.same key value l) (w.modifyTable t (·.overwrite i value)) := by
  obtain ⟨hl, hbefore⟩ := h.split hkey ho he hsame
  refine h.modify (h.keyed.overwrite ho he value) ?_ (h.moderate.within (.overwrite i value))
  rw [Table.items_eq, h.keyed.sound.records_overwrite ho he, List.map_append, List.map_cons, hl,
    assign_of_found hbefore hsame]

theorem Lists.placed (h : Lists K t w₀ l w) (hkey : K.keys key) (hnew : ∀ item ∈ l, K.same key item.1 = false)
    (ho : overloaded (w.table t).length (w.table t).heads = false) {t' : Table kind.Key}
    (hp : Table.Placed (w.table t) (storedHash (K.hash key)) key value t') :
    Lists K t w₀ (assign K.same key value l) (w.modifyTable t fun _ => t') := by
  have hkeys : ∀ k ∈ (w.table t).keys, K.same key k = false := fun k hk => by
    rw [Table.keys, h.items] at hk
    obtain ⟨item, hm, rfl⟩ := List.mem_map.1 hk
    exact hnew item hm
  refine h.modify (f := fun _ => t') (h.keyed.placed hkey hkeys ho hp) ?_
    (hp.moderate h.keyed.sound h.moderate (storedHash_ne_zero _) ho)
  rw [Table.items_eq, hp.records_eq h.keyed.sound (storedHash_ne_zero _), List.map_append, ← Table.items_eq, h.items,
    assign_of_not_found hnew]
  rfl

/-- An insertion goes through tables of moderate load. -/
theorem steady_moderate (hc : keying.Computes K t w₀) (hkey : K.keys key) :
    Steady keying t key (storedHash (K.hash key)) fun w =>
      (Beside t w₀ w ∧ Keyed K t w) ∧ (w.table t).Moderate := by
  refine (steady_pure hc hkey).and (fun hj hm => ?_) (fun hm ha => ha.table t ▸ hm) fun {u} block hj hm hmax => ?_
  · obtain ⟨v, found, hv, hr, -⟩ := run_scan_pure hc hj.1 hj.2 hkey
    rw [hr]
    exact hv.table t ▸ hm
  · rw [table_modifyTable t _ hj.2.has]
    exact hm.grown hj.2.sound hmax block

theorem Lists.run_insert (h : Lists K t w₀ l w) (hc : keying.Computes K t w₀) (hkey : K.keys key) :
    Settles K t w₀ l (fun u => (MapCall.insert key value).Starves keying t w u) () (assign K.same key value l)
      (insert keying t key value w) := by
  obtain ⟨u, hu, hhash⟩ := hc.hash h.beside hkey
  have hl := h.alike hu
  obtain ⟨x, hrounds, ⟨⟨hbeside, hkeyed⟩, hmoderate⟩, hrec, hcon⟩ :=
    insertHashed_ends (steady_moderate hc hkey) value ⟨⟨hl.beside, hl.keyed⟩, hl.moderate⟩
  -- growing leaves the list as it is
  have hitems : (x.table t).items = l := by rw [Table.items_eq, hrec, ← Table.items_eq]; exact hl.items
  have hx : Lists K t w₀ l x := ⟨hkeyed, hbeside, hitems, hmoderate⟩
  obtain ⟨y, found, hy, hs, hfound, hnone⟩ := hx.run_scan hc hkey
  have hrun : insert keying t key value w = insertHashed keying t key value (storedHash (K.hash key)) 26 u := by
    unfold insert
    rw [run_bind_ok (h.run_checkMutable .insert), run_bind_ok hhash]
  rw [hrun]
  cases hr : insertHashed keying t key value (storedHash (K.hash key)) 26 u with
  | mk r z =>
  rw [hr] at hcon
  cases hcon with
  | failed he => rw [hs] at he; cases he
  | frozen he hf =>
    rw [hs] at he
    cases he
    rw [hy.keyed.unfrozen] at hf
    cases hf
  | held he hf hh =>
    rw [hs] at he
    cases he
    rw [hy.keyed.unheld] at hh
    cases hh
  | overwrites he hf hh hi =>
    rw [hs] at he
    cases he
    obtain ⟨a, b, e, ho, hslot, hsame⟩ := hfound _ rfl
    exact .inr ⟨_, rfl, hy.overwrite hkey ho hslot hsame⟩
  | refused he hf hh ha hdenied =>
    rw [hs] at he
    cases he
    have hdenied := hdenied (hy.moderate.tooBig_grown hy.keyed.sound)
    exact .inl ⟨_, rfl, hy.alike ha, K.hash key, u, x, y, hhash, hrounds, hs, hdenied⟩
  | appends he hf hh ho ha hp =>
    rw [hs] at he
    cases he
    have hz := hy.alike ha
    rw [← ha.table t] at hp ho
    exact .inr ⟨_, rfl, hz.placed hkey (hnone rfl) ho hp⟩

theorem Lists.run_findSlot (h : Lists K t w₀ l w) (hc : keying.Computes K t w₀) (hkey : K.keys key) :
    ∃ v found, Lists K t w₀ l v ∧ findSlot keying t key w = (.ok found, v) ∧
      (∀ i ∈ found, ∃ a b e, (v.table t).order = a ++ i :: b ∧ (v.table t).slot i = some e ∧
        K.same key e.key = true) ∧
      (found = none → ∀ item ∈ l, K.same key item.1 = false) := by
  obtain ⟨u, hu, hhash⟩ := hc.hash h.beside hkey
  unfold findSlot
  rw [run_bind_ok hhash]
  exact (h.alike hu).run_scan hc hkey

theorem Lists.run_lookup (h : Lists K t w₀ l w) (hc : keying.Computes K t w₀) (hkey : K.keys key) :
    Settles K t w₀ l (fun _ => False) (valueOf K.same key l) l (lookup keying t key w) := by
  obtain ⟨v, found, hv, hr, hfound, hnone⟩ := h.run_findSlot hc hkey
  unfold lookup
  rw [run_bind_ok hr]
  cases found with
  | none =>
    rw [valueOf_of_not_found (hnone rfl)]
    exact .inr ⟨v, rfl, hv⟩
  | some i =>
    obtain ⟨a, b, e, ho, he, hsame⟩ := hfound i rfl
    obtain ⟨hl, hbefore⟩ := hv.split hkey ho he hsame
    refine .inr ⟨v, ?_, hv⟩
    dsimp only
    rw [run_bind_ok (run_readTable t v), he, hl, valueOf_of_found hbefore hsame]
    rfl

theorem Lists.run_erase (h : Lists K t w₀ l w) (hc : keying.Computes K t w₀) (hkey : K.keys key) :
    Settles K t w₀ l (fun _ => False) (valueOf K.same key l) (l.eraseP fun item => K.same key item.1)
      (erase keying t key w) := by
  obtain ⟨v, found, hv, hr, hfound, hnone⟩ := h.run_findSlot hc hkey
  unfold erase
  rw [run_bind_ok (h.run_checkMutable .erase), run_bind_ok hr, run_bind_ok (hv.run_checkMutable .erase)]
  cases found with
  | none =>
    rw [valueOf_of_not_found (hnone rfl), eraseP_of_not_found (hnone rfl)]
    exact .inr ⟨v, rfl, hv⟩
  | some i =>
    obtain ⟨a, b, e, ho, he, hsame⟩ := hfound i rfl
    obtain ⟨hl, hbefore⟩ := hv.split hkey ho he hsame
    refine .inr ⟨v.modifyTable t (·.remove i), ?_, hv.modify (hv.keyed.remove ho he) ?_ (hv.moderate.within (.remove i))⟩
    · dsimp only
      rw [run_bind_ok (run_readTable t v), run_bind_ok (run_updateTable t _ v), he, hl, valueOf_of_found hbefore hsame]
      rfl
    · rw [Table.items_eq, hv.keyed.sound.records_remove ho he, List.map_append, hl, eraseP_of_found hbefore hsame]

theorem Lists.run_clear (h : Lists K t w₀ l w) : Settles K t w₀ l (fun _ => False) () [] (clear t w) := by
  unfold clear
  rw [run_bind_ok (h.run_checkMutable .clear)]
  refine .inr ⟨_, rfl, h.modify h.keyed.cleared ?_ (h.moderate.within .cleared)⟩
  rw [Table.items_eq, Table.records_of_order_nil h.keyed.sound.cleared.2]
  rfl

/-- Reading the table into a list that takes memory. There are never so many entries that the list could not be asked for. -/
theorem Lists.run_withScratch (h : Lists K t w₀ l w) (size : Nat) (hpos : 0 < size) (hsize : size ≤ 32) {α : Type} (a : α) :
    Settles K t w₀ l (fun u => w.memory.Refused u.memory) a l (withScratch (w.table t).length size (pure a) w) := by
  have hspends : w.Spends (allocateElements (w.table t).length size) := by
    refine spends_allocateElements hpos (Nat.lt_of_le_of_lt (Nat.mul_le_mul_left _ hsize) ?_)
    have hlength := h.moderate.length_le h.keyed.sound
    simp only [maxHeads, Memory.wordSpan] at *
    omega
  unfold withScratch
  rcases (asks_allocateElements (w := w) (w.table t).length size).outcome with ⟨v, hv, hr⟩ | ⟨v, block, hv, hr⟩
  · have hrefused := hspends.refused (.raised .memory)
    rw [hr] at hrefused
    exact .inl ⟨v, run_bind_error hr _, h.alike hv, hrefused rfl⟩
  · exact .inr ⟨_, run_bind_ok hr _, h.alike (hv.trans (alike_freed block _))⟩

theorem Settles.map {α β : Type} {act : Run ε α} {a : α} {why : World ε → Prop} (f : α → β)
    (h : Settles K t w₀ l why a l' (act w)) : Settles K t w₀ l why (f a) l' ((act >>= fun x => pure (f x)) w) := by
  rcases h with ⟨v, hr, hv⟩ | ⟨v, hr, hv⟩
  · exact .inl ⟨v, run_bind_error hr _, hv⟩
  · exact .inr ⟨v, run_bind_ok hr _, hv⟩

theorem Lists.firstKey_eq (h : Lists K t w₀ l w) : (w.table t).firstKey = l.head?.map (·.1) := by
  have hs := h.keyed.sound
  rw [Table.firstKey, hs.first_eq, ← h.items, Table.items_eq, Table.records]
  cases ho : (w.table t).order with
  | nil => rfl
  | cons i is =>
    obtain ⟨e, he⟩ := hs.slot_of_mem (ho ▸ List.mem_cons_self)
    simp [he, List.filterMap_cons_some (Table.recordAt_eq_some he)]

/-- **Every operation replies as the list does**, and leaves what the list is then. -/
theorem Lists.run_call (h : Lists K t w₀ l w) (hc : keying.Computes K t w₀) (call : MapCall kind.Key)
    (hkey : ∀ key ∈ call.key?, K.keys key) :
    Settles K t w₀ l (fun u => call.Starves keying t w u) (call.onList K.same l).1 (call.onList K.same l).2
      (call.run keying t w) := by
  cases call with
  | insert key value => exact (h.run_insert hc (hkey key rfl)).map fun _ => MapReply.done
  | lookup key => exact (h.run_lookup hc (hkey key rfl)).map MapReply.found
  | erase key => exact (h.run_erase hc (hkey key rfl)).map MapReply.found
  | clear => exact h.run_clear.map fun _ => MapReply.done
  | length =>
    refine .inr ⟨w, ?_, h⟩
    simp only [MapCall.run, run_bind_ok (run_readTable t w), run_pure, onList, ← h.items,
      h.keyed.sound.length_items]
  | keys =>
    have hkeys : (w.table t).keys = l.map (·.1) := by rw [Table.keys, h.items]
    have hs := h.run_withScratch kind.keyBytes (by cases kind <;> decide) (by cases kind <;> decide) (w.table t).keys
    rw [hkeys] at hs
    refine Settles.map MapReply.keys (?_ : Settles K t w₀ l _ _ l (keyList t w))
    unfold keyList
    rw [run_bind_ok (run_readTable t w), hkeys]
    exact hs
  | items =>
    have hs := h.run_withScratch kind.itemBytes (by cases kind <;> decide) (by cases kind <;> decide) (w.table t).items
    rw [h.items] at hs
    refine Settles.map MapReply.items (?_ : Settles K t w₀ l _ _ l (itemList t w))
    unfold itemList
    rw [run_bind_ok (run_readTable t w), h.items]
    exact hs
  | first =>
    refine .inr ⟨w, ?_, h⟩
    simp only [MapCall.run, run_bind_ok (run_readTable t w), run_pure, onList, h.firstKey_eq]

/-! ## Rows of operations -/

/-- A row of operations stops in a world where one of them is out of memory. -/
inductive Stops (keying : Keying ε kind.Key) (t : TableId kind) : World ε → List (MapCall kind.Key) → World ε → Prop
  | starved {w u : World ε} {call : MapCall kind.Key} {rest : List (MapCall kind.Key)} :
    call.run keying t w = (.error (.raised .memory), u) → call.Starves keying t w u → Stops keying t w (call :: rest) u
  | later {w v u : World ε} {call : MapCall kind.Key} {reply : MapReply kind.Key} {rest : List (MapCall kind.Key)} :
    call.run keying t w = (.ok reply, v) → Stops keying t v rest u → Stops keying t w (call :: rest) u

/-- The computation answers as expected, unless there was no memory, for such a reason. -/
def Answers {α : Type} (expected : α) (why : World ε → Prop) (r : Except Failure α × World ε) : Prop :=
  r.1 = .ok expected ∨ ∃ u, r = (.error (.raised .memory), u) ∧ why u

theorem Lists.run_calls (hc : keying.Computes K t w₀) : ∀ (calls : List (MapCall kind.Key)) {w : World ε}
    {l : List (kind.Key × Value)}, Lists K t w₀ l w → (∀ call ∈ calls, ∀ key ∈ call.key?, K.keys key) →
      Answers (repliesOf K.same l calls) (Stops keying t w calls) (calls.mapM (MapCall.run keying t) w)
  | [], w, l, h, _ => .inl (by rw [List.mapM_nil]; rfl)
  | call :: calls, w, l, h, hkeys => by
    rw [List.mapM_cons]
    rcases h.run_call hc call (hkeys call List.mem_cons_self) with ⟨v, hr, -, hwhy⟩ | ⟨v, hr, hv⟩
    · exact .inr ⟨v, run_bind_error hr _, .starved hr hwhy⟩
    · have ih := Lists.run_calls hc calls hv fun c hm => hkeys c (List.mem_cons_of_mem _ hm)
      rw [run_bind_ok hr]
      cases hrest : calls.mapM (MapCall.run keying t) v with
      | mk r u =>
        rw [hrest] at ih
        rcases ih with rfl | ⟨x, hx, hstops⟩
        · exact .inl (by rw [run_bind_ok hrest]; rfl)
        · cases hx
          exact .inr ⟨u, run_bind_error hrest _, .later hr hstops⟩

end

/-- A new table holds the empty list. -/
theorem lists_new {kind : KeyKind} {K : PureKeys kind.Key} {t : TableId kind} {w : World ε} {heads : Nat}
    {block : Option Block} (hp : ∃ k ≤ 24, heads = 2 ^ k) (ht : w.Has t)
    (htable : w.table t = .withStorage heads heads block) : Lists K t w [] w := by
  have hs := Table.sound_withStorage (κ := kind.Key) block hp (Nat.le_refl heads)
  have hrec := Table.records_of_order_nil (hs.order_eq_nil rfl)
  refine ⟨⟨?_, ht, ?_, ?_, ?_, ?_⟩, .refl _ _, ?_, ?_⟩
  · rw [htable]; exact hs
  · rw [htable]; rfl
  · rw [htable]; rfl
  · rw [htable, hrec]; simp
  · rw [htable, Table.keys_eq, hrec]; exact .nil
  · rw [htable, Table.items_eq, hrec]; rfl
  · rw [htable]; exact Table.moderate_of_empty rfl (Table.le_maxHeads hp)

/-- A row of operations on a new table sized for `hint` entries. -/
def tableRun {kind : KeyKind} (keying : Keying ε kind.Key) (hint : UInt32) (calls : List (MapCall kind.Key)) :
    Run ε (List (MapReply kind.Key)) := do
  let t ← newTable kind hint
  calls.mapM (MapCall.run keying t)

/-- Why a row of operations on a new table is out of memory: the table was not made, or the row stops. -/
def RunsShort {kind : KeyKind} (keying : Keying ε kind.Key) (hint : UInt32) (calls : List (MapCall kind.Key))
    (w u : World ε) : Prop :=
  newTable kind hint w = (.error (.raised .memory), u) ∧ (w.memory.Refused u.memory ∨ headsFor hint.toNat = none) ∨
  ∃ t v, newTable kind hint w = (.ok t, v) ∧ Stops keying t v calls u

theorem run_tableRun {kind : KeyKind} {keying : Keying ε kind.Key} {K : PureKeys kind.Key} (hint : UInt32)
    (calls : List (MapCall kind.Key)) (w : World ε)
    (hc : ∀ t v, newTable kind hint w = (.ok t, v) → keying.Computes K t v)
    (hkeys : ∀ call ∈ calls, ∀ key ∈ call.key?, K.keys key) :
    Answers (repliesOf K.same [] calls) (RunsShort keying hint calls w) (tableRun keying hint calls w) := by
  unfold tableRun
  rcases run_newTable kind hint w with ⟨v, _, hr⟩ | ⟨v, heads, block, _, hp, hr⟩
  · exact .inr ⟨v, run_bind_error hr _, .inl ⟨hr, denied_of_newTable hr⟩⟩
  · rw [run_bind_ok hr]
    refine (Lists.run_calls (hc _ _ hr) calls (lists_new hp (has_addTable_self kind _) (table_addTable_self kind _))
      hkeys).imp_right fun ⟨u, hu, hstops⟩ => ⟨u, hu, .inr ⟨_, _, hr, hstops⟩⟩

/-- **A table replies as a list of keys and values does.** Byte strings are always pure; of values, all that is
asked is that hashing and comparing those that occur as keys is computing with them. -/
theorem table_refines_list :
    (∀ (hint : UInt32) (calls : List (MapCall Bytes)) (w : World ε),
      Answers (repliesOf (fun a b => decide (a = b)) [] calls) (@RunsShort ε .text textKeying hint calls w)
        (@tableRun ε .text textKeying hint calls w)) ∧
    ∀ (host : Host ε) (K : PureKeys Value) (hint : UInt32) (calls : List (MapCall Value)) (w : World ε),
      (∀ t v, newTable .any hint w = (.ok t, v) → (valueKeying host).Computes K t v) →
      (∀ call ∈ calls, ∀ key ∈ call.key?, K.keys key) →
      Answers (repliesOf K.same [] calls) (@RunsShort ε .any (valueKeying host) hint calls w)
        (@tableRun ε .any (valueKeying host) hint calls w) := by
  refine ⟨fun hint calls w => ?_, fun host K hint calls w hc hkeys => ?_⟩
  · exact @run_tableRun ε .text textKeying textKeys hint calls w (fun t v _ => textKeying_computes t v)
      fun _ _ _ _ => trivial
  · exact @run_tableRun ε .any (valueKeying host) K hint calls w hc hkeys

/-- A float that is not a number. -/
def notANumber : Value := .float ⟨0x7FF8000000000000⟩

/-- One as an integer and as a float, and a key that is not equal to itself. -/
def numberCalls : List (MapCall Value) :=
  [.insert (.int 1) (.bool true), .insert notANumber (.int 1), .insert (.float ⟨0x3FF0000000000000⟩) (.int 2),
    .insert notANumber (.int 3), .erase notANumber, .lookup (.int 1), .keys]

/-- The float takes the place of the integer, and what is not a number is there twice and not found. -/
theorem table_refines_list_numbers :
    Answers (repliesOf Value.same [] numberCalls) (@RunsShort _ .any (valueKeying mute) 0 numberCalls untouched)
      (@tableRun _ .any (valueKeying mute) 0 numberCalls untouched) ∧
    (@tableRun _ .any (valueKeying mute) 0 numberCalls untouched).1 = .ok [.done, .done, .done, .done, .found none,
      .found (some (.int 2)), .keys [.int 1, notANumber, notANumber]] := by
  refine ⟨table_refines_list.2 mute scalarKeys 0 numberCalls untouched (fun t v _ => ?_) ?_, by decide +kernel⟩
  · exact scalarKeying_computes mute t v
  · simp [numberCalls, MapCall.key?, scalarKeys, Value.Scalar, notANumber]

end ValueCore
