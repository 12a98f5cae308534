import ValueCore.Proofs.Operations.ViewDenials

/-!
# A view is a list of keys and values

`Pairs` are lists of keys and values in which no key occurs twice. `ViewRequest` are the operations on a view,
`ViewRequest.onList` says what they mean for such a list, and `viewRun` runs a row of them on a new view, reporting the
status and the message of each that fails. The results are those of the list (`view_refines_list`), for every size hint,
every row of operations and every behaviour of the allocator. Neither hints nor hashes occur in what the list does, nor
chains, growth, or the two ways to find an entry.

An operation that is out of memory ends, and the next is attempted. Only sizing, reading the keys into a list, and appending
a new key can be, and they leave the list as it is (`Replies.refused`). They are for a reason that can be pointed out
(`ViewRequest.Starves`): the allocator refused a request that was made for them, or the limit on the number of chains does not
admit that many entries.
-/

namespace ValueCore

open World

variable {ε : Type}

/-! ## The list -/

/-- A list of keys and values in which no key occurs twice. -/
structure Pairs where
  items : List (Bytes × Value)
  distinct : (items.map (·.1)).Nodup

namespace Pairs

def empty : Pairs := ⟨[], .nil⟩

def keys (l : Pairs) : List Bytes := l.items.map (·.1)

/-- A new key and its value are added at the end. -/
def append (l : Pairs) (key : Bytes) (value : Value) (hnew : key ∉ l.keys) : Pairs where
  items := l.items ++ [(key, value)]
  distinct := distinct_append l.distinct hnew value

/-- The pair that has the key gets another value. -/
def set (l : Pairs) (key : Bytes) (value : Value) : Pairs where
  items := l.items.map fun item => if item.1 = key then (item.1, value) else item
  distinct := by
    rw [List.map_map, show ((·.1) ∘ fun item : Bytes × Value => if item.1 = key then (item.1, value) else item) = (·.1) from
      funext fun item => by simp only [Function.comp_apply]; split <;> rfl]
    exact l.distinct

/-- The value of the pair that has the key. -/
def get? (l : Pairs) (key : Bytes) : Option Value := (l.items.find? fun item => item.1 = key).map (·.2)

/-- The pair at a position. -/
def nth (l : Pairs) (i : Int) : Except Fault (Bytes × Value) :=
  if h : 0 ≤ i ∧ i < l.items.length then .ok (l.items.get ⟨i.toNat, by omega⟩)
  else .error (.indexOutOfRange i l.items.length)

/-- The pairs in order, up to and with the first that is declined. -/
def range (l : Pairs) (visit : Bytes → Bool) : List (Bytes × Value) :=
  l.items.takeWhile (fun item => visit item.1) ++ (l.items.dropWhile fun item => visit item.1).take 1

end Pairs

/-! ## The operations -/

/-- The message that an error has left. -/
def lastMessage : Run ε Bytes := return (← get).message

/-- An operation on a view. -/
inductive ViewRequest
  | init (hint : UInt32)
  | append (key : Bytes) (value : Value)
  | get (key : Bytes)
  | set (key : Bytes) (value : Value)
  | index (i : Int)
  | keyIndex (i : Int)
  | keys
  | length
  | range (visit : Bytes → Bool)

/-- What an operation on a view replies. -/
inductive ViewReply
  | done
  | found (value : Option Value)
  | present (was : Bool)
  | value (value : Value)
  | item (item : Bytes × Value)
  | keys (keys : List Bytes)
  | length (count : Nat)
  | items (items : List (Bytes × Value))
  deriving DecidableEq

namespace ViewRequest

/-- What a list replies, or the fault that it reports, and what it is then. -/
def onList (l : Pairs) : ViewRequest → Except Fault ViewReply × Pairs
  | .init _ => (.ok .done, l)
  | .append key value =>
    if h : key ∈ l.keys then (.error (.duplicateKey key), l) else (.ok .done, l.append key value h)
  | .get key => (.ok (.found (l.get? key)), l)
  | .set key value => (.ok (.present (decide (key ∈ l.keys))), l.set key value)
  | .index i => ((l.nth i).map fun item => .value item.2, l)
  | .keyIndex i => ((l.nth i).map .item, l)
  | .keys => (.ok (.keys l.keys), l)
  | .length => (.ok (.length l.items.length), l)
  | .range visit => (.ok (.items (l.range visit)), l)

/-- Why the operation is out of memory between two worlds. -/
def Starves (l : Pairs) (w u : World ε) : ViewRequest → Prop
  | .init hint => w.memory.Refused u.memory ∨ headsFor hint.toNat = none
  | .append key _ => key ∉ l.keys ∧ (w.memory.Refused u.memory ∨ overloaded l.items.length maxHeads = true)
  | .keys => w.memory.Refused u.memory
  | _ => False

/-- An operation on a view. -/
def run (v : ViewId) : ViewRequest → Run ε ViewReply
  | .init hint => do
    resizeView v hint
    return .done
  | .append key value => do
    appendEntry v key value
    return .done
  | .get key => return .found ((← readView v).get? key)
  | .set key value => return .present (← setEntry v key value)
  | .index i => return .value (← entryAt v i).value
  | .keyIndex i => do
    let e ← entryAt v i
    return .item (e.key, e.value)
  | .keys => return .keys (← viewKeyList v)
  | .length => return .length (← readView v).length
  | .range visit => return .items (visited visit (← readView v).items)

/-- An operation whose errors are caught and reported with their status and message. -/
def attempt (v : ViewId) (request : ViewRequest) : Run ε (Except (Status × Bytes) ViewReply) := do
  match ← protect (request.run v) with
  | .ok reply => return .ok reply
  | .error status => return .error (status, ← lastMessage)

end ViewRequest

/-- How a fault is reported. -/
def reported {α : Type} : Except Fault α → Except (Status × Bytes) α
  | .ok a => .ok a
  | .error fault => .error (fault.status, fault.message)

/-- From a world on, the results of a row of operations on view `v` are those of a list, except where one of them is out of
memory. -/
inductive Replies (v : ViewId) : World ε → Pairs → List ViewRequest → List (Except (Status × Bytes) ViewReply) → Prop
  | done (w : World ε) (l : Pairs) : Replies v w l [] []
  | answered {w u : World ε} {l : Pairs} {request : ViewRequest} {rest : List ViewRequest}
      {results : List (Except (Status × Bytes) ViewReply)}
      (ran : request.attempt v w = (.ok (reported (request.onList l).1), u))
      (later : Replies v u (request.onList l).2 rest results) :
      Replies v w l (request :: rest) (reported (request.onList l).1 :: results)
  | refused {w u : World ε} {l : Pairs} {request : ViewRequest} {rest : List ViewRequest}
      {results : List (Except (Status × Bytes) ViewReply)} (message : Bytes)
      (ran : request.attempt v w = (.ok (.error (.memory, message)), u)) (why : request.Starves l w u)
      (later : Replies v u l rest results) : Replies v w l (request :: rest) (.error (.memory, message) :: results)

/-! ## Single operations -/

section
variable {w u : World ε} {v : ViewId} {l l' : Pairs}

/-- What became of an operation: what the list says, or it is out of memory. -/
inductive Conforms (v : ViewId) (l : Pairs) (request : ViewRequest) (w : World ε) :
    Except Failure ViewReply × World ε → Prop
  | replies {reply : ViewReply} {u : World ε} (said : (request.onList l).1 = .ok reply)
      (shows : u.Shows v (request.onList l).2.items) : Conforms v l request w (.ok reply, u)
  | fails {fault : Fault} {u : World ε} (said : (request.onList l).1 = .error fault)
      (shows : u.Shows v (request.onList l).2.items) : Conforms v l request w ((raise fault : Run ε ViewReply) u)
  | refused {u : World ε} (why : request.Starves l w u) (shows : u.Shows v l.items) :
      Conforms v l request w (.error (.raised .memory), u)

/-- An operation that asks for memory and replies as the list does if it gets it. -/
theorem StillShows.conforms {α : Type} {P : α → World ε → Prop} {act : Run ε α} (h : StillShows v l.items P (act w))
    (request : ViewRequest) (hwhy : ∀ u, act w = (.error (.raised .memory), u) → request.Starves l w u) {f : α → ViewReply}
    (hf : ∀ a u, P a u → request.onList l = (.ok (f a), l)) :
    Conforms v l request w ((act >>= fun a => pure (f a)) w) := by
  rcases h with ⟨u, hr, hu⟩ | ⟨a, u, hr, hu, hp⟩
  · rw [run_bind_error hr]
    exact .refused (hwhy u hr) hu
  · rw [run_bind_ok hr]
    have hlist := hf a u hp
    exact .replies (by rw [hlist]) (by rw [hlist]; exact hu)

/-- Around the pair that is found the list is as it is, and no other pair has the key. -/
theorem split_of_findIdx? {l : List (Bytes × Value)} (hd : (l.map (·.1)).Nodup) {key : Bytes} {p : Nat}
    (h : (l.findIdx? fun item => item.1 = key) = some p) :
    ∃ a x b, l = a ++ (key, x) :: b ∧ a.length = p ∧ (∀ item ∈ a, item.1 ≠ key) ∧ ∀ item ∈ b, item.1 ≠ key := by
  obtain ⟨hp, hkey, _⟩ := List.findIdx?_eq_some_iff_getElem.1 h
  have hsplit : l = l.take p ++ (key, l[p].2) :: l.drop (p + 1) := by
    rw [show (key, l[p].2) = l[p] from Prod.ext (of_decide_eq_true hkey).symm rfl, List.getElem_cons_drop,
      List.take_append_drop]
  refine ⟨_, _, _, hsplit, by simp; omega, ?_, ?_⟩
  all_goals
    rintro ⟨_, y⟩ hm rfl
    rw [hsplit, List.map_append, List.map_cons, List.nodup_middle, List.nodup_cons, List.mem_append] at hd
  · exact hd.1 (.inl (List.mem_map_of_mem (f := (·.1)) hm))
  · exact hd.1 (.inr (List.mem_map_of_mem (f := (·.1)) hm))

theorem run_get? (h : w.Shows v l.items) (key : Bytes) : (w.view v).get? key = l.get? key := by
  rw [View.get?, h.find_eq, Pairs.get?]
  cases hfound : l.items.findIdx? fun item => item.1 = key with
  | none =>
    rw [List.find?_eq_none.2 fun item hm => by simpa using List.findIdx?_eq_none_iff.1 hfound item hm]
    rfl
  | some p =>
    obtain ⟨a, x, b, hl, rfl, ha, -⟩ := split_of_findIdx? l.distinct hfound
    have hitem : ((w.view v).entries[a.length]?.map fun e => (e.key, e.value)) = some (key, x) := by
      rw [← Array.getElem?_toList, ← List.getElem?_map]
      show (w.view v).items[a.length]? = _
      rw [h.items, hl]
      simp
    rw [hl, List.find?_append, List.find?_eq_none.2 fun item hm => by simpa using ha item hm]
    obtain ⟨e, he, hpair⟩ := Option.map_eq_some_iff.1 hitem
    simp [he, (Prod.mk.inj hpair).2]

theorem run_setEntry (h : w.Shows v l.items) (key : Bytes) (value : Value) :
    ∃ u, setEntry v key value w = (.ok (decide (key ∈ l.keys)), u) ∧ u.Shows v (l.set key value).items := by
  unfold setEntry
  rw [run_bind_ok (run_readView v w), h.find_eq]
  cases hfound : l.items.findIdx? fun item => item.1 = key with
  | none =>
    have hother : ∀ item ∈ l.items, item.1 ≠ key := fun item hm => by
      simpa using List.findIdx?_eq_none_iff.1 hfound item hm
    have hkeys : key ∉ l.keys := fun hmem => by
      obtain ⟨item, hm, heq⟩ := List.mem_map.1 hmem
      exact hother item hm heq
    have hset : (l.set key value).items = l.items := by
      refine (List.map_congr_left fun item hm => if_neg (hother item hm)).trans (List.map_id _)
    exact ⟨w, by rw [decide_eq_false hkeys]; rfl, hset ▸ h⟩
  | some p =>
    obtain ⟨a, x, b, hl, rfl, ha, hb⟩ := split_of_findIdx? l.distinct hfound
    have hkeys : key ∈ l.keys := by simp [Pairs.keys, hl]
    have hview := view_modifyView (f := (·.setValue a.length value)) h.has
    refine ⟨_, by rw [decide_eq_true hkeys]; rfl,
      ⟨by simpa [modifyView] using h.has, ?_, ?_, ?_, (l.set key value).distinct, by rw [hview]; exact h.room_le⟩⟩
    · rw [hview]
      exact h.sound.setValue _ value
    · rw [hview]
      exact h.hashed.setValue _ value
    · have hleft : a.map (fun item => if item.1 = key then (item.1, value) else item) = a :=
        (List.map_congr_left fun item hm => if_neg (ha item hm)).trans (List.map_id _)
      have hright : b.map (fun item => if item.1 = key then (item.1, value) else item) = b :=
        (List.map_congr_left fun item hm => if_neg (hb item hm)).trans (List.map_id _)
      show _ = l.items.map _
      rw [hview, View.items_setValue, h.items, hl, List.map_append, List.map_cons, hleft, hright, if_pos rfl,
        List.modify_eq_take_drop]
      simp

/-- Reading a position is reading that of the list. -/
theorem run_entryAt (h : w.Shows v l.items) (i : Int) :
    match l.nth i with
    | .ok item => ∃ e, (e.key, e.value) = item ∧ entryAt v i w = (.ok e, w)
    | .error fault => entryAt v i w = (raise fault : Run ε ViewEntry) w := by
  have hitems : ∀ p : Nat, ((w.view v).entries[p]?.map fun e => (e.key, e.value)) = l.items[p]? := fun p => by
    rw [← h.items, View.items, List.getElem?_map, Array.getElem?_toList]
  have hlen : (w.view v).length = l.items.length := by rw [← h.items, View.length_items]
  unfold entryAt
  rw [run_bind_ok (run_readView v w), hlen]
  unfold Pairs.nth
  by_cases hneg : i < 0
  · rw [dif_neg (by omega), if_pos hneg]
  · have hat := hitems i.toNat
    rw [if_neg hneg]
    by_cases hi : i < l.items.length
    · rw [dif_pos ⟨by omega, hi⟩]
      rw [List.getElem?_eq_getElem (by omega : i.toNat < l.items.length)] at hat
      obtain ⟨e, he, heq⟩ := Option.map_eq_some_iff.1 hat
      exact ⟨e, heq, by rw [he]; rfl⟩
    · rw [dif_neg (by omega)]
      rw [List.getElem?_eq_none (by omega : l.items.length ≤ i.toNat), Option.map_eq_none_iff] at hat
      rw [hat]

theorem entryAt_conforms (h : w.Shows v l.items) (i : Int) {request : ViewRequest} {f : Bytes × Value → ViewReply}
    (hlist : request.onList l = ((l.nth i).map f, l)) :
    Conforms v l request w ((entryAt v i >>= fun e => pure (f (e.key, e.value))) w) := by
  have hat := run_entryAt h i
  cases hn : l.nth i with
  | ok item =>
    rw [hn] at hat hlist
    obtain ⟨e, rfl, hr⟩ := hat
    rw [run_bind_ok hr]
    exact .replies (by rw [hlist]; rfl) (by rw [hlist]; exact h)
  | error fault =>
    rw [hn] at hat hlist
    rw [run_bind, hat]
    exact .fails (by rw [hlist]; rfl) (by rw [hlist]; exact h)

theorem run_viewKeyList (h : w.Shows v l.items) :
    StillShows v l.items (fun keys _ => keys = l.keys) (viewKeyList v w) := by
  have hkeys : (w.view v).keys = l.keys := by rw [View.keys, h.items, Pairs.keys]
  unfold viewKeyList
  rw [run_bind_ok (run_readView v w)]
  unfold withScratch
  exact (StillShows.asks h (asks_allocateElements _ _)).bind fun _ u hu _ => .ok (hu.same rfl) hkeys

theorem visited_eq (l : Pairs) (visit : Bytes → Bool) : visited visit l.items = l.range visit := by
  rw [Pairs.range]
  generalize l.items = items
  induction items with
  | nil => rfl
  | cons item rest ih =>
    by_cases hvisit : visit item.1 = true
    · simp [visited, hvisit, ih]
    · simp [visited, hvisit]

/-- **Every operation conforms to the list**, and leaves what the list is then. -/
theorem run_request (h : w.Shows v l.items) (request : ViewRequest) : Conforms v l request w (request.run v w) := by
  cases request with
  | init hint =>
    have hwhy : ∀ u, resizeView v hint w = (.error (.raised .memory), u) → (ViewRequest.init hint).Starves l w u :=
      fun u hr => h.denied_of_resizeView hr
    exact (h.resize hint).conforms (.init hint) hwhy (f := fun _ => .done) fun _ _ _ => rfl
  | append key value =>
    by_cases hkey : key ∈ l.keys
    · have hlist : (ViewRequest.append key value).onList l = (.error (.duplicateKey key), l) := dif_pos hkey
      have hrun : (ViewRequest.append key value).run v w = (raise (.duplicateKey key) : Run ε ViewReply) w := by
        show (appendEntry v key value >>= fun _ => pure ViewReply.done) w = _
        rw [run_bind, h.append_present hkey]
        rfl
      rw [hrun]
      exact .fails (by rw [hlist]) (by rw [hlist]; exact h)
    · have hlist : (ViewRequest.append key value).onList l = (.ok .done, l.append key value hkey) := dif_neg hkey
      rcases h.append_new hkey value with ⟨u, hr, hu⟩ | ⟨u, hr, hu⟩
      · rw [ViewRequest.run, run_bind_error hr]
        exact .refused ⟨hkey, h.denied_of_appendEntry hkey hr⟩ hu
      · rw [ViewRequest.run, run_bind_ok hr]
        exact .replies (by rw [hlist]) (by rw [hlist]; exact hu)
  | get key =>
    rw [ViewRequest.run, run_bind_ok (run_readView v w), run_get? h]
    exact .replies rfl h
  | set key value =>
    obtain ⟨u, hr, hu⟩ := run_setEntry h key value
    rw [ViewRequest.run, run_bind_ok hr]
    exact .replies rfl hu
  | index i => exact entryAt_conforms h i (f := fun item => .value item.2) rfl
  | keyIndex i => exact entryAt_conforms h i (f := .item) rfl
  | keys =>
    have hwhy : ∀ u, viewKeyList v w = (.error (.raised .memory), u) → ViewRequest.keys.Starves l w u := fun u hr => by
      have hrefused := h.spends_viewKeyList.refused (.raised .memory)
      rw [hr] at hrefused
      exact hrefused rfl
    exact (run_viewKeyList h).conforms .keys hwhy (f := .keys) fun keys _ hkeys => by rw [hkeys]; rfl
  | length =>
    rw [ViewRequest.run, run_bind_ok (run_readView v w), ← View.length_items, h.items]
    exact .replies rfl h
  | range visit =>
    rw [ViewRequest.run, run_bind_ok (run_readView v w), h.items, visited_eq]
    exact .replies rfl h

/-! ## Rows of operations -/

/-- What an attempt of an operation reports. -/
theorem run_attempt (h : w.Shows v l.items) (request : ViewRequest) :
    ∃ result u, request.attempt v w = (.ok result, u) ∧
      ((result = reported (request.onList l).1 ∧ u.Shows v (request.onList l).2.items) ∨
       (request.Starves l w u ∧ (∃ message, result = .error (.memory, message)) ∧ u.Shows v l.items)) := by
  have hconforms := run_request h request
  have hprotect : ∀ {r : Except Failure ViewReply} {u : World ε}, request.run v w = (r, u) →
      request.attempt v w = (match r with
        | .ok reply => (.ok (.ok reply), { u with message := [] })
        | .error (.raised status) => (.ok (.error (status, u.message)), u)
        | .error .hostMemory =>
          (.ok (.error (.memory, Fault.outOfMemory.message)), { u with message := Fault.outOfMemory.message })
        | .error .exhausted => (.error .exhausted, u)
        | .error (.misuse reason) => (.error (.misuse reason), u)) := by
    intro r u hr
    unfold ViewRequest.attempt
    rw [run_bind]
    unfold protect
    rw [hr]
    rcases r with (_ | _ | _ | _) | _ <;> rfl
  cases hr : request.run v w with
  | mk r u =>
    rw [hr] at hconforms
    rw [hprotect hr]
    cases hconforms with
    | replies hsaid hu => exact ⟨_, _, rfl, .inl ⟨by rw [hsaid]; rfl, hu.same rfl⟩⟩
    | fails hsaid hu => exact ⟨_, _, rfl, .inl ⟨by rw [hsaid]; rfl, hu.same rfl⟩⟩
    | refused hwhy hu => exact ⟨_, _, rfl, .inr ⟨hwhy, ⟨_, rfl⟩, hu⟩⟩

theorem run_attempts : ∀ (requests : List ViewRequest) {w : World ε} {l : Pairs}, w.Shows v l.items →
    ∃ results u, requests.mapM (·.attempt v) w = (.ok results, u) ∧ Replies v w l requests results
  | [], w, l, _ => ⟨[], w, rfl, .done w l⟩
  | request :: rest, w, l, h => by
    obtain ⟨result, u, hr, hcase⟩ := run_attempt h request
    rw [List.mapM_cons, run_bind_ok hr]
    rcases hcase with ⟨rfl, hu⟩ | ⟨hwhy, ⟨message, rfl⟩, hu⟩
    · obtain ⟨results, x, hrest, hreplies⟩ := run_attempts rest hu
      exact ⟨_, x, by rw [run_bind_ok hrest]; rfl, .answered hr hreplies⟩
    · obtain ⟨results, x, hrest, hreplies⟩ := run_attempts rest hu
      exact ⟨_, x, by rw [run_bind_ok hrest]; rfl, .refused message hr hwhy hreplies⟩

end

/-- A row of operations on a new view sized for `hint` entries. -/
def viewRun (hint : UInt32) (requests : List ViewRequest) : Run ε (List (Except (Status × Bytes) ViewReply)) := do
  let v ← newView hint
  requests.mapM (·.attempt v)

/-- **A view replies as a list of keys and values does.** -/
theorem view_refines_list (hint : UInt32) (requests : List ViewRequest) (w : World ε) :
    (∃ u, newView hint w = (.error (.raised .memory), u) ∧ (w.memory.Refused u.memory ∨ headsFor hint.toNat = none)) ∨
    ∃ v u results x, newView hint w = (.ok v, u) ∧ viewRun hint requests w = (.ok results, x) ∧
      Replies v u .empty requests results := by
  rcases run_newView hint w with ⟨u, hr⟩ | ⟨v, u, hr, hu⟩
  · exact .inl ⟨u, hr, denied_of_newView hr⟩
  · have hempty : u.Shows v Pairs.empty.items := hu
    obtain ⟨results, x, hrun, hreplies⟩ := run_attempts requests hempty
    exact .inr ⟨v, u, results, x, hr, by rw [viewRun, run_bind_ok hr, hrun], hreplies⟩

/-- A world whose allocator refuses its first request, and then every other one. -/
def wavering : World Unit := ⟨.new fun serial _ => serial % 2 = 1, 0, [], #[], #[], #[], #[], [], none, ()⟩

/-- One key, again and again. -/
def insistent : List ViewRequest :=
  [.append [97] (.int 1), .append [97] (.int 2), .append [97] (.int 3), .append [97] (.int 4), .length, .get [97]]

/-- Each of the two requests of the first append is refused once; what had been granted before is not asked for again. -/
theorem view_refines_list_wavering : ∃ v u, newView 0 wavering = (.ok v, u) ∧ Replies v u .empty insistent
    [.error (.memory, ascii "not enough memory"), .error (.memory, ascii "not enough memory"), .ok .done,
      .error (.duplicateKey, ascii "duplicate key a"), .ok (.length 1), .ok (.found (some (.int 3)))] := by
  rcases view_refines_list 0 insistent wavering with ⟨u, hr, -⟩ | ⟨v, u, results, x, hr, hrun, hreplies⟩
  · cases hr
  · have hresults : (viewRun 0 insistent wavering).1 =
        .ok [.error (.memory, ascii "not enough memory"), .error (.memory, ascii "not enough memory"), .ok .done,
          .error (.duplicateKey, ascii "duplicate key a"), .ok (.length 1), .ok (.found (some (.int 3)))] := by
      decide +kernel
    rw [hrun] at hresults
    cases hresults
    exact ⟨v, u, hr, hreplies⟩

end ValueCore
