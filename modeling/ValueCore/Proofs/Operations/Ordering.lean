import ValueCore.Proofs.Refinement
import ValueCore.Proofs.Verdict.Orderly

/-!
# Every operation keeps order

The order of `World.Orderly` is kept by every operation, if it is kept by what the host does when it is asked about
its own values; by induction on how deep such calls nest, it is (`Reachable.orderly`).

A key becomes part of a table only when an insertion has compared it with the keys under the same hash. What the
host did in between may have changed other tables. But what a comparison has found out stands as the world goes on,
so when the last one is done it still holds of all of them (`scan_missed`).
-/

namespace ValueCore

open World

variable {ε : Type} {I : Inventory ε} {w w' v : World ε} {kind : KeyKind} {t : TableId kind} {host : Host ε}

/-! ## What hashing and comparing tell -/

/-- A key is stored under the hash that it is given, and keys that are told apart are not equal. -/
structure Keying.Tells (I : Inventory ε) (keying : Keying ε kind.Key) : Prop where
  hash : ∀ {w v : World ε} {key : kind.Key} {a : UInt32}, w.Sound I → keying.hash key w = (.ok a, v) →
    w.FiledKey (storedHash a) key
  equal : ∀ {w v : World ε} {a b : kind.Key}, w.Sound I → keying.equal a b w = (.ok false, v) → w.UnlikeKey a b

theorem textKeying_tells : (textKeying : Keying ε _).Tells I := by
  refine ⟨fun {w v key a} _ hr => ?_, fun {w v a b} _ hr => ?_⟩
  · cases hr
    rfl
  · have hne : decide (a = b) = false := Except.ok.inj (congrArg Prod.fst hr)
    exact of_decide_eq_false hne

/-- The values that come to no dict and to no value of the host. -/
theorem World.tidy_solid (hs : ∀ {kind : KeyKind} (t : TableId kind), (w.table t).Sound) :
    w.Tidy fun x => ¬ w.Fluid x := by
  refine ⟨⟨hs, fun {x} hx => ?_, fun ht => absurd (.dict _) ht, fun hs hc => hs (.ctor hc),
    fun hs item hm hi => hs (.field hm hi)⟩, fun ht => absurd (.dict _) ht, fun ht => absurd (.dict _) ht⟩
  cases x with
  | host i => exact hx (.host i)
  | none | bool | int | float | str | dict | struct => trivial

theorem valueKeying_tells (host : Host ε) : (valueKeying host).Tells I := by
  refine ⟨fun {w v key a} _ hr => ?_, fun {w v x y} h hr => ?_⟩
  · by_cases hk : w.Hosted key
    · exact .inl hk
    · have hyields : w.Yields (hashValue host key) (w.hashOf (w.structs.size + 2) key) := yields_hashValue hk
      exact .inr ⟨a, hyields.value (congrArg Prod.fst hr), rfl⟩
  · by_cases hx : w.Fluid x
    · exact .inl hx
    by_cases hy : w.Fluid y
    · exact .inr (.inl hy)
    have htidy := w.tidy_solid fun t => h.tables t
    have hyields : w.Yields (equal host x y) (w.verdict (comparisonFuel w fullBudget) fullBudget x y) :=
      yields_equalInside htidy.toRegion fullBudget x y hx hy
    exact .inr (.inr (htidy.not_equal_of_verdict hx hy (hyields.value (congrArg Prod.fst hr))))

theorem keyingOf_tells (host : Host ε) : ∀ kind, (keyingOf host kind).Tells I
  | .any => valueKeying_tells host
  | .text => textKeying_tells

/-! ## Scanning -/

section
variable {keying : Keying ε kind.Key} {key : kind.Key}

/-- If no candidate is found then none is equal to the key. The comparisons that are still to come do not change
what the first has found out. -/
theorem firstEqual_missed (hk : keying.Follows I (Passes I)) (htell : keying.Tells I) :
    ∀ {cands : List (Nat × kind.Key)} {w v : World ε}, w.Sound I → w.OwnsKey key → (∀ c ∈ cands, w.OwnsKey c.2) →
      firstEqual keying.equal key cands w = (.ok none, v) → ∀ c ∈ cands, v.UnlikeKey key c.2
  | [], _, _, _, _, _, _ => fun c hc => by cases hc
  | (slot, k) :: rest, w, v, h, hkey, hcands, hr => by
    have hk₁ : w.OwnsKey k := hcands (slot, k) List.mem_cons_self
    have hpass := hk.equal key k h hkey hk₁
    unfold firstEqual at hr
    cases he : keying.equal key k w with
    | mk r u =>
      rw [he] at hpass
      rcases r with e | verdict
      · rw [run_bind_error he] at hr
        cases hr
      · rw [run_bind_ok he] at hr
        cases verdict with
        | true => cases hr
        | false =>
          have hin := Evolves.within hpass
          have hu := Evolves.sound hpass h
          have hrest : ∀ c ∈ rest, u.OwnsKey c.2 := fun c hc => hin.ownsKey (hcands c (List.mem_cons_of_mem _ hc))
          have hgo := (firstEqual_along hk rest hu (hin.ownsKey hkey) hrest).ends
          have hv : firstEqual keying.equal key rest u = (.ok none, v) := hr
          rw [hv] at hgo
          intro c hc
          rcases List.mem_cons.1 hc with rfl | hc
          · have hall : Passes I w v := Course.trans hpass hgo
            exact unlikeKey_stands (stands_of_evolves h hall) hkey hk₁ (htell.equal h he)
          · exact firstEqual_missed hk htell hu (hin.ownsKey hkey) hrest hv c hc

theorem scan_missed (hk : keying.Follows I (Passes I)) (htell : keying.Tells I) {hash : UInt32} (h : w.Sound I)
    (ht : w.Has t) (hkey : w.OwnsKey key) (hr : scan keying t key hash w = (.ok none, v)) :
    ∀ c ∈ (w.table t).candidates hash, v.UnlikeKey key c.2 := by
  have hcands : ∀ c ∈ (w.table t).candidates hash, w.OwnsKey c.2 := fun c hc => ownsKey_of_candidate h hc
  unfold scan at hr
  rw [run_bind_ok (run_readTable t w)] at hr
  cases hf : (w.table t).frozen with
  | true =>
    rw [run_holding_of_frozen hf] at hr
    exact firstEqual_missed hk htell h hkey hcands hr
  | false =>
    have hheld := h.held t ht
    have hin : Within w (w.held t) := within_modifyTable t _
    have hcands' : ∀ c ∈ (w.table t).candidates hash, (w.held t).OwnsKey c.2 := fun c hc => hin.ownsKey (hcands c hc)
    have hgo := (firstEqual_along hk _ hheld (hin.ownsKey hkey) hcands').ends
    rw [run_holding hf] at hr
    obtain ⟨hok, rfl⟩ := Prod.mk.injEq .. ▸ hr
    -- letting go of the table is nothing to its keys
    have hu := Evolves.sound hgo hheld
    have hin' := hin.trans (Evolves.within hgo)
    intro c hc
    have hstands := stands_of_same hu (.flags t (fun t => { t with holds := t.holds - 1 }) fun _ => .flags _ _ _)
    exact unlikeKey_stands hstands (hin'.ownsKey hkey) (hin'.ownsKey (hcands c hc))
      (firstEqual_missed hk htell hheld (hin.ownsKey hkey) hcands' (Prod.ext hok rfl) c hc)

end

/-! ## Single writes -/

/-- A change of a table that takes keys away at most. -/
theorem orders_modify (ht : w.Has t) {f : Table kind.Key → Table kind.Key} (hp : Passes I w (w.modifyTable t f))
    (hsub : (f (w.table t)).storedKeys.Sublist (w.table t).storedKeys) : Orders I w (w.modifyTable t f) := by
  refine ⟨hp, fun h ho => ho.stands h (stands_of_evolves h hp) (by rw [structs_modifyTable]) (fun u => .inl ?_) ?_⟩
  · exact table_modifyTable_cases t f ht (P := fun u T => T.storedKeys.Sublist (w.table u).storedKeys) hsub
      (fun _ _ => .refl _) u
  · intro s hge hlt
    rw [structs_modifyTable] at hlt
    omega

/-- A key that is not equal to any of those under its hash is added. -/
theorem orders_append (h : w.Sound I) (ht : w.Has t) {hash : UInt32} {key : kind.Key} {T : Table kind.Key}
    (hp : Passes I w (w.modifyTable t fun _ => T)) (hkeys : T.storedKeys = (w.table t).storedKeys ++ [(hash, key)])
    (hkey : w.OwnsKey key) (hfiled : w.FiledKey hash key)
    (hnew : ∀ r ∈ (w.table t).storedKeys, r.1 = hash → w.UnlikeKey key r.2) :
    Orders I w (w.modifyTable t fun _ => T) := by
  refine ⟨hp, fun _ ho => ho.stands h (stands_of_evolves h hp) (by rw [structs_modifyTable]) (fun u => ?_) ?_⟩
  · have hold := ho.arranged t
    have hunlike : ∀ r ∈ (w.table t).storedKeys, w.UnlikeKey key r.2 := by
      intro r hr
      by_cases hhash : r.1 = hash
      · exact hnew r hr hhash
      · exact unlike_of_filed (fun t => h.tables t) hfiled (hold.filed r hr) (Ne.symm hhash)
    have hall := (hold.append hfiled hunlike).stands (stands_of_evolves h hp) (by rw [structs_modifyTable]) fun r hr => by
      rcases List.mem_append.1 hr with hr | hr
      · exact ownsKey_of_stored h hr
      · rw [List.mem_singleton.1 hr]
        exact hkey
    rw [← hkeys] at hall
    exact table_modifyTable_cases t (fun _ => T) ht
      (P := fun u T' => T'.storedKeys.Sublist (w.table u).storedKeys ∨
        (w.modifyTable t fun _ => T).Arranged T'.storedKeys) (.inr hall) (fun _ _ => .inl (.refl _)) u
  · intro s hge hlt
    rw [structs_modifyTable] at hlt
    omega

/-! ## Inserting, erasing and clearing -/

theorem World.Open.free (h : w.Open t) (hf : (w.table t).frozen = false) (hh : (w.table t).holds = 0) :
    w.Free w.structs.size t := ⟨h.1, h.2, hf, hh⟩

section
variable {keying : Keying ε kind.Key} {key : kind.Key} {value : Value}

theorem Keying.Follows.passes (hk : keying.Follows I (Orders I)) : keying.Follows I (Passes I) :=
  ⟨fun key h hkey => (hk.hash key h hkey).passes, fun a b h ha hb => (hk.equal a b h ha hb).passes⟩

/-- An insertion goes through worlds in order. -/
theorem steady_orders (hk : keying.Follows I (Orders I)) {w₀ : World ε} (h : w₀.Sound I) (ht : w₀.Open t)
    (hkey : w₀.OwnsKey key) (hash : UInt32) : Steady keying t key hash (Orders I w₀) := by
  have hsound : ∀ {w : World ε}, Orders I w₀ w → w.Sound I := fun hj => hj.sound h
  have hin : ∀ {w : World ε}, Orders I w₀ w → Within w₀ w := fun hj => hj.within
  have hscan : ∀ {w : World ε}, Orders I w₀ w → Along (Orders I) w (scan keying t key hash) fun found w' =>
      w.Watched w' t ∧ ∀ i ∈ found, i ∈ (w.table t).order := fun hj =>
    scan_along hk hash (hsound hj) ((hin hj).has t ht.1) ((hin hj).ownsKey hkey)
  refine ⟨fun hj => (hsound hj).tables t, fun hj => (hin hj).has t ht.1, fun hj => ?_, fun hj => ?_, fun hj hr => ?_,
    fun hj ha => ?_, fun {w} block hj hf hh ho hmax => ?_⟩
  · exact Course.trans hj (hscan hj).ends
  · exact scan_watched hk hash (hsound hj) ((hin hj).has t ht.1) ((hin hj).ownsKey hkey)
  · exact ((hscan hj).post _ _ hr).2 _ rfl
  · exact Course.trans hj (Course.outside ha)
  · have hs := hsound hj
    have hopen := (hin hj).opens ht
    have hrec : ((w.table t).grown block).records = (w.table t).records := ((hs.tables t).grown hmax block).2.2.1
    have hgrow : Passes I w (w.modifyTable t (·.grown block)) := by
      refine (hopen.free hf hh).change (fun t => t.grown block) (.grow block ho hmax) ?_
      rw [Table.items_eq, hrec, ← Table.items_eq]
      exact hs.items t
    exact Course.trans hj (orders_modify hopen.1 hgrow (by rw [Table.storedKeys_of_records hrec]))

theorem insertHashed_orders (hk : keying.Follows I (Orders I)) (htell : keying.Tells I) {hash : UInt32}
    (hhash : hash ≠ 0) (h : w.Sound I) (ht : w.Open t) (hkey : w.OwnsKey key) (hvalue : w.Owns value)
    (hfiled : w.FiledKey hash key) : Orders I w (insertHashed keying t key value hash 26 w).2 := by
  have hself : Orders I w w := Course.outside (.refl w)
  obtain ⟨x, _, hx, _, hcon⟩ := insertHashed_ends (steady_orders hk h ht hkey hash) value hself
  refine Course.trans hx ?_
  have hsx := hx.sound h
  have hinx := hx.within
  have htx := hinx.opens ht
  have hscan := scan_along hk hash hsx htx.1 (hinx.ownsKey hkey)
  -- whatever becomes of the insertion, the last scan comes first
  have hafter : ∀ {r : Except Failure (Option Nat)} {y : World ε}, scan keying t key hash x = (r, y) → Orders I x y := by
    intro r y hs
    have := hscan.ends
    rwa [hs] at this
  generalize insertHashed keying t key value hash 26 w = res at hcon ⊢
  cases hcon with
  | failed hs => exact hafter hs
  | frozen hs _ => exact Course.trans (hafter hs) (Course.outside ⟨rfl, rfl, rfl, rfl⟩)
  | held hs _ _ => exact Course.trans (hafter hs) (Course.outside ⟨rfl, rfl, rfl, rfl⟩)
  | refused hs _ _ hu => exact Course.trans (hafter hs) (Course.outside hu)
  | @overwrites i y hs hf hh hi =>
    have hxy := hafter hs
    have hsy := hxy.sound hsx
    have hiny := hxy.within
    have hopen := hiny.opens htx
    have hwrite : Passes I y (y.modifyTable t (·.overwrite i value)) :=
      .step (overwrite_work hsy (hopen.free hf hh) hi (hiny.owns (hinx.owns hvalue))).step
    exact Course.trans hxy (orders_modify hopen.1 hwrite (by rw [(hsy.tables t).storedKeys_overwrite hi]))
  | @appends y z T hs hf hh ho hz hp =>
    have hxz : Orders I x z := Course.trans (hafter hs) (Course.outside hz)
    have hsz := hxz.sound hsx
    have hinz := hxz.within
    have hopen := hinz.opens htx
    have hkeyz := hinz.ownsKey (hinx.ownsKey hkey)
    have htable := hz.table t
    rw [← htable] at hf hh ho hp
    have hwrite : Passes I z (z.modifyTable t fun _ => T) :=
      placed_changes (R := Evolves I z.structs.size) hsz (hopen.free hf hh) ho hhash hkeyz (hinz.owns (hinx.owns hvalue)) hp
    have hstored : T.storedKeys = (z.table t).storedKeys ++ [(hash, key)] := by
      rw [Table.storedKeys, hp.records_eq (hsz.tables t) hhash, List.map_append]
      rfl
    refine Course.trans hxz (orders_append hsz hopen.1 hwrite hstored hkeyz ?_ fun r hr hsame => ?_)
    · have hstands := (Course.trans hx hxz : Orders I w z).stands h
      exact filedKey_stands hstands (hinx.trans hinz).size_le hkey hfiled
    · -- keys under the same hash are candidates
      have hkept := ((hscan.post _ _ hs).1).kept
      rw [htable, Table.storedKeys_of_records hkept.records_eq] at hr
      obtain ⟨q, hq, rfl⟩ := List.mem_map.1 hr
      obtain ⟨i, hcand⟩ := (hsx.tables t).candidate_of_record hq
      dsimp only at hsame
      rw [hsame] at hcand
      have hown : x.OwnsKey q.2.1 := ownsKey_of_candidate hsx hcand
      have hmissed := scan_missed hk.passes htell hsx htx.1 (hinx.ownsKey hkey) hs _ hcand
      have hiny := (hafter hs).within
      have hstands := stands_of_same ((hafter hs).sound hsx) (.of_alike hz)
      exact unlikeKey_stands hstands (hiny.ownsKey (hinx.ownsKey hkey)) (hiny.ownsKey hown) hmissed

theorem insert_orders (hk : keying.Follows I (Orders I)) (htell : keying.Tells I) (h : w.Sound I) (ht : w.Open t)
    (hkey : w.OwnsKey key) (hvalue : w.Owns value) :
    Along (Orders I) w (insert keying t key value) fun _ _ => True := by
  refine insert_along_of hk h hkey fun {hash v} hv hr _ => ?_
  have hin := hv.within
  refine insertHashed_orders hk htell (storedHash_ne_zero hash) (hv.sound h) (hin.opens ht)
    (hin.ownsKey hkey) (hin.owns hvalue) ?_
  exact filedKey_stands (hv.stands h) hin.size_le hkey (htell.hash h hr)

theorem erase_orders (hk : keying.Follows I (Orders I)) (h : w.Sound I) (ht : w.Open t) (hkey : w.OwnsKey key) :
    Along (Orders I) w (erase keying t key) fun _ _ => True := by
  refine erase_along_of hk h ht.1 hkey fun {v i} hv hf hh hi => ?_
  have hs := hv.sound h
  have hopen := hv.within.opens ht
  have hremoved := (hs.tables t).records_remove_sublist hi
  exact orders_modify hopen.1 (.step (remove_work hs (hopen.free hf hh) hi).step) (hremoved.map _)

theorem clear_orders (h : w.Sound I) (ht : w.Open t) : Along (Orders I) w (clear t) fun _ _ => True := by
  refine clear_along_of fun hf hh => orders_modify ht.1 (.step (clear_work h (ht.free hf hh)).step) ?_
  rw [Table.storedKeys, Table.records_of_order_nil (h.tables t).cleared.2]
  exact List.nil_sublist _

end

end ValueCore
