import ValueCore.Proofs.Operations.Ascending
import ValueCore.Proofs.Operations.Keys

/-!
# Courses on which structs are made

A struct is made of a constructor and of fields that are there, and these are in order: they were sorted, or come from
structs that are in order themselves. A course that goes on whenever a struct is made of such fields (`Building`) goes on
through all operations that make structs.

If it takes no notice, besides, of who holds a table and of what the host keeps, then all that is left to look at are the
operations: from these it follows for whatever a program attempts (`Attempts.builds`) and whatever its values do when they
are asked (`Civil.builds`).
-/

namespace ValueCore

open World

variable {ε : Type} {I : Inventory ε} {w w' : World ε} {host : Host ε} {R : World ε → World ε → Prop}

/-- The fields of every struct are in ascending order of their names, without repetitions. -/
def World.Collated (w : World ε) : Prop :=
  ∀ s : StructId, s.index < w.structs.size → StrictlyAscending (w.table (w.struct s).fields).items

/-- A course on which structs may be made. -/
class Building (I : outParam (Inventory ε)) (R : World ε → World ε → Prop) : Prop extends BySteps I R where
  same : ∀ {w w' : World ε}, Passes I w w' → SameStores w w' → R w w'
  filled : ∀ {w : World ε} {ctor : Value} (hint : Nat) {fields : List Field}, w.Sound I → w.Owns ctor →
    OwnsFields w fields → (w.Collated → Ascending fields) → R w (filledStruct ctor hint fields w).2

section
variable [Building I R]

theorem createStruct_builds (h : w.Sound I) {ctor : Value} (hctor : w.Owns ctor) {fields : List Field}
    (hown : OwnsFields w fields) : Along R w (createStruct ctor fields) fun _ _ => True := by
  unfold createStruct
  refine (Along.withScratch (Q := fun _ _ => True) fun v hv => .answer ?_).trivial
  have hstep : Step I 0 w v := .outside hv
  have hin := hstep.within
  exact Building.filled _ (hstep.sound h) (hin.owns hctor) (fun field hm => hin.owns (hown field (mem_sortBy hm)))
    fun _ => ascending_sortBy fields

theorem makeStruct_builds (h : w.Sound I) (positional : List Value) {fields : List Field} (hown : OwnsFields w fields) :
    Along R w (makeStruct positional fields) fun _ _ => True := by
  unfold makeStruct
  dsimp only
  split
  · exact Along.raise.bind (P := fun _ _ => False) fun _ _ _ hf => hf.elim
  · have hctor : w.Owns defaultConstructor := trivial
    exact createStruct_builds h hctor hown

theorem mergeStructs_builds (hh : host.Follows I R) (h : w.Sound I) {x y : StructId}
    (hx : w.Owns (.struct x)) (hy : w.Owns (.struct y)) :
    Along R w (mergeStructs host x y) fun _ _ => True := by
  refine mergeStructs_along_of hh h hx hy fun {v} hv hint => .answer ?_
  have he := BySteps.evolves h hv
  have hin := he.within
  have hs := he.sound h
  have hxv : v.Owns (.struct x) := hin.owns hx
  have hyv : v.Owns (.struct y) := hin.owns hy
  exact Building.filled hint hs (hin.owns (h.ctors x hx))
    (mem_mergeFields _ _ (ownsFields_of_sound hs x) (ownsFields_of_sound hs y))
    fun hc => (strict_mergeFields (hc x hxv) (hc y hyv)).ascending

/-! ## Programs and hosts -/

/-- What is attempted keeps to the course if operations do. -/
theorem Attempts.builds {hosts : Host ε → Prop} (hop : ∀ {host : Host ε} {v : World ε} (op : Operation), hosts host →
      v.Sound I → op.Valid v → R v (op.run host v).2) (h : w.Sound I) (ha : Attempts I hosts w w') : R w w' := by
  have hsound : ∀ {v : World ε}, R w v → v.Sound I := fun hr => (BySteps.evolves h hr).sound h
  -- what needs no operation leaves the stores as they are
  have hsame : ∀ {v v' : World ε}, Passes I v v' → Attempts I (fun _ => False) v v' → R v v' :=
    fun hp ha => Building.same hp ha.same
  induction ha with
  | refl => exact Course.outside (.refl w)
  | call host op _ hh hv ih => exact Course.trans ih (hop op hh (hsound ih) hv)
  | outside _ hv ih => exact Course.trans ih (Course.outside hv)
  | aside e _ he hk ih => exact Course.trans ih (hsame (.step (.aside e he hk)) (.aside e .refl he hk))
  | start t c e _ ht hc he hk ih =>
    exact Course.trans ih (hsame (start_evolves ht hc he hk) (.start t c e .refl ht hc he hk))
  | finish c e _ he hk ih =>
    exact Course.trans ih (hsame (finish_evolves (hsound ih) he hk) (.finish c e .refl he hk))

/-- **What a civil host does when it is asked keeps to the course**, if operations do whose values answer so. The
induction is on how deep calls nest. -/
theorem Civil.builds (hop : ∀ {host : Host ε} {v : World ε} (op : Operation), host.Follows I R → host.Freezes I R →
      v.Sound I → op.Valid v → R v (op.run host v).2) (hc : Civil I host) : host.Follows I R ∧ host.Freezes I R := by
  induction hc with
  | intro inner _ hdisplay hhash hequal hfreeze ih =>
    have hanswer : ∀ {v v' : World ε}, v.Sound I → Attempts I inner v v' → R v v' := fun h ha =>
      ha.builds (fun op hi hs hv => hop op (ih _ hi).1 (ih _ hi).2 hs hv) h
    refine ⟨⟨fun i h => ?_, fun i h => ?_, fun a b depth h => ?_⟩, ⟨fun i h => ?_, fun t _ ht => ?_⟩⟩
    · exact hanswer h (hdisplay _ i h)
    · exact hanswer h (hhash _ i h)
    · exact hanswer h (hequal _ a b depth h)
    · exact hanswer h (hfreeze _ i h)
    · exact Building.same (.step (.freeze t ht)) (.flags t (fun t => { t with frozen := true }) fun _ => .flags _ _ _)

end

end ValueCore
