/-
  File:      Veridie/Utils/PoolBuilder.lean
  Subject:   `PoolSuitableFor` (utils/poolbuilder.hpp): from the sizes of some types, the sizes of
             the blocks of a pool for them.

  The sizes are a parameter pack, and everything is computed by specialization of templates: the
  recursion is that of the specializations, and a sequence that none of them matches does not
  compile (`none`).

  * `contains`, `eliminateDuplicates`, `insertOrdered`, `insertionSort`, `poolSuitableFor` -- the
    code;
  * `poolSuitableFor_eq` -- what is computed is the set of the sizes in ascending order;
  * `exact_fit` -- in every run of such a pool, each object lies in a block of just its size.
-/
import Veridie.Utils.Pool

namespace Veridie.Utils

open Veridie.Lib

/-! ## 1. The templates -/

/-- `Contains`. -/
def contains : List Nat → Nat → Bool
  | [], _ => false
  | s :: ss, v => if s = v then true else contains ss v

/-- `Combine`. -/
def combine (ss₁ ss₂ : List Nat) : List Nat := ss₁ ++ ss₂

/-- `EliminateDuplicates`. -/
def eliminateDuplicates : List Nat → List Nat
  | [] => []
  | s :: ss =>
    if contains ss s then eliminateDuplicates ss else combine [s] (eliminateDuplicates ss)

/-- `InsertOrdered`. -/
def insertOrdered : List Nat → Nat → List Nat
  | [], v => [v]
  | s :: ss, v => if v ≤ s then v :: s :: ss else combine [s] (insertOrdered ss v)

/-- `InsertionSort`; the empty sequence has no specialization. -/
def insertionSort : List Nat → Option (List Nat)
  | [] => none
  | [s] => some [s]
  | s :: ss => (insertionSort ss).map fun orderedSubseq => insertOrdered orderedSubseq s

/-- `PoolBuilder::Type`, by the sizes of its blocks; `sizes` are those of `TArgs`. -/
def poolSuitableFor (sizes : List Nat) : Option (List Nat) :=
  insertionSort (eliminateDuplicates sizes)

/-! ## 2. A set in ascending order -/

section Templates

theorem contains_iff {ss : List Nat} {v : Nat} : contains ss v = true ↔ v ∈ ss := by
  induction ss with
  | nil => exact iff_of_false Bool.false_ne_true List.not_mem_nil
  | cons s ss ih =>
    rw [contains, List.mem_cons]
    by_cases hs : s = v
    · rw [if_pos hs]
      exact iff_of_true rfl (Or.inl hs.symm)
    · rw [if_neg hs, ih, or_iff_right (fun he => hs he.symm)]

theorem eliminateDuplicates_eq (ss : List Nat) : eliminateDuplicates ss = ss.dedup := by
  induction ss with
  | nil => rfl
  | cons s ss ih =>
    rw [eliminateDuplicates, ih]
    by_cases hs : s ∈ ss
    · rw [if_pos (contains_iff.mpr hs), List.dedup_cons_of_mem hs]
    · rw [if_neg (fun h => hs (contains_iff.mp h)), List.dedup_cons_of_notMem hs]
      rfl

theorem insertOrdered_eq (ss : List Nat) (v : Nat) :
    insertOrdered ss v = ss.orderedInsert (· ≤ ·) v := by
  induction ss with
  | nil => rfl
  | cons s ss ih =>
    rw [insertOrdered, List.orderedInsert_cons, ih]
    rfl

theorem insertionSort_eq {ss : List Nat} (h : ss ≠ []) :
    insertionSort ss = some (ss.insertionSort (· ≤ ·)) := by
  induction ss with
  | nil => exact absurd rfl h
  | cons s ss ih =>
    cases ss with
    | nil => rfl
    | cons s' ss =>
      rw [insertionSort, ih (List.cons_ne_nil s' ss), List.insertionSort_cons]
      · exact congrArg some (insertOrdered_eq _ s)
      · exact fun hnil => nomatch hnil

end Templates

/-- **The builder**: it does not compile for no type at all; otherwise the blocks have the sizes of
    the types, each once and in ascending order. -/
theorem poolSuitableFor_eq (sizes : List Nat) : poolSuitableFor sizes =
    if sizes = [] then none else some (sizes.toFinset.sort (· ≤ ·)) := by
  unfold poolSuitableFor
  rw [eliminateDuplicates_eq]
  by_cases hsizes : sizes = []
  · rw [if_pos hsizes, hsizes]
    rfl
  · have hdedup : sizes.dedup ≠ [] := fun hnil => hsizes (List.dedup_eq_nil sizes |>.mp hnil)
    rw [if_neg hsizes, insertionSort_eq hdedup]
    have hperm := List.perm_insertionSort (· ≤ ·) sizes.dedup
    have hnodup := hperm.nodup_iff.mpr (List.nodup_dedup sizes)
    have hset : (sizes.dedup.insertionSort (· ≤ ·)).toFinset = sizes.toFinset := by
      rw [List.toFinset_eq_of_perm _ _ hperm]
      ext size
      rw [List.mem_toFinset, List.mem_toFinset, List.mem_dedup]
    have hsort := (List.toFinset_sort (· ≤ ·) hnodup).mpr
      (List.pairwise_insertionSort (· ≤ ·) sizes.dedup)
    rw [← hsort, hset]

/-! ## 3. A pool for its types -/

/-- Objects are made of these sizes only, and `Resize` stays within `int`. -/
def Within (sizes : List Nat) (p : Pool) (i : PoolInput) : Prop :=
  i.Moderate p ∧
    match i with
    | .make size _ => size ∈ sizes
    | _ => True

instance (sizes : List Nat) (p : Pool) : DecidablePred (Within sizes p)
  | .make size throws =>
    inferInstanceAs (Decidable ((PoolInput.make size throws).Moderate p ∧ size ∈ sizes))
  | .release k => inferInstanceAs (Decidable ((PoolInput.release k).Moderate p ∧ True))
  | .shrinkToFit => inferInstanceAs (Decidable (PoolInput.shrinkToFit.Moderate p ∧ True))
  | .resize newCount => inferInstanceAs (Decidable ((PoolInput.resize newCount).Moderate p ∧ True))

section Fit

variable {p : Pool} {sizes : List Nat}

/-- What is alive after a step was so before, or has just been made. -/
theorem mem_live_step {i : PoolInput} {o : Object} (ho : o ∈ (poolMachine.step p i).1.live) :
    o ∈ p.live ∨ ∃ throws, i = .make o.size throws := by
  cases i with
  | make size throws =>
    unfold poolMachine at ho
    dsimp only at ho
    split at ho
    · exact Or.inl ho
    · split at ho
      · exact Or.inl ho
      · split at ho
        · exact Or.inl ho
        · rcases List.mem_append.mp ho with ho | ho
          · exact Or.inl ho
          · rw [List.mem_singleton.mp ho]
            exact Or.inr ⟨throws, rfl⟩
  | release k =>
    unfold poolMachine at ho
    dsimp only at ho
    split at ho
    · exact Or.inl ho
    · exact Or.inl (List.mem_of_mem_eraseIdx ho)
  | shrinkToFit => exact Or.inl ho
  | resize newCount => exact Or.inl ho

/-- Where every size has blocks of its own, the smallest blocks that are large enough are these. -/
theorem Suits.exact {o : Object} (h : Suits sizes o) (ho : o.size ∈ sizes) :
    sizes[o.sub]? = some o.size := by
  obtain ⟨blockSize, hat, hle, hleast⟩ := h
  rw [hat, Nat.le_antisymm (hleast o.size ho (Nat.le_refl _)) hle]

theorem suitablePool_ne_none {subs : List SubPool} {size : Nat}
    (h : size ∈ subs.map SubPool.blockSize) : suitablePool subs size ≠ none := by
  induction subs with
  | nil => exact absurd h List.not_mem_nil
  | cons s subs ih =>
    unfold suitablePool
    split
    · exact Option.some_ne_none 0
    · rename_i hlt
      rcases List.mem_cons.mp h with rfl | h
      · exact absurd (Nat.le_refl _) hlt
      · exact fun hnone => ih h (Option.map_eq_none_iff.mp hnone)

/-- The bytes of all objects, by the sub-pools they lie in. -/
theorem sum_usedIn (live : List Object) (h : ∀ o ∈ live, sizes[o.sub]? = some o.size) :
    ∑ k ∈ Finset.range sizes.length, (usedIn live k).length * sizes.getD k 0 =
      (live.map Object.size).sum := by
  induction live with
  | nil => exact Finset.sum_eq_zero fun k _ => Nat.zero_mul _
  | cons o live ih =>
    obtain ⟨hlt, _⟩ := List.getElem?_eq_some_iff.mp (h o List.mem_cons_self)
    have hsize : sizes.getD o.sub 0 = o.size := by
      rw [List.getD_eq_getElem?_getD, h o List.mem_cons_self]
      rfl
    have hcount : ∀ k, (usedIn (o :: live) k).length * sizes.getD k 0 =
        (usedIn live k).length * sizes.getD k 0 + if o.sub = k then o.size else 0 := by
      intro k
      unfold usedIn
      by_cases hk : o.sub = k
      · rw [List.filter_cons_of_pos (by simpa using hk), List.map_cons, List.length_cons,
          Nat.succ_mul, if_pos hk, ← hk, hsize]
      · rw [List.filter_cons_of_neg (by simpa using hk), if_neg hk, Nat.add_zero]
    rw [Finset.sum_congr rfl fun k _ => hcount k, Finset.sum_add_distrib,
      ih fun o' ho' => h o' (List.mem_cons_of_mem o ho'), Finset.sum_ite_eq,
      if_pos (Finset.mem_range.mpr hlt), List.map_cons, List.sum_cons, Nat.add_comm]

/-- After `ShrinkToFit` a pool has as many bytes as its objects, if each has a block of its size. -/
theorem getSize_shrink (h : Represents sizes p)
    (hfit : ∀ o ∈ p.live, sizes[o.sub]? = some o.size) :
    getSize (poolMachine.step p .shrinkToFit).1.subs = (p.live.map Object.size).sum := by
  have hlength : p.subs.length = sizes.length := by rw [← h.blockSizes, List.length_map]
  have hbytes : ∀ k : Fin p.subs.length,
      (p.subs[k].shrinkToFit).blocks.length * (p.subs[k].shrinkToFit).blockSize =
        (usedIn p.live k).length * sizes.getD k 0 := by
    intro k
    have hk : p.subs[k.val]? = some p.subs[k] := List.getElem?_eq_getElem k.isLt
    have hat : sizes[k.val]? = some p.subs[k].blockSize :=
      calc sizes[k.val]? = (p.subs.map SubPool.blockSize)[k.val]? := by rw [h.blockSizes]
        _ = some p.subs[k].blockSize := by rw [List.getElem?_map, hk]; rfl
    have hsize : sizes.getD k 0 = p.subs[k].blockSize := by
      rw [List.getD_eq_getElem?_getD, hat]
      rfl
    rw [hsize, ← (h.sound k p.subs[k] hk).count]
    unfold SubPool.shrinkToFit
    dsimp only
    rw [SubPool.removeFree_eq]
  rw [← sum_usedIn p.live hfit, shrink_step, size_sum, List.map_map, ← hlength, Finset.sum_range,
    ← List.sum_ofFn]
  refine congrArg List.sum (List.ext_getElem ?_ fun k hk _ => ?_)
  · rw [List.length_map, List.length_ofFn]
  · rw [List.getElem_map, List.getElem_ofFn]
    rw [List.length_map] at hk
    exact hbytes ⟨k, hk⟩

end Fit

/-- **A pool built for its types**, in every run that makes objects of these types only: each object
    lies in a block of just its size, each type still finds a sub-pool, and `ShrinkToFit` leaves as
    many bytes as the objects have. -/
theorem exact_fit (types built : List Nat) (count : Nat) (hbuilt : poolSuitableFor types = some built)
    (is : List PoolInput) (h : poolMachine.Along (Within types) (Pool.new built count) is) :
    (∀ o ∈ (poolMachine.exec (Pool.new built count) is).live,
      ∃ s, (poolMachine.exec (Pool.new built count) is).subs[o.sub]? = some s ∧
        s.blockSize = o.size) ∧
    (∀ size ∈ types,
      suitablePool (poolMachine.exec (Pool.new built count) is).subs size ≠ none) ∧
    getSize (poolMachine.step (poolMachine.exec (Pool.new built count) is) .shrinkToFit).1.subs =
      ((poolMachine.exec (Pool.new built count) is).live.map Object.size).sum := by
  have hne : types ≠ [] := by
    intro hnil
    rw [poolSuitableFor_eq, if_pos hnil] at hbuilt
    exact nomatch hbuilt
  rw [poolSuitableFor_eq, if_neg hne] at hbuilt
  cases hbuilt
  have hmem : ∀ size, size ∈ types.toFinset.sort (· ≤ ·) ↔ size ∈ types := by
    intro size
    rw [Finset.mem_sort, List.mem_toFinset]
  have hrun := Machine.invariant_along (M := poolMachine) (G := Within types)
    (P := fun p => Represents (types.toFinset.sort (· ≤ ·)) p ∧ ∀ o ∈ p.live, o.size ∈ types)
    (fun p i hi hp => ⟨represents_step (Finset.sortedLT_sort types.toFinset).pairwise hp.1 i,
      fun o ho => by
        rcases mem_live_step ho with ho | ⟨throws, rfl⟩
        · exact hp.2 o ho
        · exact hi.2⟩)
    h ⟨represents_new _ count, fun _ ho => absurd ho List.not_mem_nil⟩
  obtain ⟨hrep, hsizes⟩ := hrun
  have hfit : ∀ o ∈ (poolMachine.exec (Pool.new (types.toFinset.sort (· ≤ ·)) count) is).live,
      (types.toFinset.sort (· ≤ ·))[o.sub]? = some o.size :=
    fun o ho => (hrep.suited o ho).exact ((hmem o.size).mpr (hsizes o ho))
  refine ⟨fun o ho => ?_, fun size hsize => ?_, getSize_shrink hrep hfit⟩
  · have hat := hfit o ho
    rw [← hrep.blockSizes, List.getElem?_map] at hat
    exact Option.map_eq_some_iff.mp hat
  · refine suitablePool_ne_none ?_
    rw [hrep.blockSizes]
    exact (hmem size).mpr hsize

/-- Three types of two sizes. -/
theorem exact_fit_run : getSize (poolMachine.step (poolMachine.exec (Pool.new [2, 8] 1)
    [.make 8 false, .make 2 false, .make 8 false, .release 0]) .shrinkToFit).1.subs = 10 :=
  (exact_fit [8, 2, 8] [2, 8] 1 (by decide)
    [.make 8 false, .make 2 false, .make 8 false, .release 0]
    ⟨by decide, by decide, by decide, by decide, trivial⟩).2.2.trans (by decide)

end Veridie.Utils
