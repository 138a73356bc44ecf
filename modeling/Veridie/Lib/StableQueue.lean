/-
  File:      Veridie/Lib/StableQueue.lean
  Subject:   Queues that are kept in the order of keys and, among equal keys, in the order of
             insertion, as an ordered multimap keeps them.

  What is inserted gets a number, and the numbers grow; a queue is in order when its entries increase
  by key and then by number.

  * `insertBehind` -- insertion behind all entries that do not come later;
  * `insertBehind_sorted`, `filterMap_insertBehind` -- what insertion does to the order, and to the
    entries of one sort;
  * `Earlier`, `insertBehind_pairwise` -- the order, and that insertion keeps it;
  * `Overtakes` -- one entry has left before another that has the smaller number and no greater key;
  * `sublist_of_pairwise` -- of two members of a list one stands before the other, and which one;
  * `filter_prefix`, `eq_of_increasing` -- what is in front, and lists in the same order;
  * `sublist_of_not_overtakes` -- what is inserted with growing keys leaves in the order of insertion.
-/
import Mathlib

namespace Veridie.Lib

/-! ## 1. Insertion -/

/-- `x` is inserted in front of the first entry whose key is greater. -/
def insertBehind {α κ : Type} [LT κ] [DecidableLT κ] (key : α → κ) (x : α) : List α → List α
  | [] => [x]
  | y :: ys => if key x < key y then x :: y :: ys else y :: insertBehind key x ys

section Insert

variable {α κ : Type} [LinearOrder κ] {key : α → κ} {num : α → Nat}

theorem insertBehind_perm (x : α) (ys : List α) : (insertBehind key x ys).Perm (x :: ys) := by
  induction ys with
  | nil => exact List.Perm.refl _
  | cons y ys ih =>
    unfold insertBehind
    split
    · exact List.Perm.refl _
    · exact (ih.cons y).trans (List.Perm.swap x y ys)

theorem mem_insertBehind {x z : α} {ys : List α} : z ∈ insertBehind key x ys ↔ z = x ∨ z ∈ ys := by
  rw [(insertBehind_perm x ys).mem_iff, List.mem_cons]

theorem length_insertBehind (x : α) (ys : List α) :
    (insertBehind key x ys).length = ys.length + 1 := (insertBehind_perm x ys).length_eq

/-- Insertion keeps keys in order. -/
theorem insertBehind_sorted {x : α} {ys : List α} (h : ys.Pairwise fun y z => key y ≤ key z) :
    (insertBehind key x ys).Pairwise fun y z => key y ≤ key z := by
  induction ys with
  | nil => exact List.pairwise_singleton _ _
  | cons y ys ih =>
    obtain ⟨hfront, hrest⟩ := List.pairwise_cons.mp h
    unfold insertBehind
    by_cases hlt : key x < key y
    · rw [if_pos hlt]
      refine List.pairwise_cons.mpr ⟨fun z hz => ?_, h⟩
      rcases List.mem_cons.mp hz with rfl | hz
      · exact hlt.le
      · exact hlt.le.trans (hfront z hz)
    · rw [if_neg hlt]
      refine List.pairwise_cons.mpr ⟨fun z hz => ?_, ih hrest⟩
      rcases mem_insertBehind.mp hz with rfl | hz
      · exact not_lt.mp hlt
      · exact hfront z hz

/-- Of the entries that `f` picks, one that comes later than none is inserted as the last. -/
theorem filterMap_insertBehind {β : Type} {f : α → Option β} {x : α} {ys : List α}
    (h : ys.Pairwise fun y z => key y ≤ key z)
    (hlast : (f x).isSome → ∀ y ∈ ys, (f y).isSome → key y ≤ key x) :
    (insertBehind key x ys).filterMap f = ys.filterMap f ++ (f x).toList := by
  induction ys with
  | nil =>
    cases hx : f x with
    | none => exact List.filterMap_cons_none hx
    | some b => exact List.filterMap_cons_some hx
  | cons y ys ih =>
    obtain ⟨hfront, hrest⟩ := List.pairwise_cons.mp h
    unfold insertBehind
    by_cases hlt : key x < key y
    · rw [if_pos hlt]
      cases hx : f x with
      | none => exact (List.filterMap_cons_none hx).trans (List.append_nil _).symm
      | some b =>
        -- everything behind comes later, so `f` picks nothing of it
        have hnone : (y :: ys).filterMap f = [] := by
          refine List.filterMap_eq_nil_iff.mpr fun z hz => ?_
          by_contra hne
          have hle := hlast (by rw [hx]; rfl) z hz (Option.isSome_iff_ne_none.mpr hne)
          rcases List.mem_cons.mp hz with rfl | hz
          · exact absurd hlt (not_lt.mpr hle)
          · exact absurd (hlt.trans_le (hfront z hz)) (not_lt.mpr hle)
        rw [List.filterMap_cons_some hx, hnone]
        rfl
    · rw [if_neg hlt]
      have ih := ih hrest fun hsome z hz => hlast hsome z (List.mem_cons_of_mem y hz)
      cases hy : f y with
      | none => rw [List.filterMap_cons_none hy, List.filterMap_cons_none hy, ih]
      | some b => rw [List.filterMap_cons_some hy, List.filterMap_cons_some hy, ih, List.cons_append]

/-- Smaller by key, or by number where the keys are the same. -/
def Earlier (key : α → κ) (num : α → Nat) (x y : α) : Prop :=
  key x < key y ∨ key x = key y ∧ num x < num y

/-- **Insertion keeps the order** when the new number is the greatest one. -/
theorem insertBehind_pairwise {x : α} {ys : List α} (h : ys.Pairwise (Earlier key num))
    (hx : ∀ y ∈ ys, num y < num x) : (insertBehind key x ys).Pairwise (Earlier key num) := by
  induction ys with
  | nil => exact List.pairwise_singleton _ _
  | cons y ys ih =>
    obtain ⟨hy, hys⟩ := List.pairwise_cons.mp h
    unfold insertBehind
    split
    case isTrue hlt =>
      refine List.pairwise_cons.mpr ⟨fun z hz => ?_, h⟩
      rcases List.mem_cons.mp hz with rfl | hz
      · exact Or.inl hlt
      · rcases hy z hz with hyz | ⟨hyz, _⟩
        · exact Or.inl (hlt.trans hyz)
        · exact Or.inl (hyz ▸ hlt)
    case isFalse hge =>
      refine List.pairwise_cons.mpr
        ⟨fun z hz => ?_, ih hys fun z hz => hx z (List.mem_cons_of_mem y hz)⟩
      rcases mem_insertBehind.mp hz with rfl | hz
      · rcases lt_or_eq_of_le (not_lt.mp hge) with hlt | heq
        · exact Or.inl hlt
        · exact Or.inr ⟨heq, hx y List.mem_cons_self⟩
      · exact hy z hz

/-! ## 2. Who leaves first -/

/-- `x` has left although `y` has the smaller number and no greater key. -/
def Overtakes (key : α → κ) (num : α → Nat) (x y : α) : Prop := num y < num x ∧ key y ≤ key x

theorem Earlier.not_overtakes {x y : α} (h : Earlier key num x y) : ¬ Overtakes key num x y := by
  intro ho
  obtain ⟨hnum, hkey⟩ := ho
  rcases h with hlt | ⟨_, hlt⟩
  · exact absurd hkey (not_le.mpr hlt)
  · exact absurd hnum (Nat.lt_asymm hlt)

end Insert

/-- Of two members of a list one stands before the other. -/
theorem sublist_pair {α : Type} {x y : α} {l : List α} (hx : x ∈ l) (hy : y ∈ l) (hne : x ≠ y) :
    [x, y].Sublist l ∨ [y, x].Sublist l := by
  induction l with
  | nil => exact absurd hx List.not_mem_nil
  | cons z l ih =>
    rcases List.mem_cons.mp hx with rfl | hx'
    · rcases List.mem_cons.mp hy with rfl | hy'
      · exact absurd rfl hne
      · exact Or.inl ((List.singleton_sublist.mpr hy').cons_cons x)
    · rcases List.mem_cons.mp hy with rfl | hy'
      · exact Or.inr ((List.singleton_sublist.mpr hx').cons_cons y)
      · exact (ih hx' hy').imp (List.Sublist.cons z) (List.Sublist.cons z)

/-- Two members that are not related one way stand the other way. -/
theorem sublist_of_pairwise {α : Type} {r : α → α → Prop} {x y : α} {l : List α}
    (h : l.Pairwise r) (hx : x ∈ l) (hy : y ∈ l) (hne : x ≠ y) (hr : ¬ r y x) :
    [x, y].Sublist l := by
  rcases sublist_pair hx hy hne with hxy | hyx
  · exact hxy
  · have hpair := h.sublist hyx
    exact absurd ((List.pairwise_cons.mp hpair).1 x (List.mem_singleton_self x)) hr

/-- What meets a condition that each member passes on to those before it stands in front. -/
theorem filter_prefix {α : Type} {p : α → Bool} {l : List α}
    (h : l.Pairwise (fun x y => p y = true → p x = true)) : l.filter p <+: l := by
  induction l with
  | nil => exact List.prefix_refl _
  | cons x l ih =>
    obtain ⟨hx, hl⟩ := List.pairwise_cons.mp h
    cases hp : p x with
    | true =>
      rw [List.filter_cons_of_pos hp]
      exact List.cons_prefix_cons.mpr ⟨rfl, ih hl⟩
    | false =>
      have hnone : l.filter p = [] := by
        refine List.filter_eq_nil_iff.mpr fun y hy hpy => ?_
        exact nomatch hp.symm.trans (hx y hy hpy)
      rw [List.filter_cons_of_neg (Bool.not_eq_true _ ▸ hp), hnone]
      exact List.nil_prefix

/-- Two lists with the same members, each in strict order, are the same. -/
theorem eq_of_increasing {α : Type} {num : α → Nat} {l l' : List α}
    (h : l.Pairwise (fun x y => num x < num y)) (h' : l'.Pairwise (fun x y => num x < num y))
    (hmem : ∀ x, x ∈ l ↔ x ∈ l') : l = l' := by
  have hnodup : ∀ {k : List α}, k.Pairwise (fun x y => num x < num y) → k.Nodup := by
    intro k hk
    refine hk.imp fun hlt heq => ?_
    rw [heq] at hlt
    exact absurd hlt (Nat.lt_irrefl _)
  have hperm : l.Perm l' := (List.perm_ext_iff_of_nodup (hnodup h) (hnodup h')).mpr hmem
  exact hperm.eq_of_pairwise (fun x y _ _ hxy hyx => absurd hyx (Nat.lt_asymm hxy)) h h'

/-- Where nothing overtakes, members whose keys grow with their numbers stand in this order. -/
theorem sublist_of_not_overtakes {α κ : Type} [LinearOrder κ] {key : α → κ} {num : α → Nat}
    {l m : List α} (hl : l.Pairwise (fun x y => ¬ Overtakes key num x y))
    (hnums : l.Pairwise (fun x y => num x ≠ num y))
    (hm : m.Pairwise (fun x y => num x < num y ∧ key x ≤ key y)) (hsub : ∀ x ∈ m, x ∈ l) :
    m.Sublist l := by
  classical
  have hkeys : ∀ x ∈ m, ∀ y ∈ m, num x < num y → key x ≤ key y := by
    intro x hx y hy hlt
    have hne : x ≠ y := fun heq => absurd hlt (heq ▸ Nat.lt_irrefl _)
    have hxy : [x, y].Sublist m :=
      sublist_of_pairwise hm hx hy hne fun hyx => absurd hlt (Nat.lt_asymm hyx.1)
    exact ((List.pairwise_cons.mp (hm.sublist hxy)).1 y (List.mem_singleton_self y)).2
  have hsame : l.filter (fun x => decide (x ∈ m)) = m := by
    refine eq_of_increasing ?_ (hm.imp fun hxy => hxy.1) fun x => ?_
    · refine (hl.and hnums).filter _ |>.imp_of_mem fun {x y} hx hy hxy => ?_
      have hxm : x ∈ m := of_decide_eq_true (List.mem_filter.mp hx).2
      have hym : y ∈ m := of_decide_eq_true (List.mem_filter.mp hy).2
      rcases Nat.lt_or_gt_of_ne hxy.2 with hlt | hgt
      · exact hlt
      · exact absurd ⟨hgt, hkeys y hym x hxm hgt⟩ hxy.1
    · rw [List.mem_filter]
      exact ⟨fun h => of_decide_eq_true h.2, fun h => ⟨hsub x h, decide_eq_true h⟩⟩
  exact hsame ▸ List.filter_sublist

end Veridie.Lib
