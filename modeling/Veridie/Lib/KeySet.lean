/-
  File:      Veridie/Lib/KeySet.lean
  Subject:   Finite sets whose elements are told apart by a key: two elements with the same key are
             the same element, whatever else they carry. The distinctness of the keys is a field.

  * `KeySet.insert` -- keeps the element already there under the key;
  * `KeySet.erase`, `KeySet.find?`, `KeySet.keys` -- by key;
  * `KeySet.modify`, `KeySet.adjust` -- rewrite the elements, or one of them, each under its own key;
  * `KeySet.countP_key` -- a key is counted once at most;
  * `KeySet.countP_eq_add`, `KeySet.sum_adjust` -- a count, one element apart, and a sum.

  The order of `elems` is the order an iteration visits; nothing proved here depends on it.
-/
import Mathlib

namespace Veridie.Lib

/-- A finite set of `α`, told apart by `key`. -/
structure KeySet {α κ : Type} (key : α → κ) where
  elems : List α
  nodup : (elems.map key).Nodup

namespace KeySet

variable {α κ : Type} [DecidableEq κ] {key : α → κ}

/-! ## 1. Operations -/

def empty : KeySet key := ⟨[], List.nodup_nil⟩

instance : Inhabited (KeySet key) := ⟨empty⟩

/-- The keys, in iteration order. -/
def keys (s : KeySet key) : List κ := s.elems.map key

/-- The element under `k`. -/
def find? (s : KeySet key) (k : κ) : Option α := s.elems.find? (fun a => key a = k)

/-- Insert; an element already under the key stays. -/
def insert (s : KeySet key) (a : α) : KeySet key :=
  if h : key a ∈ s.elems.map key then s
  else ⟨a :: s.elems, List.nodup_cons.mpr ⟨h, s.nodup⟩⟩

/-- Erase by key. -/
def erase (s : KeySet key) (k : κ) : KeySet key :=
  ⟨s.elems.filter (fun a => key a ≠ k), s.nodup.sublist (List.Sublist.map _ List.filter_sublist)⟩

/-- Keep the elements that meet `p`. -/
def filter (s : KeySet key) (p : α → Bool) : KeySet key :=
  ⟨s.elems.filter p, s.nodup.sublist (List.Sublist.map _ List.filter_sublist)⟩

/-- Rewrite every element under its own key. -/
def modify (s : KeySet key) (f : α → α) (hf : ∀ a, key (f a) = key a) : KeySet key :=
  ⟨s.elems.map f, by rw [List.map_map, show key ∘ f = key from funext hf]; exact s.nodup⟩

/-- Rewrite the element under `k`. -/
def adjust (s : KeySet key) (k : κ) (f : α → α) (hf : ∀ a, key (f a) = key a) : KeySet key :=
  s.modify (fun a => if key a = k then f a else a) (by intro a; split <;> simp [hf])

/-! ## 2. Keys -/

omit [DecidableEq κ] in
theorem mem_keys_iff {s : KeySet key} {k : κ} : k ∈ s.keys ↔ ∃ a ∈ s.elems, key a = k := List.mem_map

omit [DecidableEq κ] in
theorem mem_keys_of_mem {s : KeySet key} {a : α} (h : a ∈ s.elems) : key a ∈ s.keys :=
  List.mem_map_of_mem h

omit [DecidableEq κ] in
@[simp] theorem keys_empty : (empty : KeySet key).keys = [] := rfl

omit [DecidableEq κ] in
@[simp] theorem elems_empty : (empty : KeySet key).elems = [] := rfl

/-- A new key goes in front. -/
theorem elems_insert_of_notMem {s : KeySet key} {a : α} (h : key a ∉ s.keys) :
    (s.insert a).elems = a :: s.elems := by
  unfold insert
  rw [dif_neg (show key a ∉ s.elems.map key from h)]

theorem mem_keys_insert {s : KeySet key} {a : α} {k : κ} :
    k ∈ (s.insert a).keys ↔ k = key a ∨ k ∈ s.keys := by
  unfold insert
  split
  · rename_i h
    exact ⟨Or.inr, fun hk => hk.elim (fun e => e ▸ h) id⟩
  · exact List.mem_cons

theorem mem_keys_erase {s : KeySet key} {k x : κ} :
    x ∈ (s.erase k).keys ↔ x ∈ s.keys ∧ x ≠ k := by
  simp only [mem_keys_iff, erase, List.mem_filter, decide_eq_true_eq]
  constructor
  · rintro ⟨a, ⟨ha, hne⟩, rfl⟩
    exact ⟨⟨a, ha, rfl⟩, hne⟩
  · rintro ⟨⟨a, ha, rfl⟩, hne⟩
    exact ⟨a, ⟨ha, hne⟩, rfl⟩

omit [DecidableEq κ] in
@[simp] theorem keys_modify (s : KeySet key) (f : α → α) (hf : ∀ a, key (f a) = key a) :
    (s.modify f hf).keys = s.keys := by
  unfold modify keys
  rw [List.map_map, show key ∘ f = key from funext hf]

theorem mem_elems_erase {s : KeySet key} {k : κ} {a : α} :
    a ∈ (s.erase k).elems ↔ a ∈ s.elems ∧ key a ≠ k := by
  simp [erase, List.mem_filter]

omit [DecidableEq κ] in
/-- Two elements under one key are one element. -/
theorem eq_of_key_eq {s : KeySet key} {a b : α} (ha : a ∈ s.elems) (hb : b ∈ s.elems)
    (h : key a = key b) : a = b := List.inj_on_of_nodup_map s.nodup ha hb h

/-! ## 3. Lookups -/

theorem find?_some {s : KeySet key} {k : κ} {a : α} :
    s.find? k = some a ↔ a ∈ s.elems ∧ key a = k := by
  constructor
  · intro h
    exact ⟨List.mem_of_find?_eq_some h, by simpa using List.find?_some h⟩
  · rintro ⟨ha, rfl⟩
    cases hf : s.find? (key a) with
    | none =>
        have := List.find?_eq_none.mp hf a ha
        simp at this
    | some b =>
        have hb : b ∈ s.elems := List.mem_of_find?_eq_some hf
        have hk : key b = key a := by simpa using List.find?_some hf
        rw [eq_of_key_eq hb ha hk]

theorem find?_none {s : KeySet key} {k : κ} : s.find? k = none ↔ k ∉ s.keys := by
  rw [mem_keys_iff]
  unfold find?
  rw [List.find?_eq_none]
  simp only [decide_eq_true_eq, not_exists, not_and]

theorem mem_keys_of_find? {s : KeySet key} {k : κ} {a : α} (h : s.find? k = some a) :
    k ∈ s.keys := by
  obtain ⟨ha, rfl⟩ := find?_some.mp h
  exact mem_keys_of_mem ha

theorem exists_find? {s : KeySet key} {k : κ} (h : k ∈ s.keys) : ∃ a, s.find? k = some a := by
  obtain ⟨a, ha, rfl⟩ := mem_keys_iff.mp h
  exact ⟨a, find?_some.mpr ⟨ha, rfl⟩⟩

/-! ## 4. One element apart -/

@[simp] theorem keys_adjust (s : KeySet key) (k : κ) (f : α → α) (hf : ∀ a, key (f a) = key a) :
    (s.adjust k f hf).keys = s.keys := keys_modify s _ _

theorem mem_elems_adjust {s : KeySet key} {k : κ} (f : α → α) (hf : ∀ a, key (f a) = key a)
    {b : α} : b ∈ (s.adjust k f hf).elems ↔
      (b ∈ s.elems ∧ key b ≠ k) ∨ ∃ a ∈ s.elems, key a = k ∧ b = f a := by
  unfold adjust modify
  rw [List.mem_map]
  constructor
  · rintro ⟨a, ha, rfl⟩
    by_cases hk : key a = k
    · rw [if_pos hk]
      exact Or.inr ⟨a, ha, hk, rfl⟩
    · rw [if_neg hk]
      exact Or.inl ⟨ha, hk⟩
  · rintro (⟨hb, hk⟩ | ⟨a, ha, hk, rfl⟩)
    · exact ⟨b, hb, if_neg hk⟩
    · exact ⟨a, ha, if_pos hk⟩

theorem find?_adjust_self {s : KeySet key} {k : κ} (f : α → α) (hf : ∀ a, key (f a) = key a)
    {a : α} (h : s.find? k = some a) : (s.adjust k f hf).find? k = some (f a) := by
  obtain ⟨ha, hk⟩ := find?_some.mp h
  exact find?_some.mpr ⟨(mem_elems_adjust f hf).mpr (Or.inr ⟨a, ha, hk, rfl⟩), by rw [hf, hk]⟩

theorem find?_modify (s : KeySet key) (f : α → α) (hf : ∀ a, key (f a) = key a) (k : κ) :
    (s.modify f hf).find? k = (s.find? k).map f := by
  unfold find? modify
  rw [List.find?_map]
  exact congrArg _ (congrArg (List.find? · s.elems) (funext fun a => by simp [hf]))

theorem find?_adjust_ne {s : KeySet key} {k x : κ} (f : α → α) (hf : ∀ a, key (f a) = key a)
    (h : x ≠ k) : (s.adjust k f hf).find? x = s.find? x := by
  unfold adjust
  rw [find?_modify]
  cases hx : s.find? x with
  | none => rfl
  | some a =>
    have hk : key a ≠ k := fun e => h ((find?_some.mp hx).2.symm.trans e)
    rw [Option.map_some, if_neg hk]

/-- Rewriting the element under a key leaves the others as they were. -/
theorem filter_adjust (s : KeySet key) (k : κ) (f : α → α) (hf : ∀ a, key (f a) = key a) :
    (s.adjust k f hf).elems.filter (fun a => key a ≠ k) = s.elems.filter (fun a => key a ≠ k) := by
  unfold adjust modify
  dsimp only
  induction s.elems with
  | nil => rfl
  | cons a l ih =>
    rw [List.map_cons, List.filter_cons, List.filter_cons, ih]
    by_cases hk : key a = k
    · simp [hk, hf]
    · simp [hk]

/-- A key is counted once, or not at all. -/
theorem countP_key (s : KeySet key) (k : κ) :
    s.elems.countP (fun a => key a = k) = if k ∈ s.keys then 1 else 0 := by
  have hcount : s.elems.countP (fun a => key a = k) = s.keys.count k := by
    rw [List.count_eq_countP, keys, List.countP_map]
    exact List.countP_congr fun a _ => by simp
  rw [hcount]
  split
  · exact List.count_eq_one_of_mem s.nodup ‹_›
  · exact List.count_eq_zero_of_not_mem ‹_›

/-- The element under a key, and the others. -/
theorem perm_cons {s : KeySet key} {k : κ} {a : α} (h : s.find? k = some a) :
    s.elems.Perm (a :: s.elems.filter fun b => key b ≠ k) := by
  obtain ⟨ha, hk⟩ := find?_some.mp h
  have hself : ∀ b ∈ s.elems, key b = k → b = a := fun b hb hbk => eq_of_key_eq hb ha (hbk.trans hk.symm)
  refine (List.perm_ext_iff_of_nodup (List.Nodup.of_map key s.nodup) (List.nodup_cons.mpr
    ⟨fun hm => ?_, (List.Nodup.of_map key s.nodup).filter _⟩)).mpr fun b => ?_
  · exact absurd hk (by simpa using (List.mem_filter.mp hm).2)
  · rw [List.mem_cons, List.mem_filter, decide_eq_true_eq]
    constructor
    · intro hb
      by_cases hbk : key b = k
      · exact Or.inl (hself b hb hbk)
      · exact Or.inr ⟨hb, hbk⟩
    · rintro (rfl | ⟨hb, _⟩)
      · exact ha
      · exact hb

/-- A count over the elements is the count over the others, and the one apart. -/
theorem countP_eq_add {s : KeySet key} {k : κ} {a : α} (h : s.find? k = some a) (p : α → Bool) :
    s.elems.countP p =
      (s.elems.filter (fun b => key b ≠ k)).countP p + if p a then 1 else 0 := by
  rw [(perm_cons h).countP_eq, List.countP_cons]

/-- A sum over the elements once one of them is rewritten. -/
theorem sum_adjust {s : KeySet key} {k : κ} {a : α} (f : α → α) (hf : ∀ a, key (f a) = key a)
    (h : s.find? k = some a) (w : α → Nat) :
    ((s.adjust k f hf).elems.map w).sum + w a = (s.elems.map w).sum + w (f a) := by
  have hold := ((perm_cons h).map w).sum_eq
  have hnew := ((perm_cons (find?_adjust_self f hf h)).map w).sum_eq
  rw [filter_adjust] at hnew
  rw [hold, hnew, List.map_cons, List.map_cons, List.sum_cons, List.sum_cons]
  omega

end KeySet

end Veridie.Lib
