/-
  File:      Veridie/Lib/OrdMap.lean
  Subject:   Ordered finite maps: an association list whose keys increase strictly. The order is a
             field of the type, so that every map in use is sorted and two maps with the same
             lookups are the same map.

  * `OrdMap.find?`, `OrdMap.insert`, `OrdMap.erase` -- lookup, insert-or-assign and erase by key;
  * `OrdMap.keys` -- the keys in increasing order (what iteration from the first entry visits);
  * `find?_insert`, `find?_erase`, `mem_keys_insert`, `mem_keys_erase` -- how lookups and the key
    set move under each operation;
  * `keys_insert_of_mem` -- assigning to a present key keeps the key list;
  * `keys_eq_of_mem_iff` -- the key list is determined by the key set.
-/
import Mathlib

namespace Veridie.Lib

/-- A finite map as its entries in strictly increasing key order. -/
structure OrdMap (κ υ : Type) [LinearOrder κ] where
  entries : List (κ × υ)
  sorted : (entries.map Prod.fst).Pairwise (· < ·)

namespace OrdMap

variable {κ υ : Type} [LinearOrder κ]

/-! ## 1. Operations -/

/-- The map without entries. -/
def empty : OrdMap κ υ := ⟨[], List.Pairwise.nil⟩

/-- The keys, smallest first. -/
def keys (m : OrdMap κ υ) : List κ := m.entries.map Prod.fst

/-- Number of entries. -/
def size (m : OrdMap κ υ) : Nat := m.entries.length

/-- The value stored under `k`. -/
def find? (m : OrdMap κ υ) (k : κ) : Option υ := m.entries.lookup k

/-- Sorted insertion into an entry list; an entry with the same key is replaced. -/
def insertEntry (k : κ) (v : υ) : List (κ × υ) → List (κ × υ)
  | [] => [(k, v)]
  | e :: es =>
    if k < e.1 then (k, v) :: e :: es
    else if e.1 < k then e :: insertEntry k v es
    else (k, v) :: es

theorem mem_fst_insertEntry {k : κ} {v : υ} {x : κ} : ∀ {es : List (κ × υ)},
    x ∈ (insertEntry k v es).map Prod.fst ↔ x = k ∨ x ∈ es.map Prod.fst
  | [] => by simp [insertEntry]
  | e :: es => by
      unfold insertEntry
      split
      · simp
      · split
        · rw [List.map_cons, List.mem_cons, mem_fst_insertEntry, List.map_cons, List.mem_cons]
          tauto
        · have he : e.1 = k := le_antisymm (not_lt.mp ‹_›) (not_lt.mp ‹_›)
          simp [he]

theorem pairwise_insertEntry {k : κ} {v : υ} : ∀ {es : List (κ × υ)},
    (es.map Prod.fst).Pairwise (· < ·) → ((insertEntry k v es).map Prod.fst).Pairwise (· < ·)
  | [], _ => by simp [insertEntry]
  | e :: es, h => by
      rw [List.map_cons, List.pairwise_cons] at h
      obtain ⟨hlt, hes⟩ := h
      unfold insertEntry
      split
      · rename_i hk
        simp only [List.map_cons, List.pairwise_cons, List.mem_cons]
        refine ⟨?_, hlt, hes⟩
        rintro x (rfl | hx)
        · exact hk
        · exact hk.trans (hlt x hx)
      · split
        · rename_i hk
          simp only [List.map_cons, List.pairwise_cons]
          refine ⟨fun x hx => ?_, pairwise_insertEntry hes⟩
          rcases mem_fst_insertEntry.mp hx with rfl | hx
          · exact hk
          · exact hlt x hx
        · have he : e.1 = k := le_antisymm (not_lt.mp ‹_›) (not_lt.mp ‹_›)
          simp only [List.map_cons, List.pairwise_cons]
          exact ⟨he ▸ hlt, hes⟩

/-- Insert or assign. -/
def insert (m : OrdMap κ υ) (k : κ) (v : υ) : OrdMap κ υ :=
  ⟨insertEntry k v m.entries, pairwise_insertEntry m.sorted⟩

/-- Erase by key; without an entry under `k` nothing happens. -/
def erase (m : OrdMap κ υ) (k : κ) : OrdMap κ υ :=
  ⟨m.entries.filter (fun e => e.1 ≠ k),
    List.Pairwise.sublist (List.Sublist.map _ List.filter_sublist) m.sorted⟩

/-- The map with the entries of a list, a later entry winning. -/
def ofList (es : List (κ × υ)) : OrdMap κ υ := es.foldl (fun m e => m.insert e.1 e.2) empty

/-! ## 2. Lookups -/

@[simp] theorem find?_empty (k : κ) : (empty : OrdMap κ υ).find? k = none := rfl

@[simp] theorem keys_empty : (empty : OrdMap κ υ).keys = [] := rfl

theorem lookup_cons_eq (e : κ × υ) (es : List (κ × υ)) (x : κ) :
    (e :: es).lookup x = if x = e.1 then some e.2 else es.lookup x := by
  by_cases h : x = e.1
  · rw [if_pos h, List.lookup, beq_iff_eq.mpr h]
  · rw [if_neg h, List.lookup, beq_eq_false_iff_ne.mpr h]

theorem lookup_insertEntry {k : κ} {v : υ} {x : κ} : ∀ {es : List (κ × υ)},
    (insertEntry k v es).lookup x = if x = k then some v else es.lookup x
  | [] => lookup_cons_eq (k, v) [] x
  | e :: es => by
      unfold insertEntry
      split
      · exact lookup_cons_eq (k, v) (e :: es) x
      · rw [lookup_cons_eq e es]
        split
        · rename_i hk
          rw [lookup_cons_eq, lookup_insertEntry]
          by_cases hx : x = e.1
          · rw [if_pos hx, if_pos hx, if_neg (hx ▸ ne_of_lt hk)]
          · rw [if_neg hx, if_neg hx]
        · have he : e.1 = k := le_antisymm (not_lt.mp ‹_›) (not_lt.mp ‹_›)
          rw [lookup_cons_eq, he]
          by_cases hx : x = k
          · rw [if_pos hx, if_pos hx]
          · rw [if_neg hx, if_neg hx, if_neg hx]

/-- **Lookup after insert-or-assign.** -/
theorem find?_insert (m : OrdMap κ υ) (k : κ) (v : υ) (x : κ) :
    (m.insert k v).find? x = if x = k then some v else m.find? x := lookup_insertEntry

@[simp] theorem find?_insert_self (m : OrdMap κ υ) (k : κ) (v : υ) :
    (m.insert k v).find? k = some v := by rw [find?_insert, if_pos rfl]

theorem find?_insert_ne (m : OrdMap κ υ) {k x : κ} (v : υ) (h : x ≠ k) :
    (m.insert k v).find? x = m.find? x := by rw [find?_insert, if_neg h]

theorem lookup_filter_ne {k x : κ} : ∀ {es : List (κ × υ)},
    (es.filter (fun e => e.1 ≠ k)).lookup x = if x = k then none else es.lookup x
  | [] => by simp [List.lookup]
  | e :: es => by
      have ih : (es.filter (fun e => e.1 ≠ k)).lookup x = if x = k then none else es.lookup x :=
        lookup_filter_ne
      by_cases he : e.1 = k
      · rw [List.filter_cons_of_neg (by simpa using he), ih, lookup_cons_eq, he]
        by_cases hx : x = k
        · rw [if_pos hx, if_pos hx]
        · rw [if_neg hx, if_neg hx, if_neg hx]
      · rw [List.filter_cons_of_pos (by simpa using he), lookup_cons_eq, lookup_cons_eq, ih]
        by_cases hx : x = e.1
        · rw [if_pos hx, if_pos hx, if_neg (hx ▸ he)]
        · rw [if_neg hx, if_neg hx]

/-- **Lookup after erase.** -/
theorem find?_erase (m : OrdMap κ υ) (k x : κ) :
    (m.erase k).find? x = if x = k then none else m.find? x := lookup_filter_ne

theorem find?_erase_ne (m : OrdMap κ υ) {k x : κ} (h : x ≠ k) :
    (m.erase k).find? x = m.find? x := by rw [find?_erase, if_neg h]

/-! ## 3. The key set -/

theorem mem_keys_insert {m : OrdMap κ υ} {k x : κ} {v : υ} :
    x ∈ (m.insert k v).keys ↔ x = k ∨ x ∈ m.keys := mem_fst_insertEntry

theorem mem_keys_erase {m : OrdMap κ υ} {k x : κ} :
    x ∈ (m.erase k).keys ↔ x ∈ m.keys ∧ x ≠ k := by
  unfold keys erase
  simp only [List.mem_map, List.mem_filter, decide_eq_true_eq]
  constructor
  · rintro ⟨e, ⟨he, hne⟩, rfl⟩
    exact ⟨⟨e, he, rfl⟩, hne⟩
  · rintro ⟨⟨e, he, rfl⟩, hne⟩
    exact ⟨e, ⟨he, hne⟩, rfl⟩

theorem lookup_isSome_iff {x : κ} : ∀ {es : List (κ × υ)},
    (∃ v, es.lookup x = some v) ↔ x ∈ es.map Prod.fst
  | [] => by simp [List.lookup]
  | e :: es => by
      rw [lookup_cons_eq, List.map_cons, List.mem_cons]
      by_cases hx : x = e.1
      · rw [if_pos hx]
        exact ⟨fun _ => Or.inl hx, fun _ => ⟨e.2, rfl⟩⟩
      · rw [if_neg hx, lookup_isSome_iff]
        exact ⟨Or.inr, fun h => h.resolve_left hx⟩

theorem mem_keys_iff {m : OrdMap κ υ} {x : κ} : x ∈ m.keys ↔ ∃ v, m.find? x = some v :=
  lookup_isSome_iff.symm

theorem find?_eq_none {m : OrdMap κ υ} {x : κ} (h : x ∉ m.keys) : m.find? x = none :=
  Option.eq_none_iff_forall_ne_some.mpr fun v hv => h (mem_keys_iff.mpr ⟨v, hv⟩)

theorem mem_keys_of_find? {m : OrdMap κ υ} {x : κ} {v : υ} (h : m.find? x = some v) :
    x ∈ m.keys := mem_keys_iff.mpr ⟨v, h⟩

theorem keys_pairwise (m : OrdMap κ υ) : m.keys.Pairwise (· < ·) := m.sorted

theorem length_keys (m : OrdMap κ υ) : m.keys.length = m.size := List.length_map _

/-- **The key list is determined by the key set.** -/
theorem keys_eq_of_mem_iff {l₁ l₂ : List κ} (h₁ : l₁.Pairwise (· < ·)) (h₂ : l₂.Pairwise (· < ·))
    (h : ∀ x, x ∈ l₁ ↔ x ∈ l₂) : l₁ = l₂ := by
  have hp : l₁.Perm l₂ :=
    (List.perm_ext_iff_of_nodup (h₁.imp fun h => ne_of_lt h) (h₂.imp fun h => ne_of_lt h)).mpr h
  exact hp.eq_of_pairwise (fun _ _ _ _ hab hba => (lt_asymm hab hba).elim) h₁ h₂

theorem keys_insert_of_mem {m : OrdMap κ υ} {k : κ} (v : υ) (h : k ∈ m.keys) :
    (m.insert k v).keys = m.keys :=
  keys_eq_of_mem_iff (m.insert k v).keys_pairwise m.keys_pairwise fun x => by
    rw [mem_keys_insert]
    exact ⟨fun hx => hx.elim (fun e => e ▸ h) id, Or.inr⟩

/-! ## 4. Entries -/

theorem lookup_of_mem {x : κ} {v : υ} : ∀ {es : List (κ × υ)},
    (es.map Prod.fst).Pairwise (· < ·) → (x, v) ∈ es → es.lookup x = some v
  | e :: es, hs, h => by
      rw [List.map_cons, List.pairwise_cons] at hs
      rw [lookup_cons_eq]
      rcases List.mem_cons.mp h with rfl | h
      · rw [if_pos rfl]
      · have hlt : e.1 < x := hs.1 x (List.mem_map_of_mem (f := Prod.fst) h)
        rw [if_neg (ne_of_gt hlt)]
        exact lookup_of_mem hs.2 h

theorem mem_of_lookup {x : κ} {v : υ} : ∀ {es : List (κ × υ)},
    es.lookup x = some v → (x, v) ∈ es
  | e :: es, h => by
      rw [lookup_cons_eq] at h
      split at h
      · rename_i hx
        have hv : e.2 = v := Option.some.inj h
        rw [hx, ← hv]
        exact List.mem_cons_self
      · exact List.mem_cons_of_mem _ (mem_of_lookup h)

/-- The entries are the graph of the lookup. -/
theorem mem_entries_iff {m : OrdMap κ υ} {x : κ} {v : υ} :
    (x, v) ∈ m.entries ↔ m.find? x = some v :=
  ⟨lookup_of_mem m.sorted, mem_of_lookup⟩

theorem foldl_insert_keys {x : κ} : ∀ (es : List (κ × υ)) (m : OrdMap κ υ),
    x ∈ (es.foldl (fun m e => m.insert e.1 e.2) m).keys ↔ x ∈ es.map Prod.fst ∨ x ∈ m.keys
  | [], m => by simp
  | e :: es, m => by
      rw [List.foldl_cons, foldl_insert_keys es, mem_keys_insert, List.map_cons, List.mem_cons]
      tauto

theorem mem_keys_ofList {x : κ} (es : List (κ × υ)) :
    x ∈ (ofList es).keys ↔ x ∈ es.map Prod.fst := by
  unfold ofList
  rw [foldl_insert_keys]
  simp

theorem foldl_insert_const {x : κ} {v : υ} : ∀ (ks : List κ) (m : OrdMap κ υ),
    ((ks.map fun k => (k, v)).foldl (fun m e => m.insert e.1 e.2) m).find? x =
      if x ∈ ks then some v else m.find? x
  | [], m => by simp
  | k :: ks, m => by
      rw [List.map_cons, List.foldl_cons, foldl_insert_const ks, find?_insert]
      by_cases h1 : x ∈ ks
      · simp [h1]
      · by_cases h2 : x = k <;> simp [h1, h2]

/-- A map built with one value throughout answers it at every listed key. -/
theorem find?_ofList_const {v : υ} (ks : List κ) (x : κ) :
    (ofList (ks.map fun k => (k, v))).find? x = if x ∈ ks then some v else none := by
  unfold ofList
  rw [foldl_insert_const]
  rfl

end OrdMap

end Veridie.Lib
