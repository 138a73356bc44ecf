/-
  File:      Veridie/Xml/Memory.lean
  Subject:   The text the parser walks over: a string with its terminating NUL behind it, read by
             position. A pointer is an offset; offset `s.length` is the terminator, and every read
             beyond it is undefined (`charAt`).

  * `findIf`, `allOf` -- `std::find`, `std::find_if` and `std::all_of` over a pointer range;
  * `agrees` -- a chain of character comparisons joined by `&&`, as the comment tests write it;
  * `findIf_eq`, `allOf_eq`, `agrees_eq` -- inside the text each is the list function on the slice,
    so the passes built from them need no reasoning about single reads.
-/
import Veridie.Base

namespace Veridie.Xml

/-! ## 1. Character classes, in the "C" locale -/

/-- `std::isspace`. -/
def isSpace (c : Char) : Bool := c.toNat = 32 || (9 ≤ c.toNat && c.toNat ≤ 13)

/-- `std::isalpha`. -/
def isAlpha (c : Char) : Bool := (65 ≤ c.toNat && c.toNat ≤ 90) || (97 ≤ c.toNat && c.toNat ≤ 122)

theorem alpha_toNat {c : Char} (h : isAlpha c = true) :
    (65 ≤ c.toNat ∧ c.toNat ≤ 90) ∨ (97 ≤ c.toNat ∧ c.toNat ≤ 122) := by
  simpa [isAlpha] using h

theorem digit_toNat {c : Char} (h : c.isDigit = true) : 48 ≤ c.toNat ∧ c.toNat ≤ 57 := by
  simp only [Char.isDigit, Bool.and_eq_true, decide_eq_true_eq] at h
  exact h

/-! ## 2. Reads -/

/-- `text[p]`. -/
def charAt (s : Str) (p : Nat) : Eval Char :=
  match s[p]? with
  | some c => .ok c
  | none => if p = s.length then .ok nul else undefined .read

theorem charAt_of_lt {s : Str} {p : Nat} (h : p < s.length) : charAt s p = .ok s[p] := by
  unfold charAt
  rw [List.getElem?_eq_getElem h]

theorem charAt_length (s : Str) : charAt s s.length = .ok nul := by
  unfold charAt
  rw [List.getElem?_eq_none (Nat.le_refl _)]
  exact if_pos rfl

theorem charAt_of_gt {s : Str} {p : Nat} (h : s.length < p) : charAt s p = undefined .read := by
  unfold charAt
  rw [List.getElem?_eq_none (Nat.le_of_lt h)]
  exact if_neg (Nat.ne_of_gt h)

/-- What a read inside the text answers, in terms of the rest of the text from there. -/
theorem charAt_eq {s : Str} {p : Nat} (h : p ≤ s.length) :
    charAt s p = .ok ((s.drop p).headD nul) := by
  rcases Nat.lt_or_eq_of_le h with hlt | rfl
  · rw [charAt_of_lt hlt, List.drop_eq_getElem_cons hlt]
    rfl
  · rw [charAt_length, List.drop_length]
    rfl

/-- `p[0] == w[0] && p[1] == w[1] && ...`: reading stops at the first difference. -/
def agrees (s : Str) : Nat → Str → Eval Bool
  | _, [] => .ok true
  | p, c :: w => do
    let d ← charAt s p
    if d = c then agrees s (p + 1) w else .ok false

/-- **A comparison chain without a NUL never reads behind the terminator.** -/
theorem agrees_eq {s : Str} : ∀ {w : Str} {p : Nat}, nul ∉ w → p ≤ s.length →
    agrees s p w = .ok (w.isPrefixOf (s.drop p))
  | [], p, _, _ => by simp [agrees]
  | c :: w, p, hw, hp => by
      have hc : nul ≠ c := fun e => hw (e ▸ List.mem_cons_self)
      have hw' : nul ∉ w := fun h => hw (List.mem_cons_of_mem _ h)
      unfold agrees
      rcases Nat.lt_or_eq_of_le hp with hlt | rfl
      · rw [charAt_of_lt hlt, List.drop_eq_getElem_cons hlt, List.isPrefixOf_cons_cons]
        show (if s[p] = c then agrees s (p + 1) w else .ok false) = _
        by_cases he : s[p] = c
        · rw [if_pos he, agrees_eq hw' hlt, he, beq_self_eq_true, Bool.true_and]
        · rw [if_neg he, beq_eq_false_iff_ne.mpr (Ne.symm he), Bool.false_and]
      · rw [charAt_length, List.drop_length]
        exact if_neg hc

/-! ## 3. Ranges -/

/-- The characters of `[p, q)`. -/
def slice (s : Str) (p q : Nat) : Str := (s.drop p).take (q - p)

theorem length_slice {s : Str} {p q : Nat} (h : q ≤ s.length) : (slice s p q).length = q - p := by
  unfold slice
  rw [List.length_take, List.length_drop]
  omega

theorem slice_cons {s : Str} {p q : Nat} (hpq : p < q) (hq : q ≤ s.length) :
    slice s p q = s[p] :: slice s (p + 1) q := by
  unfold slice
  rw [List.drop_eq_getElem_cons (by omega : p < s.length),
    show q - p = (q - (p + 1)) + 1 by omega, List.take_succ_cons]

theorem slice_self (s : Str) (p : Nat) : slice s p p = [] := by
  unfold slice
  rw [Nat.sub_self, List.take_zero]

/-- The search loop: `n` characters from `p` on. -/
def findFrom (f : Char → Bool) (s : Str) : Nat → Nat → Eval Nat
  | 0, p => .ok p
  | n + 1, p => do
    let c ← charAt s p
    if f c then .ok p else findFrom f s n (p + 1)

/-- `std::find_if(p, q, f)`. -/
def findIf (f : Char → Bool) (s : Str) (p q : Nat) : Eval Nat :=
  if q < p then undefined .range else findFrom f s (q - p) p

theorem findFrom_eq {f : Char → Bool} {s : Str} : ∀ {n p : Nat}, p + n ≤ s.length →
    findFrom f s n p = .ok (p + (slice s p (p + n)).findIdx f)
  | 0, p, _ => by
      unfold findFrom
      rw [Nat.add_zero, slice_self]
      rfl
  | n + 1, p, h => by
      have hp : p < s.length := by omega
      unfold findFrom
      rw [charAt_of_lt hp, slice_cons (by omega) h, List.findIdx_cons]
      show (if f s[p] = true then .ok p else findFrom f s n (p + 1)) = _
      cases hf : f s[p] with
      | true => rfl
      | false =>
          rw [findFrom_eq (by omega : p + 1 + n ≤ s.length), show p + 1 + n = p + (n + 1) by omega]
          show Except.ok _ = Except.ok _
          simp only [cond_false]
          congr 1
          omega

/-- **A search inside the text is the index search on the slice.** -/
theorem findIf_eq {f : Char → Bool} {s : Str} {p q : Nat} (hpq : p ≤ q) (hq : q ≤ s.length) :
    findIf f s p q = .ok (p + (slice s p q).findIdx f) := by
  unfold findIf
  rw [if_neg (Nat.not_lt.mpr hpq), findFrom_eq (by omega), show p + (q - p) = q by omega]

/-- `std::all_of` over `n` characters from `p` on. -/
def allFrom (f : Char → Bool) (s : Str) : Nat → Nat → Eval Bool
  | 0, _ => .ok true
  | n + 1, p => do
    let c ← charAt s p
    if f c then allFrom f s n (p + 1) else .ok false

/-- `std::all_of(p, q, f)`. -/
def allOf (f : Char → Bool) (s : Str) (p q : Nat) : Eval Bool :=
  if q < p then undefined .range else allFrom f s (q - p) p

theorem allFrom_eq {f : Char → Bool} {s : Str} : ∀ {n p : Nat}, p + n ≤ s.length →
    allFrom f s n p = .ok ((slice s p (p + n)).all f)
  | 0, p, _ => by
      unfold allFrom
      rw [Nat.add_zero, slice_self]
      rfl
  | n + 1, p, h => by
      have hp : p < s.length := by omega
      unfold allFrom
      rw [charAt_of_lt hp, slice_cons (by omega) h, List.all_cons]
      show (if f s[p] = true then allFrom f s n (p + 1) else .ok false) = _
      cases hf : f s[p] with
      | true =>
          rw [Bool.true_and, show p + (n + 1) = p + 1 + n by omega]
          exact allFrom_eq (by omega)
      | false => rfl

theorem allOf_eq {f : Char → Bool} {s : Str} {p q : Nat} (hpq : p ≤ q) (hq : q ≤ s.length) :
    allOf f s p q = .ok ((slice s p q).all f) := by
  unfold allOf
  rw [if_neg (Nat.not_lt.mpr hpq), allFrom_eq (by omega), show p + (q - p) = q by omega]

end Veridie.Xml
