/-
  File:      Veridie/Xml/Passes.lean
  Subject:   What the token passes do to any text: every pointer list they hand on is strictly
             increasing and stays inside the text, and only two reads can go wrong.

  * `Pointers s ts` -- the pointers of `ts` increase strictly and none lies behind the terminator;
  * `tokenize_spec`, `removeGaps_spec`, `removeInsideComments_spec` -- each pass is defined (the
    first one on a non-empty text) and keeps `Pointers`;
  * `determineToken_ok` -- `DetermineToken` never reads outside the text.
-/
import Veridie.Xml.Parser

namespace Veridie.Xml

/-- A pointer list into `s`: strictly increasing, the terminator included. -/
def Pointers (s : Str) (ts : List Nat) : Prop := ts.Pairwise (· < ·) ∧ ∀ p ∈ ts, p ≤ s.length

namespace Pointers

variable {s : Str} {l r : Nat} {ts : List Nat}

theorem tail (h : Pointers s (l :: ts)) : Pointers s ts :=
  ⟨(List.pairwise_cons.mp h.1).2, fun p hp => h.2 p (List.mem_cons_of_mem l hp)⟩

theorem lt (h : Pointers s (l :: r :: ts)) : l < r := (List.pairwise_cons.mp h.1).1 r List.mem_cons_self

theorem head_le (h : Pointers s (l :: ts)) : l ≤ s.length := h.2 l List.mem_cons_self

theorem second_le (h : Pointers s (l :: r :: ts)) : r ≤ s.length := h.tail.head_le

theorem sublist {ts' : List Nat} (h : Pointers s ts) (hs : ts'.Sublist ts) : Pointers s ts' :=
  ⟨h.1.sublist hs, fun p hp => h.2 p (hs.subset hp)⟩

end Pointers

/-! ## 1. `Tokenize` -/

/-- What the loop pushes: positions of characters other than NUL, in order, before its end. -/
theorem tokenizeLoop_spec : ∀ (rest : Str) (prev : Char) (pit : Nat),
    (tokenizeLoop prev pit rest).1.Pairwise (· < ·) ∧
    (∀ q ∈ (tokenizeLoop prev pit rest).1, pit ≤ q ∧ q < (tokenizeLoop prev pit rest).2 ∧
      ∃ c, rest[q - pit]? = some c ∧ c ≠ nul) ∧
    pit ≤ (tokenizeLoop prev pit rest).2 ∧ (tokenizeLoop prev pit rest).2 ≤ pit + rest.length
  | [], prev, pit => by simp [tokenizeLoop]
  | c :: rest, prev, pit => by
      obtain ⟨h1, h2, h3, h4⟩ := tokenizeLoop_spec rest c (pit + 1)
      have hlen : (c :: rest).length = rest.length + 1 := rfl
      have old : ∀ q ∈ (tokenizeLoop c (pit + 1) rest).1, pit ≤ q ∧
          q < (tokenizeLoop c (pit + 1) rest).2 ∧ ∃ d, (c :: rest)[q - pit]? = some d ∧ d ≠ nul := by
        intro q hq
        obtain ⟨ha, hb, d, hd, hn⟩ := h2 q hq
        refine ⟨by omega, hb, d, ?_, hn⟩
        rw [show q - pit = (q - (pit + 1)) + 1 by omega, List.getElem?_cons_succ]
        exact hd
      unfold tokenizeLoop
      by_cases hc : c = nul
      · simp [hc]
      · have pushed : (pit :: (tokenizeLoop c (pit + 1) rest).1).Pairwise (· < ·) ∧
            (∀ q ∈ pit :: (tokenizeLoop c (pit + 1) rest).1, pit ≤ q ∧
              q < (tokenizeLoop c (pit + 1) rest).2 ∧
              ∃ d, (c :: rest)[q - pit]? = some d ∧ d ≠ nul) := by
          refine ⟨List.pairwise_cons.mpr ⟨fun q hq => ?_, h1⟩, fun q hq => ?_⟩
          · have := (h2 q hq).1
            omega
          · rcases List.mem_cons.mp hq with rfl | hq
            · refine ⟨Nat.le_refl _, by omega, c, ?_, hc⟩
              rw [Nat.sub_self]
              rfl
            · exact old q hq
        simp only [hc, if_false]
        split
        · exact ⟨pushed.1, pushed.2, by omega, by omega⟩
        · split
          · exact ⟨pushed.1, pushed.2, by omega, by omega⟩
          · exact ⟨h1, old, by omega, by omega⟩

/-- **`Tokenize` is defined on every non-empty text** and yields pointers into it, at least one. -/
theorem tokenize_spec {s : Str} (hs : s ≠ []) :
    ∃ ts, tokenize s = .ok ts ∧ Pointers s ts ∧ ts ≠ [] := by
  cases s with
  | nil => exact absurd rfl hs
  | cons c rest =>
    obtain ⟨h1, h2, h3, h4⟩ := tokenizeLoop_spec rest c 1
    have hlen : (c :: rest).length = rest.length + 1 := rfl
    have hmem : ∀ q ∈ 0 :: (tokenizeLoop c 1 rest).1, q < (c :: rest).length := by
      intro q hq
      rcases List.mem_cons.mp hq with rfl | hq
      · omega
      · have := h2 q hq
        omega
    have hback := hmem _ (List.getLast_mem (List.cons_ne_nil 0 (tokenizeLoop c 1 rest).1))
    have hp0 : (0 :: (tokenizeLoop c 1 rest).1).Pairwise (· < ·) :=
      List.pairwise_cons.mpr ⟨fun q hq => by have := (h2 q hq).1; omega, h1⟩
    unfold tokenize
    simp only [charAt_of_lt hback, ok_bind]
    split
    · refine ⟨_, rfl, ⟨?_, ?_⟩, by simp⟩
      · rw [List.pairwise_append]
        refine ⟨hp0, List.pairwise_singleton _ _, fun a ha b hb => ?_⟩
        rw [List.mem_singleton.mp hb]
        rcases List.mem_cons.mp ha with rfl | ha
        · omega
        · exact (h2 a ha).2.1
      · intro p hp
        rcases List.mem_append.mp hp with hp | hp
        · exact Nat.le_of_lt (hmem p hp)
        · rw [List.mem_singleton.mp hp]
          omega
    · exact ⟨_, rfl, ⟨hp0, fun p hp => Nat.le_of_lt (hmem p hp)⟩, List.cons_ne_nil _ _⟩

/-! ## 2. The erasing passes -/

theorem removeGaps_spec {s : Str} : ∀ {ts : List Nat}, Pointers s ts →
    ∃ ts', removeGaps s ts = .ok ts' ∧ ts'.Sublist ts ∧ (ts ≠ [] → ts' ≠ [])
  | [], _ => ⟨[], rfl, List.Sublist.slnil, fun h => h⟩
  | [l], _ => ⟨[l], rfl, List.Sublist.refl _, fun h => h⟩
  | l :: r :: rest, h => by
      obtain ⟨ts', he, hs, hn⟩ := removeGaps_spec h.tail
      unfold removeGaps
      rw [allOf_eq (Nat.le_of_lt h.lt) h.second_le, ok_bind, he, ok_bind]
      split
      · exact ⟨ts', rfl, hs.cons l, fun _ => hn (List.cons_ne_nil _ _)⟩
      · exact ⟨l :: ts', rfl, hs.cons_cons l, fun _ => List.cons_ne_nil _ _⟩

theorem isCommentStart_eq {s : Str} {p : Nat} (h : p ≤ s.length) :
    isCommentStart s p = .ok ("<!--".toList.isPrefixOf (s.drop p)) := agrees_eq (by decide) h

theorem isCommentEnd_eq {s : Str} {p : Nat} (h : p ≤ s.length) :
    isCommentEnd s p = .ok ("-->".toList.isPrefixOf (s.drop p)) := agrees_eq (by decide) h

theorem scanToken_spec {s : Str} : ∀ (n pit skip : Nat) (o : Bool), pit + n ≤ s.length →
    ∃ sc, scanToken s n pit skip o = .ok sc
  | 0, _, _, o, _ => ⟨⟨o, false⟩, rfl⟩
  | n + 1, pit, skip + 1, o, h => scanToken_spec n (pit + 1) skip o (by omega)
  | n + 1, pit, 0, false, h => by
      unfold scanToken
      rw [isCommentStart_eq (by omega), ok_bind]
      split
      · exact scanToken_spec n (pit + 1) 3 true (by omega)
      · exact scanToken_spec n (pit + 1) 0 false (by omega)
  | n + 1, pit, 0, true, h => by
      unfold scanToken
      rw [isCommentEnd_eq (by omega), ok_bind]
      split
      · exact ⟨_, rfl⟩
      · exact scanToken_spec n (pit + 1) 0 true (by omega)

/-- The kept-back pointers of an open comment precede the rest of the list. -/
theorem removeInsideComments_spec {s : Str} : ∀ {ts : List Nat} (o : Option (List Nat)),
    Pointers s ts → ∃ ts', removeInsideComments s o ts = .ok ts' ∧
      ts'.Sublist ((o.getD []).reverse ++ ts) ∧ (ts ≠ [] → ts' ≠ [])
  | [], none, _ => ⟨[], rfl, List.Sublist.slnil, fun h => h⟩
  | [], some kept, _ => ⟨kept.reverse ++ [], rfl, List.Sublist.refl _, fun h => absurd rfl h⟩
  | [l], none, _ => ⟨[l], rfl, List.Sublist.refl _, fun h => h⟩
  | [l], some kept, _ => ⟨kept.reverse ++ [l], rfl, List.Sublist.refl _, fun _ => by simp⟩
  | l :: r :: rest, none, h => by
      have hlr := h.lt
      have hr := h.second_le
      obtain ⟨sc, hsc⟩ := scanToken_spec (s := s) (r - l) l 0 false (by omega)
      obtain ⟨ts', he, hs, _⟩ := removeInsideComments_spec
        (if sc.opened && !sc.ended then some [] else none) h.tail
      have hnil : ((if sc.opened && !sc.ended then some [] else none).getD
          ([] : List Nat)).reverse = [] := by split <;> rfl
      rw [hnil, List.nil_append] at hs
      unfold removeInsideComments
      rw [hsc, ok_bind, he, ok_bind]
      exact ⟨l :: ts', rfl, hs.cons_cons l, fun _ => List.cons_ne_nil _ _⟩
  | l :: r :: rest, some kept, h => by
      have hlr := h.lt
      have hr := h.second_le
      obtain ⟨sc, hsc⟩ := scanToken_spec (s := s) (r - l) l 0 true (by omega)
      unfold removeInsideComments
      rw [hsc, ok_bind]
      split
      · obtain ⟨ts', he, hs, hn⟩ := removeInsideComments_spec none h.tail
        refine ⟨ts', he, ?_, fun _ => hn (List.cons_ne_nil _ _)⟩
        exact (hs.cons l).trans (List.sublist_append_right _ _)
      · obtain ⟨ts', he, hs, hn⟩ := removeInsideComments_spec (some (l :: kept)) h.tail
        refine ⟨ts', he, ?_, fun _ => hn (List.cons_ne_nil _ _)⟩
        simpa using hs

/-- **The passes are defined on every non-empty text** and yield pointers into it. -/
theorem passes_spec {s : Str} (hs : s ≠ []) : ∃ ts, passes s = .ok ts ∧ Pointers s ts ∧ ts ≠ [] := by
  obtain ⟨t1, h1, hp1, hn1⟩ := tokenize_spec hs
  obtain ⟨t2, h2, hs2, hn2⟩ := removeGaps_spec hp1
  have hp2 := hp1.sublist hs2
  obtain ⟨t3, h3, hs3, hn3⟩ := removeInsideComments_spec none hp2
  refine ⟨t3, ?_, hp2.sublist hs3, hn3 (hn2 hn1)⟩
  unfold passes
  rw [h1, ok_bind, h2, ok_bind, h3]

/-! ## 3. `DetermineToken` -/

/-- A search that starts on another character ends behind its start. -/
theorem findIdx_pos {f : Char → Bool} {c : Char} {cs : Str} (h : f c = false) :
    0 < (c :: cs).findIdx f := by
  rw [List.findIdx_cons, h]
  exact Nat.succ_pos _

/-- **`DetermineToken` never reads outside the text.** -/
theorem determineToken_ok {s : Str} {b e : Nat} (hbe : b < e) (he : e ≤ s.length) :
    ∃ what, determineToken s b e = .ok what := by
  have hb : b < s.length := by omega
  unfold determineToken
  rw [charAt_of_lt hb, ok_bind]
  by_cases hc : s[b] = '<'
  · rw [if_neg (not_not.mpr hc), charAt_eq (by omega : b + 1 ≤ s.length), ok_bind]
    split
    · exact ⟨_, rfl⟩
    · rw [isCommentStart_eq (by omega), ok_bind]
      split
      · exact ⟨_, rfl⟩
      · rw [findIf_eq (by omega) he, ok_bind]
        have hpos : 0 < (slice s b e).findIdx (· = '>') := by
          rw [slice_cons hbe he]
          exact findIdx_pos (by rw [hc]; decide)
        have hle : (slice s b e).findIdx (· = '>') ≤ e - b := by
          have h1 := (List.findIdx_le_length : List.findIdx (· = '>') (slice s b e) ≤ _)
          rw [length_slice he] at h1
          exact h1
        split
        · exact ⟨_, rfl⟩
        · rw [charAt_eq (by omega), ok_bind]
          split
          · exact ⟨_, rfl⟩
          · exact ⟨_, rfl⟩
  · rw [if_pos hc]
    exact ⟨_, rfl⟩

end Veridie.Xml
