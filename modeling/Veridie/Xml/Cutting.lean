/-
  File:      Veridie/Xml/Cutting.lean
  Subject:   The token passes on texts with comments in them: they find the tokens, whatever stands
             inside the comments.

  * `Found` -- what the erasing passes make of a list of pointers: the first one left, and the texts
    of the tokens;
  * `found_tag`, `found_part`, `found_comment` -- one more item in front;
  * `passes_items` -- the passes cut a text into the tokens of its items;
  * `passes_pieces` -- and a text without comments into its pieces.
-/
import Veridie.Xml.Items

namespace Veridie.Xml

/-! ## 1. Where items stand -/

section Passes

variable {done more u p i : Str} {prev : Char} {xs : List Item} {b : Bool}

theorem slice_append (done u more : Str) :
    slice (done ++ (u ++ more)) done.length (done.length + u.length) = u := by
  unfold slice
  rw [List.drop_left, Nat.add_sub_cancel_left, List.take_left]

/-- Without a `<` no comment starts. -/
theorem not_start_append (h : '<' ∉ u) : ∀ q, done.length ≤ q → q < done.length + u.length →
    "<!--".toList.isPrefixOf ((done ++ (u ++ more)).drop q) = false := by
  intro q hq hlt
  obtain ⟨j, rfl⟩ := Nat.exists_eq_add_of_le hq
  have hj : j < u.length := by omega
  have hdrop : (done ++ (u ++ more)).drop (done.length + j) = u[j] :: (u.drop (j + 1) ++ more) := by
    rw [List.drop_append, List.drop_of_length_le (by omega), List.nil_append,
      Nat.add_sub_cancel_left, List.drop_append_of_le_length (by omega), List.drop_eq_getElem_cons hj]
    rfl
  have hne : ('<' == u[j]) = false := by
    refine beq_eq_false_iff_ne.mpr fun e => h ?_
    rw [e]
    exact List.getElem_mem hj
  rw [hdrop]
  show ('<' == u[j] && ['!', '-', '-'].isPrefixOf _) = false
  rw [hne, Bool.false_and]

/-- A tag is no comment. -/
theorem not_start_tag {inner : Str} (h : inner.head? ≠ some '!') :
    "<!--".toList.isPrefixOf ('<' :: (inner ++ '>' :: more)) = false := by
  show ('<' == '<' && ['!', '-', '-'].isPrefixOf (inner ++ '>' :: more)) = false
  cases inner with
  | nil => rfl
  | cons c w =>
    have hne : ('!' == c) = false := beq_eq_false_iff_ne.mpr fun e => h (by rw [← e]; rfl)
    show ('<' == '<' && ('!' == c && ['-', '-'].isPrefixOf _)) = false
    rw [hne]
    rfl

/-- The first end of a comment is its own. -/
theorem not_ends_before (h : ¬ "-->".toList <:+: i) : ∀ j, j < i.length →
    "-->".toList.isPrefixOf ((i ++ ("-->".toList ++ more)).drop j) = false := by
  intro j hj
  rw [List.drop_append_of_le_length (Nat.le_of_lt hj)]
  have hrest : i.drop j ≠ [] := fun e => absurd (List.drop_eq_nil_iff.mp e) (by omega)
  by_contra hprefix
  have hprefix := List.isPrefixOf_iff_prefix.mp (Bool.not_eq_false _ ▸ hprefix :)
  match hd : i.drop j with
  | [] => exact hrest hd
  | [c] =>
    rw [hd] at hprefix
    simp at hprefix
  | [c, d] =>
    rw [hd] at hprefix
    simp at hprefix
  | c :: d :: e :: w =>
    rw [hd] at hprefix
    have hword : "-->".toList <+: i.drop j := by
      rw [hd]
      simpa using hprefix
    exact h (hword.isInfix.trans (List.drop_suffix j i).isInfix)

/-- A comment in a text. -/
theorem commentAt_append (h : ¬ "-->".toList <:+: i) :
    CommentAt (done ++ ((Item.comment i).chars ++ more)) done.length (done.length + 4 + i.length) := by
  have hdrop : ∀ j, (done ++ ((Item.comment i).chars ++ more)).drop (done.length + 4 + j) =
      (i ++ ("-->".toList ++ more)).drop j := by
    intro j
    have hsplit : done ++ ((Item.comment i).chars ++ more) =
        (done ++ "<!--".toList) ++ (i ++ ("-->".toList ++ more)) := by
      simp [Item.chars]
    have hlength : (done ++ "<!--".toList).length = done.length + 4 := List.length_append
    rw [hsplit, ← hlength, List.drop_append, List.drop_of_length_le (by omega), List.nil_append,
      Nat.add_sub_cancel_left]
  refine ⟨?_, by omega, ?_, fun q hq hlt => ?_⟩
  · rw [List.drop_left]
    rfl
  · rw [hdrop, List.drop_left]
    rfl
  · obtain ⟨j, rfl⟩ := Nat.exists_eq_add_of_le hq
    rw [hdrop]
    exact not_ends_before h j (by omega)

/-- The pointers pushed inside a comment stand before its end. -/
theorem comment_pushes (pit : Nat) (hnul : nul ∉ i) :
    ∃ us, (tokenizeLoop prev pit (Item.comment i).chars).1 = pit :: us ∧
      ∀ k ∈ us, pit + 4 ≤ k ∧ k ≤ pit + 4 + i.length := by
  have hfirst : (tokenizeLoop prev pit (Item.comment i).chars).1 =
      pit :: (tokenizeLoop '-' (pit + 4) (i ++ "-->".toList)).1 := rfl
  refine ⟨_, hfirst, fun k hk => ?_⟩
  rw [tokenizeLoop_append hnul] at hk
  obtain ⟨_, hin, _, hend⟩ := tokenizeLoop_spec i '-' (pit + 4)
  rcases List.mem_append.mp hk with hk | hk
  · obtain ⟨hle, hlt, _⟩ := hin k hk
    omega
  · -- behind the text a pointer is pushed at most at the end of the comment
    have hlast : k = pit + 4 + i.length := by
      simp [tokenizeLoop, nul] at hk
      split at hk <;> simp_all
    omega

theorem pointers_raw (done t : Str) (prev : Char) :
    Pointers (done ++ t) ((tokenizeLoop prev done.length t).1 ++ [(done ++ t).length]) := by
  obtain ⟨hsorted, hin, _, hend⟩ := tokenizeLoop_spec t prev done.length
  have hlength : (done ++ t).length = done.length + t.length := List.length_append
  refine ⟨List.pairwise_append.mpr ⟨hsorted, List.pairwise_singleton _ _, fun k hk e he => ?_⟩,
    fun k hk => ?_⟩
  · rw [List.mem_singleton.mp he]
    have hlt := (hin k hk).2.1
    omega
  · rcases List.mem_append.mp hk with hk | hk
    · have hlt := (hin k hk).2.1
      omega
    · exact le_of_eq (List.mem_singleton.mp hk)

/-- A pointer is pushed at the first of the items, and there is one at the end of the text. -/
theorem raw_head {pit : Nat} (ha : Apart b xs) (hc : ∀ x ∈ xs, x.Clean) (hb : b = true → prev = '>') :
    ∃ us, (tokenizeLoop prev pit (itemText xs)).1 ++ [pit + (itemText xs).length] = pit :: us := by
  have hpush : ∀ (c : Char) (w : Str), itemText xs = c :: w → c ≠ nul → (c = '<' ∨ prev = '>') →
      ∃ us, (tokenizeLoop prev pit (itemText xs)).1 ++ [pit + (itemText xs).length] = pit :: us := by
    intro c w htext hc h
    rw [htext, tokenizeLoop_push hc h, List.cons_append]
    exact ⟨_, rfl⟩
  cases xs with
  | nil => exact ⟨[], rfl⟩
  | cons x xs =>
    cases x with
    | tag inner => exact hpush '<' _ rfl (by decide) (Or.inl rfl)
    | part p =>
      obtain ⟨hne, hclean⟩ := hc _ List.mem_cons_self
      cases p with
      | nil => exact absurd rfl hne
      | cons c w => exact hpush c _ rfl (hclean c List.mem_cons_self).2 (Or.inr (hb ha.1))
    | comment i => exact hpush '<' _ rfl (by decide) (Or.inl rfl)

/-- **The tokens of a part of a text**: none where it is white space, else its chunks. -/
theorem removeGaps_part {R gs : List Nat} (hR : ∃ us, R = (done.length + p.length) :: us)
    (hp : ∀ c ∈ p, c ≠ '<' ∧ c ≠ nul) (h : removeGaps (done ++ (p ++ more)) R = .ok gs) :
    removeGaps (done ++ (p ++ more)) ((tokenizeLoop '>' done.length p).1 ++ R) =
      .ok (if p.all isSpace then gs else startsOf done.length (chunks p) ++ gs) := by
  obtain ⟨us, rfl⟩ := hR
  induction hn : p.length using Nat.strong_induction_on generalizing p done with
  | _ n ih =>
    subst hn
    rcases split_close p with hclose | ⟨w, cs, hw, rfl⟩
    · cases p with
      | nil => exact h
      | cons c w =>
        have hc : c ≠ '>' := fun e => hclose (e ▸ List.mem_cons_self)
        have hword : Unmarked w := fun d hd =>
          ⟨(hp d (List.mem_cons_of_mem c hd)).1, fun e => hclose (e ▸ List.mem_cons_of_mem c hd),
            (hp d (List.mem_cons_of_mem c hd)).2⟩
        rw [tokenizeLoop_push (hp c List.mem_cons_self).2 (Or.inr rfl), tokenizeLoop_word hword hc,
          List.singleton_append, removeGaps_cons (by omega) (by simp) h, slice_append,
          chunks_plain hclose (List.cons_ne_nil c w)]
        rfl
    · have hmore : ∀ c ∈ cs, c ≠ '<' ∧ c ≠ nul := fun c hc => hp c (by simp [hc])
      have htext : done ++ (w ++ '>' :: cs ++ more) = (done ++ (w ++ ['>'])) ++ (cs ++ more) := by simp
      have hlength : (done ++ (w ++ ['>'])).length = done.length + (w.length + 1) := by simp
      have hend : done.length + (w ++ '>' :: cs).length =
          (done ++ (w ++ ['>'])).length + cs.length := by
        simp
        omega
      have hpushes : (tokenizeLoop '>' done.length (w ++ '>' :: cs)).1 =
          done.length :: (tokenizeLoop '>' (done ++ (w ++ ['>'])).length cs).1 := by
        rw [hlength]
        cases w with
        | nil => rw [List.nil_append, tokenizeLoop_push (by decide) (Or.inr rfl), List.length_nil]
        | cons c w =>
          have hword : Unmarked w := fun d hd => ⟨(hp d (by simp [hd])).1,
            fun e => hw (e ▸ List.mem_cons_of_mem c hd), (hp d (by simp [hd])).2⟩
          have hc : c ≠ '>' := fun e => hw (e ▸ List.mem_cons_self)
          rw [List.cons_append, tokenizeLoop_push (hp c (by simp)).2 (Or.inr rfl),
            tokenizeLoop_inner cs hword hc, List.length_cons]
          congr 3
          omega
      have hnext : ∃ us', (tokenizeLoop '>' (done ++ (w ++ ['>'])).length cs).1 ++
          (done.length + (w ++ '>' :: cs).length) :: us = (done ++ (w ++ ['>'])).length :: us' := by
        cases cs with
        | nil =>
          rw [hend]
          exact ⟨us, rfl⟩
        | cons c cs =>
          rw [tokenizeLoop_push (hmore c List.mem_cons_self).2 (Or.inr rfl), List.cons_append]
          exact ⟨_, rfl⟩
      obtain ⟨us', hus⟩ := hnext
      rw [htext, hend] at h
      have hrest := ih cs.length (by simp; omega) hmore h rfl
      rw [← hend, hus] at hrest
      have hword : slice ((done ++ (w ++ ['>'])) ++ (cs ++ more)) done.length
          (done ++ (w ++ ['>'])).length = w ++ ['>'] := by
        rw [List.append_assoc, List.length_append]
        exact slice_append done (w ++ ['>']) (cs ++ more)
      have hfull : ∀ v : Str, (w ++ '>' :: v).all isSpace = false := fun v =>
        List.all_eq_false.mpr ⟨'>', by simp, by decide⟩
      rw [htext, hpushes, List.cons_append, hus, removeGaps_cons (by simp) (by simp) hrest, hword,
        hfull, hfull, chunks_close cs hw, hlength]
      by_cases hcs : cs.all isSpace = true
      · simp only [if_pos hcs]
        rfl
      · simp only [if_neg hcs]
        simp [startsOf]

/-- The chunks of a part of a text in front of other tokens. -/
theorem cuts_append {t : Str} {g : Nat} {ts : List Nat} {ws rest : List Str}
    (htext : t = done ++ (ws.flatten ++ more)) (hg : g = done.length + ws.flatten.length)
    (hws : ∀ w ∈ ws, w ≠ []) (h : Cuts t (g :: ts) rest) :
    Cuts t (startsOf done.length ws ++ g :: ts) (ws ++ rest) := by
  induction ws generalizing done with
  | nil => exact h
  | cons w ws ih =>
    have hw : 0 < w.length := List.length_pos_of_ne_nil (hws w List.mem_cons_self)
    have hdone : (done ++ w).length = done.length + w.length := List.length_append
    rw [List.flatten_cons, List.append_assoc] at htext
    rw [List.flatten_cons, List.length_append] at hg
    have ih := @ih (done ++ w) (by rw [htext, List.append_assoc]) (by omega)
      fun v hv => hws v (List.mem_cons_of_mem w hv)
    rw [hdone] at ih
    have hnext : ∃ more, startsOf (done.length + w.length) ws ++ g :: ts =
        (done.length + w.length) :: more := by
      cases ws with
      | nil => exact ⟨ts, by rw [hg]; rfl⟩
      | cons v ws => exact ⟨_, rfl⟩
    obtain ⟨next, hnext⟩ := hnext
    rw [hnext] at ih
    rw [startsOf, List.cons_append, hnext]
    refine ⟨by omega, ?_, ?_, ih⟩
    · rw [htext, List.length_append, List.length_append]
      omega
    · rw [htext]
      exact slice_append done w _

/-! ## 2. One more item in front -/

/-- What the passes behind `Tokenize` make of the pointers `raw`: the first one left is `g`, and the
    tokens have the texts `ws`. -/
def Found (s : Str) (raw : List Nat) (g : Nat) (ws : List Str) : Prop :=
  ∃ gs ts, removeGaps s raw = .ok (g :: gs) ∧ removeInsideComments s none (g :: gs) = .ok (g :: ts) ∧
    Cuts s (g :: ts) ws

section Found

variable {s blank : Str} {g : Nat} {us : List Nat} {ws : List Str}

/-- A text that ends in white space, in front of other tokens: the white space goes with it. -/
theorem slice_lead (done u blank more : Str) :
    slice (done ++ (u ++ (blank ++ more))) done.length (done.length + u.length + blank.length) =
      u ++ blank := by
  have h := slice_append done (u ++ blank) more
  rw [List.append_assoc, List.length_append, ← Nat.add_assoc] at h
  exact h

/-- What is left of pointers are pointers. -/
theorem removeGaps_pointers {raw kept : List Nat} (h : removeGaps s raw = .ok kept)
    (hptr : Pointers s raw) : Pointers s kept := by
  obtain ⟨ts, he, hsub, _⟩ := removeGaps_spec hptr
  rw [h] at he
  exact hptr.sublist (Except.ok.inj he ▸ hsub)

/-- A token with a `<` in front is no gap. -/
theorem slice_not_gap {l r : Nat} (hlt : l < r) (hr : r ≤ s.length) (h : s[l]? = some '<') :
    (slice s l r).all isSpace = false := by
  obtain ⟨_, hc⟩ := List.getElem?_eq_some_iff.mp h
  rw [slice_cons hlt hr, hc]
  rfl

theorem found_tag {inner : Str} (hc : (Item.tag inner).Clean) (hblank : blank.all isSpace = true)
    (hs : s = done ++ ((Item.tag inner).chars ++ (blank ++ more)))
    (hptr : Pointers s (done.length :: (done.length + (Item.tag inner).chars.length) :: us))
    (h : Found s ((done.length + (Item.tag inner).chars.length) :: us)
      (done.length + (Item.tag inner).chars.length + blank.length) ws) :
    Found s (done.length :: (done.length + (Item.tag inner).chars.length) :: us) done.length
      (((Item.tag inner).chars ++ blank) :: ws) := by
  obtain ⟨gs, ts, hgaps, hcomments, hcuts⟩ := h
  have hfirst : s[done.length]? = some '<' := by
    rw [hs, List.getElem?_append_right (Nat.le_refl _), Nat.sub_self]
    rfl
  have hkept : removeGaps s (done.length :: (done.length + (Item.tag inner).chars.length) :: us) =
      .ok (done.length :: (done.length + (Item.tag inner).chars.length + blank.length) :: gs) := by
    rw [removeGaps_cons (Nat.le_of_lt hptr.lt) hptr.second_le hgaps,
      slice_not_gap hptr.lt hptr.second_le hfirst]
    rfl
  have hptr' := removeGaps_pointers hkept hptr
  have hnone : ∀ q, done.length ≤ q →
      q < done.length + (Item.tag inner).chars.length + blank.length →
      "<!--".toList.isPrefixOf (s.drop q) = false := by
    intro q hq hlt
    rcases Nat.eq_or_lt_of_le hq with rfl | hq
    · rw [hs, List.drop_left]
      have hchars : (Item.tag inner).chars ++ (blank ++ more) =
          '<' :: (inner ++ '>' :: (blank ++ more)) := by simp [Item.chars]
      rw [hchars]
      exact not_start_tag hc.2
    · have hsplit : s = (done ++ ['<']) ++ ((inner ++ '>' :: blank) ++ more) := by
        rw [hs]
        simp [Item.chars]
      have hlength : (Item.tag inner).chars.length = inner.length + 2 := by simp [Item.chars]
      rw [hsplit]
      refine not_start_append (fun hm => ?_) q ?_ ?_
      · rcases List.mem_append.mp hm with hm | hm
        · exact (hc.1 '<' hm).1 rfl
        · rcases List.mem_cons.mp hm with e | hm
          · exact absurd e (by decide)
          · exact absurd (List.all_eq_true.mp hblank '<' hm) (by decide)
      · simp
        omega
      · simp
        omega
  have hfirstKept : ∀ k ∈ [done.length], done.length ≤ k := fun k hk => (List.mem_singleton.mp hk).ge
  have hclosed := removeInsideComments_closed hptr' hfirstKept hnone hcomments
  have hslice : slice s done.length (done.length + (Item.tag inner).chars.length + blank.length) =
      (Item.tag inner).chars ++ blank := by
    rw [hs]
    exact slice_lead done (Item.tag inner).chars blank more
  exact ⟨_, _, hkept, hclosed, hptr'.lt, hptr'.second_le, hslice, hcuts⟩

theorem found_comment (hi : ¬ "-->".toList <:+: i) {ks : List Nat}
    (hs : s = done ++ ((Item.comment i).chars ++ (blank ++ more)))
    (hks : ∀ k ∈ ks, done.length + 4 ≤ k ∧ k ≤ done.length + 4 + i.length)
    (hptr : Pointers s (done.length :: (ks ++ (done.length + (Item.comment i).chars.length) :: us)))
    (h : Found s ((done.length + (Item.comment i).chars.length) :: us)
      (done.length + (Item.comment i).chars.length + blank.length) ws) :
    Found s (done.length :: (ks ++ (done.length + (Item.comment i).chars.length) :: us)) done.length
      (((Item.comment i).chars ++ blank) :: ws) := by
  obtain ⟨gs, ts, hgaps, hcomments, hcuts⟩ := h
  have hfirst : s[done.length]? = some '<' := by
    rw [hs, List.getElem?_append_right (Nat.le_refl _), Nat.sub_self]
    rfl
  have hlength : (Item.comment i).chars.length = i.length + 7 := by simp [Item.chars]
  obtain ⟨kept, hsub, hrest⟩ := removeGaps_prefix hptr.tail hgaps
  have hkept : removeGaps s
      (done.length :: (ks ++ (done.length + (Item.comment i).chars.length) :: us)) =
        .ok (done.length :: (kept ++
          (done.length + (Item.comment i).chars.length + blank.length) :: gs)) := by
    obtain ⟨n, rest, hn⟩ : ∃ n rest,
        ks ++ (done.length + (Item.comment i).chars.length) :: us = n :: rest := by
      cases ks with
      | nil => exact ⟨_, _, rfl⟩
      | cons k ks => exact ⟨_, _, rfl⟩
    rw [hn] at hptr hrest ⊢
    rw [removeGaps_cons (Nat.le_of_lt hptr.lt) hptr.second_le hrest,
      slice_not_gap hptr.lt hptr.second_le hfirst]
    rfl
  have hptr' := removeGaps_pointers hkept hptr
  have hstand : CommentAt s done.length (done.length + 4 + i.length) := by
    rw [hs]
    exact commentAt_append hi
  have hg : done.length + (Item.comment i).chars.length + blank.length ≤ s.length :=
    hptr'.2 _ (by simp)
  have htoken := hstand.token hptr' (fun k hk => hks k (hsub.subset hk)) (by omega) hcomments
  have hslice : slice s done.length (done.length + (Item.comment i).chars.length + blank.length) =
      (Item.comment i).chars ++ blank := by
    rw [hs]
    exact slice_lead done (Item.comment i).chars blank more
  exact ⟨_, _, hkept, htoken, by omega, hg, hslice, hcuts⟩

theorem startsOf_ge : ∀ {vs : List Str} {a k : Nat}, k ∈ startsOf a vs → a ≤ k
  | _ :: vs, a, k, h => by
      rcases List.mem_cons.mp h with rfl | h
      · exact Nat.le_refl k
      · exact Nat.le_trans (Nat.le_add_right a _) (startsOf_ge h)

theorem found_part (hp : ∀ c ∈ p, c ≠ '<' ∧ c ≠ nul) (hfull : p.all isSpace = false)
    (hs : s = done ++ (p ++ more))
    (hptr : Pointers s ((tokenizeLoop '>' done.length p).1 ++ (done.length + p.length) :: us))
    (h : Found s ((done.length + p.length) :: us) (done.length + p.length) ws) :
    Found s ((tokenizeLoop '>' done.length p).1 ++ (done.length + p.length) :: us) done.length
      (chunks p ++ ws) := by
  obtain ⟨gs, ts, hgaps, hcomments, hcuts⟩ := h
  have hkept := @removeGaps_part done more p _ _ ⟨us, rfl⟩ hp (hs ▸ hgaps)
  rw [hfull, if_neg Bool.false_ne_true, ← hs] at hkept
  have hptr' := removeGaps_pointers hkept hptr
  obtain ⟨next, hnext⟩ : ∃ next, startsOf done.length (chunks p) = done.length :: next := by
    cases hc : chunks p with
    | nil =>
      rw [← chunks_flatten p, hc] at hfull
      exact absurd hfull (by decide)
    | cons w vs => exact ⟨_, rfl⟩
  have hnone : ∀ q, done.length ≤ q → q < done.length + p.length →
      "<!--".toList.isPrefixOf (s.drop q) = false := by
    rw [hs]
    exact not_start_append fun hm => (hp '<' hm).1 rfl
  have hclosed := removeInsideComments_closed hptr' (fun _ => startsOf_ge) hnone hcomments
  have hcut := @cuts_append done more _ _ _ _ _ (by rw [hs, chunks_flatten])
    (by rw [chunks_flatten]) (chunks_ne_nil p) hcuts
  rw [hnext] at hkept hclosed hcut
  exact ⟨_, _, hkept, hclosed, hcut⟩

end Found

/-! ## 3. All items -/

/-- What the passes make of the items behind `done`. -/
theorem passes_from (ha : Apart b xs) (hc : ∀ x ∈ xs, x.Clean) (hb : b = true → prev = '>') :
    Found (done ++ itemText xs) ((tokenizeLoop prev done.length (itemText xs)).1 ++
      [(done ++ itemText xs).length]) (done.length + (lead xs).length) (tokensOf xs) := by
  induction xs generalizing done prev b with
  | nil =>
    refine ⟨[], [], ?_, rfl, True.intro⟩
    rw [show itemText [] = [] from rfl, List.append_nil]
    rfl
  | cons x xs ih =>
    have hx := hc x List.mem_cons_self
    have hxs : ∀ y ∈ xs, y.Clean := fun y hy => hc y (List.mem_cons_of_mem x hy)
    have hptr := pointers_raw done (itemText (x :: xs)) prev
    -- the pointers are those inside the item and those behind it, the first of them at its end
    have hraw : ∀ b', Apart b' xs → (b' = true → x.chars.getLastD prev = '>') → nul ∉ x.chars →
        ∃ us, (tokenizeLoop prev done.length (itemText (x :: xs))).1 ++
            [(done ++ itemText (x :: xs)).length] =
          (tokenizeLoop prev done.length x.chars).1 ++ (done.length + x.chars.length) :: us ∧
        Found (done ++ itemText (x :: xs)) ((done.length + x.chars.length) :: us)
          (done.length + x.chars.length + (lead xs).length) (tokensOf xs) := by
      intro b' hapart hlast hnul
      obtain ⟨us, hus⟩ := @raw_head _ xs b' (done.length + x.chars.length) hapart hxs hlast
      have htext : (done ++ x.chars) ++ itemText xs = done ++ itemText (x :: xs) := by
        rw [itemText_cons, List.append_assoc]
      have hlength : (done ++ x.chars).length = done.length + x.chars.length := List.length_append
      have hend : (done ++ itemText (x :: xs)).length =
          done.length + x.chars.length + (itemText xs).length := by
        rw [← htext, List.length_append, hlength]
      have hrest := @ih (done ++ x.chars) _ _ hapart hxs hlast
      rw [htext, hlength, hend, hus] at hrest
      refine ⟨us, ?_, hrest⟩
      rw [hend, itemText_cons, tokenizeLoop_append hnul, List.append_assoc, hus]
    obtain ⟨more, hmore⟩ := lead_prefix xs
    have htext : done ++ itemText (x :: xs) = done ++ (x.chars ++ (lead xs ++ more)) := by
      rw [itemText_cons, hmore]
    cases x with
    | tag inner =>
      have hlast : (Item.tag inner).chars.getLastD prev = '>' := by
        show (('<' :: inner) ++ ['>']).getLastD prev = '>'
        rw [List.getLastD_concat]
      have hpush : (tokenizeLoop prev done.length (Item.tag inner).chars).1 = [done.length] := by
        rw [Item.chars, tokenizeLoop_push (by decide) (Or.inl rfl),
          tokenizeLoop_inner [] hx.1 (by decide)]
        rfl
      obtain ⟨us, hus, hfound⟩ := hraw true ha (fun _ => hlast) hx.nul_notMem
      rw [hus, hpush] at hptr ⊢
      exact found_tag hx (lead_space xs) htext hptr hfound
    | part p =>
      obtain ⟨hbt, hapart⟩ := ha
      obtain rfl := hb hbt
      obtain ⟨us, hus, hfound⟩ := hraw false hapart (fun h => absurd h Bool.false_ne_true)
        hx.nul_notMem
      rw [lead_apart hapart] at hfound
      have htext : done ++ itemText (.part p :: xs) = done ++ (p ++ more) := by
        rw [htext, lead_apart hapart]
        rfl
      rw [hus] at hptr ⊢
      by_cases hp : p.all isSpace = true
      · obtain ⟨gs, ts, hgaps, hcomments, hcuts⟩ := hfound
        have hkept := removeGaps_part ⟨us, rfl⟩ hx.2 (htext ▸ hgaps)
        rw [if_pos hp, ← htext] at hkept
        rw [tokensOf, if_pos hp, lead, if_pos hp]
        exact ⟨gs, ts, hkept, hcomments, hcuts⟩
      · rw [tokensOf, if_neg hp, lead, if_neg hp]
        exact found_part hx.2 (Bool.not_eq_true _ ▸ hp) htext hptr hfound
    | comment i =>
      have hlast : (Item.comment i).chars.getLastD prev = '>' := by
        have hsplit : (Item.comment i).chars = ("<!--".toList ++ (i ++ "--".toList)) ++ ['>'] := by
          simp [Item.chars]
        rw [hsplit, List.getLastD_concat]
      obtain ⟨us, hus, hfound⟩ := hraw true ha (fun _ => hlast) hx.nul_notMem
      obtain ⟨ks, hks, hin⟩ := @comment_pushes i prev done.length hx.1
      rw [hus, hks] at hptr ⊢
      exact found_comment hx.2 htext hin hptr hfound

/-- **The passes find the tokens**, whatever stands inside the comments. -/
theorem passes_items (hne : itemText xs ≠ []) (ha : Apart true xs) (hc : ∀ x ∈ xs, x.Clean) :
    ∃ ts, passes (itemText xs) = .ok ts ∧ Cuts (itemText xs) ts (tokensOf xs) := by
  have hnul : nul ∉ itemText xs := by
    intro hm
    obtain ⟨x, hx, hm⟩ := List.mem_flatMap.mp hm
    exact Item.Clean.nul_notMem (hc x hx) hm
  obtain ⟨gs, ts, hgaps, hcomments, hcuts⟩ := @passes_from [] '>' xs true ha hc fun _ => rfl
  refine ⟨_, ?_, hcuts⟩
  unfold passes
  rw [tokenize_eq hne hnul, ok_bind]
  exact (congrArg (· >>= removeInsideComments _ none) hgaps).trans hcomments

end Passes

/-! ## 4. Texts without comments -/

def Piece.item : Piece → Item
  | tag inner => .tag inner
  | text content => .part content

section Pieces

variable {s : Str} {ps : List Piece}

theorem itemText_pieces (ps : List Piece) : itemText (ps.map Piece.item) = pieceText ps := by
  unfold itemText pieceText
  rw [List.flatMap_map]
  refine List.flatMap_congr fun x _ => ?_
  cases x <;> rfl

theorem Piece.Clean.item {x : Piece} (h : x.Clean) : x.item.Clean := by
  cases x with
  | tag inner => exact h
  | text content =>
    obtain ⟨hu, c, hc, _⟩ := h
    exact ⟨List.ne_nil_of_mem hc, fun d hd => ⟨(hu d hd).1, (hu d hd).2.2⟩⟩

theorem Fits.apart : ∀ {ps : List Piece} {b : Bool}, Fits b ps → Apart b (ps.map Piece.item)
  | [], _, _ => True.intro
  | .tag _ :: ps, _, h => @Fits.apart ps true h
  | .text _ :: ps, _, ⟨hb, h⟩ => ⟨hb, @Fits.apart ps false h⟩

/-- A content is not white space only, so none leads the pieces. -/
theorem lead_pieces (hc : ∀ x ∈ ps, x.Clean) : lead (ps.map Piece.item) = [] := by
  cases ps with
  | nil => rfl
  | cons x ps =>
    cases x with
    | tag inner => rfl
    | text content =>
      obtain ⟨_, c, hmem, hspace⟩ := hc _ List.mem_cons_self
      exact if_neg fun h => absurd (List.all_eq_true.mp h c hmem) (by rw [hspace]; decide)

/-- Each piece is one token. -/
theorem tokensOf_pieces (hc : ∀ x ∈ ps, x.Clean) :
    tokensOf (ps.map Piece.item) = ps.map Piece.chars := by
  induction ps with
  | nil => rfl
  | cons x ps ih =>
    have hps : ∀ y ∈ ps, y.Clean := fun y hy => hc y (List.mem_cons_of_mem x hy)
    cases x with
    | tag inner =>
      rw [List.map_cons, Piece.item, tokensOf, lead_pieces hps, List.append_nil, ih hps]
      rfl
    | text content =>
      obtain ⟨hu, c, hmem, hspace⟩ := hc _ List.mem_cons_self
      have hfull : content.all isSpace = false := List.all_eq_false.mpr ⟨c, hmem, by rw [hspace]; decide⟩
      have hone : chunks content = [content] :=
        chunks_plain (fun hm => (hu '>' hm).2.1 rfl) (List.ne_nil_of_mem hmem)
      rw [List.map_cons, Piece.item, tokensOf, hfull, if_neg Bool.false_ne_true, hone, ih hps]
      rfl

theorem Cuts.reads : ∀ {ts : List Nat} {ps : List Piece}, Cuts s ts (ps.map Piece.chars) →
    Reads s ts ps
  | [_], [], _ => True.intro
  | _ :: _ :: _, _ :: _, ⟨hlt, hr, hs, h⟩ => ⟨hlt, hr, hs, h.reads⟩

/-- **The passes find the pieces** of a text that starts with a tag. -/
theorem passes_pieces {inner : Str} (hf : Fits true ps) (hc : ∀ x ∈ Piece.tag inner :: ps, x.Clean) :
    ∃ ts, passes (pieceText (.tag inner :: ps)) = .ok ts ∧
      Reads (pieceText (.tag inner :: ps)) ts (.tag inner :: ps) := by
  have hitems : ∀ x ∈ (Piece.tag inner :: ps).map Piece.item, x.Clean :=
    List.forall_mem_map.mpr fun x hx => (hc x hx).item
  have hapart : Apart true ((Piece.tag inner :: ps).map Piece.item) := hf.apart
  have hne : itemText ((Piece.tag inner :: ps).map Piece.item) ≠ [] := List.cons_ne_nil _ _
  obtain ⟨ts, hpasses, hcuts⟩ := passes_items hne hapart hitems
  rw [tokensOf_pieces hc, itemText_pieces] at hcuts
  rw [itemText_pieces] at hpasses
  exact ⟨ts, hpasses, hcuts.reads⟩

end Pieces

end Veridie.Xml
