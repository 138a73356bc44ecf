/-
  File:      Veridie/Xml/Items.lean
  Subject:   Texts with comments in them, and what `Tokenize` and the erasing passes do at a part of
             such a text.

  * `Item`, `Item.Clean`, `Apart` -- a tag, a part of a text, a comment; what may stand inside; no two
    parts side by side;
  * `tokensOf` -- the texts of the tokens: one for each tag and each comment, with the white space
    that stands behind it, and for each part one up to every `>`;
  * `removeGaps_prefix`, `removeInsideComments_closed` -- pointers in front of others: which stay;
  * `CommentAt`, `CommentAt.token` -- a comment is one token, wherever pointers stand inside.
-/
import Veridie.Xml.Pieces

namespace Veridie.Xml

/-! ## 1. Items -/

/-- What a text with comments consists of. -/
inductive Item where
  | tag (inner : Str)
  | part (content : Str)
  | comment (interior : Str)

/-- The characters of an item. -/
def Item.chars : Item → Str
  | tag inner => '<' :: (inner ++ ['>'])
  | part content => content
  | comment interior => "<!--".toList ++ (interior ++ "-->".toList)

/-- A tag holds no markup inside and is no comment, a part of a text holds no `<`, and a comment does
    not end before its end. -/
def Item.Clean : Item → Prop
  | tag inner => (Piece.tag inner).Clean
  | part content => content ≠ [] ∧ ∀ c ∈ content, c ≠ '<' ∧ c ≠ nul
  | comment interior => nul ∉ interior ∧ ¬ "-->".toList <:+: interior

/-- The text of a sequence of items. -/
def itemText (xs : List Item) : Str := xs.flatMap Item.chars

/-- A part of a text stands behind a tag or a comment; `b` tells whether one stands before. -/
def Apart : Bool → List Item → Prop
  | _, [] => True
  | _, .tag _ :: xs => Apart true xs
  | b, .part _ :: xs => b = true ∧ Apart false xs
  | _, .comment _ :: xs => Apart true xs

/-- The white space that the items start with. -/
def lead : List Item → Str
  | .part p :: _ => if p.all isSpace then p else []
  | _ => []

/-- A part of a text, cut behind every `>`, white space at its end excepted. -/
def chunks : Str → List Str
  | [] => []
  | c :: cs =>
    if c = '>' then if cs.all isSpace then [c :: cs] else [c] :: chunks cs
    else
      match chunks cs with
      | [] => [[c]]
      | w :: ws => (c :: w) :: ws

/-- The texts of the tokens. -/
def tokensOf : List Item → List Str
  | [] => []
  | .tag inner :: xs => ((Item.tag inner).chars ++ lead xs) :: tokensOf xs
  | .part p :: xs => if p.all isSpace then tokensOf xs else chunks p ++ tokensOf xs
  | .comment interior :: xs => ((Item.comment interior).chars ++ lead xs) :: tokensOf xs

/-- The tokens between the pointers have these texts. -/
def Cuts (s : Str) : List Nat → List Str → Prop
  | [_], [] => True
  | l :: r :: ts, w :: ws => l < r ∧ r ≤ s.length ∧ slice s l r = w ∧ Cuts s (r :: ts) ws
  | _, _ => False

/-- Where the chunks start when the first one starts at `p`. -/
def startsOf : Nat → List Str → List Nat
  | _, [] => []
  | p, w :: ws => p :: startsOf (p + w.length) ws

section Items

variable {s p q w : Str} {xs : List Item}

theorem itemText_cons (x : Item) (xs : List Item) : itemText (x :: xs) = x.chars ++ itemText xs := rfl

theorem itemText_append (xs ys : List Item) : itemText (xs ++ ys) = itemText xs ++ itemText ys :=
  List.flatMap_append

theorem Item.Clean.nul_notMem {x : Item} (h : x.Clean) : nul ∉ x.chars := by
  intro hm
  cases x with
  | tag inner =>
    rcases List.mem_cons.mp hm with e | hm
    · exact absurd e (by decide)
    · rcases List.mem_append.mp hm with hm | hm
      · exact (h.1 nul hm).2.2 rfl
      · exact absurd (List.mem_singleton.mp hm) (by decide)
  | part p => exact (h.2 nul hm).2 rfl
  | comment i =>
    rcases List.mem_append.mp hm with hm | hm
    · exact absurd hm (by decide)
    · rcases List.mem_append.mp hm with hm | hm
      · exact h.1 hm
      · exact absurd hm (by decide)

/-- Behind a part of a text there is no other one, so no white space that would be a token. -/
theorem lead_apart (h : Apart false xs) : lead xs = [] := by
  cases xs with
  | nil => rfl
  | cons x xs =>
    cases x with
    | part p => exact absurd h.1 Bool.false_ne_true
    | _ => rfl

theorem lead_prefix (xs : List Item) : ∃ more, itemText xs = lead xs ++ more := by
  cases xs with
  | nil => exact ⟨[], rfl⟩
  | cons x xs =>
    cases x with
    | part p =>
      by_cases hp : p.all isSpace = true
      · exact ⟨itemText xs, by rw [lead, if_pos hp]; rfl⟩
      · exact ⟨itemText (.part p :: xs), by rw [lead, if_neg hp]; rfl⟩
    | _ => exact ⟨_, rfl⟩

theorem lead_space (xs : List Item) : (lead xs).all isSpace = true := by
  unfold lead
  split
  · split
    · rename_i h
      exact h
    · rfl
  · rfl

theorem chunks_plain (h : '>' ∉ w) (hne : w ≠ []) : chunks w = [w] := by
  induction w with
  | nil => exact absurd rfl hne
  | cons c w ih =>
    have hc : c ≠ '>' := fun e => h (e ▸ List.mem_cons_self)
    rw [chunks, if_neg hc]
    cases w with
    | nil => rfl
    | cons d w => rw [ih (fun hm => h (List.mem_cons_of_mem c hm)) (List.cons_ne_nil d w)]

theorem chunks_close (cs : Str) (h : '>' ∉ w) : chunks (w ++ '>' :: cs) =
    if cs.all isSpace then [w ++ '>' :: cs] else (w ++ ['>']) :: chunks cs := by
  induction w with
  | nil => exact if_pos rfl
  | cons c w ih =>
    have hc : c ≠ '>' := fun e => h (e ▸ List.mem_cons_self)
    rw [List.cons_append, chunks, if_neg hc, ih fun hm => h (List.mem_cons_of_mem c hm)]
    by_cases hcs : cs.all isSpace = true
    · rw [if_pos hcs, if_pos hcs]
    · rw [if_neg hcs, if_neg hcs]
      rfl

theorem chunks_flatten (p : Str) : (chunks p).flatten = p := by
  induction p with
  | nil => rfl
  | cons c cs ih =>
    rw [chunks]
    split
    · split
      · exact List.append_nil _
      · rw [List.flatten_cons, ih]
        rfl
    · split
      · rename_i h
        rw [h] at ih
        rw [← ih]
        rfl
      · rename_i w ws h
        rw [h] at ih
        rw [← ih]
        rfl

theorem chunks_ne_nil (p : Str) : ∀ w ∈ chunks p, w ≠ [] := by
  induction p with
  | nil => exact List.forall_mem_nil _
  | cons c cs ih =>
    rw [chunks]
    split
    · split
      · exact List.forall_mem_singleton.mpr (List.cons_ne_nil c cs)
      · exact List.forall_mem_cons.mpr ⟨List.cons_ne_nil c [], ih⟩
    · split
      · exact List.forall_mem_singleton.mpr (List.cons_ne_nil c [])
      · rename_i w ws h
        rw [h] at ih
        exact List.forall_mem_cons.mpr
          ⟨List.cons_ne_nil c w, fun v hv => ih v (List.mem_cons_of_mem w hv)⟩

/-- A text is a word and the `>` behind it, or it has none. -/
theorem split_close (p : Str) : '>' ∉ p ∨ ∃ w cs, '>' ∉ w ∧ p = w ++ '>' :: cs := by
  by_cases h : '>' ∈ p
  · obtain ⟨w, cs, hp, hw⟩ := List.eq_append_cons_of_mem h
    exact Or.inr ⟨w, cs, hw, hp⟩
  · exact Or.inl h

end Items

/-! ## 2. `Tokenize` -/

section Tokenize

variable {prev : Char} {pit : Nat} {u v : Str}

/-- A text behind another one. -/
theorem tokenizeLoop_append (h : nul ∉ u) : (tokenizeLoop prev pit (u ++ v)).1 =
    (tokenizeLoop prev pit u).1 ++ (tokenizeLoop (u.getLastD prev) (pit + u.length) v).1 := by
  induction u generalizing prev pit with
  | nil => rfl
  | cons c u ih =>
    have hc : c ≠ nul := fun e => h (e ▸ List.mem_cons_self)
    have ih' := @ih c (pit + 1) fun hm => h (List.mem_cons_of_mem c hm)
    have hlength : pit + 1 + u.length = pit + (c :: u).length := by
      rw [List.length_cons]
      omega
    rw [List.cons_append, tokenizeLoop, tokenizeLoop, if_neg hc, if_neg hc, List.getLastD_cons,
      ← hlength]
    dsimp only
    split
    · exact congrArg (pit :: ·) ih'
    · split
      · exact congrArg (pit :: ·) ih'
      · exact ih'

/-- A pointer is pushed at a `<` and behind a `>`. -/
theorem tokenizeLoop_push {c : Char} (hc : c ≠ nul) (h : c = '<' ∨ prev = '>') (cs : Str) :
    (tokenizeLoop prev pit (c :: cs)).1 = pit :: (tokenizeLoop c (pit + 1) cs).1 := by
  rw [tokenizeLoop, if_neg hc]
  dsimp only
  by_cases hlt : c = '<'
  · rw [if_pos hlt]
  · rw [if_neg hlt, if_pos (h.resolve_left hlt)]

/-- Inside a word nothing is pushed. -/
theorem tokenizeLoop_word (h : Unmarked u) (hprev : prev ≠ '>') :
    (tokenizeLoop prev pit u).1 = [] := by
  obtain ⟨last, _, he⟩ := tokenizeLoop_skip pit [] h hprev
  rw [List.append_nil] at he
  rw [he]
  rfl

theorem tokenizeLoop_end (h : nul ∉ u) : (tokenizeLoop prev pit u).2 = pit + u.length := by
  induction u generalizing prev pit with
  | nil => rfl
  | cons c u ih =>
    have hc : c ≠ nul := fun e => h (e ▸ List.mem_cons_self)
    have hrest := @ih c (pit + 1) fun hm => h (List.mem_cons_of_mem c hm)
    have hlength : pit + 1 + u.length = pit + (c :: u).length := by
      rw [List.length_cons]
      omega
    rw [tokenizeLoop, if_neg hc, ← hlength]
    dsimp only
    split
    · exact hrest
    · split <;> exact hrest

/-- `Tokenize` pushes a pointer at the start of the text, and one at its end. -/
theorem tokenize_eq (hne : u ≠ []) (hnul : nul ∉ u) :
    tokenize u = .ok ((tokenizeLoop '>' 0 u).1 ++ [u.length]) := by
  cases u with
  | nil => exact absurd rfl hne
  | cons c w =>
    have hc : c ≠ nul := fun e => hnul (e ▸ List.mem_cons_self)
    have hend := @tokenizeLoop_end c 1 w fun hm => hnul (List.mem_cons_of_mem c hm)
    -- a pointer stands at a character of the text
    have hback : ∀ q ∈ 0 :: (tokenizeLoop c 1 w).1, ∃ d, charAt (c :: w) q = .ok d ∧ d ≠ nul := by
      intro q hq
      rcases List.mem_cons.mp hq with rfl | hq
      · exact ⟨c, rfl, hc⟩
      · obtain ⟨_, hspec, _⟩ := tokenizeLoop_spec w c 1
        obtain ⟨hq1, _, d, hget, hd⟩ := hspec q hq
        refine ⟨d, ?_, hd⟩
        unfold charAt
        rw [show q = (q - 1) + 1 by omega, List.getElem?_cons_succ, hget]
    obtain ⟨d, hget, hd⟩ := hback _ (List.getLast_mem (List.cons_ne_nil _ _))
    rw [tokenize, tokenizeLoop_push hc (Or.inr rfl)]
    simp only [hget, ok_bind, if_pos hd, hend, List.length_cons, Nat.add_comm 1]

end Tokenize

/-! ## 3. What is erased -/

section Erase

variable {s : Str} {l r g p stop : Nat} {rest ts : List Nat}

theorem removeGaps_cons (hle : l ≤ r) (hr : r ≤ s.length) (h : removeGaps s (r :: rest) = .ok ts) :
    removeGaps s (l :: r :: rest) = .ok (if (slice s l r).all isSpace then ts else l :: ts) := by
  rw [removeGaps, allOf_eq hle hr, ok_bind, h, ok_bind]
  split <;> rfl

/-- Pointers in front of others: some of them are erased. -/
theorem removeGaps_prefix {us : List Nat} (hptr : Pointers s (us ++ r :: rest))
    (h : removeGaps s (r :: rest) = .ok ts) :
    ∃ ks, ks.Sublist us ∧ removeGaps s (us ++ r :: rest) = .ok (ks ++ ts) := by
  induction us with
  | nil => exact ⟨[], List.Sublist.slnil, h⟩
  | cons u us ih =>
    obtain ⟨ks, hks, he⟩ := ih hptr.tail
    obtain ⟨n, more, hn⟩ : ∃ n more, us ++ r :: rest = n :: more := by
      cases us with
      | nil => exact ⟨r, rest, rfl⟩
      | cons n us => exact ⟨n, us ++ r :: rest, rfl⟩
    rw [List.cons_append, hn] at hptr ⊢
    rw [hn] at he
    rw [removeGaps_cons (Nat.le_of_lt hptr.lt) hptr.second_le he]
    split
    · exact ⟨ks, hks.cons u, rfl⟩
    · exact ⟨u :: ks, hks.cons_cons u, rfl⟩

/-- A token in which no comment starts. -/
theorem scanToken_closed : ∀ (n pit : Nat), pit + n ≤ s.length →
    (∀ q, pit ≤ q → q < pit + n → "<!--".toList.isPrefixOf (s.drop q) = false) →
    scanToken s n pit 0 false = .ok ⟨false, false⟩
  | 0, _, _, _ => rfl
  | n + 1, pit, hle, h => by
      unfold scanToken
      rw [isCommentStart_eq (by omega), ok_bind, h pit (Nat.le_refl _) (by omega)]
      exact scanToken_closed n (pit + 1) (by omega) fun q hq hlt => h q (by omega) (by omega)

/-- Tokens in which no comment starts stay. -/
theorem removeInsideComments_closed {ks : List Nat} (hptr : Pointers s (ks ++ g :: rest))
    (hp : ∀ k ∈ ks, p ≤ k)
    (hnone : ∀ q, p ≤ q → q < g → "<!--".toList.isPrefixOf (s.drop q) = false)
    (h : removeInsideComments s none (g :: rest) = .ok ts) :
    removeInsideComments s none (ks ++ g :: rest) = .ok (ks ++ ts) := by
  induction ks with
  | nil => exact h
  | cons k ks ih =>
    have ih := ih hptr.tail fun k' hk' => hp k' (List.mem_cons_of_mem k hk')
    obtain ⟨n, more, hn, hng⟩ : ∃ n more, ks ++ g :: rest = n :: more ∧ n ≤ g := by
      cases ks with
      | nil => exact ⟨g, rest, rfl, Nat.le_refl g⟩
      | cons n ks =>
        refine ⟨n, ks ++ g :: rest, rfl, Nat.le_of_lt ?_⟩
        exact (List.pairwise_cons.mp hptr.tail.1).1 g (List.mem_append_right _ List.mem_cons_self)
    have hk := hp k List.mem_cons_self
    rw [List.cons_append, hn] at hptr ⊢
    rw [hn] at ih
    have hlt := hptr.lt
    have hle := hptr.second_le
    unfold removeInsideComments
    rw [scanToken_closed _ _ (by omega) fun q hq hqn => hnone q (by omega) (by omega), ok_bind]
    simp only [Bool.false_and, Bool.false_eq_true, if_false]
    rw [ih, ok_bind]
    rfl

/-- A comment stands at `p`, and its end at `stop`. -/
structure CommentAt (s : Str) (p stop : Nat) : Prop where
  start : "<!--".toList.isPrefixOf (s.drop p) = true
  le : p + 4 ≤ stop
  ends : "-->".toList.isPrefixOf (s.drop stop) = true
  not_before : ∀ q, p + 4 ≤ q → q < stop → "-->".toList.isPrefixOf (s.drop q) = false

/-- Inside a comment the scan of a token stops at the end of the comment, or at its own. -/
theorem CommentAt.scan (h : CommentAt s p stop) : ∀ (n pit : Nat), p + 4 ≤ pit → pit ≤ stop →
    pit + n ≤ s.length → scanToken s n pit 0 true = .ok ⟨true, decide (stop < pit + n)⟩
  | 0, pit, _, hle, _ => by
      rw [scanToken, decide_eq_false (by omega)]
  | n + 1, pit, hp, hle, hlength => by
      unfold scanToken
      rw [isCommentEnd_eq (by omega), ok_bind]
      by_cases heq : pit = stop
      · subst heq
        rw [h.ends, decide_eq_true (by omega)]
        rfl
      · rw [h.not_before pit hp (by omega), show pit + (n + 1) = pit + 1 + n by omega]
        exact h.scan n (pit + 1) (by omega) (by omega) (by omega)

/-- The start of the comment is passed over. -/
theorem CommentAt.scan_skip (h : CommentAt s p stop) : ∀ (skip n pit : Nat), pit + skip = p + 4 →
    pit + n ≤ s.length → scanToken s n pit skip true = .ok ⟨true, decide (stop < pit + n)⟩
  | 0, n, pit, hp, hlength => h.scan n pit (by omega) (by have := h.le; omega) hlength
  | skip + 1, 0, pit, hp, _ => by
      have hle := h.le
      rw [scanToken, decide_eq_false (by omega)]
  | skip + 1, n + 1, pit, hp, hlength => by
      rw [scanToken, show pit + (n + 1) = pit + 1 + n by omega]
      exact h.scan_skip skip n (pit + 1) (by omega) (by omega)

theorem CommentAt.scan_start (h : CommentAt s p stop) (hlt : p < r) (hr : r ≤ s.length) :
    scanToken s (r - p) p 0 false = .ok ⟨true, decide (stop < r)⟩ := by
  obtain ⟨n, hn⟩ : ∃ n, r - p = n + 1 := ⟨r - p - 1, by omega⟩
  rw [hn, scanToken, isCommentStart_eq (by omega), ok_bind, h.start]
  refine (h.scan_skip 3 n (p + 1) rfl (by omega)).trans ?_
  rw [show p + 1 + n = r by omega]

/-- The pointers inside an open comment are erased. -/
theorem CommentAt.erase (h : CommentAt s p stop) {ks : List Nat} {kept : List Nat}
    (hptr : Pointers s (l :: (ks ++ g :: rest))) (hl : p + 4 ≤ l) (hstop : l ≤ stop)
    (hks : ∀ k ∈ ks, k ≤ stop) (hg : stop < g)
    (hts : removeInsideComments s none (g :: rest) = .ok ts) :
    removeInsideComments s (some kept) (l :: (ks ++ g :: rest)) = .ok ts := by
  induction ks generalizing l kept with
  | nil =>
    have hlt := hptr.lt
    have hle := hptr.second_le
    rw [List.nil_append] at *
    rw [removeInsideComments, h.scan _ l hl hstop (by omega), ok_bind,
      decide_eq_true (by omega : stop < l + (g - l))]
    exact hts
  | cons k ks ih =>
    have hlt := hptr.lt
    have hle := hptr.second_le
    have hk := hks k List.mem_cons_self
    rw [List.cons_append] at *
    rw [removeInsideComments, h.scan _ l hl hstop (by omega), ok_bind,
      decide_eq_false (by omega : ¬ stop < l + (k - l))]
    exact ih hptr.tail (by omega) hk fun k' hk' => hks k' (List.mem_cons_of_mem k hk')

/-- **A comment is one token**, wherever the pointers inside it stand. -/
theorem CommentAt.token (h : CommentAt s p stop) {ks : List Nat}
    (hptr : Pointers s (p :: (ks ++ g :: rest))) (hks : ∀ k ∈ ks, p + 4 ≤ k ∧ k ≤ stop)
    (hg : stop < g) (hts : removeInsideComments s none (g :: rest) = .ok ts) :
    removeInsideComments s none (p :: (ks ++ g :: rest)) = .ok (p :: ts) := by
  cases ks with
  | nil =>
    rw [List.nil_append] at *
    rw [removeInsideComments, h.scan_start hptr.lt hptr.second_le, ok_bind, decide_eq_true hg]
    simp only [Bool.not_true, Bool.and_false, Bool.false_eq_true, if_false]
    rw [hts, ok_bind]
  | cons k ks =>
    obtain ⟨hk, hkstop⟩ := hks k List.mem_cons_self
    rw [List.cons_append] at *
    rw [removeInsideComments, h.scan_start hptr.lt hptr.second_le, ok_bind,
      decide_eq_false (by omega : ¬ stop < k)]
    simp only [Bool.not_false, Bool.and_true, if_true]
    rw [h.erase hptr.tail hk hkstop (fun k' hk' => (hks k' (List.mem_cons_of_mem k hk')).2) hg hts,
      ok_bind]

end Erase

end Veridie.Xml
