/-
  File:      Veridie/Xml/Pieces.lean
  Subject:   Texts that are a sequence of tags and contents, and how `DetermineToken` tells them
             apart.

  * `Piece`, `Piece.Clean`, `Fits` -- a tag or a content; what may stand inside; no two contents
    side by side;
  * `tokenizeLoop_skip` -- no pointer is pushed inside a text without markup;
  * `Reads s ts ps` -- the tokens between the pointers `ts` are the pieces `ps`;
  * `determineToken_tag`, `determineToken_text` -- the kinds of the pieces.
-/
import Veridie.Xml.Attributes

namespace Veridie.Xml

/-! ## 1. Pieces -/

/-- A token of a well-formed text. -/
inductive Piece where
  | tag (inner : Str)
  | text (content : Str)

/-- The characters of a piece. -/
def Piece.chars : Piece → Str
  | tag inner => '<' :: (inner ++ ['>'])
  | text content => content

/-- A text without markup. -/
def Unmarked (w : Str) : Prop := ∀ c ∈ w, c ≠ '<' ∧ c ≠ '>' ∧ c ≠ nul

/-- No piece holds markup inside, no tag is a comment and no content is whitespace only. -/
def Piece.Clean : Piece → Prop
  | tag inner => Unmarked inner ∧ inner.head? ≠ some '!'
  | text content => Unmarked content ∧ ∃ c ∈ content, isSpace c = false

/-- The text of a sequence of pieces. -/
def pieceText (ps : List Piece) : Str := ps.flatMap Piece.chars

/-- A content only stands behind a tag; `b` tells whether one stands before. -/
def Fits : Bool → List Piece → Prop
  | _, [] => True
  | _, .tag _ :: ps => Fits true ps
  | b, .text _ :: ps => b = true ∧ Fits false ps

theorem Unmarked.append {v w : Str} (hv : Unmarked v) (hw : Unmarked w) : Unmarked (v ++ w) :=
  fun c hc => (List.mem_append.mp hc).elim (hv c) (hw c)

/-! ## 2. `Tokenize` on a text without markup -/

/-- Inside a text without markup nothing is pushed. -/
theorem tokenizeLoop_skip : ∀ {w : Str} {prev : Char} (pit : Nat) (rest : Str), Unmarked w →
    prev ≠ '>' → ∃ last, last ≠ '>' ∧
      tokenizeLoop prev pit (w ++ rest) = tokenizeLoop last (pit + w.length) rest
  | [], prev, pit, rest, _, hp => ⟨prev, hp, rfl⟩
  | c :: w, prev, pit, rest, hw, hp => by
      obtain ⟨h1, h2, h3⟩ := hw c List.mem_cons_self
      obtain ⟨last, hl, he⟩ := tokenizeLoop_skip (pit + 1) rest
        (fun d hd => hw d (List.mem_cons_of_mem c hd)) h2
      refine ⟨last, hl, ?_⟩
      rw [List.cons_append, tokenizeLoop, if_neg h3, if_neg h1, if_neg hp, he, List.length_cons,
        Nat.add_assoc, Nat.add_comm 1]

theorem tokenizeLoop_inner {inner : Str} {prev : Char} {pit : Nat} (rest : Str)
    (h : Unmarked inner) (hp : prev ≠ '>') :
    tokenizeLoop prev pit (inner ++ '>' :: rest) =
      tokenizeLoop '>' (pit + (inner.length + 1)) rest := by
  obtain ⟨last, hl, he⟩ := tokenizeLoop_skip pit ('>' :: rest) h hp
  rw [he, tokenizeLoop, if_neg (by decide), if_neg (by decide), if_neg hl, Nat.add_assoc]

/-! ## 3. Tokens as pieces -/

/-- The tokens between the pointers are the pieces. -/
def Reads (s : Str) : List Nat → List Piece → Prop
  | [_], [] => True
  | l :: r :: ts, x :: ps => l < r ∧ r ≤ s.length ∧ slice s l r = x.chars ∧ Reads s (r :: ts) ps
  | _, _ => False

theorem Reads.uncons {s : Str} {ts : List Nat} {x : Piece} {ps : List Piece}
    (h : Reads s ts (x :: ps)) : ∃ l r rest, ts = l :: r :: rest ∧ l < r ∧ r ≤ s.length ∧
      slice s l r = x.chars ∧ Reads s (r :: rest) ps := by
  match ts, h with
  | l :: r :: rest, ⟨h1, h2, h3, h4⟩ => exact ⟨l, r, rest, rfl, h1, h2, h3, h4⟩

/-! ## 4. `DetermineToken` on pieces -/

/-- The kind of a tag. -/
def tagKind (inner : Str) : Token :=
  if inner.head? = some '/' then .closing
  else if inner.getLast? = some '/' then .openClose
  else .opening

theorem charAt_slice {s : Str} {b e i : Nat} {c : Char} (he : e ≤ s.length)
    (h : (slice s b e)[i]? = some c) : charAt s (b + i) = .ok c := by
  have hi : i < (slice s b e).length := (List.getElem?_eq_some_iff.mp h).1
  rw [length_slice he] at hi
  unfold slice at h
  rw [List.getElem?_take_of_lt hi, List.getElem?_drop] at h
  unfold charAt
  rw [h]

theorem determineToken_text {s : Str} {b e : Nat} {content : Str} (he : e ≤ s.length)
    (hs : slice s b e = content) (hc : (Piece.text content).Clean) :
    determineToken s b e = .ok .content := by
  obtain ⟨hu, d, hd, _⟩ := hc
  cases content with
  | nil => exact absurd hd List.not_mem_nil
  | cons c w =>
    have hget : charAt s b = .ok c := charAt_slice (i := 0) he (by rw [hs]; rfl)
    unfold determineToken
    rw [hget, ok_bind, if_pos (hu c List.mem_cons_self).1]

/-- The first `>` behind a tag's start is its own. -/
theorem findIdx_tag {inner : Str} (more : Str) (hu : Unmarked inner) :
    ('<' :: (inner ++ '>' :: more)).findIdx (· = '>') = inner.length + 1 := by
  rw [List.findIdx_cons, show decide ('<' = '>') = false by decide, cond_false,
    List.findIdx_append, if_neg]
  · simp [List.findIdx_cons]
  · rw [List.findIdx_lt_length]
    rintro ⟨c, hc, h⟩
    exact (hu c hc).2.1 (of_decide_eq_true h)

theorem getD_eq_iff {o : Option Char} {c d : Char} (h : d ≠ c) : o.getD d = c ↔ o = some c := by
  cases o with
  | none => exact ⟨fun e => absurd e h, fun e => nomatch e⟩
  | some x => exact ⟨congrArg some, Option.some.inj⟩

/-- **The kind of a token that starts with a tag**, whatever it goes on with. -/
theorem determineToken_spaced {s : Str} {b e : Nat} {inner more : Str} (hbe : b < e)
    (he : e ≤ s.length) (hs : slice s b e = '<' :: (inner ++ '>' :: more))
    (hc : (Piece.tag inner).Clean) : determineToken s b e = .ok (tagKind inner) := by
  obtain ⟨hu, hne⟩ := hc
  have hlen : e - b = inner.length + 2 + more.length := by
    rw [← length_slice he, hs]
    simp
    omega
  have h0 : charAt s b = .ok '<' := charAt_slice (i := 0) he (by rw [hs]; rfl)
  have h1 : charAt s (b + 1) = .ok (inner.head?.getD '>') := by
    refine charAt_slice he ?_
    rw [hs]
    cases inner with
    | nil => rfl
    | cons c w => rfl
  have hlast : charAt s (b + inner.length) = .ok (inner.getLast?.getD '<') := by
    refine charAt_slice he ?_
    rw [hs]
    rcases List.eq_nil_or_concat inner with rfl | ⟨w, c, rfl⟩
    · rfl
    · simp
  have hcomment : isCommentStart s b = .ok false := by
    have hd : inner.head?.getD '>' ≠ '!' := by
      cases inner with
      | nil => decide
      | cons c w => exact fun h => hne (by rw [← h]; rfl)
    show agrees s b ['<', '!', '-', '-'] = .ok false
    unfold agrees
    rw [h0, ok_bind, if_pos rfl]
    unfold agrees
    rw [h1, ok_bind, if_neg hd]
  unfold determineToken tagKind
  rw [h0, ok_bind, if_neg (not_not.mpr rfl), h1, ok_bind, hcomment, ok_bind,
    findIf_eq (Nat.le_of_lt hbe) he, hs, findIdx_tag more hu, ok_bind]
  rw [show b + (inner.length + 1) - 1 = b + inner.length by omega, hlast, ok_bind]
  rw [if_neg (by omega : ¬ b + (inner.length + 1) = e)]
  simp only [getD_eq_iff (by decide : '>' ≠ '/'), getD_eq_iff (by decide : '<' ≠ '/')]
  by_cases hcl : inner.head? = some '/'
  · rw [if_pos hcl, if_pos hcl]
  · rw [if_neg hcl, if_neg hcl, if_neg (by decide)]
    split <;> rfl

theorem determineToken_tag {s : Str} {b e : Nat} {inner : Str} (hbe : b < e) (he : e ≤ s.length)
    (hs : slice s b e = (Piece.tag inner).chars) (hc : (Piece.tag inner).Clean) :
    determineToken s b e = .ok (tagKind inner) := determineToken_spaced hbe he hs hc

/-- A tag is not taken for a comment. -/
theorem tagKind_ne_comment (inner : Str) : tagKind inner ≠ .comment := by
  unfold tagKind
  split
  · decide
  · split <;> decide

/-- Nothing is removed in front of a tag. -/
theorem removeLeadingComments_tag {s : Str} {ts : List Nat} {inner : Str} {ps : List Piece}
    (hr : Reads s ts (.tag inner :: ps)) (hc : (Piece.tag inner).Clean) :
    removeLeadingComments s ts = .ok ts := by
  obtain ⟨b, e, ts, rfl, hbe, he, hs, _⟩ := hr.uncons
  unfold removeLeadingComments
  rw [determineToken_tag hbe he hs hc, ok_bind, if_neg (tagKind_ne_comment inner)]

end Veridie.Xml
