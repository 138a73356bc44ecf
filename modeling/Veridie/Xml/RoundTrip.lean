/-
  File:      Veridie/Xml/RoundTrip.lean
  Subject:   The parser undoes the printer: for any nesting of elements and any order in which the
             attributes are walked.

  * `Element.pieces` -- the tags and contents a printed element consists of;
  * `Element.Clean` -- names, attributes and contents that survive printing;
  * `Element.readBack` -- what is read back of an element: the same names, contents and children,
    and the attributes in the order they were written;
  * `buildLoop_element` -- behind the pieces of an element the builder has hung it under the top of
    its stack;
  * `parseString_toText` -- the whole parse.
-/
import Veridie.Xml.Cutting

namespace Veridie.Xml

open Veridie.Lib

/-! ## 1. Printed elements as pieces -/

/-- The inside of a printed tag. -/
def tagInner (name : Str) (l : List (Str × Str)) (tail : Str) : Str :=
  name ++ (l.flatMap attrText ++ tail)

mutual

/-- The tags and contents of a printed element. -/
def Element.pieces (ord : AttrOrder) : Element → List Piece
  | .mk name content attrs children =>
    if content.isEmpty && children.isEmpty then
      [.tag (tagInner name (ord.walk attrs.elems) " /".toList)]
    else
      .tag (tagInner name (ord.walk attrs.elems) []) ::
        ((if content.isEmpty then [] else [.text (insertEntityRef content)]) ++
          (childrenPieces ord children ++ [.tag ('/' :: name)]))

def childrenPieces (ord : AttrOrder) : List Element → List Piece
  | [] => []
  | c :: cs => c.pieces ord ++ childrenPieces ord cs

end

theorem pieceText_append (ps qs : List Piece) :
    pieceText (ps ++ qs) = pieceText ps ++ pieceText qs := List.flatMap_append

theorem insertEntityRef_nil : insertEntityRef [] = [] := by
  rw [insertEntityRef_eq]
  rfl

mutual

theorem toText_eq (ord : AttrOrder) : ∀ e : Element, e.toText ord = pieceText (e.pieces ord)
  | .mk name content attrs children => by
      have ih := childrenText_eq ord children
      unfold Element.toText Element.pieces
      by_cases h : (content.isEmpty && children.isEmpty) = true
      · rw [if_pos h, if_pos h]
        simp [pieceText, Piece.chars, tagInner]
      · rw [if_neg h, if_neg h, ih]
        cases content with
        | nil => simp [pieceText, Piece.chars, tagInner, insertEntityRef_nil]
        | cons c w => simp [pieceText, Piece.chars, tagInner]

theorem childrenText_eq (ord : AttrOrder) : ∀ cs : List Element,
    childrenText ord cs = pieceText (childrenPieces ord cs)
  | [] => rfl
  | c :: cs => by
      unfold childrenText childrenPieces
      rw [pieceText_append, toText_eq ord c, childrenText_eq ord cs]

end

/-! ## 2. Clean elements -/

/-- A tag that the parser can read back. -/
structure CleanTag (name : Str) (l : List (Str × Str)) : Prop where
  ne_nil : name ≠ []
  head : name.head? ≠ some '!'
  ends : CleanName name
  unmarked : Unmarked name
  attrs : ∀ a ∈ l, CleanAttr a ∧ Unmarked a.1 ∧ Unmarked a.2

/-- A content that the parser can read back: empty, or with a character that is no whitespace. -/
def CleanContent (content : Str) : Prop :=
  nul ∉ content ∧ (content = [] ∨ ∃ c ∈ content, isSpace c = false)

mutual

/-- An element that the parser can read back. -/
def Element.Clean : Element → Prop
  | .mk name content attrs children =>
    CleanTag name attrs.elems ∧ CleanContent content ∧ ChildrenClean children

def ChildrenClean : List Element → Prop
  | [] => True
  | c :: cs => c.Clean ∧ ChildrenClean cs

end

theorem CleanTag.walk {name : Str} {l : List (Str × Str)} (h : CleanTag name l)
    (ord : AttrOrder) : CleanTag name (ord.walk l) :=
  ⟨h.ne_nil, h.head, h.ends, h.unmarked, fun a ha => h.attrs a ((ord.perm l).mem_iff.mp ha)⟩

theorem unmarked_of_notMem {w : Str} (h1 : '<' ∉ w) (h2 : '>' ∉ w) (h3 : nul ∉ w) : Unmarked w :=
  fun _ hc => ⟨fun e => h1 (e ▸ hc), fun e => h2 (e ▸ hc), fun e => h3 (e ▸ hc)⟩

theorem unmarked_attrText {a : Str × Str} (h1 : Unmarked a.1) (h2 : Unmarked a.2) :
    Unmarked (attrText a) := by
  have lit : ∀ w : Str, '<' ∉ w ∧ '>' ∉ w ∧ nul ∉ w → Unmarked w := fun w h =>
    unmarked_of_notMem h.1 h.2.1 h.2.2
  unfold attrText
  exact ((((lit _ (by decide)).append h1).append (lit _ (by decide))).append h2).append
    (lit _ (by decide))

theorem unmarked_tagInner {name tail : Str} {l : List (Str × Str)} (h : CleanTag name l)
    (ht : Unmarked tail) : Unmarked (tagInner name l tail) := by
  refine h.unmarked.append (Unmarked.append (fun c hc => ?_) ht)
  obtain ⟨a, ha, hca⟩ := List.mem_flatMap.mp hc
  obtain ⟨_, hk, hv⟩ := h.attrs a ha
  exact unmarked_attrText hk hv c hca

theorem CleanTag.head?_tagInner {name : Str} {l : List (Str × Str)} (h : CleanTag name l)
    (tail : Str) : (tagInner name l tail).head? = name.head? := by
  cases hn : name with
  | nil => exact absurd hn h.ne_nil
  | cons c w => rfl

theorem CleanTag.head_ne_slash {name : Str} {l : List (Str × Str)} (h : CleanTag name l) :
    name.head? ≠ some '/' := by
  intro e
  have := h.ends '/' (List.mem_of_head? e)
  exact absurd this (by decide)

theorem cleanTag_clean {name : Str} (tail : Str) {l : List (Str × Str)} (h : CleanTag name l)
    (ht : Unmarked tail) : (Piece.tag (tagInner name l tail)).Clean := by
  refine ⟨unmarked_tagInner h ht, ?_⟩
  rw [h.head?_tagInner]
  exact h.head

theorem cleanTag_close {name : Str} {l : List (Str × Str)} (h : CleanTag name l) :
    (Piece.tag ('/' :: name)).Clean := by
  refine ⟨fun c hc => ?_, fun e => absurd (Option.some.inj e) (by decide)⟩
  rcases List.mem_cons.mp hc with rfl | hc
  · decide
  · exact h.unmarked c hc

/-- What a character becomes holds no markup, and is whitespace only where the character is. -/
theorem escapeChar_spec {c : Char} (hc : c ≠ nul) :
    Unmarked (escapeChar c) ∧ (isSpace c = false → ∃ d ∈ escapeChar c, isSpace d = false) := by
  have lit : ∀ w : Str, ('<' ∉ w ∧ '>' ∉ w ∧ nul ∉ w) ∧ '&' ∈ w →
      Unmarked w ∧ (isSpace c = false → ∃ d ∈ w, isSpace d = false) := fun w h =>
    ⟨unmarked_of_notMem h.1.1 h.1.2.1 h.1.2.2, fun _ => ⟨'&', h.2, by decide⟩⟩
  unfold escapeChar
  rcases entityRef_cases c with ⟨hr, _⟩ | ⟨hr, _⟩ | ⟨hr, _⟩ | ⟨hr, _⟩ | ⟨hr, _⟩ | ⟨hr, _, h1, h2, _⟩
  case inr.inr.inr.inr.inr =>
    rw [hr, Option.getD_none]
    refine ⟨fun d hd => ?_, fun hs => ⟨c, List.mem_singleton.mpr rfl, hs⟩⟩
    rw [List.mem_singleton.mp hd]
    exact ⟨h1, h2, hc⟩
  all_goals
    rw [hr, Option.getD_some]
    exact lit _ (by decide)

theorem insertEntityRef_clean {content : Str} (h : CleanContent content) (hne : content ≠ []) :
    (Piece.text (insertEntityRef content)).Clean := by
  obtain ⟨hn, hs⟩ := h
  have hnul : ∀ c ∈ content, c ≠ nul := fun c hc e => hn (e ▸ hc)
  obtain ⟨c, hc, hsp⟩ := hs.resolve_left hne
  rw [insertEntityRef_eq]
  refine ⟨fun d hd => ?_, ?_⟩
  · obtain ⟨x, hx, hdx⟩ := List.mem_flatMap.mp hd
    exact (escapeChar_spec (hnul x hx)).1 d hdx
  · obtain ⟨d, hd, hds⟩ := (escapeChar_spec (hnul c hc)).2 hsp
    exact ⟨d, List.mem_flatMap.mpr ⟨c, hc, hd⟩, hds⟩

mutual

/-- The pieces of an element fit in front of everything that may stand behind a tag. -/
theorem fits_element (ord : AttrOrder) : ∀ (e : Element) {b : Bool} {rest : List Piece},
    Fits true rest → Fits b (e.pieces ord ++ rest)
  | .mk name content attrs children, b, rest, hr => by
      have hclose : ∀ b', Fits b' (childrenPieces ord children ++ (.tag ('/' :: name) :: rest)) :=
        fun b' => fits_children ord children hr
      unfold Element.pieces
      split
      · exact hr
      · rw [List.cons_append, List.append_assoc, List.append_assoc]
        split
        · exact hclose true
        · exact ⟨rfl, hclose false⟩

theorem fits_children (ord : AttrOrder) : ∀ (cs : List Element) {b : Bool} {inner : Str}
    {rest : List Piece}, Fits true rest → Fits b (childrenPieces ord cs ++ (.tag inner :: rest))
  | [], _, _, _, hr => hr
  | c :: cs, _, _, _, hr => by
      unfold childrenPieces
      rw [List.append_assoc]
      exact fits_element ord c (fits_children ord cs hr)

end

mutual

theorem pieces_clean (ord : AttrOrder) : ∀ {e : Element}, e.Clean → ∀ x ∈ e.pieces ord, x.Clean
  | .mk name content attrs children, ⟨ht, hc, hcs⟩, x, hx => by
      have htag := ht.walk ord
      unfold Element.pieces at hx
      split at hx
      · rw [List.mem_singleton.mp hx]
        exact cleanTag_clean _ htag (unmarked_of_notMem (by decide) (by decide) (by decide))
      · rcases List.mem_cons.mp hx with rfl | hx
        · exact cleanTag_clean _ htag fun _ h => absurd h List.not_mem_nil
        rcases List.mem_append.mp hx with hx | hx
        · cases content with
          | nil => exact absurd hx List.not_mem_nil
          | cons c w =>
            rw [List.mem_singleton.mp hx]
            exact insertEntityRef_clean hc (List.cons_ne_nil c w)
        rcases List.mem_append.mp hx with hx | hx
        · exact childrenPieces_clean ord hcs x hx
        · rw [List.mem_singleton.mp hx]
          exact cleanTag_close ht

theorem childrenPieces_clean (ord : AttrOrder) : ∀ {cs : List Element}, ChildrenClean cs →
    ∀ x ∈ childrenPieces ord cs, x.Clean
  | [], _, _, hx => absurd hx List.not_mem_nil
  | c :: cs, ⟨hc, hcs⟩, x, hx => by
      unfold childrenPieces at hx
      rcases List.mem_append.mp hx with hx | hx
      · exact pieces_clean ord hc x hx
      · exact childrenPieces_clean ord hcs x hx

end

/-! ## 3. What is read back -/

/-- What becomes of a content that was appended to an empty one. -/
def readContent (replaceEr : Bool) (content : Str) : Str :=
  if replaceEr then substituteEntityRef (insertEntityRef content) else insertEntityRef content

mutual

/-- The element the parser builds from a printed one. -/
def Element.readBack (ord : AttrOrder) (replaceEr : Bool) : Element → Element
  | .mk name content attrs children =>
    .mk name (readContent replaceEr content) (readAttrs (ord.walk attrs.elems))
      (readChildren ord replaceEr children)

def readChildren (ord : AttrOrder) (replaceEr : Bool) : List Element → List Element
  | [] => []
  | c :: cs => c.readBack ord replaceEr :: readChildren ord replaceEr cs

end

theorem readContent_nil (replaceEr : Bool) : readContent replaceEr [] = [] := by
  unfold readContent
  rw [insertEntityRef_nil]
  cases replaceEr <;> rfl

theorem mem_elems_foldl_insert : ∀ {l : List (Str × Str)} {acc : Attrs},
    (l.map Prod.fst).Nodup → (∀ a ∈ l, a.1 ∉ acc.keys) → ∀ a : Str × Str,
    a ∈ (l.foldl KeySet.insert acc).elems ↔ a ∈ l ∨ a ∈ acc.elems
  | [], acc, _, _, a => by simp
  | x :: l, acc, hnd, hnot, a => by
      obtain ⟨hx, hnd⟩ := List.nodup_cons.mp hnd
      have hin : (acc.insert x).elems = x :: acc.elems :=
        KeySet.elems_insert_of_notMem (hnot x List.mem_cons_self)
      have hfresh : ∀ b ∈ l, b.1 ∉ (acc.insert x).keys := by
        intro b hb hk
        rcases KeySet.mem_keys_insert.mp hk with e | hk
        · exact hx (e ▸ List.mem_map_of_mem hb)
        · exact hnot b (List.mem_cons_of_mem x hb) hk
      rw [List.foldl_cons, mem_elems_foldl_insert hnd hfresh, hin, List.mem_cons, List.mem_cons]
      tauto

/-- **No attribute is lost or altered**, in whatever order they were written. -/
theorem find?_readAttrs (ord : AttrOrder) (attrs : Attrs) (key : Str) :
    (readAttrs (ord.walk attrs.elems)).find? key = attrs.find? key := by
  have hnd : ((ord.walk attrs.elems).map Prod.fst).Nodup :=
    ((ord.perm attrs.elems).map Prod.fst).nodup_iff.mpr attrs.nodup
  have hmem : ∀ a, a ∈ (readAttrs (ord.walk attrs.elems)).elems ↔ a ∈ attrs.elems := by
    intro a
    rw [readAttrs, mem_elems_foldl_insert hnd (fun _ _ => List.not_mem_nil)]
    rw [(ord.perm attrs.elems).mem_iff]
    simp
  apply Option.ext
  intro a
  rw [KeySet.find?_some, KeySet.find?_some, hmem]

/-! ## 4. The builder on the pieces of an element -/

section Build

variable {s : Str} {replaceEr : Bool}

theorem tagKind_inner {name tail : Str} {l : List (Str × Str)} (h : CleanTag name l) :
    tagKind (tagInner name l tail) =
      if (tagInner name l tail).getLast? = some '/' then .openClose else .opening := by
  unfold tagKind
  rw [h.head?_tagInner, if_neg h.head_ne_slash]

theorem tagKind_opening {name : Str} {l : List (Str × Str)} (h : CleanTag name l) :
    tagKind (tagInner name l []) = .opening := by
  rw [tagKind_inner h, if_neg]
  unfold tagInner
  rw [List.append_nil]
  rcases List.eq_nil_or_concat l with rfl | ⟨l, a, rfl⟩
  · rw [List.flatMap_nil, List.append_nil]
    intro e
    exact absurd (h.ends '/' (List.mem_of_getLast? e)) (by decide)
  · have hlast : name ++ (l.concat a).flatMap attrText =
        (name ++ l.flatMap attrText ++ (" ".toList ++ a.1 ++ "=\"".toList ++ a.2)) ++ ['"'] := by
      simp [attrText]
    rw [hlast, List.getLast?_concat]
    decide

theorem tagKind_openClose {name : Str} {l : List (Str × Str)} (h : CleanTag name l) :
    tagKind (tagInner name l " /".toList) = .openClose := by
  rw [tagKind_inner h, if_pos]
  unfold tagInner
  rw [← List.append_assoc]
  simp

theorem tagKind_closing (name : Str) : tagKind ('/' :: name) = .closing := rfl

/-- The element of a printed tag. -/
theorem newFrame_tag {b e : Nat} {name tail : Str} {l : List (Str × Str)} (hbe : b < e)
    (he : e ≤ s.length) (h : CleanTag name l) (ht : tail = [] ∨ tail = " /".toList)
    (hs : slice s b e = (Piece.tag (tagInner name l tail)).chars) :
    newFrame s b e = .ok ⟨name, [], readAttrs l, []⟩ := by
  have hchars : (Piece.tag (tagInner name l tail)).chars =
      '<' :: (name ++ (l.flatMap attrText ++ (tail ++ ">".toList))) := by
    simp [Piece.chars, tagInner]
  have hend : ∃ rest, tail ++ ">".toList = ">".toList ++ rest ∨
      tail ++ ">".toList = ' ' :: rest := by
    rcases ht with rfl | rfl
    · exact ⟨[], Or.inl rfl⟩
    · exact ⟨"/>".toList, Or.inr rfl⟩
  have halpha : ∀ c ∈ tail ++ ">".toList, isAlpha c = false := by
    intro c hc
    rcases ht with rfl | rfl
    · rw [List.mem_singleton.mp hc]
      rfl
    · have hends : c = ' ' ∨ c = '/' ∨ c = '>' := by simpa using hc
      rcases hends with rfl | rfl | rfl <;> rfl
  have hattrs := attrsOf_tag h.ends (fun a ha => (h.attrs a ha).1) hend halpha
  rw [← hchars, ← hs] at hattrs
  unfold newFrame
  rw [extractName_eq hbe he, ok_bind, extractAttributes_some (Nat.le_of_lt hbe) he hattrs, ok_bind,
    hs, hchars, nameOf_tag h.ends hend]

variable {ts : List Nat} {rest : List Piece} {top parent : Frame} {below : List Frame}

/-- One round of the loop, on a stack that is not empty. -/
theorem buildLoop_cons {l r : Nat} {t : Tree} (ht : t.stack ≠ []) :
    buildLoop s replaceEr t (l :: r :: ts) = (do
      let t ← buildStep s replaceEr t l r
      match t with
      | some t => buildLoop s replaceEr t (r :: ts)
      | none => .ok none) := by
  conv_lhs => unfold buildLoop
  exact if_neg (by simpa using ht)

theorem buildLoop_opening {name : Str} {l : List (Str × Str)} (h : CleanTag name l)
    (hr : Reads s ts (.tag (tagInner name l []) :: rest)) :
    ∃ ts', Reads s ts' rest ∧ buildLoop s replaceEr ⟨top :: below, none⟩ ts =
      buildLoop s replaceEr ⟨⟨name, [], readAttrs l, []⟩ :: top :: below, none⟩ ts' := by
  obtain ⟨b, e, ts, rfl, hbe, he, hs, hr⟩ := hr.uncons
  refine ⟨e :: ts, hr, ?_⟩
  have hclean := cleanTag_clean [] h fun _ hc => absurd hc List.not_mem_nil
  rw [buildLoop_cons (List.cons_ne_nil _ _)]
  unfold buildStep
  rw [determineToken_tag hbe he hs hclean, tagKind_opening h]
  simp only [ok_bind, newFrame_tag hbe he h (Or.inl rfl) hs, Tree.push]

theorem buildLoop_openClose {name : Str} {l : List (Str × Str)} (h : CleanTag name l)
    (hr : Reads s ts (.tag (tagInner name l " /".toList) :: rest)) :
    ∃ ts', Reads s ts' rest ∧ buildLoop s replaceEr ⟨top :: below, none⟩ ts =
      buildLoop s replaceEr ⟨top.add (.mk name [] (readAttrs l) []) :: below, none⟩ ts' := by
  obtain ⟨b, e, ts, rfl, hbe, he, hs, hr⟩ := hr.uncons
  refine ⟨e :: ts, hr, ?_⟩
  have hclean := cleanTag_clean " /".toList h
    (unmarked_of_notMem (by decide) (by decide) (by decide))
  rw [buildLoop_cons (List.cons_ne_nil _ _)]
  unfold buildStep
  rw [determineToken_tag hbe he hs hclean, tagKind_openClose h]
  simp only [ok_bind, newFrame_tag hbe he h (Or.inr rfl) hs, Tree.push, Tree.pop, Frame.close]

theorem buildLoop_text {content : Str} (h : CleanContent content) (hne : content ≠ [])
    (htop : top.content = []) (hr : Reads s ts (.text (insertEntityRef content) :: rest)) :
    ∃ ts', Reads s ts' rest ∧ buildLoop s replaceEr ⟨top :: below, none⟩ ts =
      buildLoop s replaceEr ⟨{ top with content := readContent replaceEr content } :: below, none⟩
        ts' := by
  obtain ⟨b, e, ts, rfl, hbe, he, hs, hr⟩ := hr.uncons
  refine ⟨e :: ts, hr, ?_⟩
  rw [buildLoop_cons (List.cons_ne_nil _ _)]
  unfold buildStep
  rw [determineToken_text he hs (insertEntityRef_clean h hne)]
  simp only [ok_bind, Tree.append, htop, List.nil_append, hs, Piece.chars, readContent]

theorem buildLoop_closing {name : Str} (h : (Piece.tag ('/' :: name)).Clean)
    (hr : Reads s ts (.tag ('/' :: name) :: rest)) :
    ∃ ts', Reads s ts' rest ∧ buildLoop s replaceEr ⟨top :: parent :: below, none⟩ ts =
      buildLoop s replaceEr ⟨parent.add top.close :: below, none⟩ ts' := by
  obtain ⟨b, e, ts, rfl, hbe, he, hs, hr⟩ := hr.uncons
  refine ⟨e :: ts, hr, ?_⟩
  rw [buildLoop_cons (List.cons_ne_nil _ _)]
  unfold buildStep
  rw [determineToken_tag hbe he hs h, tagKind_closing]
  simp only [ok_bind, Tree.pop]

theorem buildLoop_closing_root {name : Str} (h : (Piece.tag ('/' :: name)).Clean)
    (hr : Reads s ts (.tag ('/' :: name) :: [])) :
    buildLoop s replaceEr ⟨[top], none⟩ ts = .ok (some ⟨[], some top.close⟩) := by
  obtain ⟨b, e, ts, rfl, hbe, he, hs, hr⟩ := hr.uncons
  rw [buildLoop_cons (List.cons_ne_nil _ _)]
  unfold buildStep
  rw [determineToken_tag hbe he hs h, tagKind_closing]
  simp only [ok_bind, Tree.pop]
  cases ts <;> rfl

/-- The content of an opened element. -/
theorem buildLoop_content (top : Frame) {content : Str} (h : CleanContent content) (htop : top.content = [])
    (hr : Reads s ts ((if content.isEmpty then [] else [.text (insertEntityRef content)]) ++ rest)) :
    ∃ ts', Reads s ts' rest ∧ buildLoop s replaceEr ⟨top :: below, none⟩ ts =
      buildLoop s replaceEr ⟨{ top with content := readContent replaceEr content } :: below, none⟩
        ts' := by
  cases content with
  | nil =>
    refine ⟨ts, hr, ?_⟩
    rw [readContent_nil, ← htop]
  | cons c w => exact buildLoop_text h (List.cons_ne_nil c w) htop hr

mutual

/-- **Behind the pieces of an element it hangs under the top of the stack.** -/
theorem buildLoop_element (ord : AttrOrder) : ∀ {e : Element} {ts : List Nat} {rest : List Piece}
    {top : Frame} {below : List Frame}, e.Clean → Reads s ts (e.pieces ord ++ rest) →
    ∃ ts', Reads s ts' rest ∧ buildLoop s replaceEr ⟨top :: below, none⟩ ts =
      buildLoop s replaceEr ⟨top.add (e.readBack ord replaceEr) :: below, none⟩ ts'
  | .mk name content attrs children, ts, rest, top, below, ⟨ht, hc, hcs⟩, hr => by
      have htag := ht.walk ord
      unfold Element.readBack
      unfold Element.pieces at hr
      split at hr
      · rename_i hempty
        rw [Bool.and_eq_true, List.isEmpty_iff, List.isEmpty_iff] at hempty
        obtain ⟨rfl, rfl⟩ := hempty
        rw [readContent_nil]
        exact buildLoop_openClose htag hr
      · rw [List.cons_append, List.append_assoc, List.append_assoc] at hr
        obtain ⟨ts1, hr1, h1⟩ := buildLoop_opening htag hr
        obtain ⟨ts2, hr2, h2⟩ := buildLoop_content
          ⟨name, [], readAttrs (ord.walk attrs.elems), []⟩ hc rfl hr1
        obtain ⟨ts3, hr3, h3⟩ := buildLoop_children ord hcs hr2
        obtain ⟨ts4, hr4, h4⟩ := buildLoop_closing (cleanTag_close ht) hr3
        exact ⟨ts4, hr4, h1.trans (h2.trans (h3.trans h4))⟩

theorem buildLoop_children (ord : AttrOrder) : ∀ {cs : List Element} {ts : List Nat}
    {rest : List Piece} {top : Frame} {below : List Frame}, ChildrenClean cs →
    Reads s ts (childrenPieces ord cs ++ rest) →
    ∃ ts', Reads s ts' rest ∧ buildLoop s replaceEr ⟨top :: below, none⟩ ts =
      buildLoop s replaceEr
        ⟨{ top with children := top.children ++ readChildren ord replaceEr cs } :: below, none⟩ ts'
  | [], ts, rest, top, below, _, hr => by
      refine ⟨ts, hr, ?_⟩
      rw [readChildren, List.append_nil]
  | c :: cs, ts, rest, top, below, ⟨hc, hcs⟩, hr => by
      unfold childrenPieces at hr
      rw [List.append_assoc] at hr
      obtain ⟨ts1, hr1, h1⟩ := buildLoop_element ord hc hr
      obtain ⟨ts2, hr2, h2⟩ := buildLoop_children ord hcs hr1
      refine ⟨ts2, hr2, h1.trans (h2.trans ?_)⟩
      simp [Frame.add, readChildren]

end

end Build

/-! ## 5. The whole parse -/

/-- **The tree builder reads a printed root back.** -/
theorem buildElementTree_toText (ord : AttrOrder) {replaceEr : Bool} {s : Str} {ts : List Nat}
    {root : Element} (hroot : root.Clean) (hr : Reads s ts (root.pieces ord)) :
    buildElementTree s replaceEr ts = .ok (some (root.readBack ord replaceEr)) := by
  obtain ⟨name, content, attrs, children⟩ := root
  obtain ⟨ht, hc, hcs⟩ := hroot
  have htag := ht.walk ord
  unfold Element.readBack
  unfold Element.pieces at hr
  split at hr
  · rename_i hempty
    rw [Bool.and_eq_true, List.isEmpty_iff, List.isEmpty_iff] at hempty
    obtain ⟨rfl, rfl⟩ := hempty
    obtain ⟨b, e, ts, rfl, hbe, he, hs, hr⟩ := hr.uncons
    cases ts with
    | cons p ts => exact absurd hr (by simp [Reads])
    | nil =>
      rw [buildElementTree, newFrame_tag hbe he htag (Or.inr rfl) hs, readContent_nil]
      rfl
  · obtain ⟨b, e, ts, rfl, hbe, he, hs, hr⟩ := hr.uncons
    obtain ⟨ts2, hr2, h2⟩ := buildLoop_content
      ⟨name, [], readAttrs (ord.walk attrs.elems), []⟩ hc rfl hr
    obtain ⟨ts3, hr3, h3⟩ := buildLoop_children ord hcs hr2
    rw [buildElementTree, newFrame_tag hbe he htag (Or.inl rfl) hs, ok_bind, h2, h3,
      buildLoop_closing_root (cleanTag_close ht) hr3, ok_bind]
    rfl

/-- The first piece of an element is a tag with its name in front. -/
theorem pieces_eq_tag (ord : AttrOrder) {root : Element} (h : root.Clean) :
    ∃ inner rest, root.pieces ord = .tag inner :: rest ∧ inner.head? = root.name.head? ∧
      tagKind inner ≠ .comment ∧ inner ≠ [] := by
  obtain ⟨name, content, attrs, children⟩ := root
  obtain ⟨ht, _, _⟩ := h
  have htag := ht.walk ord
  have hne : ∀ tail, tagInner name (ord.walk attrs.elems) tail ≠ [] := fun tail e =>
    ht.ne_nil (List.append_eq_nil_iff.mp e).1
  unfold Element.pieces
  split
  · refine ⟨_, _, rfl, htag.head?_tagInner _, ?_, hne _⟩
    rw [tagKind_openClose htag]
    decide
  · refine ⟨_, _, rfl, htag.head?_tagInner _, ?_, hne _⟩
    rw [tagKind_opening htag]
    decide

/-- **The parser undoes the printer** on a document without a declaration. -/
theorem parseString_toText (ord : AttrOrder) (replaceEr : Bool) {root : Element}
    (hroot : root.Clean) (hhead : root.name.head? ≠ some '?') :
    parseString (root.toText ord) replaceEr =
      .ok ⟨root.readBack ord replaceEr, [], [], []⟩ := by
  obtain ⟨inner, rest, hp, hh, hk, hne⟩ := pieces_eq_tag ord hroot
  have hclean := pieces_clean ord hroot
  have hfits : Fits true (root.pieces ord ++ []) := fits_element ord root True.intro
  rw [List.append_nil, hp] at hfits
  rw [hp] at hclean
  obtain ⟨ts, hpass, hr⟩ := passes_pieces (show Fits true rest from hfits) hclean
  have htree : buildElementTree (pieceText (.tag inner :: rest)) replaceEr ts =
      .ok (some (root.readBack ord replaceEr)) :=
    buildElementTree_toText ord hroot (by rw [hp]; exact hr)
  obtain ⟨b, e, ts, rfl, hbe, he, hs, _⟩ := hr.uncons
  rw [toText_eq, hp]
  generalize pieceText (.tag inner :: rest) = s at *
  have h0 : charAt s b = .ok '<' := charAt_slice (i := 0) he (by rw [hs]; rfl)
  obtain ⟨c, hc, hcq⟩ : ∃ c, charAt s (b + 1) = .ok c ∧ c ≠ '?' := by
    cases inner with
    | nil => exact absurd rfl hne
    | cons c w =>
      refine ⟨c, charAt_slice (i := 1) he (by rw [hs]; rfl), fun e => hhead ?_⟩
      rw [← hh, e]
      rfl
  unfold parseString
  rw [hpass, ok_bind]
  unfold removeLeadingComments
  rw [determineToken_tag hbe he hs (hclean _ List.mem_cons_self), ok_bind, if_neg hk, ok_bind]
  rw [documentOfTokens, h0, ok_bind, if_neg (not_not.mpr rfl), hc, ok_bind, if_neg hcq]
  unfold documentOf
  rw [htree, ok_bind]
  rfl

end Veridie.Xml
