/-
  File:      Veridie/Xml/Documents.lean
  Subject:   Whole documents read back: contents with entity references, and the declaration.

  * `substituteEntityRef_insertEntityRef` -- the one in-place loop undoes the other;
  * `parseString_declared` -- a declaration in front of the root, with its attributes;
  * `Element.Same` -- names, contents, attributes and children in their order;
  * `Document.Writable` -- the documents that can be written with the API;
  * `parseString_toString` -- what is parsed of a written document is the same document.
-/
import Veridie.Xml.RoundTrip

namespace Veridie.Xml

open Veridie.Lib

/-! ## 1. Entity references -/

/-- Only an ampersand starts a reference. -/
theorem checkEntityRef_plain {c : Char} (rest : Str) (hnul : c ≠ nul) (h : c ≠ '&') :
    entityRefTable.findSome? (checkEntityRef (c :: rest)) = none := by
  simp [entityRefTable, checkEntityRef, matchRef, hnul, Ne.symm h]

/-- A reference is recognised, whatever stands behind it; the shortest one has four characters. -/
theorem checkEntityRef_ref {c : Char} {ref : Str} (rest : Str) (h : entityRef c = some ref) :
    entityRefTable.findSome? (checkEntityRef (ref ++ rest)) = some (c, ref.length) ∧
      4 ≤ ref.length := by
  rcases entityRef_cases c with ⟨hr, rfl⟩ | ⟨hr, rfl⟩ | ⟨hr, rfl⟩ | ⟨hr, rfl⟩ | ⟨hr, rfl⟩ | ⟨hr, _⟩
  case inr.inr.inr.inr.inr =>
    rw [hr] at h
    exact absurd h (by simp)
  all_goals
    rw [hr] at h
    cases h
    exact ⟨rfl, by decide⟩

theorem entityRef_amp {c : Char} (h : entityRef c = none) : c ≠ '&' := by
  rintro rfl
  exact absurd h (by decide)

/-- Three characters or fewer hold no reference. -/
theorem flatMap_escapeChar_short : ∀ {rest : Str}, (rest.flatMap escapeChar).length < 4 →
    rest.flatMap escapeChar = rest
  | [], _ => rfl
  | c :: cs, h => by
      rw [List.flatMap_cons, List.length_append] at h
      rw [List.flatMap_cons, @flatMap_escapeChar_short cs (by omega)]
      cases hr : entityRef c with
      | none => rw [escapeChar, hr, Option.getD_none, List.singleton_append]
      | some ref =>
        have hlength := (checkEntityRef_ref [] hr).2
        rw [escapeChar, hr, Option.getD_some] at h
        omega

/-- The loop stands behind the characters it has replaced; each round takes one more character of
    the text that was escaped. -/
theorem substituteLoop_eq : ∀ (rest done : Str) (n : Nat), nul ∉ rest → rest.length ≤ n →
    substituteLoop n done.length (done ++ rest.flatMap escapeChar) = done ++ rest
  | [], done, n, _, _ => by
      rw [List.flatMap_nil, List.append_nil]
      cases n with
      | zero => rfl
      | succ n => exact if_neg (by omega)
  | c :: cs, done, n + 1, hnul, hn => by
      have hc : c ≠ nul := fun e => hnul (e ▸ List.mem_cons_self)
      have ih : substituteLoop n (done.length + 1) (done ++ c :: cs.flatMap escapeChar) =
          done ++ c :: cs := by
        have h := substituteLoop_eq cs (done ++ [c]) n
          (fun h => hnul (List.mem_cons_of_mem c h)) (Nat.le_of_succ_le_succ hn)
        simpa using h
      unfold substituteLoop
      by_cases hlong : done.length + 3 < (done ++ (c :: cs).flatMap escapeChar).length
      · rw [if_pos hlong, List.drop_left]
        cases hr : entityRef c with
        | none =>
          have hone : (c :: cs).flatMap escapeChar = c :: cs.flatMap escapeChar := by
            rw [List.flatMap_cons, escapeChar, hr, Option.getD_none, List.singleton_append]
          rw [hone, checkEntityRef_plain _ hc (entityRef_amp hr)]
          exact ih
        | some ref =>
          have hone : (c :: cs).flatMap escapeChar = ref ++ cs.flatMap escapeChar := by
            rw [List.flatMap_cons, escapeChar, hr, Option.getD_some]
          rw [hone, (checkEntityRef_ref _ hr).1]
          dsimp only
          rw [List.take_left, List.drop_append, List.drop_of_length_le (by omega),
            Nat.add_sub_cancel_left, List.drop_left, List.nil_append]
          exact ih
      · rw [if_neg hlong]
        rw [List.length_append] at hlong
        rw [flatMap_escapeChar_short (by omega)]

/-- **What was escaped is read back**, for every content without a NUL. -/
theorem substituteEntityRef_insertEntityRef {content : Str} (h : nul ∉ content) :
    substituteEntityRef (insertEntityRef content) = content := by
  have hlength : content.length ≤ (content.flatMap escapeChar).length := by
    rw [List.length_flatMap]
    have hpos : ∀ c : Char, 1 ≤ (escapeChar c).length := fun c => by
      unfold escapeChar
      rcases entityRef_cases c with ⟨hr, _⟩ | ⟨hr, _⟩ | ⟨hr, _⟩ | ⟨hr, _⟩ | ⟨hr, _⟩ | ⟨hr, _⟩ <;>
        rw [hr] <;> exact Nat.succ_le_succ (Nat.zero_le _)
    induction content with
    | nil => exact Nat.zero_le _
    | cons c cs ih =>
      have hrest := ih fun hm => h (List.mem_cons_of_mem c hm)
      have hhead := hpos c
      rw [List.map_cons, List.sum_cons, List.length_cons]
      omega
  unfold substituteEntityRef
  rw [insertEntityRef_eq]
  exact substituteLoop_eq content [] _ h hlength

/-! ## 2. The declaration -/

/-- The attributes of a declaration, as `DECLARATION_ATTRS` orders them. -/
def declAttrs (doc : Document) : List (Str × Str) :=
  [("version".toList, doc.version), ("encoding".toList, doc.encoding),
    ("standalone".toList, doc.standalone)].filter fun a => !a.2.isEmpty

/-- The inside of a declaration. -/
def declInner (decl : List (Str × Str)) : Str := tagInner "?xml".toList decl " ?".toList

theorem declInner_clean {decl : List (Str × Str)} (h : CleanTag "?xml".toList decl) :
    (Piece.tag (declInner decl)).Clean :=
  cleanTag_clean _ h (unmarked_of_notMem (by decide) (by decide) (by decide))

/-- What the constructor reads of a declaration. -/
theorem extractAttributes_decl {s : Str} {b e : Nat} {decl : List (Str × Str)} (hbe : b < e)
    (he : e ≤ s.length) (h : CleanTag "?xml".toList decl)
    (hs : slice s b e = (Piece.tag (declInner decl)).chars) :
    extractAttributes s b e = .ok (readAttrs decl) := by
  have hchars : (Piece.tag (declInner decl)).chars =
      '<' :: ("?xml".toList ++ (decl.flatMap attrText ++ " ?>".toList)) := by
    simp [declInner, Piece.chars, tagInner]
  have halpha : ∀ c ∈ " ?>".toList, isAlpha c = false := by
    intro c hc
    have hends : c = ' ' ∨ c = '?' ∨ c = '>' := by simpa using hc
    rcases hends with rfl | rfl | rfl <;> rfl
  have hend : ∃ rest, " ?>".toList = ">".toList ++ rest ∨ " ?>".toList = ' ' :: rest :=
    ⟨"?>".toList, Or.inr rfl⟩
  have hattrs := attrsOf_tag h.ends (fun a ha => (h.attrs a ha).1) hend halpha
  rw [← hchars, ← hs] at hattrs
  exact extractAttributes_some (Nat.le_of_lt hbe) he hattrs

/-- **A declaration and a printed root** are read back as they were written. -/
theorem parseString_declared (ord : AttrOrder) (replaceEr : Bool) {root : Element}
    {decl : List (Str × Str)} (hroot : root.Clean) (hdecl : CleanTag "?xml".toList decl) :
    parseString (pieceText (.tag (declInner decl) :: root.pieces ord)) replaceEr =
      .ok ⟨root.readBack ord replaceEr, declValue (readAttrs decl) "version",
        declValue (readAttrs decl) "encoding", declValue (readAttrs decl) "standalone"⟩ := by
  obtain ⟨inner, rest, hp, _, _, _⟩ := pieces_eq_tag ord hroot
  have hrootClean := pieces_clean ord hroot
  have hclean : ∀ x ∈ .tag (declInner decl) :: root.pieces ord, x.Clean := fun x hx =>
    (List.mem_cons.mp hx).elim (fun e => e ▸ declInner_clean hdecl) (hrootClean x)
  have hfits : Fits true (root.pieces ord ++ []) := fits_element ord root True.intro
  rw [List.append_nil] at hfits
  obtain ⟨ts, hpass, hr⟩ := passes_pieces hfits hclean
  generalize pieceText (.tag (declInner decl) :: root.pieces ord) = s at *
  have hlead := removeLeadingComments_tag hr (declInner_clean hdecl)
  obtain ⟨b, e, ts, rfl, hbe, he, hs, hr⟩ := hr.uncons
  have htree := @buildElementTree_toText ord replaceEr s _ root hroot hr
  rw [hp] at hr
  have hlead' := removeLeadingComments_tag hr (hrootClean _ (hp ▸ List.mem_cons_self))
  have h0 : charAt s b = .ok '<' := charAt_slice (i := 0) he (by rw [hs]; rfl)
  have h1 : charAt s (b + 1) = .ok '?' := charAt_slice (i := 1) he (by rw [hs]; rfl)
  unfold parseString
  rw [hpass, ok_bind, hlead, ok_bind, documentOfTokens, h0, ok_bind, if_neg (not_not.mpr rfl), h1,
    ok_bind, if_pos rfl, extractAttributes_decl hbe he hdecl hs, ok_bind, hlead', ok_bind]
  unfold documentOf
  rw [htree, ok_bind]

/-- The value of a declaration attribute: the one written, or empty when none was. -/
theorem declValue_readAttrs {decl : List (Str × Str)} {key : String} {value : Str}
    (hnd : (decl.map Prod.fst).Nodup)
    (h : (key.toList, value) ∈ decl ∨ value = [] ∧ ∀ a ∈ decl, a.1 ≠ key.toList) :
    declValue (readAttrs decl) key = value := by
  have hmem : ∀ a, a ∈ (readAttrs decl).elems ↔ a ∈ decl := fun a => by
    rw [readAttrs, mem_elems_foldl_insert hnd fun _ _ => List.not_mem_nil]
    simp
  unfold declValue
  rcases h with hin | ⟨rfl, hout⟩
  · rw [KeySet.find?_some.mpr ⟨(hmem _).mpr hin, rfl⟩]
  · cases hf : (readAttrs decl).find? key.toList with
    | none => rfl
    | some a =>
      obtain ⟨ha, hk⟩ := KeySet.find?_some.mp hf
      exact absurd hk (hout a ((hmem a).mp ha))

theorem mem_declAttrs {doc : Document} {a : Str × Str} :
    a ∈ declAttrs doc ↔ (a = ("version".toList, doc.version) ∨ a = ("encoding".toList, doc.encoding) ∨
      a = ("standalone".toList, doc.standalone)) ∧ a.2 ≠ [] := by
  simp [declAttrs, List.mem_filter]

theorem declAttrs_nodup (doc : Document) : ((declAttrs doc).map Prod.fst).Nodup := by
  have hkeys : ["version".toList, "encoding".toList, "standalone".toList].Nodup := by decide
  exact hkeys.sublist (List.Sublist.map Prod.fst List.filter_sublist)

/-- **The three values come back**, also those that were left out. -/
theorem declValue_declAttrs (doc : Document) :
    declValue (readAttrs (declAttrs doc)) "version" = doc.version ∧
    declValue (readAttrs (declAttrs doc)) "encoding" = doc.encoding ∧
    declValue (readAttrs (declAttrs doc)) "standalone" = doc.standalone := by
  have hv : "version".toList ≠ "encoding".toList ∧ "version".toList ≠ "standalone".toList ∧
      "encoding".toList ≠ "standalone".toList := by decide
  refine ⟨declValue_readAttrs (declAttrs_nodup doc) ?_,
    declValue_readAttrs (declAttrs_nodup doc) ?_, declValue_readAttrs (declAttrs_nodup doc) ?_⟩
  · by_cases h : doc.version = []
    · refine Or.inr ⟨h, fun a ha e => ?_⟩
      obtain ⟨rfl | rfl | rfl, hne⟩ := mem_declAttrs.mp ha
      · exact hne h
      · exact hv.1 e.symm
      · exact hv.2.1 e.symm
    · exact Or.inl (mem_declAttrs.mpr ⟨Or.inl rfl, h⟩)
  · by_cases h : doc.encoding = []
    · refine Or.inr ⟨h, fun a ha e => ?_⟩
      obtain ⟨rfl | rfl | rfl, hne⟩ := mem_declAttrs.mp ha
      · exact hv.1 e
      · exact hne h
      · exact hv.2.2 e.symm
    · exact Or.inl (mem_declAttrs.mpr ⟨Or.inr (Or.inl rfl), h⟩)
  · by_cases h : doc.standalone = []
    · refine Or.inr ⟨h, fun a ha e => ?_⟩
      obtain ⟨rfl | rfl | rfl, hne⟩ := mem_declAttrs.mp ha
      · exact hv.2.1 e
      · exact hv.2.2 e
      · exact hne h
    · exact Or.inl (mem_declAttrs.mpr ⟨Or.inr (Or.inr rfl), h⟩)

/-! ## 3. Documents -/

/-- A name or a key: a letter, then letters and digits. -/
def ApiName (w : Str) : Prop :=
  (∃ c cs, w = c :: cs ∧ isAlpha c = true) ∧ ∀ c ∈ w, (isAlpha c || c.isDigit) = true

/-- The value of an attribute: ASCII without NUL, double quote or angle bracket. -/
def ApiValue (w : Str) : Prop :=
  ∀ c ∈ w, c.toNat < 128 ∧ c ≠ nul ∧ c ≠ '"' ∧ c ≠ '<' ∧ c ≠ '>'

/-- A content: ASCII without NUL, empty or not whitespace only. -/
def ApiContent (w : Str) : Prop :=
  (∀ c ∈ w, c.toNat < 128 ∧ c ≠ nul) ∧ (w = [] ∨ ∃ c ∈ w, isSpace c = false)

mutual

/-- An element as the API builds it. -/
def Element.Writable : Element → Prop
  | .mk name content attrs children =>
    ApiName name ∧ (∀ a ∈ attrs.elems, ApiName a.1 ∧ ApiValue a.2) ∧ ApiContent content ∧
      (content = [] ∨ children = []) ∧ ChildrenWritable children

def ChildrenWritable : List Element → Prop
  | [] => True
  | c :: cs => c.Writable ∧ ChildrenWritable cs

end

/-- A document as the API builds it. -/
structure Document.Writable (doc : Document) : Prop where
  root : doc.root.Writable
  version : ApiValue doc.version
  encoding : ApiValue doc.encoding
  standalone : ApiValue doc.standalone

mutual

/-- The same element: name, content, attributes, and the children in their order. -/
def Element.Same : Element → Element → Prop
  | .mk name content attrs children, .mk name' content' attrs' children' =>
    name = name' ∧ content = content' ∧ (∀ key, attrs.find? key = attrs'.find? key) ∧
      ChildrenSame children children'

def ChildrenSame : List Element → List Element → Prop
  | [], [] => True
  | c :: cs, c' :: cs' => c.Same c' ∧ ChildrenSame cs cs'
  | _, _ => False

end

/-- The same document. -/
structure Document.Same (doc doc' : Document) : Prop where
  root : doc.root.Same doc'.root
  version : doc.version = doc'.version
  encoding : doc.encoding = doc'.encoding
  standalone : doc.standalone = doc'.standalone

/-- A letter or a digit is none of the characters that mean something. -/
theorem alnum_spec {c : Char} (h : (isAlpha c || c.isDigit) = true) :
    endsName c = false ∧ c ≠ '<' ∧ c ≠ '>' ∧ c ≠ nul ∧ c ≠ '=' ∧ c ≠ '!' ∧ c ≠ '?' := by
  have hn : 48 ≤ c.toNat ∧ c.toNat ≤ 57 ∨
      (65 ≤ c.toNat ∧ c.toNat ≤ 90) ∨ (97 ≤ c.toNat ∧ c.toNat ≤ 122) := by
    rcases Bool.or_eq_true _ _ ▸ h with ha | hd
    · exact Or.inr (alpha_toNat ha)
    · exact Or.inl (digit_toNat hd)
  have hne : ∀ d : Char, (d.toNat < 48 ∨ 57 < d.toNat ∧ d.toNat < 65) → c ≠ d := by
    rintro d hd rfl
    omega
  have hspace : isSpace c = false := by
    simp only [isSpace, Bool.or_eq_false_iff, Bool.and_eq_false_iff, decide_eq_false_iff_not]
    omega
  have hgt : c ≠ '>' := hne '>' (by decide)
  have hslash : c ≠ '/' := hne '/' (by decide)
  refine ⟨by simp [endsName, hspace, hgt, hslash], hne '<' (by decide), hgt, hne nul (by decide),
    hne '=' (by decide), hne '!' (by decide), hne '?' (by decide)⟩

theorem ApiName.unmarked {w : Str} (h : ApiName w) : Unmarked w := fun c hc => by
  obtain ⟨_, h1, h2, h3, _⟩ := alnum_spec (h.2 c hc)
  exact ⟨h1, h2, h3⟩

theorem ApiName.head_spec {w : Str} (h : ApiName w) :
    w ≠ [] ∧ w.head? ≠ some '!' ∧ w.head? ≠ some '?' := by
  obtain ⟨⟨c, cs, rfl, _⟩, hall⟩ := h
  obtain ⟨_, _, _, _, _, h1, h2⟩ := alnum_spec (hall c List.mem_cons_self)
  exact ⟨List.cons_ne_nil c cs, fun e => h1 (Option.some.inj e), fun e => h2 (Option.some.inj e)⟩

theorem ApiValue.unmarked {w : Str} (h : ApiValue w) : Unmarked w := fun c hc => by
  obtain ⟨_, h1, _, h2, h3⟩ := h c hc
  exact ⟨h2, h3, h1⟩

/-- An attribute of the API is read back. -/
theorem cleanAttr_api {a : Str × Str} (hk : ApiName a.1) (hv : ApiValue a.2) :
    CleanAttr a ∧ Unmarked a.1 ∧ Unmarked a.2 := by
  refine ⟨⟨hk.1, fun h => ?_, fun h => ?_⟩, hk.unmarked, hv.unmarked⟩
  · obtain ⟨_, _, _, _, hne, _⟩ := alnum_spec (hk.2 '=' h)
    exact hne rfl
  · exact (hv '"' h).2.2.1 rfl

mutual

/-- What the API builds can be read back. -/
theorem clean_of_writable : ∀ {e : Element}, e.Writable → e.Clean
  | .mk _ _ _ _, ⟨hn, ha, hc, _, hcs⟩ =>
    ⟨⟨hn.head_spec.1, hn.head_spec.2.1, fun c hm => (alnum_spec (hn.2 c hm)).1, hn.unmarked,
        fun a hm => cleanAttr_api (ha a hm).1 (ha a hm).2⟩,
      ⟨fun hm => (hc.1 nul hm).2 rfl, hc.2⟩, childrenClean_of_writable hcs⟩

theorem childrenClean_of_writable : ∀ {cs : List Element}, ChildrenWritable cs → ChildrenClean cs
  | [], _ => trivial
  | _ :: _, ⟨hc, hcs⟩ => ⟨clean_of_writable hc, childrenClean_of_writable hcs⟩

end

/-- A content of the API is read back as it was. -/
theorem readContent_api {content : Str} (h : ApiContent content) :
    readContent true content = content :=
  substituteEntityRef_insertEntityRef fun hm => (h.1 nul hm).2 rfl

mutual

/-- **What is read back is the same element.** -/
theorem same_readBack (ord : AttrOrder) : ∀ {e : Element}, e.Writable →
    e.Same (e.readBack ord true)
  | .mk _ _ attrs _, ⟨_, _, hc, _, hcs⟩ =>
    ⟨rfl, (readContent_api hc).symm, fun key => (find?_readAttrs ord attrs key).symm,
      childrenSame_readBack ord hcs⟩

theorem childrenSame_readBack (ord : AttrOrder) : ∀ {cs : List Element}, ChildrenWritable cs →
    ChildrenSame cs (readChildren ord true cs)
  | [], _ => trivial
  | _ :: _, ⟨hc, hcs⟩ => ⟨same_readBack ord hc, childrenSame_readBack ord hcs⟩

end

theorem cleanTag_declAttrs {doc : Document} (h : doc.Writable) :
    CleanTag "?xml".toList (declAttrs doc) where
  ne_nil := List.cons_ne_nil _ _
  head := fun e => absurd (Option.some.inj e) (by decide)
  ends := (by decide : CleanName "?xml".toList)
  unmarked := unmarked_of_notMem (by decide) (by decide) (by decide)
  attrs := fun a ha => by
    have hname : ApiName "version".toList ∧ ApiName "encoding".toList ∧
        ApiName "standalone".toList := by
      refine ⟨⟨⟨_, _, rfl, by decide⟩, ?_⟩, ⟨⟨_, _, rfl, by decide⟩, ?_⟩,
        ⟨⟨_, _, rfl, by decide⟩, ?_⟩⟩ <;> simp <;> decide
    obtain ⟨rfl | rfl | rfl, _⟩ := mem_declAttrs.mp ha
    · exact cleanAttr_api hname.1 h.version
    · exact cleanAttr_api hname.2.1 h.encoding
    · exact cleanAttr_api hname.2.2 h.standalone

/-- A written document: the declaration, when one of its values is set, and the root. -/
theorem toString_pieces (ord : AttrOrder) (doc : Document) :
    doc.toString ord =
      if declAttrs doc = [] then pieceText (doc.root.pieces ord)
      else pieceText (.tag (declInner (declAttrs doc)) :: doc.root.pieces ord) := by
  have hempty : declAttrs doc = [] ↔
      (doc.version.isEmpty && doc.encoding.isEmpty && doc.standalone.isEmpty) = true := by
    simp [declAttrs, List.filter_eq_nil_iff, and_assoc]
  unfold Document.toString
  rw [toText_eq]
  by_cases h : declAttrs doc = []
  · rw [if_pos h, if_pos (hempty.mp h), List.nil_append]
  · rw [if_neg h, if_neg fun e => h (hempty.mpr e)]
    simp [declAttrs, declInner, pieceText, Piece.chars, tagInner]

/-- **The parser undoes the printer**: whatever document the API has built, and in whatever order
    its attributes are walked, what is parsed is the same document. -/
theorem parseString_toString (ord : AttrOrder) {doc : Document} (h : doc.Writable) :
    ∃ doc', parseString (doc.toString ord) true = .ok doc' ∧ doc.Same doc' := by
  have hclean := clean_of_writable h.root
  have hname : ApiName doc.root.name := by
    obtain ⟨⟨name, content, attrs, children⟩, _, _, _⟩ := doc
    exact h.root.1
  obtain ⟨hversion, hencoding, hstandalone⟩ := declValue_declAttrs doc
  rw [toString_pieces]
  by_cases hdecl : declAttrs doc = []
  · rw [if_pos hdecl, ← toText_eq]
    rw [hdecl] at hversion hencoding hstandalone
    exact ⟨_, parseString_toText ord true hclean hname.head_spec.2.2,
      same_readBack ord h.root, hversion.symm, hencoding.symm, hstandalone.symm⟩
  · rw [if_neg hdecl]
    exact ⟨_, parseString_declared ord true hclean (cleanTag_declAttrs h),
      same_readBack ord h.root, hversion.symm, hencoding.symm, hstandalone.symm⟩

/-- A round with the MAC of its generator, the MAC full of entity references. -/
def roundDocument : Document :=
  ⟨.mk "Offer".toList [] ⟨[("round".toList, "a=1 /".toList)], List.nodup_singleton _⟩
    [.mk "Mac".toList "<a & 'b'>\"".toList KeySet.empty []], "1.0".toList, [], "yes".toList⟩

theorem parseString_toString_round : ∃ doc',
    parseString (roundDocument.toString ⟨List.reverse, List.reverse_perm⟩) true = .ok doc' ∧
      roundDocument.Same doc' :=
  parseString_toString _
    { root := ⟨⟨⟨_, _, rfl, by decide⟩, by simp; decide⟩,
        by
          intro a ha
          rw [List.mem_singleton.mp ha]
          exact ⟨⟨⟨_, _, rfl, by decide⟩, by simp; decide⟩, by unfold ApiValue; simp; decide⟩,
        ⟨by simp, Or.inl rfl⟩, Or.inl rfl,
        ⟨⟨⟨⟨_, _, rfl, by decide⟩, by simp; decide⟩, by simp,
          ⟨by simp; decide, Or.inr ⟨'a', by decide, by decide⟩⟩, Or.inr rfl, trivial⟩, trivial⟩⟩
      version := by unfold ApiValue; simp [roundDocument]; decide
      encoding := fun c hc => absurd hc List.not_mem_nil
      standalone := by unfold ApiValue; simp [roundDocument]; decide }

end Veridie.Xml
