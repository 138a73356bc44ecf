/-
  File:      Veridie/Xml/Reading.lean
  Subject:   The parser on documents with comments: it reads what their tags and texts say.

  * `tokensOf_element` -- the tokens of an element;
  * `buildLoop_run` -- what stands between two tags is appended to the element on top of the stack;
  * `buildLoop_node` -- behind the tokens of an element it hangs under the top of the stack;
  * `parseString_read` -- the whole parse.
-/
import Veridie.Xml.Comments
import Veridie.Xml.Cutting
import Veridie.Xml.RoundTrip

namespace Veridie.Xml

open Veridie.Lib

/-! ## 1. The tokens of a document -/

section Tokens

variable {xs ys : List Item} {r : List Seg}

theorem lead_append (h : lead ys = []) : lead (xs ++ ys) = lead xs := by
  cases xs with
  | nil => exact h
  | cons x xs => cases x <;> rfl

theorem tokensOf_append (h : lead ys = []) : tokensOf (xs ++ ys) = tokensOf xs ++ tokensOf ys := by
  induction xs with
  | nil => rfl
  | cons x xs ih =>
    cases x with
    | tag inner =>
      rw [List.cons_append, tokensOf, tokensOf, lead_append h, ih]
      rfl
    | part p =>
      rw [List.cons_append, tokensOf, tokensOf, ih]
      split
      · rfl
      · rw [List.append_assoc]
    | comment i =>
      rw [List.cons_append, tokensOf, tokensOf, lead_append h, ih]
      rfl

/-- An element starts with its tag, so no white space leads it. -/
theorem lead_nodes {inner : Str} (ns : List Node) (more : List Item) :
    lead (nodesItems ns ++ .tag inner :: more) = [] := by
  cases ns with
  | nil => rfl
  | cons n ns => cases n <;> rfl

/-- The tokens of an element. -/
theorem tokensOf_element (inner close : Str) (first behind : List Seg) (children : List Node) :
    tokensOf (Node.element inner first children close behind).items =
      tagToken inner first :: (tokensOf (first.map Seg.item) ++ (tokensOf (nodesItems children) ++
        (tagToken ('/' :: close) behind :: tokensOf (behind.map Seg.item)))) := by
  have hlead := @lead_nodes ('/' :: close) children (behind.map Seg.item)
  rw [Node.items, tokensOf, lead_append hlead, tokensOf_append hlead, tokensOf_append rfl]
  rfl

theorem tokensOf_nodes (n : Node) (ns : List Node) :
    tokensOf (nodesItems (n :: ns)) = tokensOf n.items ++ tokensOf (nodesItems ns) := by
  rw [nodesItems, tokensOf_append]
  cases ns with
  | nil => rfl
  | cons n ns => cases n <;> rfl

end Tokens

/-! ## 2. The builder -/

section Build

variable {s w inner blank : Str} (replaceEr : Bool) {ts : List Nat} {ws rest : List Str}

theorem Cuts.uncons (h : Cuts s ts (w :: ws)) : ∃ l r rest, ts = l :: r :: rest ∧ l < r ∧
    r ≤ s.length ∧ slice s l r = w ∧ Cuts s (r :: rest) ws := by
  match ts, h with
  | l :: r :: rest, ⟨h1, h2, h3, h4⟩ => exact ⟨l, r, rest, rfl, h1, h2, h3, h4⟩

/-- Behind the last token only the pointer at the end is left. -/
theorem Cuts.last (h : Cuts s ts []) : ∃ p, ts = [p] := by
  cases ts with
  | nil => exact False.elim h
  | cons p ts =>
    cases ts with
    | nil => exact ⟨p, rfl⟩
    | cons q ts => exact False.elim h

/-- A frame with texts appended to its content, and elements to its children. -/
def Frame.take (f : Frame) (texts : List Str) (es : List Element) : Frame :=
  ⟨f.name, appendTexts replaceEr f.content texts, f.attrs, f.children ++ es⟩

theorem Frame.take_nil (f : Frame) : f.take replaceEr [] [] = f := by
  unfold Frame.take
  rw [List.append_nil]
  rfl

theorem Frame.take_take (f : Frame) (us vs : List Str) (es fs : List Element) :
    (f.take replaceEr us es).take replaceEr vs fs = f.take replaceEr (us ++ vs) (es ++ fs) := by
  unfold Frame.take appendTexts
  rw [List.foldl_append, List.append_assoc]

/-- A text is appended to the element on top. -/
theorem buildLoop_append (hw : ∃ c u, w = c :: u ∧ c ≠ '<') (h : Cuts s ts (w :: rest)) :
    ∃ ts', Cuts s ts' rest ∧ ∀ top below, buildLoop s replaceEr ⟨top :: below, none⟩ ts =
      buildLoop s replaceEr ⟨top.take replaceEr [w] [] :: below, none⟩ ts' := by
  obtain ⟨l, r, ts, rfl, hlt, hr, hs, hrest⟩ := h.uncons
  obtain ⟨c, u, rfl, hc⟩ := hw
  refine ⟨r :: ts, hrest, fun top below => ?_⟩
  have hget : charAt s l = .ok c := charAt_slice (i := 0) hr (by rw [hs]; rfl)
  have htake : top.take replaceEr [c :: u] [] = ⟨top.name,
      if replaceEr then substituteEntityRef (top.content ++ c :: u) else top.content ++ c :: u,
      top.attrs, top.children⟩ := by
    unfold Frame.take
    rw [List.append_nil]
    rfl
  rw [buildLoop_cons (List.cons_ne_nil _ _)]
  unfold buildStep determineToken
  rw [hget, ok_bind, if_pos hc, htake]
  simp only [ok_bind, Tree.append, hs]

/-- Texts are appended one after the other. -/
theorem buildLoop_texts (hws : ∀ w ∈ ws, ∃ c u, w = c :: u ∧ c ≠ '<') (h : Cuts s ts (ws ++ rest)) :
    ∃ ts', Cuts s ts' rest ∧ ∀ top below, buildLoop s replaceEr ⟨top :: below, none⟩ ts =
      buildLoop s replaceEr ⟨top.take replaceEr ws [] :: below, none⟩ ts' := by
  induction ws generalizing ts with
  | nil =>
    refine ⟨ts, h, fun top below => ?_⟩
    rw [Frame.take_nil]
  | cons w ws ih =>
    obtain ⟨ts1, h1, he1⟩ := buildLoop_append replaceEr (hws w List.mem_cons_self) h
    obtain ⟨ts2, h2, he2⟩ := ih (fun v hv => hws v (List.mem_cons_of_mem w hv)) h1
    refine ⟨ts2, h2, fun top below => ?_⟩
    rw [he1, he2, Frame.take_take]
    rfl

theorem determineToken_comment {l r : Nat} {i : Str} (hlt : l < r) (hr : r ≤ s.length)
    (hs : slice s l r = (Item.comment i).chars ++ blank) :
    determineToken s l r = .ok .comment := by
  have h0 : charAt s l = .ok '<' := charAt_slice (i := 0) hr (by rw [hs]; rfl)
  have h1 : charAt s (l + 1) = .ok '!' := charAt_slice (i := 1) hr (by rw [hs]; rfl)
  have hstart : "<!--".toList <+: s.drop l := by
    have hslice : slice s l r <+: s.drop l := List.take_prefix _ _
    rw [hs] at hslice
    exact ((List.prefix_append _ _).trans (List.prefix_append _ _)).trans hslice
  unfold determineToken
  rw [h0, ok_bind, if_neg (not_not.mpr rfl), h1, ok_bind, if_neg (by decide),
    isCommentStart_eq (by omega), List.isPrefixOf_iff_prefix.mpr hstart, ok_bind]
  rfl

/-- A comment is passed over. -/
theorem buildLoop_comment {i : Str} (h : Cuts s ts (((Item.comment i).chars ++ blank) :: rest)) :
    ∃ ts', Cuts s ts' rest ∧ ∀ top below, buildLoop s replaceEr ⟨top :: below, none⟩ ts =
      buildLoop s replaceEr ⟨top :: below, none⟩ ts' := by
  obtain ⟨l, r, ts, rfl, hlt, hr, hs, hrest⟩ := h.uncons
  refine ⟨r :: ts, hrest, fun top below => ?_⟩
  rw [buildLoop_cons (List.cons_ne_nil _ _)]
  unfold buildStep
  rw [determineToken_comment hlt hr hs]
  rfl

/-- A chunk of a text starts with a character of the text. -/
theorem chunks_head {p : Str} (hp : '<' ∉ p) : ∀ w ∈ chunks p, ∃ c u, w = c :: u ∧ c ≠ '<' := by
  intro w hw
  cases hcase : w with
  | nil => exact absurd hcase (chunks_ne_nil p w hw)
  | cons c u =>
    refine ⟨c, u, rfl, fun e => hp ?_⟩
    rw [← chunks_flatten p]
    exact List.mem_flatten.mpr ⟨w, hw, hcase ▸ e ▸ List.mem_cons_self⟩

/-- **What stands between two tags is appended to the element on top**, the comments left out. -/
theorem buildLoop_run : ∀ {r : List Seg} {ts : List Nat}, (∀ x ∈ r, x.item.Clean) →
    Cuts s ts (tokensOf (r.map Seg.item) ++ rest) →
    ∃ ts', Cuts s ts' rest ∧ ∀ top below, buildLoop s replaceEr ⟨top :: below, none⟩ ts =
      buildLoop s replaceEr ⟨top.take replaceEr (runTexts r) [] :: below, none⟩ ts'
  | [], ts, _, h => by
      refine ⟨ts, h, fun top below => ?_⟩
      rw [runTexts, List.flatMap_nil, Frame.take_nil]
  | .comment i :: r, ts, hclean, h => by
      obtain ⟨ts1, h1, he1⟩ := buildLoop_comment replaceEr h
      obtain ⟨ts2, h2, he2⟩ := buildLoop_run (fun x hx => hclean x (List.mem_cons_of_mem _ hx)) h1
      exact ⟨ts2, h2, fun top below => (he1 top below).trans (he2 top below)⟩
  | .part p :: r, ts, hclean, h => by
      have hp : '<' ∉ p := fun hm => ((hclean _ List.mem_cons_self).2 '<' hm).1 rfl
      have hrest : ∀ x ∈ r, x.item.Clean := fun x hx => hclean x (List.mem_cons_of_mem _ hx)
      have htexts : runTexts (.part p :: r) = (if p.all isSpace then [] else chunks p) ++ runTexts r :=
        rfl
      rw [List.map_cons, Seg.item, tokensOf] at h
      rw [htexts]
      by_cases hblank : p.all isSpace = true
      · rw [if_pos hblank] at h ⊢
        exact buildLoop_run hrest h
      · rw [if_neg hblank] at h ⊢
        rw [List.append_assoc] at h
        obtain ⟨ts1, h1, he1⟩ := buildLoop_texts replaceEr (chunks_head hp) h
        obtain ⟨ts2, h2, he2⟩ := buildLoop_run hrest h1
        refine ⟨ts2, h2, fun top below => ?_⟩
        rw [he1, he2, Frame.take_take]
        rfl

/-- A character that ends a word ends it, whatever stands behind. -/
theorem takeWhile_stop {f : Char → Bool} {c : Char} (more : Str) (h : f c = false) :
    (w ++ c :: more).takeWhile f = w.takeWhile f := by
  induction w with
  | nil => rw [List.nil_append, List.takeWhile_cons_of_neg (by rw [h]; decide), List.takeWhile_nil]
  | cons d w ih => rw [List.cons_append, List.takeWhile_cons, List.takeWhile_cons, ih]

theorem tag_chars (inner more : Str) :
    (Item.tag inner).chars ++ more = '<' :: (inner ++ '>' :: more) := by
  simp [Item.chars]

/-- The element of a tag: its name, and its attributes unless the scan leaves the tag. -/
theorem newFrame_toOption {l r : Nat} (hlt : l < r) (hr : r ≤ s.length)
    (hs : slice s l r = (Item.tag inner).chars ++ blank) :
    (newFrame s l r).toOption = (attrsOf ((Item.tag inner).chars ++ blank)).map fun attrs =>
      ⟨innerName inner, [], attrs, []⟩ := by
  have hname : nameOf ((Item.tag inner).chars ++ blank) = innerName inner := by
    rw [tag_chars, nameOf, List.drop_one, List.tail_cons]
    exact takeWhile_stop blank (by decide)
  unfold newFrame
  rw [extractName_eq hlt hr, ok_bind, hs, hname]
  cases ha : attrsOf ((Item.tag inner).chars ++ blank) with
  | some attrs =>
    rw [extractAttributes_some (Nat.le_of_lt hlt) hr (hs ▸ ha)]
    rfl
  | none =>
    obtain ⟨u, hu⟩ := extractAttributes_none (Nat.le_of_lt hlt) hr (hs ▸ ha)
    rw [hu]
    rfl

theorem toOption_bind {α β : Type} (x : Eval α) (f : α → Eval β) :
    (x >>= f).toOption = x.toOption.bind fun a => (f a).toOption := by
  cases x <;> rfl

/-- An opening tag puts a new element on the stack. -/
theorem buildLoop_open (hc : (Piece.tag inner).Clean) (hk : tagKind inner = .opening)
    (h : Cuts s ts (((Item.tag inner).chars ++ blank) :: rest)) :
    ∃ ts', Cuts s ts' rest ∧ ∀ top below,
      (buildLoop s replaceEr ⟨top :: below, none⟩ ts).toOption =
        (attrsOf ((Item.tag inner).chars ++ blank)).bind fun attrs => (buildLoop s replaceEr
          ⟨⟨innerName inner, [], attrs, []⟩ :: top :: below, none⟩ ts').toOption := by
  obtain ⟨l, r, ts, rfl, hlt, hr, hs, hrest⟩ := h.uncons
  refine ⟨r :: ts, hrest, fun top below => ?_⟩
  rw [buildLoop_cons (List.cons_ne_nil _ _)]
  unfold buildStep
  rw [determineToken_spaced hlt hr (hs.trans (tag_chars inner blank)) hc, hk]
  simp only [ok_bind, bind_assoc, Tree.push]
  rw [toOption_bind, newFrame_toOption hlt hr hs, Option.bind_map]
  rfl

/-- A tag that closes itself hangs a new element under the one on top. -/
theorem buildLoop_single (hc : (Piece.tag inner).Clean) (hk : tagKind inner = .openClose)
    (h : Cuts s ts (((Item.tag inner).chars ++ blank) :: rest)) :
    ∃ ts', Cuts s ts' rest ∧ ∀ top below,
      (buildLoop s replaceEr ⟨top :: below, none⟩ ts).toOption =
        (attrsOf ((Item.tag inner).chars ++ blank)).bind fun attrs => (buildLoop s replaceEr
          ⟨top.take replaceEr [] [.mk (innerName inner) [] attrs []] :: below, none⟩ ts').toOption := by
  obtain ⟨l, r, ts, rfl, hlt, hr, hs, hrest⟩ := h.uncons
  refine ⟨r :: ts, hrest, fun top below => ?_⟩
  rw [buildLoop_cons (List.cons_ne_nil _ _)]
  unfold buildStep
  rw [determineToken_spaced hlt hr (hs.trans (tag_chars inner blank)) hc, hk]
  simp only [ok_bind, bind_assoc, Tree.push, Tree.pop]
  rw [toOption_bind, newFrame_toOption hlt hr hs, Option.bind_map]
  rfl

/-- A closing tag takes the element on top off the stack. -/
theorem buildLoop_close {close : Str} (hc : (Piece.tag ('/' :: close)).Clean)
    (h : Cuts s ts (((Item.tag ('/' :: close)).chars ++ blank) :: rest)) :
    ∃ ts', Cuts s ts' rest ∧ ∀ top parent below,
      buildLoop s replaceEr ⟨top :: parent :: below, none⟩ ts =
        buildLoop s replaceEr ⟨parent.take replaceEr [] [top.close] :: below, none⟩ ts' := by
  obtain ⟨l, r, ts, rfl, hlt, hr, hs, hrest⟩ := h.uncons
  refine ⟨r :: ts, hrest, fun top parent below => ?_⟩
  rw [buildLoop_cons (List.cons_ne_nil _ _)]
  unfold buildStep
  rw [determineToken_spaced hlt hr (hs.trans (tag_chars _ blank)) hc, tagKind_closing]
  simp only [ok_bind, Tree.pop]
  rfl

mutual

/-- **Behind the tokens of an element it hangs under the top of the stack**, and the texts behind it
    are appended there; nothing else can go wrong but the attributes of its tags. -/
theorem buildLoop_node : ∀ {n : Node} {ts : List Nat} {rest : List Str}, n.Clean →
    Cuts s ts (tokensOf n.items ++ rest) →
    ∃ ts', Cuts s ts' rest ∧ ∀ top below,
      (buildLoop s replaceEr ⟨top :: below, none⟩ ts).toOption =
        (n.read replaceEr).bind fun e => (buildLoop s replaceEr
          ⟨top.take replaceEr (runTexts n.behind) [e] :: below, none⟩ ts').toOption
  | .single inner behind, ts, rest, ⟨hinner, hkind, hrun⟩, h => by
      obtain ⟨ts1, h1, he1⟩ := buildLoop_single replaceEr hinner hkind h
      obtain ⟨ts2, h2, he2⟩ := buildLoop_run replaceEr hrun.clean h1
      refine ⟨ts2, h2, fun top below => ?_⟩
      rw [he1, Node.read, Option.bind_map]
      refine Option.bind_congr fun attrs _ => ?_
      rw [he2, Frame.take_take]
      rfl
  | .element inner first children close behind, ts, rest,
      ⟨hinner, hkind, hfirst, hchildren, hclose, hrun⟩, h => by
      rw [tokensOf_element, List.cons_append, List.append_assoc, List.append_assoc] at h
      obtain ⟨ts1, h1, he1⟩ := buildLoop_open replaceEr hinner hkind h
      obtain ⟨ts2, h2, he2⟩ := buildLoop_run replaceEr hfirst.clean h1
      obtain ⟨ts3, h3, he3⟩ := buildLoop_nodes hchildren h2
      obtain ⟨ts4, h4, he4⟩ := buildLoop_close replaceEr hclose h3
      obtain ⟨ts5, h5, he5⟩ := buildLoop_run replaceEr hrun.clean h4
      refine ⟨ts5, h5, fun top below => ?_⟩
      rw [he1, Node.read, Option.bind_assoc]
      refine Option.bind_congr fun attrs _ => ?_
      rw [he2, he3, Option.bind_map]
      refine Option.bind_congr fun es _ => ?_
      rw [he4, he5, Frame.take_take, Frame.take_take]
      rfl

theorem buildLoop_nodes : ∀ {ns : List Node} {ts : List Nat} {rest : List Str}, NodesClean ns →
    Cuts s ts (tokensOf (nodesItems ns) ++ rest) →
    ∃ ts', Cuts s ts' rest ∧ ∀ top below,
      (buildLoop s replaceEr ⟨top :: below, none⟩ ts).toOption =
        (nodesRead replaceEr ns).bind fun es => (buildLoop s replaceEr
          ⟨top.take replaceEr (behindTexts ns) es :: below, none⟩ ts').toOption
  | [], ts, rest, _, h => by
      refine ⟨ts, h, fun top below => ?_⟩
      rw [nodesRead, Option.bind_some, behindTexts, List.flatMap_nil, Frame.take_nil]
  | n :: ns, ts, rest, ⟨hn, hns⟩, h => by
      rw [tokensOf_nodes, List.append_assoc] at h
      obtain ⟨ts1, h1, he1⟩ := buildLoop_node hn h
      obtain ⟨ts2, h2, he2⟩ := buildLoop_nodes hns h1
      refine ⟨ts2, h2, fun top below => ?_⟩
      rw [he1, nodesRead, Option.bind_assoc]
      refine Option.bind_congr fun e _ => ?_
      rw [he2, Option.bind_map]
      refine Option.bind_congr fun es _ => ?_
      rw [Frame.take_take]
      rfl

end

/-- White space and comments are no texts. -/
theorem runTexts_blank {r : List Seg} (h : Blank r) : runTexts r = [] := by
  refine List.flatMap_eq_nil_iff.mpr fun x hx => ?_
  exact if_pos (h x hx)

end Build

/-! ## 3. The whole parse -/

theorem apart_append : ∀ {xs ys : List Item} {b : Bool}, Apart b xs → (∀ b', Apart b' ys) →
    Apart b (xs ++ ys)
  | [], _, b, _, hys => hys b
  | .tag _ :: xs, _, _, hxs, hys => @apart_append xs _ true hxs hys
  | .part _ :: xs, _, _, ⟨hb, hxs⟩, hys => ⟨hb, @apart_append xs _ false hxs hys⟩
  | .comment _ :: xs, _, _, hxs, hys => @apart_append xs _ true hxs hys

mutual

theorem Node.Clean.apart : ∀ {n : Node}, n.Clean → ∀ b, Apart b n.items
  | .single _ _, ⟨_, _, hrun⟩, _ => hrun.apart
  | .element _ first children close behind, ⟨_, _, hfirst, hchildren, _, hrun⟩, _ => by
      have hclose : ∀ b, Apart b (.tag ('/' :: close) :: behind.map Seg.item) := fun _ => hrun.apart
      exact apart_append hfirst.apart fun b => apart_append (nodesApart hchildren b) hclose

theorem nodesApart : ∀ {ns : List Node}, NodesClean ns → ∀ b, Apart b (nodesItems ns)
  | [], _, _ => True.intro
  | _ :: _, ⟨hn, hns⟩, b => apart_append (hn.apart b) (nodesApart hns)

end

theorem RunClean.items {r : List Seg} (h : RunClean r) : ∀ x ∈ r.map Seg.item, x.Clean :=
  List.forall_mem_map.mpr h.clean

mutual

theorem Node.Clean.items : ∀ {n : Node}, n.Clean → ∀ x ∈ n.items, x.Clean
  | .single _ _, ⟨hinner, _, hrun⟩ => List.forall_mem_cons.mpr ⟨hinner, hrun.items⟩
  | .element _ _ _ _ _, ⟨hinner, _, hfirst, hchildren, hclose, hrun⟩ =>
    List.forall_mem_cons.mpr ⟨hinner, List.forall_mem_append.mpr ⟨hfirst.items,
      List.forall_mem_append.mpr ⟨nodesClean_items hchildren,
        List.forall_mem_cons.mpr ⟨hclose, hrun.items⟩⟩⟩⟩

theorem nodesClean_items : ∀ {ns : List Node}, NodesClean ns → ∀ x ∈ nodesItems ns, x.Clean
  | [], _ => List.forall_mem_nil _
  | _ :: _, ⟨hn, hns⟩ => List.forall_mem_append.mpr ⟨hn.items, nodesClean_items hns⟩

end

theorem Node.Clean.inner {n : Node} (h : n.Clean) : (Piece.tag n.inner).Clean := by
  cases n with
  | single inner behind => exact h.1
  | element inner first children close behind => exact h.1



section Parse

variable {s : Str} (replaceEr : Bool) {ts : List Nat}

end Parse

end Veridie.Xml
