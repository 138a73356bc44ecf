/-
  File:      Veridie/Xml/Comments.lean
  Subject:   Documents with comments in them, and what the parser reads of them: the attributes of
             each tag, and the texts of each element, taken piece by piece.

  * `Seg`, `Node`, `Source` -- what stands between two tags; an element with its tags; a document
    text, with `Source.text` its characters and `Source.plain` the same without the comments;
  * `tagToken`, `ownTexts` -- the token of a tag, and the texts that are appended to a content;
  * `Node.read`, `Source.read` -- the element, and the document, made of these.
-/
import Veridie.Xml.Items

namespace Veridie.Xml

open Veridie.Lib

/-! ## 1. Documents with comments -/

/-- What stands between two tags: parts of a text, and comments. -/
inductive Seg where
  | part (content : Str)
  | comment (interior : Str)

def Seg.item : Seg → Item
  | part content => .part content
  | comment interior => .comment interior

/-- What is left of it without the comments. -/
def Seg.content : Seg → Str
  | part content => content
  | comment _ => []

/-- The text between two tags without its comments. -/
def plainRun (r : List Seg) : List Seg :=
  if r.flatMap Seg.content = [] then [] else [.part (r.flatMap Seg.content)]

/-- Comments separate the parts, and no part is empty. -/
structure RunClean (r : List Seg) : Prop where
  clean : ∀ x ∈ r, x.item.Clean
  apart : Apart true (r.map Seg.item)

/-- White space and comments only. -/
def Blank (r : List Seg) : Prop := ∀ x ∈ r, x.content.all isSpace = true

/-- An element in the text, with what stands behind it up to the next tag. A tag ends at its first
    `>`, also at one inside a value: what follows there is text, as the parser takes it. -/
inductive Node where
  | single (inner : Str) (behind : List Seg)
  | element (inner : Str) (first : List Seg) (children : List Node) (close : Str) (behind : List Seg)

def Node.inner : Node → Str
  | single inner _ => inner
  | element inner _ _ _ _ => inner

def Node.behind : Node → List Seg
  | single _ behind => behind
  | element _ _ _ _ behind => behind

mutual

def Node.items : Node → List Item
  | .single inner behind => .tag inner :: behind.map Seg.item
  | .element inner first children close behind =>
    .tag inner :: (first.map Seg.item ++
      (nodesItems children ++ (.tag ('/' :: close) :: behind.map Seg.item)))

def nodesItems : List Node → List Item
  | [] => []
  | n :: ns => n.items ++ nodesItems ns

end

mutual

/-- The element without the comments. -/
def Node.plain : Node → Node
  | .single inner behind => .single inner (plainRun behind)
  | .element inner first children close behind =>
    .element inner (plainRun first) (nodesPlain children) close (plainRun behind)

def nodesPlain : List Node → List Node
  | [] => []
  | n :: ns => n.plain :: nodesPlain ns

end

mutual

/-- Every tag is one, and is closed: by its own `/`, or by a closing tag. -/
def Node.Clean : Node → Prop
  | .single inner behind =>
    (Piece.tag inner).Clean ∧ tagKind inner = .openClose ∧ RunClean behind
  | .element inner first children close behind =>
    (Piece.tag inner).Clean ∧ tagKind inner = .opening ∧ RunClean first ∧ NodesClean children ∧
      (Piece.tag ('/' :: close)).Clean ∧ RunClean behind

def NodesClean : List Node → Prop
  | [] => True
  | n :: ns => n.Clean ∧ NodesClean ns

end

/-- The declaration, the `?` at its start left out, and what stands behind it. -/
structure Declaration where
  inner : Str
  behind : List Seg
  clean : (Piece.tag ('?' :: inner)).Clean
  run : RunClean behind
  blank : Blank behind

/-- A document text: a root, perhaps a declaration in front of it, and nothing but white space and
    comments outside. -/
structure Source where
  before : List Seg
  declaration : Option Declaration
  root : Node
  run : RunClean before
  blank : Blank before
  clean : root.Clean
  head : root.inner.head? ≠ some '?'
  end_blank : Blank root.behind

def Declaration.items (d : Declaration) : List Item := .tag ('?' :: d.inner) :: d.behind.map Seg.item

def Source.items (d : Source) : List Item :=
  d.before.map Seg.item ++ ((d.declaration.elim [] Declaration.items) ++ d.root.items)

/-- The characters of a document. -/
def Source.text (d : Source) : Str := itemText d.items

theorem plainRun_clean {r : List Seg} (h : RunClean r) : RunClean (plainRun r) := by
  unfold plainRun
  split
  · exact ⟨List.forall_mem_nil _, True.intro⟩
  · rename_i hne
    refine ⟨List.forall_mem_singleton.mpr ⟨hne, fun c hc => ?_⟩, rfl, True.intro⟩
    obtain ⟨x, hx, hc⟩ := List.mem_flatMap.mp hc
    cases x with
    | part p => exact (h.clean _ hx).2 c hc
    | comment i => exact absurd hc List.not_mem_nil

theorem plainRun_blank {r : List Seg} (h : Blank r) : Blank (plainRun r) := by
  unfold plainRun
  split
  · exact List.forall_mem_nil _
  · refine List.forall_mem_singleton.mpr (List.all_eq_true.mpr fun c hc => ?_)
    obtain ⟨x, hx, hc⟩ := List.mem_flatMap.mp hc
    exact List.all_eq_true.mp (h x hx) c hc

theorem Node.plain_inner (n : Node) : n.plain.inner = n.inner := by
  cases n <;> rfl

theorem Node.plain_behind (n : Node) : n.plain.behind = plainRun n.behind := by
  cases n <;> rfl

mutual

theorem Node.Clean.plain : ∀ {n : Node}, n.Clean → n.plain.Clean
  | .single _ _, ⟨hinner, hkind, hrun⟩ => ⟨hinner, hkind, plainRun_clean hrun⟩
  | .element _ _ _ _ _, ⟨hinner, hkind, hfirst, hchildren, hclose, hbehind⟩ =>
    ⟨hinner, hkind, plainRun_clean hfirst, nodesPlain_clean hchildren, hclose, plainRun_clean hbehind⟩

theorem nodesPlain_clean : ∀ {ns : List Node}, NodesClean ns → NodesClean (nodesPlain ns)
  | [], _ => True.intro
  | _ :: _, ⟨hn, hns⟩ => ⟨hn.plain, nodesPlain_clean hns⟩

end

def Declaration.plain (d : Declaration) : Declaration :=
  ⟨d.inner, plainRun d.behind, d.clean, plainRun_clean d.run, plainRun_blank d.blank⟩

/-- **The document without its comments.** -/
def Source.plain (d : Source) : Source where
  before := plainRun d.before
  declaration := d.declaration.map Declaration.plain
  root := d.root.plain
  run := plainRun_clean d.run
  blank := plainRun_blank d.blank
  clean := d.clean.plain
  head := by
    rw [Node.plain_inner]
    exact d.head
  end_blank := by
    rw [Node.plain_behind]
    exact plainRun_blank d.end_blank

/-- What is left of an item without the comments. -/
def Item.kept : Item → Str
  | comment _ => []
  | x => x.chars

theorem itemText_plainRun (r : List Seg) :
    itemText ((plainRun r).map Seg.item) = (r.map Seg.item).flatMap Item.kept := by
  have hkept : (r.map Seg.item).flatMap Item.kept = r.flatMap Seg.content := by
    rw [List.flatMap_map]
    refine List.flatMap_congr fun x _ => ?_
    cases x <;> rfl
  rw [hkept]
  unfold plainRun
  split
  · rename_i h
    exact h.symm
  · exact List.append_nil _

mutual

theorem Node.itemText_plain : ∀ n : Node, itemText n.plain.items = n.items.flatMap Item.kept
  | .single inner behind => by
      rw [Node.plain, Node.items, itemText_cons, itemText_plainRun, Node.items, List.flatMap_cons]
      rfl
  | .element inner first children close behind => by
      have ih := nodesItems_plain children
      rw [Node.plain, Node.items, itemText_cons, itemText_append, itemText_append, itemText_cons, ih,
        itemText_plainRun, itemText_plainRun, Node.items, List.flatMap_cons, List.flatMap_append,
        List.flatMap_append, List.flatMap_cons]
      rfl

theorem nodesItems_plain : ∀ ns : List Node,
    itemText (nodesItems (nodesPlain ns)) = (nodesItems ns).flatMap Item.kept
  | [] => rfl
  | n :: ns => by
      rw [nodesPlain, nodesItems, itemText_append, n.itemText_plain, nodesItems_plain ns, nodesItems,
        List.flatMap_append]

end

/-- **The document without its comments has the same characters**, those of the comments left out. -/
theorem Source.plain_text (d : Source) : d.plain.text = d.items.flatMap Item.kept := by
  have hdecl : itemText (d.plain.declaration.elim [] Declaration.items) =
      (d.declaration.elim [] Declaration.items).flatMap Item.kept := by
    show itemText ((d.declaration.map Declaration.plain).elim [] Declaration.items) = _
    cases d.declaration with
    | none => rfl
    | some decl =>
      show itemText (.tag ('?' :: decl.inner) :: (plainRun decl.behind).map Seg.item) = _
      rw [itemText_cons, itemText_plainRun]
      rfl
  have hroot : itemText d.plain.root.items = d.root.items.flatMap Item.kept := d.root.itemText_plain
  unfold Source.text Source.items
  rw [itemText_append, itemText_append, hdecl, hroot, List.flatMap_append, List.flatMap_append]
  exact congrArg (· ++ _) (itemText_plainRun d.before)

/-! ## 2. What is read -/

/-- The token of a tag: the white space behind it belongs to it, up to the first comment. -/
def tagToken (inner : Str) (r : List Seg) : Str := (Item.tag inner).chars ++ lead (r.map Seg.item)

/-- The texts that are appended to a content: each part up to a `>`, without those that are white
    space only. -/
def runTexts (r : List Seg) : List Str :=
  r.flatMap fun x => if x.content.all isSpace then [] else chunks x.content

/-- `content.append` for each text, entity references replaced behind each when asked for. -/
def appendTexts (replaceEr : Bool) (content : Str) (texts : List Str) : Str :=
  texts.foldl (fun content text =>
    if replaceEr then substituteEntityRef (content ++ text) else content ++ text) content

/-- The texts behind the children of an element. -/
def behindTexts (children : List Node) : List Str := children.flatMap fun n => runTexts n.behind

/-- The texts of an element: behind its opening tag, and behind each of its children. -/
def ownTexts (first : List Seg) (children : List Node) : List Str :=
  runTexts first ++ behindTexts children

/-- The name in a tag. -/
def innerName (inner : Str) : Str := inner.takeWhile fun c => !endsName c

mutual

/-- The element that the parser makes of one in the text. -/
def Node.read (replaceEr : Bool) : Node → Option Element
  | .single inner behind =>
    (attrsOf (tagToken inner behind)).map fun attrs => .mk (innerName inner) [] attrs []
  | .element inner first children _ _ =>
    (attrsOf (tagToken inner first)).bind fun attrs =>
      (nodesRead replaceEr children).map fun es =>
        .mk (innerName inner) (appendTexts replaceEr [] (ownTexts first children)) attrs es

def nodesRead (replaceEr : Bool) : List Node → Option (List Element)
  | [] => some []
  | n :: ns => (n.read replaceEr).bind fun e => (nodesRead replaceEr ns).map (e :: ·)

end

/-- The attributes of a declaration. -/
def declRead : Option Declaration → Option Attrs
  | none => some KeySet.empty
  | some d => attrsOf (tagToken ('?' :: d.inner) d.behind)

/-- The document that the parser makes of a text. -/
def Source.read (d : Source) (replaceEr : Bool) : Option Document :=
  (declRead d.declaration).bind fun decl => (d.root.read replaceEr).map fun root =>
    ⟨root, declValue decl "version", declValue decl "encoding", declValue decl "standalone"⟩

end Veridie.Xml
