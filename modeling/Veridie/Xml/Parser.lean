/-
  File:      Veridie/Xml/Parser.lean
  Subject:   The tree builder of dice/xmlparser.hpp: `ExtractName`, `ExtractAttributes`,
             `BuildElementTree` and the parsing constructor of `Document`.
-/
import Veridie.Xml.Tokens
import Veridie.Xml.Element

namespace Veridie.Xml

open Veridie.Lib

/-! ## 1. Tags -/

/-- Where an element name ends. -/
def endsName (c : Char) : Bool := isSpace c || c = '>' || c = '/'

/-- `ExtractName`. -/
def extractName (s : Str) (b e : Nat) : Eval Str := do
  let stop ← findIf endsName s (b + 1) e
  .ok (slice s (b + 1) stop)

/-- Where the attributes of a tag may start. -/
def endsTagName (c : Char) : Bool := c = '>' || isSpace c

/-- The loop of `ExtractAttributes` from `p` on. Every round moves `p` on, so the length of the
    token bounds the number of rounds; `emplace` keeps the first value of a key. -/
def attrLoop (s : Str) : Nat → Nat → Nat → Attrs → Eval Attrs
  | 0, _, _, attrs => .ok attrs
  | n + 1, p, e, attrs =>
    if p < e then do
      let keybegin ← findIf isAlpha s p e
      if keybegin = e then .ok attrs
      else do
        let keyend ← findIf (· = '=') s keybegin e
        -- the value starts at keyend + 2; the character before it is the quote
        let quote ← charAt s (keyend + 1)
        let valend ← findIf (· = quote) s (keyend + 2) e
        attrLoop s n valend e (attrs.insert (slice s keybegin keyend, slice s (keyend + 2) valend))
    else .ok attrs

/-- `ExtractAttributes`. -/
def extractAttributes (s : Str) (b e : Nat) : Eval Attrs := do
  let p ← findIf endsTagName s b e
  attrLoop s (e - p) p e KeySet.empty

/-! ## 2. `BuildElementTree` -/

/-- An element on the stack. The source hangs a new element under its parent when it is opened;
    until it is closed only the element itself grows, so hanging it there when it is closed builds
    the same tree. -/
structure Frame where
  name : Str
  content : Str
  attrs : Attrs
  children : List Element

def Frame.close (f : Frame) : Element := .mk f.name f.content f.attrs f.children

def Frame.add (f : Frame) (child : Element) : Frame := { f with children := f.children ++ [child] }

/-- The stack of open elements, innermost first, and the root once it has been closed. -/
structure Tree where
  stack : List Frame
  root : Option Element

/-- `tree.push`; the new element is anchored in `tree.top()`. -/
def Tree.push (t : Tree) (f : Frame) : Eval Tree :=
  match t.stack with
  | [] => undefined .emptyStack
  | top :: below => .ok { t with stack := f :: top :: below }

/-- `tree.pop`. -/
def Tree.pop (t : Tree) : Eval Tree :=
  match t.stack with
  | [] => undefined .emptyStack
  | [top] => .ok ⟨[], some top.close⟩
  | top :: parent :: below => .ok { t with stack := parent.add top.close :: below }

/-- `tree.top()->content.append(...)`, entity references replaced when asked for. -/
def Tree.append (t : Tree) (replaceEr : Bool) (text : Str) : Eval Tree :=
  match t.stack with
  | [] => undefined .emptyStack
  | top :: below =>
    let content := top.content ++ text
    .ok { t with stack :=
            { top with content := if replaceEr then substituteEntityRef content else content }
              :: below }

/-- The root with every element still open hung under its parent. -/
def Tree.finish (t : Tree) : Option Element :=
  match t.stack with
  | [] => t.root
  | top :: below => some (below.foldl (fun e p => (p.add e).close) top.close)

/-- The element of a tag. -/
def newFrame (s : Str) (b e : Nat) : Eval Frame := do
  let name ← extractName s b e
  let attrs ← extractAttributes s b e
  .ok ⟨name, [], attrs, []⟩

/-- One round of the loop of `BuildElementTree`; `none` is the null pointer an unterminated tag
    makes it return. -/
def buildStep (s : Str) (replaceEr : Bool) (t : Tree) (b e : Nat) : Eval (Option Tree) := do
  let what ← determineToken s b e
  match what with
  | .opening => do
    let f ← newFrame s b e
    let t ← t.push f
    .ok (some t)
  | .openClose => do
    let f ← newFrame s b e
    let t ← t.push f
    let t ← t.pop
    .ok (some t)
  | .closing => do
    let t ← t.pop
    .ok (some t)
  | .content => do
    let t ← t.append replaceEr (slice s b e)
    .ok (some t)
  | .error => .ok none
  | .comment => .ok (some t)

/-- The loop of `BuildElementTree`: until the token list or the stack is exhausted. -/
def buildLoop (s : Str) (replaceEr : Bool) : Tree → List Nat → Eval (Option Tree)
  | t, l :: r :: rest =>
    if t.stack.isEmpty then .ok (some t)
    else do
      let t ← buildStep s replaceEr t l r
      match t with
      | some t => buildLoop s replaceEr t (r :: rest)
      | none => .ok none
  | t, _ => .ok (some t)

/-- `BuildElementTree`. -/
def buildElementTree (s : Str) (replaceEr : Bool) : List Nat → Eval (Option Element)
  | l :: r :: rest => do
    let root ← newFrame s l r
    let t ← buildLoop s replaceEr ⟨[root], none⟩ (r :: rest)
    .ok (t.bind Tree.finish)
  | _ => undefined .listEnd

/-! ## 3. `Document` -/

/-- The value of a declaration attribute, empty when absent. -/
def declValue (decl : Attrs) (key : String) : Str :=
  match decl.find? key.toList with
  | some a => a.2
  | none => []

/-- The end of the constructor: the tree, or the exception for a malformed one. -/
def documentOf (s : Str) (replaceEr : Bool) (decl : Attrs) (tokens : List Nat) : Eval Document := do
  let root ← buildElementTree s replaceEr tokens
  match root with
  | some root =>
    .ok ⟨root, declValue decl "version", declValue decl "encoding", declValue decl "standalone"⟩
  | none => throwExn (.xml "Malformed xml".toList)

/-- The constructor behind the token passes. -/
def documentOfTokens (s : Str) (replaceEr : Bool) : List Nat → Eval Document
  | first :: second :: rest => do
    let c ← charAt s first
    if c ≠ '<' then throwExn (.xml "Malformed beginning".toList)
    else do
      let d ← charAt s (first + 1)
      if d = '?' then do
        let decl ← extractAttributes s first second
        let tokens ← removeLeadingComments s (second :: rest)
        documentOf s replaceEr decl tokens
      else documentOf s replaceEr KeySet.empty (first :: second :: rest)
  | _ => undefined .listEnd

/-- The token list the constructor starts from. -/
def passes (s : Str) : Eval (List Nat) := do
  let tokens ← tokenize s
  let tokens ← removeGaps s tokens
  removeInsideComments s none tokens

/-- `ParseString`: `Document(text, replace_er)`. -/
def parseString (s : Str) (replaceEr : Bool) : Eval Document := do
  let tokens ← passes s
  let tokens ← removeLeadingComments s tokens
  documentOfTokens s replaceEr tokens

end Veridie.Xml
