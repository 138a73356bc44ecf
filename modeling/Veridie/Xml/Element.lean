/-
  File:      Veridie/Xml/Element.lean
  Subject:   The element tree of dice/xmlparser.hpp: `ElementData`, the `Element` accessors, the
             entity references and the printer (`operator<<`, `InsertEntityRef`,
             `Document::ToString`).

  `attrs` is an unordered map. Its elements are kept as a set told apart by the key; the order in
  which it is walked is not fixed by the language, and the printer takes it as a parameter
  (`AttrOrder`).
-/
import Veridie.Base
import Veridie.Lib.KeySet

namespace Veridie.Xml

open Veridie.Lib

/-! ## 1. Data -/

/-- `std::unordered_map<string, string>`. -/
abbrev Attrs := KeySet (Prod.fst : Str × Str → Str)

/-- `ElementData`. -/
inductive Element where
  | mk (name content : Str) (attrs : Attrs) (children : List Element)

namespace Element

def name : Element → Str
  | mk n _ _ _ => n

def content : Element → Str
  | mk _ c _ _ => c

def attrs : Element → Attrs
  | mk _ _ a _ => a

def children : Element → List Element
  | mk _ _ _ cs => cs

/-- A new element with a name only. -/
def new (name : Str) : Element := mk name [] KeySet.empty []

/-- `AddAttribute`: insert or assign. -/
def addAttribute (e : Element) (name value : Str) : Element :=
  mk e.name e.content ((e.attrs.erase name).insert (name, value)) e.children

/-- `SetContent`. -/
def setContent (e : Element) (content : Str) : Eval Element :=
  if e.children.length ≠ 0 then throwExn (.xml "Cannot have both content and children".toList)
  else .ok (mk e.name content e.attrs e.children)

/-- `AddChild` at the end; the child is passed as it is when it is complete. -/
def addChild (e child : Element) : Eval Element :=
  if e.content ≠ [] then throwExn (.xml "Cannot have both content and children".toList)
  else .ok (mk e.name e.content e.attrs (e.children ++ [child]))

/-- `GetAttributeValue` by name. -/
def getAttributeValue (e : Element) (key : Str) : Eval Str :=
  match e.attrs.find? key with
  | some a => .ok a.2
  | none => throwExn (.xml ("Attribute ".toList ++ key ++ " not found".toList))

/-- `GetChild` by index. -/
def getChildAt (e : Element) (index : Nat) : Eval Element :=
  match e.children[index]? with
  | some c => .ok c
  | none => throwExn (.xml ("Child ".toList ++ Nat.toDigits 10 index ++
      " not found, child count = ".toList ++ Nat.toDigits 10 e.children.length))

/-- `GetChild` by name: the first child with the name. -/
def getChild (e : Element) (name : Str) : Eval Element :=
  match e.children.find? (fun c => c.name = name) with
  | some c => .ok c
  | none => throwExn (.xml ("Child ".toList ++ name ++ " not found".toList))

end Element

/-- `Document`. -/
structure Document where
  root : Element
  version : Str
  encoding : Str
  standalone : Str

/-- `NewDocument` without a header. -/
def newDocument (rootName : Str) : Document := ⟨Element.new rootName, [], [], []⟩

/-! ## 2. Entity references -/

/-- The lines of `EntityRefTable`: the three representations and the character they stand for. -/
def entityRefTable : List (List Str × Char) :=
  [(["&amp;".toList, "&#38;".toList, "&#x26;".toList], '&'),
   (["&lt;".toList, "&#60;".toList, "&#x3C;".toList], '<'),
   (["&gt;".toList, "&#62;".toList, "&#x3E;".toList], '>'),
   (["&quot;".toList, "&#34;".toList, "&#x22;".toList], '"'),
   (["&apos;".toList, "&#39;".toList, "&#x27;".toList], '\'')]

/-- The first representation of a character that `InsertEntityRef` replaces. -/
def entityRef (c : Char) : Option Str :=
  (entityRefTable.find? fun line => line.2 = c).bind fun line => line.1.head?

/-- The comparison loop of `CheckEntityRef`: it ends without a difference when either text ends,
    and answers how much of the second one it read. -/
def matchRef : Str → Str → Option Nat
  | [], _ => some 0
  | _ :: _, [] => some 0
  | w :: ws, c :: cs =>
    if c = nul then some 0
    else if w ≠ c then none
    else (matchRef ws cs).map (· + 1)

/-- `CheckEntityRef` over the three columns of one line. -/
def checkEntityRef (text : Str) (line : List Str × Char) : Option (Char × Nat) :=
  (line.1.findSome? fun word => matchRef word text).map fun count => (line.2, count)

/-- The loop of `SubstituteEntityRef`, the cursor at `pos`; the bound is three short of the last
    character of the content as it is by then. -/
def substituteLoop : Nat → Nat → Str → Str
  | 0, _, c => c
  | n + 1, pos, c =>
    if pos + 3 < c.length then
      match entityRefTable.findSome? (checkEntityRef (c.drop pos)) with
      | some (ch, count) => substituteLoop n (pos + 1) (c.take pos ++ ch :: c.drop (pos + count))
      | none => substituteLoop n (pos + 1) c
    else c

/-- `SubstituteEntityRef`: the cursor moves on by one each time and the content never grows, so the
    length bounds the number of rounds. -/
def substituteEntityRef (content : Str) : Str := substituteLoop content.length 0 content

/-- The loop of `InsertEntityRef`, the cursor at `pos`; behind a replacement it stands four
    characters further (`pos + 3`, then the increment). -/
def insertLoop : Nat → Nat → Str → Str
  | 0, _, content => content
  | n + 1, pos, content =>
    match content[pos]? with
    | none => content
    | some ch =>
      match entityRef ch with
      | some ref => insertLoop n (pos + 4) (content.take pos ++ ref ++ content.drop (pos + 1))
      | none => insertLoop n (pos + 1) content

/-- `InsertEntityRef`: at most three rounds for each character of the content. -/
def insertEntityRef (content : Str) : Str := insertLoop (3 * content.length + 1) 0 content

/-- What one character becomes. -/
def escapeChar (c : Char) : Str := (entityRef c).getD [c]

theorem entityRef_cases (c : Char) :
    (entityRef c = some "&amp;".toList ∧ c = '&') ∨ (entityRef c = some "&lt;".toList ∧ c = '<') ∨
    (entityRef c = some "&gt;".toList ∧ c = '>') ∨ (entityRef c = some "&quot;".toList ∧ c = '"') ∨
    (entityRef c = some "&apos;".toList ∧ c = '\'') ∨
    (entityRef c = none ∧ c ≠ '&' ∧ c ≠ '<' ∧ c ≠ '>' ∧ c ≠ '"' ∧ c ≠ '\'') := by
  by_cases h1 : c = '&'
  · subst h1; exact Or.inl ⟨rfl, rfl⟩
  by_cases h2 : c = '<'
  · subst h2; exact Or.inr (Or.inl ⟨rfl, rfl⟩)
  by_cases h3 : c = '>'
  · subst h3; exact Or.inr (Or.inr (Or.inl ⟨rfl, rfl⟩))
  by_cases h4 : c = '"'
  · subst h4; exact Or.inr (Or.inr (Or.inr (Or.inl ⟨rfl, rfl⟩)))
  by_cases h5 : c = '\''
  · subst h5; exact Or.inr (Or.inr (Or.inr (Or.inr (Or.inl ⟨rfl, rfl⟩))))
  · refine Or.inr (Or.inr (Or.inr (Or.inr (Or.inr ⟨?_, h1, h2, h3, h4, h5⟩))))
    have hf : (entityRefTable.find? fun line => line.2 = c) = none := by
      simp [entityRefTable, Ne.symm h1, Ne.symm h2, Ne.symm h3, Ne.symm h4, Ne.symm h5]
    unfold entityRef
    rw [hf]
    rfl

/-- The characters behind the fourth of a reference are passed over one by one: none is special. -/
theorem insertLoop_plain {n pos : Nat} {content : Str} (ch : Char) (h : content[pos]? = some ch)
    (hp : entityRef ch = none) :
    insertLoop (n + 1) pos content = insertLoop n (pos + 1) content := by
  simp only [insertLoop, h, hp]

theorem insertLoop_eq : ∀ (rest done : Str) (n : Nat), 3 * rest.length < n →
    insertLoop n done.length (done ++ rest) = done ++ rest.flatMap escapeChar
  | [], done, n + 1, _ => by simp [insertLoop]
  | c :: cs, done, n + 1, h => by
      have hc : (done ++ c :: cs)[done.length]? = some c := by simp
      have htake : (done ++ c :: cs).take done.length = done := by simp
      have hdrop : (done ++ c :: cs).drop (done.length + 1) = cs := by
        rw [List.drop_append, List.drop_of_length_le (by omega)]
        simp
      rw [List.length_cons] at h
      -- behind a reference the cursor stands on its last characters, none of them special
      have step4 : ∀ (a b d e : Char), 3 * cs.length < n →
          insertLoop n (done.length + 4) (done ++ [a, b, d, e] ++ cs) =
            done ++ [a, b, d, e] ++ cs.flatMap escapeChar := by
        intro a b d e hn
        have := insertLoop_eq cs (done ++ [a, b, d, e]) n hn
        simpa using this
      simp only [insertLoop, hc]
      rcases entityRef_cases c with ⟨hr, _⟩ | ⟨hr, _⟩ | ⟨hr, _⟩ | ⟨hr, _⟩ | ⟨hr, _⟩ | ⟨hr, _⟩
      · simp only [hr, htake, hdrop, List.flatMap_cons, escapeChar, Option.getD_some]
        obtain ⟨m, rfl⟩ : ∃ m, n = m + 1 := ⟨n - 1, by omega⟩
        rw [insertLoop_plain ';' (by simp) rfl]
        have := insertLoop_eq cs (done ++ "&amp;".toList) m (by omega)
        simpa using this
      · simp only [hr, htake, hdrop, List.flatMap_cons, escapeChar, Option.getD_some]
        have := step4 '&' 'l' 't' ';' (by omega)
        simpa using this
      · simp only [hr, htake, hdrop, List.flatMap_cons, escapeChar, Option.getD_some]
        have := step4 '&' 'g' 't' ';' (by omega)
        simpa using this
      · simp only [hr, htake, hdrop, List.flatMap_cons, escapeChar, Option.getD_some]
        obtain ⟨m, rfl⟩ : ∃ m, n = m + 2 := ⟨n - 2, by omega⟩
        rw [insertLoop_plain 't' (by simp) rfl,
          insertLoop_plain ';' (by simp [Nat.add_assoc]) rfl]
        have := insertLoop_eq cs (done ++ "&quot;".toList) m (by omega)
        simpa using this
      · simp only [hr, htake, hdrop, List.flatMap_cons, escapeChar, Option.getD_some]
        obtain ⟨m, rfl⟩ : ∃ m, n = m + 2 := ⟨n - 2, by omega⟩
        rw [insertLoop_plain 's' (by simp) rfl,
          insertLoop_plain ';' (by simp [Nat.add_assoc]) rfl]
        have := insertLoop_eq cs (done ++ "&apos;".toList) m (by omega)
        simpa using this
      · simp only [hr, List.flatMap_cons, escapeChar, Option.getD_none]
        have := insertLoop_eq cs (done ++ [c]) n (by omega)
        simpa using this

/-- **The in-place loop replaces every special character by its reference, once.** -/
theorem insertEntityRef_eq (content : Str) :
    insertEntityRef content = content.flatMap escapeChar :=
  insertLoop_eq content [] _ (Nat.lt_succ_self _)

/-- A text without special characters. -/
def Plain (content : Str) : Prop :=
  ∀ c ∈ content, c ≠ '&' ∧ c ≠ '<' ∧ c ≠ '>' ∧ c ≠ '"' ∧ c ≠ '\''

instance (content : Str) : Decidable (Plain content) := List.decidableBAll _ content

theorem insertEntityRef_plain {content : Str} (h : Plain content) :
    insertEntityRef content = content := by
  rw [insertEntityRef_eq]
  induction content with
  | nil => rfl
  | cons c cs ih =>
    obtain ⟨h1, h2, h3, h4, h5⟩ := h c List.mem_cons_self
    have hc : escapeChar c = [c] := by
      rcases entityRef_cases c with ⟨_, e⟩ | ⟨_, e⟩ | ⟨_, e⟩ | ⟨_, e⟩ | ⟨_, e⟩ | ⟨hr, _⟩
      · exact absurd e h1
      · exact absurd e h2
      · exact absurd e h3
      · exact absurd e h4
      · exact absurd e h5
      · simp [escapeChar, hr]
    rw [List.flatMap_cons, hc, ih fun x hx => h x (List.mem_cons_of_mem c hx)]
    rfl

/-! ## 3. Printing -/

/-- The order in which an unordered map is walked. -/
structure AttrOrder where
  walk : List (Str × Str) → List (Str × Str)
  perm : ∀ l, (walk l).Perm l

/-- `" key=\"value\""`. -/
def attrText (a : Str × Str) : Str := " ".toList ++ a.1 ++ "=\"".toList ++ a.2 ++ "\"".toList

mutual

/-- `operator<<` on an element. -/
def Element.toText (ord : AttrOrder) : Element → Str
  | .mk name content attrs children =>
    "<".toList ++ name ++ (ord.walk attrs.elems).flatMap attrText ++
      if content.isEmpty && children.isEmpty then " />".toList
      else ">".toList ++ insertEntityRef content ++ childrenText ord children ++
        "</".toList ++ name ++ ">".toList

/-- The children, one after the other. -/
def childrenText (ord : AttrOrder) : List Element → Str
  | [] => []
  | c :: cs => c.toText ord ++ childrenText ord cs

end

/-- `Document::ToString`. -/
def Document.toString (ord : AttrOrder) (doc : Document) : Str :=
  (if doc.version.isEmpty && doc.encoding.isEmpty && doc.standalone.isEmpty then []
   else "<?xml".toList ++
     ([("version".toList, doc.version), ("encoding".toList, doc.encoding),
       ("standalone".toList, doc.standalone)].filter (fun a => !a.2.isEmpty)).flatMap attrText ++
     " ?>".toList) ++
  doc.root.toText ord

end Veridie.Xml
