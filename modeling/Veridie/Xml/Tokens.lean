/-
  File:      Veridie/Xml/Tokens.lean
  Subject:   The token passes of dice/xmlparser.hpp: `Tokenize`, `RemoveGaps`,
             `RemoveInsideComments`, `DetermineToken` and `RemoveLeadingComments`.

  A token list is a list of pointers; the text between two successive pointers is a token. The
  source walks it with a left and a right iterator in lock step; here a pass recurses over the list
  with the left pointer first and the right pointer second.
-/
import Veridie.Xml.Memory

namespace Veridie.Xml

/-! ## 1. `Tokenize` -/

/-- The loop of `Tokenize`: `prev` is `*(pit - 1)`, the list is the text from `pit` on (empty at the
    terminator). The pointers pushed, and `pit` at the end. -/
def tokenizeLoop : Char → Nat → Str → List Nat × Nat
  | _, pit, [] => ([], pit)
  | prev, pit, c :: rest =>
    if c = nul then ([], pit)
    else
      let r := tokenizeLoop c (pit + 1) rest
      if c = '<' then (pit :: r.1, r.2)
      else if prev = '>' then (pit :: r.1, r.2)
      else r

/-- `Tokenize`: each pointer at a `<` or behind a `>`, the last one at the terminator. The loop
    starts at `text + 1`, which lies behind the terminator of the empty text. -/
def tokenize (s : Str) : Eval (List Nat) :=
  match s with
  | [] => undefined .read
  | c :: rest => do
    let r := tokenizeLoop c 1 rest
    let back := (0 :: r.1).getLast (List.cons_ne_nil _ _)
    let last ← charAt s back
    if last ≠ nul then .ok ((0 :: r.1) ++ [r.2]) else .ok (0 :: r.1)

/-! ## 2. `RemoveGaps` -/

/-- `RemoveGaps`: the left pointer of a token of whitespace only is erased, so that the whitespace
    joins the token before. -/
def removeGaps (s : Str) : List Nat → Eval (List Nat)
  | l :: r :: rest => do
    let wspaceOnly ← allOf isSpace s l r
    let ts ← removeGaps s (r :: rest)
    if wspaceOnly then .ok ts else .ok (l :: ts)
  | ts => .ok ts

/-! ## 3. `RemoveInsideComments` -/

/-- `IsCommentStart`. -/
def isCommentStart (s : Str) (p : Nat) : Eval Bool := agrees s p "<!--".toList

/-- `IsCommentEnd`. -/
def isCommentEnd (s : Str) (p : Nat) : Eval Bool := agrees s p "-->".toList

/-- What the scan of one token found: whether a comment is open behind it, and whether one ended. -/
structure Scan where
  opened : Bool
  ended : Bool
  deriving DecidableEq, Repr

/-- The inner loop: `n` characters from `pit` on, `skip` of them passed over (`pit += 3`). -/
def scanToken (s : Str) : Nat → Nat → Nat → Bool → Eval Scan
  | 0, _, _, opened => .ok ⟨opened, false⟩
  | n + 1, pit, skip + 1, opened => scanToken s n (pit + 1) skip opened
  | n + 1, pit, 0, false => do
    let start ← isCommentStart s pit
    if start then scanToken s n (pit + 1) 3 true else scanToken s n (pit + 1) 0 false
  | n + 1, pit, 0, true => do
    let stop ← isCommentEnd s pit
    if stop then .ok ⟨true, true⟩ else scanToken s n (pit + 1) 0 true

/-- `RemoveInsideComments`. The optional list is the pointers from `it_erase_from` up to the left
    pointer, kept back (last first) while a comment is open: they go when it ends and stay when it
    never does. -/
def removeInsideComments (s : Str) : Option (List Nat) → List Nat → Eval (List Nat)
  | none, l :: r :: rest => do
    let sc ← scanToken s (r - l) l 0 false
    let ts ← removeInsideComments s (if sc.opened && !sc.ended then some [] else none) (r :: rest)
    .ok (l :: ts)
  | some kept, l :: r :: rest => do
    let sc ← scanToken s (r - l) l 0 true
    if sc.ended then removeInsideComments s none (r :: rest)
    else removeInsideComments s (some (l :: kept)) (r :: rest)
  | none, ts => .ok ts
  | some kept, ts => .ok (kept.reverse ++ ts)

/-! ## 4. `DetermineToken` and `RemoveLeadingComments` -/

/-- The values of `Token` that `DetermineToken` returns; `openClose` is `OPEN | CLOSE`. -/
inductive Token where
  | opening | closing | openClose | content | comment | error
  deriving DecidableEq, Repr

/-- `DetermineToken`. -/
def determineToken (s : Str) (b e : Nat) : Eval Token := do
  let first ← charAt s b
  if first ≠ '<' then .ok .content
  else do
    let second ← charAt s (b + 1)
    if second = '/' then .ok .closing
    else do
      let comment ← isCommentStart s b
      if comment then .ok .comment
      else do
        let p ← findIf (· = '>') s b e
        if p = e then .ok .error
        else do
          let last ← charAt s (p - 1)
          if last = '/' then .ok .openClose else .ok .opening

/-- `RemoveLeadingComments`: the right iterator is dereferenced before every test. -/
def removeLeadingComments (s : Str) : List Nat → Eval (List Nat)
  | l :: r :: rest => do
    let what ← determineToken s l r
    if what = .comment then removeLeadingComments s (r :: rest) else .ok (l :: r :: rest)
  | _ => undefined .listEnd

end Veridie.Xml
