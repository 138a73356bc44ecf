/-
  File:      Veridie/Base.lean
  Subject:   Strings, exceptions and undefined behaviour, as every part of the model uses them.

  A computation that may throw or may step outside what the language defines returns `Eval α`. The
  two ways to stop are kept apart: an exception is caught by the callers that catch it, undefined
  behaviour never is.
-/
import Mathlib

namespace Veridie

/-- A `std::string`. A byte is the character of its code; nothing here asks for more than the
    ASCII range to be told apart. -/
abbrev Str := List Char

/-- Strings are equal when their characters are. -/
instance : LawfulBEq Str := inferInstance

/-- The string terminator. -/
def nul : Char := '\x00'

/-- The exceptions the code throws, with their texts. -/
inductive Exn where
  | xml (what : Str)
  | invalidArgument (what : Str)
  | outOfRange (what : Str)
  | lengthError
  deriving DecidableEq, Repr

/-- What the text-walking code can do outside the language's rules. -/
inductive Ub where
  /-- a character read outside the string and its terminator -/
  | read
  /-- the end of the token list dereferenced -/
  | listEnd
  /-- a search over a range whose first pointer is beyond its last -/
  | range
  /-- the top of an empty element stack -/
  | emptyStack
  /-- an end iterator dereferenced, or a division by zero -/
  | endIterator
  deriving DecidableEq, Repr

/-- Why a computation gives no value. -/
inductive Stop where
  | exn (e : Exn)
  | ub (u : Ub)
  deriving DecidableEq, Repr

abbrev Eval := Except Stop

/-- `throw e`. -/
def throwExn {α : Type} (e : Exn) : Eval α := .error (.exn e)

/-- The computation runs into undefined behaviour. -/
def undefined {α : Type} (u : Ub) : Eval α := .error (.ub u)

@[simp] theorem ok_bind {α β : Type} (a : α) (f : α → Eval β) : ((.ok a : Eval α) >>= f) = f a := rfl

@[simp] theorem error_bind {α β : Type} (e : Stop) (f : α → Eval β) :
    ((.error e : Eval α) >>= f) = .error e := rfl

/-- The outcome is a value or an exception. -/
def Defined {α : Type} (x : Eval α) : Prop := ∀ u, x ≠ .error (.ub u)

instance {α : Type} (x : Eval α) : Decidable (Defined x) :=
  match x with
  | .ok _ => isTrue fun _ h => nomatch h
  | .error (.exn _) => isTrue fun _ h => by cases h
  | .error (.ub u) => isFalse fun h => h u rfl

@[simp] theorem defined_ok {α : Type} (a : α) : Defined (.ok a : Eval α) := fun _ h => nomatch h

@[simp] theorem defined_pure {α : Type} (a : α) : Defined (pure a : Eval α) := fun _ h => nomatch h

@[simp] theorem defined_throwExn {α : Type} (e : Exn) : Defined (throwExn e : Eval α) := by
  intro u h
  cases h

@[simp] theorem not_defined_undefined {α : Type} (u : Ub) : ¬ Defined (undefined u : Eval α) :=
  fun h => h u rfl

/-- **A sequence is defined exactly when its first part is and what follows it is.** -/
theorem defined_bind {α β : Type} {x : Eval α} {f : α → Eval β} :
    Defined (x >>= f) ↔ Defined x ∧ ∀ a, x = .ok a → Defined (f a) := by
  cases x with
  | ok a => exact ⟨fun h => ⟨defined_ok a, fun b hb => by cases hb; exact h⟩, fun h => h.2 a rfl⟩
  | error e =>
    refine ⟨fun h => ⟨fun u hu => h u ?_, fun a ha => nomatch ha⟩, fun h u hu => h.1 u ?_⟩
    · cases hu
      rfl
    · cases hu
      rfl

end Veridie
