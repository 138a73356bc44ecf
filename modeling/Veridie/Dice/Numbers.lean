/-
  File:      Veridie/Dice/Numbers.lean
  Subject:   `std::to_string`, `std::stoul` and `std::stoi` as the serializer uses them (base ten,
             64-bit `unsigned long`, 32-bit `int`).

  * `stoul_toString` -- `stoul` reads back what `to_string` writes;
  * `stoi_toString`, `stoi_toString_overflow` -- `stoi` does so up to `INT_MAX` and throws beyond.
-/
import Veridie.Base
import Veridie.Xml.Memory

namespace Veridie.Dice

open Veridie.Xml (isSpace digit_toNat)

/-- `std::to_string` of an unsigned number. -/
def toString (n : Nat) : Str := Nat.toDigits 10 n

/-- What `strtoul` and `strtol` find: a sign and the digits behind it. -/
structure Numeral where
  negative : Bool
  digits : Str

/-- Leading white space, an optional sign, then as many digits as follow. -/
def scanNumeral (text : Str) : Numeral :=
  match text.dropWhile isSpace with
  | '-' :: rest => ⟨true, rest.takeWhile Char.isDigit⟩
  | '+' :: rest => ⟨false, rest.takeWhile Char.isDigit⟩
  | rest => ⟨false, rest.takeWhile Char.isDigit⟩

/-- The number the digits denote. -/
def Numeral.magnitude (n : Numeral) : Nat := Nat.ofDigitChars 10 n.digits 0

/-- `std::stoul`: a negative numeral wraps around. -/
def stoul (text : Str) : Eval UInt64 :=
  let n := scanNumeral text
  if n.digits = [] then throwExn (.invalidArgument "stoul".toList)
  else if 2 ^ 64 ≤ n.magnitude then throwExn (.outOfRange "stoul".toList)
  else .ok (if n.negative then UInt64.ofNat (2 ^ 64 - n.magnitude) else UInt64.ofNat n.magnitude)

/-- The value of a signed numeral. -/
def Numeral.value (n : Numeral) : Int := if n.negative then -n.magnitude else n.magnitude

/-- `std::stoi`: `strtol` and a range check for `int`. -/
def stoi (text : Str) : Eval Int :=
  let n := scanNumeral text
  if n.digits = [] then throwExn (.invalidArgument "stoi".toList)
  else if n.value < -2 ^ 31 ∨ 2 ^ 31 ≤ n.value then throwExn (.outOfRange "stoi".toList)
  else .ok n.value

/-! ## 1. Reading back what was written -/

theorem isDigit_toString {n : Nat} {c : Char} (h : c ∈ toString n) : c.isDigit = true :=
  Nat.isDigit_of_mem_toDigits (by decide) (by decide) h

theorem toString_ne_nil (n : Nat) : toString n ≠ [] := Nat.toDigits_ne_nil

theorem digit_not_space {c : Char} (h : c.isDigit = true) : isSpace c = false := by
  obtain ⟨h1, h2⟩ := digit_toNat h
  simp only [isSpace, Bool.or_eq_false_iff, Bool.and_eq_false_iff, decide_eq_false_iff_not]
  omega

/-- A digit string is one numeral without a sign. -/
theorem scanNumeral_digits {ds : Str} (hne : ds ≠ []) (hd : ∀ c ∈ ds, c.isDigit = true) :
    scanNumeral ds = ⟨false, ds⟩ := by
  cases ds with
  | nil => exact absurd rfl hne
  | cons c cs =>
    have hc := hd c List.mem_cons_self
    obtain ⟨h1, h2⟩ := digit_toNat hc
    have hdrop : (c :: cs).dropWhile isSpace = c :: cs := by
      rw [List.dropWhile_cons_of_neg]
      rw [digit_not_space hc]
      exact Bool.false_ne_true
    have htake : (c :: cs).takeWhile Char.isDigit = c :: cs := List.takeWhile_eq_self_iff.mpr hd
    have hm : c ≠ '-' := by rintro rfl; exact absurd h1 (by decide)
    have hp : c ≠ '+' := by rintro rfl; exact absurd h1 (by decide)
    unfold scanNumeral
    rw [hdrop]
    split
    · rename_i heq
      exact absurd (List.cons.inj heq).1 hm
    · rename_i heq
      exact absurd (List.cons.inj heq).1 hp
    · rw [htake]

theorem scanNumeral_toString (n : Nat) : scanNumeral (toString n) = ⟨false, toString n⟩ :=
  scanNumeral_digits (toString_ne_nil n) fun _ => isDigit_toString

theorem magnitude_toString (n : Nat) (neg : Bool) : (Numeral.mk neg (toString n)).magnitude = n :=
  Nat.ofDigitChars_ten_toDigits

/-- **`stoul` reads back what `to_string` writes.** -/
theorem stoul_toString {n : Nat} (h : n < 2 ^ 64) : stoul (toString n) = .ok (UInt64.ofNat n) := by
  unfold stoul
  simp only [scanNumeral_toString, magnitude_toString]
  rw [if_neg (toString_ne_nil n), if_neg (Nat.not_le.mpr h), if_neg Bool.false_ne_true]

/-- `stoi` reads back what `to_string` writes up to `INT_MAX`. -/
theorem stoi_toString {n : Nat} (h : n < 2 ^ 31) : stoi (toString n) = .ok (n : Int) := by
  unfold stoi
  have hv : (Numeral.mk false (toString n)).value = (n : Int) := by
    simp only [Numeral.value, magnitude_toString]
    rfl
  simp only [scanNumeral_toString, hv]
  rw [if_neg (toString_ne_nil n), if_neg (by omega)]

/-- Beyond `INT_MAX` it throws. -/
theorem stoi_toString_overflow {n : Nat} (h : 2 ^ 31 ≤ n) :
    stoi (toString n) = throwExn (.outOfRange "stoi".toList) := by
  unfold stoi
  have hv : (Numeral.mk false (toString n)).value = (n : Int) := by
    simp only [Numeral.value, magnitude_toString]
    rfl
  simp only [scanNumeral_toString, hv]
  rw [if_neg (toString_ne_nil n), if_pos (by omega)]

theorem stoul_defined (text : Str) : Defined (stoul text) := by
  unfold stoul
  dsimp only
  split
  · exact defined_throwExn _
  · split
    · exact defined_throwExn _
    · exact defined_ok _

theorem stoi_defined (text : Str) : Defined (stoi text) := by
  unfold stoi
  dsimp only
  split
  · exact defined_throwExn _
  · split
    · exact defined_throwExn _
    · exact defined_ok _

end Veridie.Dice
