/-
  File:      Veridie/Dice/Cast.lean
  Subject:   Dice, casts and the four messages (dice/cast.hpp, dice/serializer.hpp), the engine
             (dice/engine.cpp) and what StatePlaying computes from them (`Matches`,
             `GenerateResponse`).
-/
import Veridie.Base

namespace Veridie.Dice

/-- The alternatives of `dice::Cast`. -/
inductive Die where
  | d4 | d6 | d8 | d10 | d12 | d16 | d20 | d100
  deriving DecidableEq, Repr

/-- `SimpleValue::MIN`. -/
def Die.min (_ : Die) : Nat := 1

/-- `SimpleValue::MAX`. -/
def Die.max : Die → Nat
  | .d4 => 4
  | .d6 => 6
  | .d8 => 8
  | .d10 => 10
  | .d12 => 12
  | .d16 => 16
  | .d20 => 20
  | .d100 => 100

/-- `max_size()` of a vector of four-byte values on a 64-bit target. -/
def maxSize : Nat := 2 ^ 61 - 1

/-- A cast: the kind of die and the value of each die, 0 for one not rolled yet. A vector never
    holds more than `maxSize` values. -/
structure Cast where
  die : Die
  values : List UInt32
  size_le : values.length ≤ maxSize
  deriving DecidableEq, Repr

theorem Cast.ext_values {a b : Cast} (hd : a.die = b.die) (hv : a.values = b.values) : a = b := by
  cases a
  cases b
  cases hd
  cases hv
  rfl

structure Request where
  cast : Cast
  threshold : Option UInt32
  deriving DecidableEq, Repr

structure Response where
  cast : Cast
  successCount : Option UInt64
  deriving DecidableEq, Repr

structure Hello where
  mac : Str
  deriving DecidableEq, Repr

structure Offer where
  mac : Str
  round : UInt32
  deriving DecidableEq, Repr

/-- What `ISerializer::Deserialize` returns. -/
inductive Message where
  | hello (h : Hello)
  | offer (o : Offer)
  | request (r : Request)
  | response (r : Response)
  deriving DecidableEq, Repr

/-! ## 1. Casts by name -/

/-- `TypeToString`. -/
def typeToString : Die → Str
  | .d4 => "D4".toList
  | .d6 => "D6".toList
  | .d8 => "D8".toList
  | .d10 => "D10".toList
  | .d12 => "D12".toList
  | .d16 => "D16".toList
  | .d20 => "D20".toList
  | .d100 => "D100".toList

/-- A vector of `size` value-initialised dice; the vector refuses more than `maxSize`. -/
def newDice (die : Die) (size : Nat) : Eval Cast :=
  if h : size ≤ maxSize then .ok ⟨die, List.replicate size 0, by rw [List.length_replicate]; exact h⟩
  else throwExn .lengthError

/-- `MakeCast`. -/
def makeCast (type : Str) (size : Nat) : Eval Cast :=
  if type = "D4".toList then newDice .d4 size
  else if type = "D6".toList then newDice .d6 size
  else if type = "D8".toList then newDice .d8 size
  else if type = "D10".toList then newDice .d10 size
  else if type = "D12".toList then newDice .d12 size
  else if type = "D16".toList then newDice .d16 size
  else if type = "D20".toList then newDice .d20 size
  else if type = "D100".toList then newDice .d100 size
  else throwExn (.invalidArgument ("MakeCast(): Invalid cast type: ".toList ++ type))

/-- `MakeCast` reads back every name `TypeToString` writes. -/
theorem makeCast_typeToString (die : Die) (size : Nat) :
    makeCast (typeToString die) size = newDice die size := by
  cases die <;> rfl

/-- A cast as `MakeCast` builds it: no die rolled. -/
def Cast.Unrolled (c : Cast) : Prop := c.values = List.replicate c.values.length 0

theorem newDice_unrolled {c : Cast} (h : c.Unrolled) : newDice c.die c.values.length = .ok c := by
  unfold newDice
  rw [dif_pos c.size_le]
  exact congrArg Except.ok (Cast.ext_values rfl h.symm)

theorem newDice_defined (die : Die) (size : Nat) : Defined (newDice die size) := by
  unfold newDice
  split
  · exact defined_ok _
  · exact defined_throwExn _

theorem makeCast_defined (type : Str) (size : Nat) : Defined (makeCast type size) := by
  unfold makeCast
  iterate 8 (split; · exact newDice_defined _ _)
  exact defined_throwExn _

/-! ## 2. The engine -/

/-- The numbers the generator yields for one cast, in order. `std::uniform_int_distribution` maps
    them into the range of the die; every sequence of values in the range arises from some
    sequence of numbers. -/
abbrev Roll := Nat → Nat

/-- `dist(m_generator)`, the `i`-th draw. -/
def draw (die : Die) (roll : Roll) (i : Nat) : UInt32 :=
  UInt32.ofNat (die.min + roll i % (die.max - die.min + 1))

/-- `UniformEngine::GenerateResult`: every die drawn, then the values sorted. -/
def generateResult (roll : Roll) (cast : Cast) : Cast :=
  ⟨cast.die, ((List.range cast.values.length).map (draw cast.die roll)).insertionSort (· ≤ ·), by
    rw [List.length_insertionSort, List.length_map, List.length_range]
    exact cast.size_le⟩

@[simp] theorem generateResult_die (roll : Roll) (c : Cast) :
    (generateResult roll c).die = c.die := rfl

@[simp] theorem generateResult_length (roll : Roll) (c : Cast) :
    (generateResult roll c).values.length = c.values.length := by
  unfold generateResult
  rw [List.length_insertionSort, List.length_map, List.length_range]

/-- Every rolled value lies in the range of its die. -/
theorem generateResult_range (roll : Roll) (c : Cast) {v : UInt32}
    (hv : v ∈ (generateResult roll c).values) : c.die.min ≤ v.toNat ∧ v.toNat ≤ c.die.max := by
  have hv' : v ∈ (List.range c.values.length).map (draw c.die roll) :=
    (List.perm_insertionSort _ _).mem_iff.mp hv
  obtain ⟨i, _, rfl⟩ := List.mem_map.mp hv'
  have hlt := Nat.mod_lt (roll i) (show 0 < c.die.max - c.die.min + 1 by omega)
  have hmin : c.die.min = 1 := rfl
  have hmax : 1 ≤ c.die.max ∧ c.die.max ≤ 100 := by cases c.die <;> decide
  have hval : (draw c.die roll i).toNat =
      c.die.min + roll i % (c.die.max - c.die.min + 1) := by
    unfold draw
    rw [UInt32.toNat_ofNat_of_lt']
    show _ < 2 ^ 32
    omega
  rw [hval]
  omega

/-- Number of dice not below the threshold. -/
def successes (values : List UInt32) (threshold : UInt32) : Nat :=
  values.countP fun v => threshold ≤ v

/-- `GetSuccessCount`. -/
def getSuccessCount (cast : Cast) (threshold : UInt32) : UInt64 :=
  UInt64.ofNat (successes cast.values threshold)

/-- The count fits its type. -/
theorem getSuccessCount_toNat (cast : Cast) (threshold : UInt32) :
    (getSuccessCount cast threshold).toNat = successes cast.values threshold := by
  have h1 : successes cast.values threshold ≤ cast.values.length := List.countP_le_length
  have h2 := cast.size_le
  unfold getSuccessCount
  rw [UInt64.toNat_ofNat_of_lt']
  show _ < 2 ^ 64
  have h3 : maxSize < 2 ^ 64 := by decide
  omega

/-! ## 3. Answers -/

/-- `GenerateResponse`. -/
def generateResponse (roll : Roll) (request : Request) : Response :=
  let cast := generateResult roll request.cast
  ⟨cast, request.threshold.map (getSuccessCount cast)⟩

/-- `Matches`; a null request matches nothing. -/
def matchesRequest (response : Response) : Option Request → Bool
  | none => false
  | some request =>
    if response.cast.die ≠ request.cast.die then false
    else if response.cast.values.length ≠ request.cast.values.length then false
    else response.successCount.isSome == request.threshold.isSome

/-- The answer to a request matches every pending request of the same shape. -/
theorem matchesRequest_generateResponse (roll : Roll) {req pending : Request}
    (hd : req.cast.die = pending.cast.die)
    (hs : req.cast.values.length = pending.cast.values.length)
    (ht : req.threshold.isSome = pending.threshold.isSome) :
    matchesRequest (generateResponse roll req) (some pending) = true := by
  simp [matchesRequest, generateResponse, hd, hs, ht]

end Veridie.Dice
