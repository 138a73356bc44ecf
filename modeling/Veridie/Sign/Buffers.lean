/-
  File:      Veridie/Sign/Buffers.lean
  Subject:   The buffers in which a command keeps its arguments (sign/commands.cpp,
             utils/format.hpp), `GetArgAt`, and what `JavaInvoker::PassCommand` reads of them.

  Each argument has a buffer: a byte for the length of its text, the text, and zeros. The first one
  is long, the others are short, and they lie one behind the other. A text that does not fit is cut.

  * `writeAsText`, `format`, `writeToBuffer` -- how an argument is written;
  * `memory` -- the buffers of a command; `getArgAt`, `cString` -- the two ways to read them;
  * `Cmd.traits`, `Cmd.args` -- the class of each command and what it is given;
  * `written_eq` -- a text that fits is written as it is;
  * `getArgAt_reads_back_iff` -- when `GetArgAt` gives back what was written;
  * `passed_inside_iff` -- when the text that reaches Java ends inside its own buffer.
-/
import Veridie.Sign.Commands
import Veridie.Dice.Numbers

namespace Veridie.Sign

open Veridie.Dice

/-! ## 1. Formatting -/

/-- An argument of a command. -/
inductive Arg where
  | text (s : Str)
  | number (n : Int)
  | flag (b : Bool)
  | cast (c : Cast)
  deriving DecidableEq

/-- The digits of a number, with its sign. -/
def digits (n : Int) : Str :=
  if n < 0 then '-' :: toString n.natAbs else toString n.natAbs

/-- What `std::to_chars` leaves in a buffer that is too small for the number: anything. -/
structure Leftover where
  fill : Nat → Str
  length_fill : ∀ room, (fill room).length = room

/-- `std::to_chars`: too large a number fills the buffer all the same. -/
def toChars (l : Leftover) (n : Int) (room : Nat) : Str :=
  if (digits n).length ≤ room then digits n else l.fill room

/-- `CopyUntilPlaceholder`: what is copied, and the format behind it. -/
def copyUntilPlaceholder : Str → Nat → Str × Str
  | src, 0 => ([], src)
  | [], _ + 1 => ([], [])
  | c :: src, room + 1 =>
    if c = '{' ∧ src.head? = some '}' then ([], src.tail)
    else
      let (copied, rest) := copyUntilPlaceholder src room
      (c :: copied, rest)

/-- `fmt::Format` with one argument: what it writes into a buffer with this much room. -/
def format (fmt : Str) (write : Nat → Str) (room : Nat) : Str :=
  let (copied, fmt) := copyUntilPlaceholder fmt room
  if room - copied.length = 0 then copied
  else
    let written := write (room - copied.length)
    copied ++ written ++ (copyUntilPlaceholder fmt (room - copied.length - written.length)).1

/-- `WriteAsText` of a cast: die by die into what is left of the buffer. -/
def writeDice (l : Leftover) : List UInt32 → Nat → Str
  | [], _ => []
  | v :: values, room =>
    let text := format "{};".toList (toChars l v.toNat) room
    text ++ writeDice l values (room - text.length)

/-- `WriteAsText`. -/
def writeAsText (l : Leftover) (arg : Arg) (room : Nat) : Str :=
  match arg with
  | .text s => s.take room
  | .number n => toChars l n room
  | .flag b => (if b then "true".toList else "false".toList).take room
  | .cast c => writeDice l c.values room

/-! ## 2. The buffers of a command -/

/-- `Traits`, `LongTraits` and `ExtraLongTraits`. -/
inductive Traits where
  | plain | long | extraLong
  deriving DecidableEq, Repr

/-- `LONG_BUFFER_SIZE`. -/
def Traits.longBufferSize : Traits → Nat
  | plain => 32
  | long => 256
  | extraLong => 1024

/-- `SHORT_BUFFER_SIZE`. -/
def Traits.shortBufferSize : Traits → Nat
  | plain => 24
  | long => 32
  | extraLong => 32

/-- The size of the buffer of an argument. -/
def Traits.bufferSize (k : Traits) (i : Nat) : Nat :=
  if i = 0 then k.longBufferSize else k.shortBufferSize

/-- Where the buffer of an argument starts. -/
def Traits.bufferStart (k : Traits) (i : Nat) : Nat :=
  if i = 0 then 0 else k.longBufferSize + (i - 1) * k.shortBufferSize

/-- The longest text an argument can have: `MAX_BUFFER_SIZE` for the first. -/
def Traits.capacity (k : Traits) (i : Nat) : Nat := k.bufferSize i - 1

/-- The text `WriteToBuffer` writes into a buffer for `capacity` characters. -/
def written (l : Leftover) (arg : Arg) (capacity : Nat) : Str :=
  format "{}".toList (writeAsText l arg) capacity

/-- `WriteToBuffer`, into a buffer of zeros. -/
def writeToBuffer (l : Leftover) (arg : Arg) (size : Nat) : Str :=
  let text := written l arg (size - 1)
  Char.ofNat (text.length % 256) :: (text ++ List.replicate (size - 1 - text.length) nul)

/-- `Base`: `m_longArgs`, then `m_shortArgs`. -/
def memory (l : Leftover) (k : Traits) : List Arg → Str
  | [] => []
  | arg :: args =>
    writeToBuffer l arg k.longBufferSize ++ args.flatMap fun a => writeToBuffer l a k.shortBufferSize

/-- `APP_UUID`. -/
def appUuid : Str := "76445157-4f39-42e9-a62e-877390cbb4bb".toList

/-- `APP_NAME`. -/
def appName : Str := "VeriDie".toList

/-- The traits of a command. -/
def Cmd.traits : Cmd → Traits
  | startListening | startDiscovery | sendMessage _ _ | showAndExit _ | showResponse _ _ _ _ => .long
  | sendLongMessage _ _ | showLongResponse _ _ _ _ => .extraLong
  | _ => .plain

/-- The arguments of a command, as its constructor is given them. -/
def Cmd.args : Cmd → List Arg
  | startListening => [.text appUuid, .text appName, .number 300]
  | startDiscovery => [.text appUuid, .text appName, .flag true]
  | closeConnection errorMsg mac => [.text errorMsg, .text mac]
  | negotiationStop nominee => [.text nominee]
  | sendMessage message mac | sendLongMessage message mac => [.text message, .text mac]
  | showAndExit text => [.text text]
  | showToast text seconds => [.text text, .number seconds]
  | showRequest type size threshold name =>
    [.text type, .number size, .number threshold.toNat, .text name]
  | showResponse cast type successCount name | showLongResponse cast type successCount name =>
    [.cast cast, .text type, .number successCount, .text name]
  | stopListening | stopDiscovery | enableBluetooth | negotiationStart | resetGame
  | resetConnections => []

/-- The text in the buffer of an argument. -/
def Cmd.stored (l : Leftover) (cmd : Cmd) (i : Nat) : Option Str :=
  cmd.args[i]?.map fun arg => written l arg (cmd.traits.capacity i)

/-! ## 3. Reading -/

/-- The C string at an address; nothing when it does not end inside the command. -/
def cString (mem : Str) (start : Nat) : Option Str :=
  if nul ∈ mem.drop start then some ((mem.drop start).takeWhile (· ≠ nul)) else none

/-- `static_cast<size_t>` of a `char`, which may be signed. -/
def charToSize (signed : Bool) (c : Char) : Nat :=
  if signed && 128 ≤ c.toNat then 2 ^ 64 - 256 + c.toNat else c.toNat

/-- A `std::string_view` into the command, unless it reaches beyond. -/
def view (mem : Str) (start size : Nat) : Option Str :=
  if start + size ≤ mem.length then some ((mem.drop start).take size) else none

/-- `GetArgAt`: the length is that of the C string where a byte cannot hold it. -/
def getArgAt (signed : Bool) (k : Traits) (mem : Str) (i : Nat) : Option Str :=
  if i = 0 ∧ 255 < k.longBufferSize - 1 then cString mem 1
  else
    match mem[k.bufferStart i]? with
    | some c => view mem (k.bufferStart i + 1) (charToSize signed c)
    | none => none

/-- What `JavaInvoker::PassCommand` reads: `NewStringUTF(GetArgAt(i).data())`. -/
def passedArg (k : Traits) (mem : Str) (i : Nat) : Option Str := cString mem (k.bufferStart i + 1)

/-- What Java gets as an argument of a command. -/
def Cmd.passed (l : Leftover) (cmd : Cmd) (i : Nat) : Option Str :=
  passedArg cmd.traits (memory l cmd.traits cmd.args) i

/-! ## 4. What is written -/

/-- The text of an argument. -/
def Arg.render : Arg → Str
  | text s => s
  | number n => digits n
  | flag b => if b then "true".toList else "false".toList
  | cast c => c.values.flatMap fun v => digits v.toNat ++ ";".toList

/-- A writer writes a text that fits, and fills the buffer otherwise. -/
structure Writes (write : Nat → Str) (text : Str) : Prop where
  fits : ∀ room, text.length ≤ room → write room = text
  fills : ∀ room, room < text.length → (write room).length = room

theorem Writes.length_le {write : Nat → Str} {text : Str} (h : Writes write text) (room : Nat) :
    (write room).length ≤ room := by
  rcases Nat.lt_or_ge room text.length with hlt | hge
  · exact Nat.le_of_eq (h.fills room hlt)
  · rw [h.fits room hge]
    exact hge

theorem writes_take (text : Str) : Writes (fun room => text.take room) text where
  fits := fun _ h => List.take_of_length_le h
  fills := fun room h => by
    rw [List.length_take]
    omega

theorem writes_toChars (l : Leftover) (n : Int) : Writes (toChars l n) (digits n) where
  fits := fun _ h => if_pos h
  fills := fun room h => by
    unfold toChars
    rw [if_neg (Nat.not_le.mpr h)]
    exact l.length_fill room

/-- One writer behind the other. -/
theorem Writes.append {write write' : Nat → Str} {text text' : Str} (h : Writes write text)
    (h' : Writes write' text') :
    Writes (fun room => write room ++ write' (room - (write room).length)) (text ++ text') where
  fits := by
    intro room hroom
    rw [List.length_append] at hroom
    rw [h.fits room (by omega), h'.fits _ (by omega)]
  fills := by
    intro room hroom
    rw [List.length_append] at hroom
    rw [List.length_append]
    rcases Nat.lt_or_ge room text.length with hlt | hge
    · have hfull := h.fills room hlt
      have hrest := h'.length_le (room - (write room).length)
      omega
    · rw [h.fits room hge, h'.fills _ (by omega)]
      omega

theorem copyUntilPlaceholder_nil (room : Nat) : (copyUntilPlaceholder [] room).1 = [] := by
  cases room <;> rfl

theorem copyUntilPlaceholder_semicolon (room : Nat) :
    (copyUntilPlaceholder ";".toList room).1 = (";".toList).take room := by
  cases room with
  | zero => rfl
  | succ room => cases room <;> rfl

theorem writes_format {write : Nat → Str} {text : Str} (h : Writes write text) :
    Writes (format "{}".toList write) text := by
  have hformat : ∀ room, format "{}".toList write (room + 1) = write (room + 1) := fun room => by
    show [] ++ write (room + 1) ++ (copyUntilPlaceholder [] _).1 = write (room + 1)
    rw [copyUntilPlaceholder_nil, List.append_nil, List.nil_append]
  refine ⟨fun room hroom => ?_, fun room hroom => ?_⟩
  · cases room with
    | zero => exact (List.length_eq_zero_iff.mp (Nat.le_zero.mp hroom)).symm
    | succ room => rw [hformat, h.fits _ hroom]
  · cases room with
    | zero => rfl
    | succ room => rw [hformat, h.fills _ hroom]

/-- The semicolon behind a die is left out when there is no room for it. -/
theorem writes_format_semicolon {write : Nat → Str} {text : Str} (h : Writes write text) :
    Writes (format "{};".toList write) (text ++ ";".toList) := by
  have hformat : ∀ room, format "{};".toList write (room + 1) =
      write (room + 1) ++ (";".toList).take (room + 1 - (write (room + 1)).length) := fun room => by
    show [] ++ write (room + 1) ++ (copyUntilPlaceholder ";".toList _).1 = _
    rw [copyUntilPlaceholder_semicolon, List.nil_append]
    rfl
  have hboth := h.append (writes_take ";".toList)
  refine ⟨fun room hroom => ?_, fun room hroom => ?_⟩
  · cases room with
    | zero => exact absurd hroom (by simp)
    | succ room => rw [hformat, hboth.fits _ hroom]
  · cases room with
    | zero => rfl
    | succ room => rw [hformat, hboth.fills _ hroom]

theorem writes_writeDice (l : Leftover) (values : List UInt32) :
    Writes (writeDice l values) (values.flatMap fun v => digits v.toNat ++ ";".toList) := by
  induction values with
  | nil => exact ⟨fun _ _ => rfl, fun _ h => absurd h (Nat.not_lt_zero _)⟩
  | cons v values ih => exact (writes_format_semicolon (writes_toChars l v.toNat)).append ih

/-- **A text that fits is written as it is**, and one that does not fills the buffer. -/
theorem writes_written (l : Leftover) (arg : Arg) : Writes (written l arg) arg.render := by
  refine writes_format ?_
  cases arg with
  | text s => exact writes_take s
  | number n => exact writes_toChars l n
  | flag b => exact writes_take _
  | cast c => exact writes_writeDice l c.values

/-- A string is cut. -/
theorem written_text (l : Leftover) (s : Str) (capacity : Nat) :
    written l (.text s) capacity = s.take capacity := by
  cases capacity with
  | zero => rfl
  | succ capacity =>
    show [] ++ s.take (capacity + 1) ++ (copyUntilPlaceholder [] _).1 = _
    rw [copyUntilPlaceholder_nil, List.append_nil, List.nil_append]

theorem length_written_lt_iff (l : Leftover) (arg : Arg) (capacity : Nat) :
    (written l arg capacity).length < capacity ↔ arg.render.length < capacity := by
  have h := writes_written l arg
  rcases Nat.lt_or_ge capacity arg.render.length with hlt | hge
  · rw [h.fills _ hlt]
    omega
  · rw [h.fits _ hge]

/-! ## 5. The buffers in memory -/

theorem length_writeToBuffer (l : Leftover) (arg : Arg) {size : Nat} (h : 0 < size) :
    (writeToBuffer l arg size).length = size := by
  have hle := (writes_written l arg).length_le (size - 1)
  unfold writeToBuffer
  rw [List.length_cons, List.length_append, List.length_replicate]
  omega

theorem Traits.longBufferSize_pos (k : Traits) : 0 < k.longBufferSize := by cases k <;> decide

theorem Traits.shortBufferSize_pos (k : Traits) : 0 < k.shortBufferSize := by cases k <;> decide

/-- Behind buffers of one size the rest begins. -/
theorem drop_buffers (l : Leftover) {size : Nat} (h : 0 < size) (args : List Arg) (i : Nat) :
    (args.flatMap fun a => writeToBuffer l a size).drop (i * size) =
      (args.drop i).flatMap fun a => writeToBuffer l a size := by
  induction i generalizing args with
  | zero => rw [Nat.zero_mul, List.drop_zero, List.drop_zero]
  | succ i ih =>
    cases args with
    | nil => simp
    | cons a args =>
      have hsize : (i + 1) * size = (writeToBuffer l a size).length + i * size := by
        rw [length_writeToBuffer l a h, Nat.add_mul, Nat.one_mul, Nat.add_comm]
      rw [List.flatMap_cons, hsize, List.drop_append, List.drop_of_length_le (by omega),
        Nat.add_sub_cancel_left, ih, List.nil_append, List.drop_succ_cons]

/-- The buffer of an argument, and what lies behind it. -/
theorem drop_memory (l : Leftover) (k : Traits) {args : List Arg} {i : Nat} {arg : Arg}
    (h : args[i]? = some arg) : (memory l k args).drop (k.bufferStart i) =
      writeToBuffer l arg (k.bufferSize i) ++
        (args.drop (i + 1)).flatMap fun a => writeToBuffer l a k.shortBufferSize := by
  cases args with
  | nil => exact absurd h (by simp)
  | cons a args =>
    cases i with
    | zero =>
      cases h
      rfl
    | succ i =>
      have hi : args[i]? = some arg := h
      have hstart : k.bufferStart (i + 1) =
          (writeToBuffer l a k.longBufferSize).length + i * k.shortBufferSize := by
        rw [length_writeToBuffer l a k.longBufferSize_pos]
        rfl
      have hdrop : args.drop i = arg :: args.drop (i + 1) := by
        obtain ⟨hlt, he⟩ := List.getElem?_eq_some_iff.mp hi
        rw [← he, List.drop_eq_getElem_cons hlt]
      unfold memory
      rw [hstart, List.drop_append, List.drop_of_length_le (by omega), Nat.add_sub_cancel_left,
        drop_buffers l k.shortBufferSize_pos, hdrop, List.nil_append, List.flatMap_cons]
      rfl

/-! ## 6. What is read -/

/-- A C string ends where its text does exactly when a NUL follows. -/
theorem cString_text {mem text rest : Str} {start : Nat} (h : mem.drop start = text ++ rest)
    (hnul : nul ∉ text) : cString mem start = some text ↔ rest.head? = some nul := by
  have htake : ∀ c ∈ text, decide (c ≠ nul) = true := fun c hc =>
    decide_eq_true fun e => hnul (e ▸ hc)
  unfold cString
  rw [h, List.takeWhile_append_of_pos htake]
  cases rest with
  | nil => simpa using hnul
  | cons c rest =>
    by_cases hc : c = nul
    · simp [hc]
    · simp [hc]

/-- A view is the text in front of it exactly when it has its size. -/
theorem view_text {mem text rest : Str} {start : Nat} (h : mem.drop start = text ++ rest)
    (hstart : start ≤ mem.length) (size : Nat) :
    view mem start size = some text ↔ size = text.length := by
  have hlength : mem.length - start = text.length + rest.length := by
    rw [← List.length_drop, h, List.length_append]
  unfold view
  rw [h]
  constructor
  · intro hview
    split at hview
    · have htake := congrArg List.length (Option.some.inj hview)
      rw [List.length_take, List.length_append] at htake
      omega
    · exact nomatch hview
  · rintro rfl
    rw [if_pos (by omega), List.take_left]

/-- The length byte and the text of an argument, and the zeros and buffers behind. -/
theorem drop_memory_text (l : Leftover) (k : Traits) {args : List Arg} {i : Nat} {arg : Arg}
    (h : args[i]? = some arg) : (memory l k args).drop (k.bufferStart i + 1) =
      written l arg (k.capacity i) ++
        (List.replicate (k.capacity i - (written l arg (k.capacity i)).length) nul ++
        (args.drop (i + 1)).flatMap fun a => writeToBuffer l a k.shortBufferSize) := by
  rw [← List.drop_drop, drop_memory l k h]
  show (written l arg _ ++ List.replicate _ nul) ++ _ = _
  rw [List.append_assoc]
  rfl

theorem getElem?_memory (l : Leftover) (k : Traits) {args : List Arg} {i : Nat} {arg : Arg}
    (h : args[i]? = some arg) : (memory l k args)[k.bufferStart i]? =
      some (Char.ofNat ((written l arg (k.capacity i)).length % 256)) := by
  rw [← List.head?_drop, drop_memory l k h]
  rfl

/-- A byte below 128 is the same number for both kinds of `char`. -/
theorem charToSize_ofNat (signed : Bool) {n : Nat} (h : n < 256) :
    charToSize signed (Char.ofNat n) = n ↔ (signed = true → n < 128) := by
  have hn : (Char.ofNat n).toNat = n := by
    rw [Char.toNat_ofNat, if_pos (Or.inl (by omega))]
  unfold charToSize
  rw [hn]
  cases signed with
  | false => simp
  | true =>
    by_cases hlt : n < 128
    · simp [hlt, Nat.not_le.mpr hlt]
    · simp only [Bool.true_and, decide_eq_true_eq, Nat.not_lt.mp hlt, if_true, true_implies, hlt,
        iff_false]
      omega

theorem ofNat_eq_nul {n : Nat} (h : n < 256) : Char.ofNat n = nul ↔ n = 0 := by
  constructor
  · intro e
    have hn := congrArg Char.toNat e
    rwa [Char.toNat_ofNat, if_pos (Or.inl (by omega))] at hn
  · rintro rfl
    rfl

/-! ## 7. `GetArgAt` -/

/-- The first argument comes back: a signed length byte holds numbers below 128 only, and a text
    that fills its buffer and is searched for its end must have an empty argument behind it. -/
def ReadsBack (signed : Bool) (k : Traits) (args : List Arg) (length : Nat) : Prop :=
  match k with
  | .plain => True
  | .long => signed = true → min length 255 < 128
  | .extraLong => length < 1023 ∨ ∃ next, args[1]? = some next ∧ next.render = []

/-- What is written of a text that fits, or of a string. -/
theorem written_eq (l : Leftover) {arg : Arg} {capacity : Nat}
    (h : arg.render.length ≤ capacity ∨ ∃ s, arg = .text s) :
    written l arg capacity = arg.render.take capacity := by
  rcases h with h | ⟨s, rfl⟩
  · rw [(writes_written l arg).fits _ h, List.take_of_length_le h]
  · exact written_text l s capacity

theorem getArgAt_byte (l : Leftover) (signed : Bool) (k : Traits) {args : List Arg} {i : Nat}
    {arg : Arg} (h : args[i]? = some arg) (hbyte : ¬ (i = 0 ∧ 255 < k.longBufferSize - 1)) :
    getArgAt signed k (memory l k args) i = some (written l arg (k.capacity i)) ↔
      (signed = true → (written l arg (k.capacity i)).length < 128) := by
  have hcapacity : k.capacity i < 256 := by
    unfold Traits.capacity Traits.bufferSize
    cases k with
    | plain => split <;> decide
    | long => split <;> decide
    | extraLong =>
      split
      · rename_i hi
        exact absurd ⟨hi, by decide⟩ hbyte
      · decide
  have hlength := (writes_written l arg).length_le (k.capacity i)
  have hin : k.bufferStart i + 1 ≤ (memory l k args).length :=
    (List.getElem?_eq_some_iff.mp (getElem?_memory l k h)).1
  unfold getArgAt
  rw [if_neg hbyte, getElem?_memory l k h]
  dsimp only
  rw [Nat.mod_eq_of_lt (by omega), view_text (drop_memory_text l k h) hin]
  exact charToSize_ofNat signed (by omega)

/-- Behind a text comes a NUL, or the length of the next argument. -/
theorem head?_behind (l : Leftover) (k : Traits) (args : List Arg) (n i : Nat) :
    (List.replicate n nul ++
        (args.drop i).flatMap fun a => writeToBuffer l a k.shortBufferSize).head? = some nul ↔
      0 < n ∨ ∃ next, args[i]? = some next ∧ next.render = [] := by
  cases n with
  | succ n => exact ⟨fun _ => Or.inl (Nat.succ_pos n), fun _ => rfl⟩
  | zero =>
    rw [List.replicate_zero, List.nil_append, ← List.head?_drop]
    cases args.drop i with
    | nil => simp
    | cons next args =>
      have hpos : 0 < k.shortBufferSize - 1 ∧ k.shortBufferSize - 1 < 256 := by cases k <;> decide
      have hle := (writes_written l next).length_le (k.shortBufferSize - 1)
      have hhead : ((next :: args).flatMap fun a => writeToBuffer l a k.shortBufferSize).head? =
          some (Char.ofNat ((written l next (k.shortBufferSize - 1)).length % 256)) := rfl
      rw [hhead, Option.some_inj, Nat.mod_eq_of_lt (by omega), ofNat_eq_nul (by omega)]
      constructor
      · intro hzero
        have hshort := (length_written_lt_iff l next _).mp (hzero ▸ hpos.1)
        rw [(writes_written l next).fits _ (Nat.le_of_lt hshort)] at hzero
        exact Or.inr ⟨next, rfl, List.length_eq_zero_iff.mp hzero⟩
      · rintro (hn | ⟨_, he, hnext⟩)
        · exact absurd hn (Nat.lt_irrefl 0)
        · cases he
          rw [(writes_written l next).fits _ (by rw [hnext]; exact Nat.zero_le _), hnext]
          rfl

/-- **When `GetArgAt` gives back the text** of an argument that fits its buffer, or of a string as
    far as it fits. -/
theorem getArgAt_reads_back_iff (l : Leftover) (signed : Bool) (k : Traits) (args : List Arg)
    (i : Nat) (arg : Arg) (harg : args[i]? = some arg) (hnul : nul ∉ arg.render)
    (hfits : arg.render.length ≤ k.capacity i ∨ ∃ s, arg = .text s) :
    getArgAt signed k (memory l k args) i = some (arg.render.take (k.capacity i)) ↔
      (i = 0 → ReadsBack signed k args arg.render.length) := by
  rw [← written_eq l hfits]
  have hlength : (written l arg (k.capacity i)).length = min (k.capacity i) arg.render.length := by
    rw [written_eq l hfits, List.length_take]
  by_cases hscan : i = 0 ∧ 255 < k.longBufferSize - 1
  · obtain ⟨rfl, hk⟩ := hscan
    have hwritten : nul ∉ written l arg (k.capacity 0) := fun hm =>
      hnul (List.mem_of_mem_take (written_eq l hfits ▸ hm))
    unfold getArgAt
    have hdrop : (memory l k args).drop 1 = _ := drop_memory_text l k harg
    rw [if_pos ⟨rfl, hk⟩, cString_text hdrop hwritten]
    cases k with
    | plain => exact absurd hk (by decide)
    | long => exact absurd hk (by decide)
    | extraLong =>
      have hcapacity : Traits.extraLong.capacity 0 = 1023 := rfl
      rw [head?_behind, hlength, hcapacity, show (0 < 1023 - min 1023 arg.render.length) =
        (arg.render.length < 1023) from propext (by omega)]
      exact ⟨fun h _ => h, fun h => h rfl⟩
  · rw [getArgAt_byte l signed k harg hscan, hlength]
    by_cases hi : i = 0
    · rw [hi]
      cases k with
      | plain =>
        have hcapacity : Traits.plain.capacity 0 = 31 := rfl
        rw [hcapacity]
        exact ⟨fun _ _ => trivial, fun _ _ => by omega⟩
      | long =>
        have hcapacity : Traits.long.capacity 0 = 255 := rfl
        rw [hcapacity, Nat.min_comm]
        exact ⟨fun h _ => h, fun h => h rfl⟩
      | extraLong => exact absurd ⟨hi, by decide⟩ hscan
    · have hcapacity : k.capacity i < 128 := by
        unfold Traits.capacity Traits.bufferSize
        rw [if_neg hi]
        cases k <;> decide
      exact ⟨fun _ h0 => absurd h0 hi, fun _ _ => by omega⟩

/-- Nothing is ever left over. -/
def noLeftover : Leftover := ⟨fun room => List.replicate room '0', fun _ => List.length_replicate⟩

/-- A short message is read back, whatever `char` is. -/
theorem getArgAt_reads_back_hi : getArgAt true .long
    (memory noLeftover .long [.text "hi".toList, .text "B".toList]) 0 = some "hi".toList :=
  (getArgAt_reads_back_iff noLeftover true .long [.text "hi".toList, .text "B".toList] 0
    (.text "hi".toList) rfl (by decide) (Or.inr ⟨_, rfl⟩)).mpr fun _ _ => by decide

/-- A message of 128 characters is not, where `char` is signed. -/
theorem getArgAt_reads_back_fails : ¬ (∀ (l : Leftover) (signed : Bool) (k : Traits)
    (args : List Arg) (i : Nat) (arg : Arg), args[i]? = some arg → nul ∉ arg.render →
    (arg.render.length ≤ k.capacity i ∨ ∃ s, arg = .text s) →
    getArgAt signed k (memory l k args) i = some (arg.render.take (k.capacity i))) := by
  intro h
  have hnul : nul ∉ List.replicate 128 'x' := fun hm =>
    absurd (List.eq_of_mem_replicate hm) (by decide)
  have hread := h noLeftover true .long [.text (List.replicate 128 'x'), .text "B".toList] 0
    (.text (List.replicate 128 'x')) rfl hnul (Or.inr ⟨_, rfl⟩)
  have hback := (getArgAt_reads_back_iff noLeftover true .long _ 0
    (.text (List.replicate 128 'x')) rfl hnul (Or.inr ⟨_, rfl⟩)).mp hread rfl rfl
  have hlength : (Arg.text (List.replicate 128 'x')).render.length = 128 := List.length_replicate
  rw [hlength] at hback
  exact absurd hback (by decide)

/-! ## 8. What Java receives -/

/-- A NUL follows the text inside its buffer. -/
def EndsInside (k : Traits) (mem : Str) (i : Nat) (text : Str) : Prop :=
  1 + text.length < k.bufferSize i ∧ mem[k.bufferStart i + 1 + text.length]? = some nul

theorem passedArg_iff (l : Leftover) (k : Traits) {args : List Arg} {i : Nat} {arg : Arg}
    (harg : args[i]? = some arg) (hnul : nul ∉ written l arg (k.capacity i)) :
    passedArg k (memory l k args) i = some (written l arg (k.capacity i)) ↔
      arg.render.length < k.capacity i ∨ ∃ next, args[i + 1]? = some next ∧ next.render = [] := by
  unfold passedArg
  rw [cString_text (drop_memory_text l k harg) hnul, head?_behind, Nat.sub_pos_iff_lt,
    length_written_lt_iff]

/-- **The text of an argument ends inside its buffer**, and is all that Java receives of it, exactly
    when it leaves room for the NUL. -/
theorem passed_inside_iff (l : Leftover) (k : Traits) {args : List Arg} {i : Nat} {arg : Arg}
    (harg : args[i]? = some arg) (hnul : nul ∉ arg.render) :
    EndsInside k (memory l k args) i (written l arg (k.capacity i)) ∧
      passedArg k (memory l k args) i = some (written l arg (k.capacity i)) ↔
    arg.render.length < k.capacity i := by
  have hsize : k.bufferSize i = k.capacity i + 1 := by
    unfold Traits.capacity Traits.bufferSize
    split <;> cases k <;> rfl
  rw [← length_written_lt_iff l]
  constructor
  · rintro ⟨⟨hlt, _⟩, _⟩
    omega
  · intro hlt
    have hrender := (length_written_lt_iff l arg _).mp hlt
    have hwritten := (writes_written l arg).fits _ (Nat.le_of_lt hrender)
    refine ⟨⟨by omega, ?_⟩, (passedArg_iff l k harg (hwritten ▸ hnul)).mpr (Or.inl hrender)⟩
    rw [← List.head?_drop, ← List.drop_drop, drop_memory_text l k harg, List.drop_left,
      head?_behind]
    exact Or.inl (Nat.sub_pos_of_lt hlt)

end Veridie.Sign
