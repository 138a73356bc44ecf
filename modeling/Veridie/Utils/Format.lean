/-
  File:      Veridie/Utils/Format.lean
  Subject:   `fmt::Format` (utils/format.hpp, utils/format.cpp) into a buffer of any size.

  The text of the format is copied up to a placeholder, the argument is written, and so on; each of
  the two stops where the buffer ends. A string is cut there. A number that does not fit is not:
  `std::to_chars` then leaves anything at all in what was left of the buffer.

  * `Span`, `Span.put` -- the rest of a buffer, and as much of a text as goes into it;
  * `expand` -- the text that is meant, for a buffer without an end;
  * `format` -- `Format`;
  * `format_room` -- what is written ends where the text or the buffer does, and the rest is
    untouched;
  * `format_prefix_iff` -- it is a prefix of the text exactly when no number is cut.
-/
import Veridie.Sign.Buffers

namespace Veridie.Utils

open Veridie.Sign (Leftover toChars digits)

/-! ## 1. Spans -/

/-- A `std::span<char>` that ends where its buffer does: the bytes in front of it, and its own. -/
structure Span where
  before : Str
  bytes : Str
  deriving DecidableEq, Repr

namespace Span

/-- The text over the first bytes of the span, and the `subspan` behind. -/
def write (s : Span) (text : Str) : Span := ⟨s.before ++ text, s.bytes.drop text.length⟩

/-- As much of the text as goes into the span. -/
def put (s : Span) (text : Str) : Span := s.write (text.take s.bytes.length)

variable {s : Span} {text text' : Str}

@[simp] theorem write_nil (s : Span) : s.write [] = s := by simp [write]

@[simp] theorem put_nil (s : Span) : s.put [] = s := by simp [put]

theorem put_bytes (s : Span) (text : Str) : (s.put text).bytes = s.bytes.drop text.length := by
  show s.bytes.drop (text.take s.bytes.length).length = _
  rw [List.length_take]
  rcases Nat.le_total text.length s.bytes.length with hle | hle
  · rw [Nat.min_eq_right hle]
  · rw [Nat.min_eq_left hle, List.drop_of_length_le (Nat.le_refl _), List.drop_of_length_le hle]

theorem put_before (s : Span) (text : Str) :
    (s.put text).before = s.before ++ text.take s.bytes.length := rfl

theorem put_room (s : Span) (text : Str) :
    (s.put text).bytes.length = s.bytes.length - text.length := by
  rw [put_bytes, List.length_drop]

/-- A text that fits is written as it is. -/
theorem put_eq_write (h : text.length ≤ s.bytes.length) : s.put text = s.write text := by
  unfold put
  rw [List.take_of_length_le h]

theorem write_write (s : Span) (text text' : Str) :
    (s.write text).write text' = s.write (text ++ text') := by
  simp [write]

/-- One text behind another. -/
theorem put_put (s : Span) (text text' : Str) : (s.put text).put text' = s.put (text ++ text') := by
  have hbefore : ((s.put text).put text').before = (s.put (text ++ text')).before := by
    rw [put_before, put_before, put_before, put_room, List.take_append, List.append_assoc]
  have hbytes : ((s.put text).put text').bytes = (s.put (text ++ text')).bytes := by
    rw [put_bytes, put_bytes, put_bytes, List.drop_drop, List.length_append]
  cases hs : (s.put text).put text'
  cases hs' : s.put (text ++ text')
  rw [hs, hs'] at hbefore hbytes
  exact congrArg₂ Span.mk hbefore hbytes

/-- Nothing goes into a full buffer. -/
theorem put_full (h : s.bytes = []) (text : Str) : s.put text = s := by simp [put, h]

/-- What lies behind a text that fills the buffer is not written. -/
theorem put_append_of_full (h : (s.put text).bytes = []) (text' : Str) :
    s.put (text ++ text') = s.put text := by rw [← put_put, put_full h]

end Span

/-! ## 2. The text that is meant -/

/-- An argument. -/
inductive Arg where
  | text (s : Str)
  | character (c : Char)
  | flag (b : Bool)
  | number (n : Int)
  deriving DecidableEq, Repr

/-- The text of an argument. -/
def Arg.render : Arg → Str
  | text s => s
  | character c => [c]
  | flag b => if b then "true".toList else "false".toList
  | number n => digits n

/-- The text in front of the first placeholder, and the format behind it if there is one. -/
def splitPlaceholder : Str → Str × Option Str
  | [] => ([], none)
  | c :: rest =>
    if c = '{' ∧ rest.head? = some '}' then ([], some rest.tail)
    else (c :: (splitPlaceholder rest).1, (splitPlaceholder rest).2)

/-- The expansion of a format: each placeholder replaced by the next argument, arguments without a
    placeholder behind the text, nothing from a placeholder without an argument on. -/
def expand (fmt : Str) : List Str → Str
  | [] => (splitPlaceholder fmt).1
  | arg :: args =>
    (splitPlaceholder fmt).1 ++ arg ++ expand ((splitPlaceholder fmt).2.getD []) args

/-! ## 3. `Format` -/

/-- `ParsePlaceholder`. -/
def parsePlaceholder (src : Str) : Nat := if "{}".toList <+: src then 2 else 0

/-- `CopyUntilPlaceholder`. -/
def copyUntilPlaceholder : Str → Span → Str × Span
  | [], dest => ([], dest)
  | c :: src, dest =>
    if dest.bytes = [] then (c :: src, dest)
    else if 0 < parsePlaceholder (c :: src) then
      ((c :: src).drop (parsePlaceholder (c :: src)), dest)
    else copyUntilPlaceholder src (dest.write [c])

/-- What `WriteAsText` writes into a span with this much room. -/
def Arg.writer (l : Leftover) : Arg → Nat → Str
  | text s, room => s.take (min s.length room)
  | character c, _ => [c]
  | flag b, room =>
    let s := if b then "true".toList else "false".toList
    s.take (min s.length room)
  | number n, room => toChars l n room

/-- `WriteAsText`; the span is not empty. -/
def writeAsText (l : Leftover) (arg : Arg) (dest : Span) : Span :=
  dest.write (arg.writer l dest.bytes.length)

/-- `Format`: `ProcessArg` for one argument after the other as long as the buffer is not full, and
    the rest of the format. -/
def format (l : Leftover) (buffer : Span) (fmt : Str) : List Arg → Span
  | [] => (copyUntilPlaceholder fmt buffer).2
  | arg :: args =>
    let (fmt, buffer) := copyUntilPlaceholder fmt buffer
    let buffer := if buffer.bytes = [] then buffer else writeAsText l arg buffer
    if buffer.bytes = [] then (copyUntilPlaceholder fmt buffer).2 else format l buffer fmt args

section Format

variable {l : Leftover} {s : Span} {fmt : Str}

theorem parsePlaceholder_cons (c : Char) (src : Str) :
    parsePlaceholder (c :: src) = if c = '{' ∧ src.head? = some '}' then 2 else 0 := by
  have hprefix : "{}".toList <+: c :: src ↔ c = '{' ∧ src.head? = some '}' := by
    show ['{', '}'] <+: c :: src ↔ _
    rw [List.cons_prefix_cons, eq_comm]
    refine and_congr_right fun _ => ?_
    cases src with
    | nil => simp
    | cons d src => simp [List.cons_prefix_cons, eq_comm]
  unfold parsePlaceholder
  exact if_congr hprefix rfl rfl

/-- `CopyUntilPlaceholder` writes the text in front of the placeholder, and goes on behind it if
    there is room left. -/
theorem copyUntilPlaceholder_spec (fmt : Str) (s : Span) :
    (copyUntilPlaceholder fmt s).2 = s.put (splitPlaceholder fmt).1 ∧
    ((copyUntilPlaceholder fmt s).2.bytes ≠ [] →
      (copyUntilPlaceholder fmt s).1 = (splitPlaceholder fmt).2.getD []) := by
  induction fmt generalizing s with
  | nil => exact ⟨(s.put_nil).symm, fun _ => rfl⟩
  | cons c fmt ih =>
    unfold copyUntilPlaceholder splitPlaceholder
    by_cases hfull : s.bytes = []
    · rw [if_pos hfull]
      exact ⟨(Span.put_full hfull _).symm, fun hroom => absurd hfull hroom⟩
    rw [if_neg hfull]
    rw [parsePlaceholder_cons]
    by_cases hbrace : c = '{' ∧ fmt.head? = some '}'
    · rw [if_pos hbrace, if_pos (Nat.succ_pos 1), if_pos hbrace]
      exact ⟨(s.put_nil).symm, fun _ => List.drop_one⟩
    · rw [if_neg hbrace, if_neg (Nat.lt_irrefl 0), if_neg hbrace]
      obtain ⟨hspan, hrest⟩ := ih (s.write [c])
      have hone : s.write [c] = s.put [c] := by
        refine (Span.put_eq_write ?_).symm
        exact List.length_pos_iff.mpr hfull
      refine ⟨?_, hrest⟩
      rw [hspan, hone, Span.put_put]
      rfl

/-- An argument is written as far as there is room, unless it is a number without enough. -/
theorem writeAsText_eq {arg : Arg} (hroom : s.bytes ≠ [])
    (hfits : ∀ n, arg = .number n → (digits n).length ≤ s.bytes.length) :
    writeAsText l arg s = s.put arg.render := by
  have hpos := List.length_pos_iff.mpr hroom
  have htake : ∀ text : Str,
      text.take (min text.length s.bytes.length) = text.take s.bytes.length := fun text => by
      rcases Nat.le_total text.length s.bytes.length with hle | hle
      · rw [Nat.min_eq_left hle, List.take_of_length_le hle, List.take_of_length_le (Nat.le_refl _)]
      · rw [Nat.min_eq_right hle]
  unfold writeAsText Span.put
  cases arg with
  | text t => exact congrArg s.write (htake t)
  | character c => exact congrArg s.write (List.take_of_length_le hpos).symm
  | flag b => exact congrArg s.write (htake _)
  | number n =>
    have hle := hfits n rfl
    show s.write (toChars l n s.bytes.length) = s.write ((digits n).take s.bytes.length)
    rw [List.take_of_length_le hle, (Sign.writes_toChars l n).fits _ hle]

/-- A number without enough room fills what there is. -/
theorem writeAsText_cut {n : Int} (hcut : s.bytes.length < (digits n).length) :
    writeAsText l (.number n) s = s.write (l.fill s.bytes.length) := by
  show s.write (toChars l n s.bytes.length) = _
  unfold toChars
  rw [if_neg (Nat.not_le.mpr hcut)]

/-- What is written of an argument ends where it does, or where the buffer does. -/
theorem writeAsText_room (l : Leftover) (arg : Arg) (hroom : s.bytes ≠ []) :
    (writeAsText l arg s).bytes = s.bytes.drop arg.render.length := by
  by_cases hcut : ∃ n, arg = .number n ∧ s.bytes.length < (digits n).length
  · obtain ⟨n, rfl, hlt⟩ := hcut
    rw [writeAsText_cut hlt]
    show s.bytes.drop (l.fill s.bytes.length).length = s.bytes.drop (digits n).length
    rw [l.length_fill, List.drop_length, List.drop_of_length_le (Nat.le_of_lt hlt)]
  · have hfits : ∀ n, arg = .number n → (digits n).length ≤ s.bytes.length := fun n hn =>
      Nat.not_lt.mp fun hlt => hcut ⟨n, hn, hlt⟩
    rw [writeAsText_eq hroom hfits, Span.put_bytes]

theorem format_nil (l : Leftover) (s : Span) (fmt : Str) :
    format l s fmt [] = s.put (splitPlaceholder fmt).1 := (copyUntilPlaceholder_spec fmt s).1

/-- The buffer is full before the first argument. -/
theorem format_cons_full {arg : Arg} {args : List Arg}
    (hfull : (s.put (splitPlaceholder fmt).1).bytes = []) :
    format l s fmt (arg :: args) = s.put (splitPlaceholder fmt).1 := by
  obtain ⟨hspan, _⟩ := copyUntilPlaceholder_spec fmt s
  unfold format
  dsimp only
  rw [hspan, if_pos hfull, if_pos hfull, (copyUntilPlaceholder_spec _ _).1, Span.put_full hfull]

/-- There is room for some of the first argument. -/
theorem format_cons {arg : Arg} {args : List Arg}
    (hroom : (s.put (splitPlaceholder fmt).1).bytes ≠ []) :
    format l s fmt (arg :: args) =
      if (writeAsText l arg (s.put (splitPlaceholder fmt).1)).bytes = [] then
        writeAsText l arg (s.put (splitPlaceholder fmt).1)
      else format l (writeAsText l arg (s.put (splitPlaceholder fmt).1))
        ((splitPlaceholder fmt).2.getD []) args := by
  obtain ⟨hspan, hrest⟩ := copyUntilPlaceholder_spec fmt s
  rw [hspan] at hrest
  unfold format
  dsimp only
  rw [hspan, if_neg hroom, hrest hroom]
  by_cases hfull : (writeAsText l arg (s.put (splitPlaceholder fmt).1)).bytes = []
  · rw [if_pos hfull, if_pos hfull, (copyUntilPlaceholder_spec _ _).1, Span.put_full hfull]
  · rw [if_neg hfull, if_neg hfull]
    cases args <;> rfl

/-! ## 4. Where it ends -/

/-- **What is written ends where the text or the buffer does**, and the rest of the buffer is
    untouched. -/
theorem format_room (l : Leftover) (s : Span) (fmt : Str) (args : List Arg) :
    (format l s fmt args).bytes = s.bytes.drop (expand fmt (args.map Arg.render)).length := by
  induction args generalizing s fmt with
  | nil => rw [format_nil, Span.put_bytes]; rfl
  | cons arg args ih =>
    have hlength : (expand fmt ((arg :: args).map Arg.render)).length =
        (splitPlaceholder fmt).1.length + arg.render.length +
          (expand ((splitPlaceholder fmt).2.getD []) (args.map Arg.render)).length := by
      show (_ ++ _ ++ _ : Str).length = _
      rw [List.length_append, List.length_append]
    rw [hlength]
    by_cases hfull : (s.put (splitPlaceholder fmt).1).bytes = []
    · rw [format_cons_full hfull, hfull]
      rw [Span.put_bytes, List.drop_eq_nil_iff] at hfull
      exact (List.drop_of_length_le (by omega)).symm
    · have hwritten := writeAsText_room l arg hfull
      rw [Span.put_bytes, List.drop_drop] at hwritten
      rw [format_cons hfull]
      split
      · rename_i hend
        rw [hend]
        rw [hwritten, List.drop_eq_nil_iff] at hend
        exact (List.drop_of_length_le (by omega)).symm
      · rw [ih, hwritten, List.drop_drop]

/-! ## 5. What is written -/

/-- How far the text goes in front of an argument. -/
def argStart (fmt : Str) (args : List Arg) (i : Nat) : Nat :=
  (expand fmt ((args.take i).map Arg.render)).length

/-- A number begins in front of the end of the buffer, and ends behind it. -/
def CutsNumber (room : Nat) (fmt : Str) (args : List Arg) : Prop :=
  ∃ i n, args[i]? = some (.number n) ∧ argStart fmt args i < room ∧
    room < argStart fmt args i + (digits n).length

theorem cutsNumber_cons {room : Nat} {arg : Arg} {args : List Arg} :
    CutsNumber room fmt (arg :: args) ↔
      (∃ n, arg = .number n ∧ (splitPlaceholder fmt).1.length < room ∧
        room < (splitPlaceholder fmt).1.length + (digits n).length) ∨
      CutsNumber (room - ((splitPlaceholder fmt).1.length + arg.render.length))
        ((splitPlaceholder fmt).2.getD []) args := by
  have hstart : ∀ i, argStart fmt (arg :: args) (i + 1) =
      (splitPlaceholder fmt).1.length + arg.render.length +
        argStart ((splitPlaceholder fmt).2.getD []) args i := fun i => by
    show (_ ++ _ ++ _ : Str).length = _
    rw [List.length_append, List.length_append]
    rfl
  constructor
  · intro h
    obtain ⟨i, n, hi, hbegin, hend⟩ := h
    cases i with
    | zero => exact Or.inl ⟨n, Option.some.inj hi, hbegin, hend⟩
    | succ i =>
      rw [hstart] at hbegin hend
      exact Or.inr ⟨i, n, hi, by omega, by omega⟩
  · intro h
    rcases h with ⟨n, rfl, hbegin, hend⟩ | ⟨i, n, hi, hbegin, hend⟩
    · exact ⟨0, n, rfl, hbegin, hend⟩
    · refine ⟨i + 1, n, hi, ?_, ?_⟩
      · rw [hstart]
        omega
      · rw [hstart]
        omega

/-- Without a number that is cut, as much of the text is written as goes into the buffer. -/
theorem format_eq_put {args : List Arg} (hcut : ¬ CutsNumber s.bytes.length fmt args) :
    format l s fmt args = s.put (expand fmt (args.map Arg.render)) := by
  induction args generalizing s fmt with
  | nil => exact format_nil l s fmt
  | cons arg args ih =>
    rw [cutsNumber_cons, not_or] at hcut
    obtain ⟨hfirst, hlater⟩ := hcut
    have hexpand : expand fmt ((arg :: args).map Arg.render) =
        (splitPlaceholder fmt).1 ++ (arg.render ++
          expand ((splitPlaceholder fmt).2.getD []) (args.map Arg.render)) :=
      List.append_assoc _ _ _
    rw [hexpand]
    by_cases hfull : (s.put (splitPlaceholder fmt).1).bytes = []
    · rw [format_cons_full hfull, Span.put_append_of_full hfull]
    · have hpos := List.length_pos_iff.mpr hfull
      rw [Span.put_room] at hpos
      have hfits : ∀ n, arg = .number n →
          (digits n).length ≤ (s.put (splitPlaceholder fmt).1).bytes.length := fun n hn => by
        rw [Span.put_room]
        refine Nat.not_lt.mp fun hlt => hfirst ⟨n, hn, ?_, ?_⟩
        · omega
        · omega
      rw [format_cons hfull, writeAsText_eq hfull hfits, ← Span.put_put]
      split
      · rename_i hend
        rw [Span.put_append_of_full hend]
      · have hroom : ((s.put (splitPlaceholder fmt).1).put arg.render).bytes.length =
            s.bytes.length - ((splitPlaceholder fmt).1.length + arg.render.length) := by
          rw [Span.put_room, Span.put_room, Nat.sub_sub]
        rw [ih (hroom ▸ hlater), Span.put_put]

/-- A `std::to_chars` that leaves letters. -/
def letters : Leftover := ⟨fun room => List.replicate room 'x', fun _ => List.length_replicate⟩

theorem digits_ne_x (n : Int) : 'x' ∉ digits n := by
  intro hx
  have hdigit : 'x' ∉ Dice.toString n.natAbs := fun hm =>
    absurd (Dice.isDigit_toString hm) (by decide)
  unfold Sign.digits at hx
  split at hx
  · rcases List.mem_cons.mp hx with he | hm
    · exact absurd he (by decide)
    · exact hdigit hm
  · exact hdigit hx

/-- A number that is cut can leave anything. -/
theorem format_ne_put {args : List Arg} (hcut : CutsNumber s.bytes.length fmt args) :
    format letters s fmt args ≠ s.put (expand fmt (args.map Arg.render)) := by
  induction args generalizing s fmt with
  | nil =>
    obtain ⟨i, n, hi, _⟩ := hcut
    exact absurd hi (by simp)
  | cons arg args ih =>
    have hexpand : s.put (expand fmt ((arg :: args).map Arg.render)) =
        ((s.put (splitPlaceholder fmt).1).put arg.render).put
          (expand ((splitPlaceholder fmt).2.getD []) (args.map Arg.render)) := by
      rw [Span.put_put, Span.put_put]
      exact congrArg s.put (List.append_assoc _ _ _)
    have hlength := Span.put_room s (splitPlaceholder fmt).1
    rw [hexpand]
    rcases cutsNumber_cons.mp hcut with ⟨n, rfl, hbegin, hend⟩ | hlater
    · -- the bytes of the number are letters, and its digits are not
      have hroom : (s.put (splitPlaceholder fmt).1).bytes ≠ [] := by
        rw [← List.length_pos_iff, hlength]
        omega
      have hshort : (s.put (splitPlaceholder fmt).1).bytes.length < (digits n).length := by omega
      have hfull :
          (writeAsText letters (.number n) (s.put (splitPlaceholder fmt).1)).bytes = [] := by
        rw [writeAsText_room letters (.number n) hroom]
        exact List.drop_of_length_le (Nat.le_of_lt hshort)
      rw [format_cons hroom, if_pos hfull, writeAsText_cut hshort, Span.put_put]
      intro heq
      have hbytes := List.append_cancel_left (congrArg Span.before heq)
      have hx : 'x' ∈ letters.fill (s.put (splitPlaceholder fmt).1).bytes.length :=
        List.mem_replicate.mpr ⟨(List.length_pos_iff.mpr hroom).ne', rfl⟩
      have hrender : (Arg.number n).render = digits n := rfl
      rw [hbytes, hrender, List.take_append_of_le_length (Nat.le_of_lt hshort)] at hx
      exact digits_ne_x n (List.mem_of_mem_take hx)
    · obtain ⟨i, n, hi, hbegin, hend⟩ := hlater
      have hroom : (s.put (splitPlaceholder fmt).1).bytes ≠ [] := by
        rw [← List.length_pos_iff, hlength]
        omega
      have hfits : ∀ k, arg = .number k →
          (digits k).length ≤ (s.put (splitPlaceholder fmt).1).bytes.length := fun k hk => by
        rw [hk] at hbegin
        change _ < s.bytes.length - ((splitPlaceholder fmt).1.length + (digits k).length) at hbegin
        omega
      have hleft : ((s.put (splitPlaceholder fmt).1).put arg.render).bytes.length =
          s.bytes.length - ((splitPlaceholder fmt).1.length + arg.render.length) := by
        rw [Span.put_room, hlength, Nat.sub_sub]
      have hopen : ((s.put (splitPlaceholder fmt).1).put arg.render).bytes ≠ [] := by
        rw [← List.length_pos_iff, hleft]
        omega
      rw [format_cons hroom, writeAsText_eq hroom hfits, if_neg hopen]
      exact ih (hleft ▸ ⟨i, n, hi, hbegin, hend⟩)

/-- The buffer behind the call: the first characters of the text, and the rest as it was, of which
    the returned span is all. -/
structure Prefixed (buffer text : Str) (r : Span) : Prop where
  written : r.before = text.take (min buffer.length text.length)
  untouched : r.bytes = buffer.drop (min buffer.length text.length)
  remaining : r.bytes.length = buffer.length - min buffer.length text.length

theorem prefixed_iff {buffer text : Str} {r : Span} :
    Prefixed buffer text r ↔ r = Span.put ⟨[], buffer⟩ text := by
  have hwritten : text.take (min buffer.length text.length) = text.take buffer.length := by
    rw [← List.take_eq_take_min]
  have huntouched : buffer.drop (min buffer.length text.length) = buffer.drop text.length := by
    rcases Nat.le_total text.length buffer.length with hle | hle
    · rw [Nat.min_eq_right hle]
    · rw [Nat.min_eq_left hle, List.drop_length, List.drop_of_length_le hle]
  have hput : Span.put ⟨[], buffer⟩ text = ⟨text.take buffer.length, buffer.drop text.length⟩ := by
    have hbytes := Span.put_bytes ⟨[], buffer⟩ text
    exact congrArg (Span.mk _) hbytes
  rw [hput]
  constructor
  · intro h
    rw [← hwritten, ← huntouched, ← h.written, ← h.untouched]
  · intro h
    rw [h]
    refine ⟨hwritten.symm, huntouched.symm, ?_⟩
    show (buffer.drop text.length).length = _
    rw [← huntouched, List.length_drop]

/-- **`Format` yields a prefix**, whatever `std::to_chars` leaves, exactly when no number is cut. -/
theorem format_prefix_iff (buffer fmt : Str) (args : List Arg) :
    (∀ l, Prefixed buffer (expand fmt (args.map Arg.render)) (format l ⟨[], buffer⟩ fmt args)) ↔
      ¬ CutsNumber buffer.length fmt args := by
  constructor
  · intro h hcut
    have hput := prefixed_iff.mp (h letters)
    exact format_ne_put (s := ⟨[], buffer⟩) hcut hput
  · intro hcut l
    exact prefixed_iff.mpr (format_eq_put (s := ⟨[], buffer⟩) hcut)

/-- **Two bytes for "123"**: they are not "12". -/
theorem format_prefix_fails : ¬ ∀ (l : Leftover) (buffer fmt : Str) (args : List Arg),
    Prefixed buffer (expand fmt (args.map Arg.render)) (format l ⟨[], buffer⟩ fmt args) := by
  intro h
  have hwritten := (h letters "__".toList "{}".toList [.number 123]).written
  exact absurd hwritten (by decide)

/-! ## 6. One argument -/

theorem copyUntilPlaceholder_sign (fmt : Str) (s : Span) :
    copyUntilPlaceholder fmt s =
      ((Sign.copyUntilPlaceholder fmt s.bytes.length).2,
        s.write (Sign.copyUntilPlaceholder fmt s.bytes.length).1) := by
  induction fmt generalizing s with
  | nil =>
    have hnil : Sign.copyUntilPlaceholder [] s.bytes.length = ([], []) := by
      cases s.bytes.length <;> rfl
    rw [hnil, Span.write_nil]
    rfl
  | cons c fmt ih =>
    unfold copyUntilPlaceholder
    rw [parsePlaceholder_cons]
    cases hbytes : s.bytes with
    | nil =>
      rw [if_pos rfl]
      exact congrArg (Prod.mk (c :: fmt)) s.write_nil.symm
    | cons b bytes =>
      rw [if_neg (List.cons_ne_nil b bytes), List.length_cons, Sign.copyUntilPlaceholder]
      by_cases hbrace : c = '{' ∧ fmt.head? = some '}'
      · rw [if_pos hbrace, if_pos (Nat.succ_pos 1), if_pos hbrace, Span.write_nil]
        exact congrArg (·, s) List.drop_one
      · have hroom : (s.write [c]).bytes.length = bytes.length := by
          show (s.bytes.drop 1).length = _
          rw [hbytes]
          rfl
        rw [if_neg hbrace, if_neg (Nat.lt_irrefl 0), if_neg hbrace, ih, hroom]
        exact congrArg (Prod.mk _) (Span.write_write s [c] _)

/-- **What a command writes of an argument** is what `Format` writes into its buffer. -/
theorem format_single (l : Leftover) (buffer fmt : Str) (arg : Arg) :
    (format l ⟨[], buffer⟩ fmt [arg]).before = Sign.format fmt (arg.writer l) buffer.length := by
  unfold format Sign.format
  rw [copyUntilPlaceholder_sign]
  dsimp only
  generalize Sign.copyUntilPlaceholder fmt buffer.length = r
  obtain ⟨copied, rest⟩ := r
  dsimp only
  have hroom : (Span.write ⟨[], buffer⟩ copied).bytes.length = buffer.length - copied.length :=
    List.length_drop
  by_cases hfull : (Span.write ⟨[], buffer⟩ copied).bytes = []
  · rw [if_pos hfull, if_pos hfull, if_pos (by rw [← hroom, hfull]; rfl),
      (copyUntilPlaceholder_spec _ _).1, Span.put_full hfull]
    rfl
  · have hopen : buffer.length - copied.length ≠ 0 := by
      rw [← hroom]
      exact (List.length_pos_iff.mpr hfull).ne'
    have hlast : ∀ s', format l s' rest [] = (copyUntilPlaceholder rest s').2 := fun s' => rfl
    rw [if_neg hfull, if_neg hopen, hlast, ite_self, copyUntilPlaceholder_sign]
    unfold writeAsText
    rw [Span.write_write, Span.write_write, hroom]
    have hleft : (Span.write ⟨[], buffer⟩
        (copied ++ arg.writer l (buffer.length - copied.length))).bytes.length =
        buffer.length - copied.length - (arg.writer l (buffer.length - copied.length)).length := by
      show (buffer.drop _).length = _
      rw [List.length_drop, List.length_append, Nat.sub_sub]
    rw [hleft]
    rfl

end Format

end Veridie.Utils
