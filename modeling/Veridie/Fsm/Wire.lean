/-
  File:      Veridie/Fsm/Wire.lean
  Subject:   What the commands of a game carry: the message a `Send` hands over, and the dice a
             `ShowResponse` shows.

  The sender picks the command by a size: that of the message, or the number of dice. The buffer of
  the command has its own.

  * `sendCommand_passed_iff` -- when a message reaches Java as it is;
  * `passed_as_written_iff` -- when any argument does;
  * `length_valuesText` -- the length of the text of rolled dice;
  * `shown_complete_iff` -- when all of them are shown.
-/
import Veridie.Sign.Buffers
import Veridie.Fsm.Peer

namespace Veridie.Fsm

open Veridie.Lib Veridie.Dice Veridie.Sign

/-! ## 1. Messages -/

/-- A message, as it is handed over. -/
theorem sendMessage_passed_iff (l : Leftover) (cmd : Cmd) {message mac : Str}
    (hargs : cmd.args = [.text message, .text mac]) (hnul : nul ∉ message)
    (hfits : message.length ≤ cmd.traits.capacity 0) :
    cmd.passed l 0 = some message ↔ message.length < cmd.traits.capacity 0 ∨ mac = [] := by
  have hwritten : written l (.text message) (cmd.traits.capacity 0) = message := by
    rw [written_text, List.take_of_length_le hfits]
  have harg : cmd.args[0]? = some (.text message) := by
    rw [hargs]
    rfl
  have hpassed := passedArg_iff l cmd.traits harg (by rwa [hwritten])
  rw [hwritten] at hpassed
  refine hpassed.trans (or_congr Iff.rfl ?_)
  rw [hargs]
  constructor
  · rintro ⟨next, hnext, hempty⟩
    cases hnext
    exact hempty
  · rintro rfl
    exact ⟨.text [], rfl, rfl⟩

/-- **A message reaches Java as it is** unless it fills its buffer. -/
theorem sendCommand_passed_iff (l : Leftover) {message : Str} (mac : Str) (hnul : nul ∉ message)
    (hfits : message.length ≤ sendLongMessageMax) :
    (sendCommand message mac).passed l 0 = some message ↔
      (message.length ≠ sendMessageMax ∧ message.length ≠ sendLongMessageMax) ∨ mac = [] := by
  unfold sendCommand
  have hshort : Traits.long.capacity 0 = sendMessageMax := rfl
  have hlong : Traits.extraLong.capacity 0 = sendLongMessageMax := rfl
  have hlt : sendMessageMax < sendLongMessageMax := by decide
  by_cases h : message.length ≤ sendMessageMax
  · rw [if_pos h, sendMessage_passed_iff l (.sendMessage message mac) rfl hnul h]
    show message.length < Traits.long.capacity 0 ∨ _ ↔ _
    rw [hshort]
    exact or_congr (by omega) Iff.rfl
  · rw [if_neg h, sendMessage_passed_iff l (.sendLongMessage message mac) rfl hnul hfits]
    show message.length < Traits.extraLong.capacity 0 ∨ _ ↔ _
    rw [hlong]
    exact or_congr (by omega) Iff.rfl

/-- A message that `Send` accepts is issued in one command. -/
theorem send_issue (p : PeerState) (mac : Str) {message : Str} (parent : Option RequestTask)
    (h : message.length ≤ sendLongMessageMax) :
    (p.send mac message parent).2 = [.issue (sendCommand message mac)] := by
  unfold PeerState.send
  rw [if_neg (Nat.not_lt.mpr h)]

/-- **What Java receives.** The text of an argument ends inside its own buffer, and is all that is
    read of it, exactly when it leaves room for a NUL; and a message that `Send` accepts arrives
    unchanged exactly when it does not fill its buffer, or is followed by an empty argument. -/
theorem passed_as_written_iff (l : Leftover) :
    (∀ (k : Traits) (args : List Arg) (i : Nat) (arg : Arg), args[i]? = some arg →
      nul ∉ arg.render →
      (EndsInside k (memory l k args) i (written l arg (k.capacity i)) ∧
        passedArg k (memory l k args) i = some (written l arg (k.capacity i)) ↔
      arg.render.length < k.capacity i)) ∧
    ∀ (p : PeerState) (mac message : Str) (parent : Option RequestTask), nul ∉ message →
      message.length ≤ sendLongMessageMax →
      ∃ cmd, (p.send mac message parent).2 = [.issue cmd] ∧
        (cmd.passed l 0 = some message ↔
          (message.length ≠ sendMessageMax ∧ message.length ≠ sendLongMessageMax) ∨ mac = []) :=
  ⟨fun k _ _ _ harg hnul => passed_inside_iff l k harg hnul,
    fun p mac _ parent hnul hfits => ⟨_, send_issue p mac parent hfits,
      sendCommand_passed_iff l mac hnul hfits⟩⟩

/-- A greeting arrives. -/
theorem passed_as_written_hi :
    passedArg .long (memory noLeftover .long [.text "hi".toList, .text "B".toList]) 0 =
      some "hi".toList ∧
    ∃ cmd, (freshPeer.send "B".toList "hi".toList none).2 = [.issue cmd] ∧
      cmd.passed noLeftover 0 = some "hi".toList := by
  obtain ⟨hargs, hsent⟩ := passed_as_written_iff noLeftover
  refine ⟨((hargs .long _ 0 (.text "hi".toList) rfl (by decide)).mpr (by decide)).2, ?_⟩
  obtain ⟨cmd, hcmd, hiff⟩ := hsent freshPeer "B".toList "hi".toList none (by decide) (by decide)
  exact ⟨cmd, hcmd, hiff.mpr (Or.inl (by decide))⟩

/-- A message of 255 characters is followed by the MAC it is sent to. -/
theorem passed_as_written_fails : ¬ (∀ l : Leftover,
    (∀ (k : Traits) (args : List Arg) (i : Nat) (arg : Arg), args[i]? = some arg →
      nul ∉ arg.render →
      EndsInside k (memory l k args) i (written l arg (k.capacity i)) ∧
        passedArg k (memory l k args) i = some (written l arg (k.capacity i))) ∧
    ∀ (p : PeerState) (mac message : Str) (parent : Option RequestTask), nul ∉ message →
      message.length ≤ sendLongMessageMax →
      ∃ cmd, (p.send mac message parent).2 = [.issue cmd] ∧ cmd.passed l 0 = some message) := by
  intro h
  obtain ⟨message, hnul, hlength⟩ : ∃ message : Str, nul ∉ message ∧ message.length = 255 :=
    ⟨List.replicate 255 'x', fun hm => absurd (List.eq_of_mem_replicate hm) (by decide),
      List.length_replicate⟩
  have hfits : message.length ≤ sendLongMessageMax := by
    rw [hlength]
    decide
  obtain ⟨cmd, hcmd, hpassed⟩ := (h noLeftover).2 freshPeer "B".toList message none hnul hfits
  rw [send_issue freshPeer _ none hfits] at hcmd
  cases hcmd
  rcases (sendCommand_passed_iff noLeftover _ hnul hfits).mp hpassed with ⟨hne, _⟩ | hmac
  · exact hne hlength
  · exact absurd hmac (by decide)

/-! ## 2. Dice -/

/-- The text of the values: each one followed by a semicolon. -/
def valuesText (cast : Cast) : Str := cast.values.flatMap fun v => Dice.toString v.toNat ++ ";".toList

theorem digits_ofNat (n : Nat) : digits n = Dice.toString n := by
  unfold digits
  rw [if_neg (by omega), Int.natAbs_natCast]

theorem render_cast (cast : Cast) : (Arg.cast cast).render = valuesText cast :=
  congrArg cast.values.flatMap
    (funext fun v : UInt32 => congrArg (· ++ ";".toList) (digits_ofNat v.toNat))

/-- A die has one digit, two, or three when it shows 100. -/
theorem length_toString {v : Nat} (h : v ≤ 100) :
    (Dice.toString v).length = 2 + (if v = 100 then 1 else 0) - if v < 10 then 1 else 0 := by
  unfold Dice.toString
  rcases Nat.lt_or_ge v 10 with h10 | h10
  · rw [Nat.toDigits_of_lt_base h10, if_neg (by omega), if_pos h10]
    rfl
  · rw [Nat.toDigits_of_base_le (by decide) h10, List.length_append, if_neg (by omega : ¬ v < 10)]
    rcases Nat.lt_or_ge v 100 with h100 | h100
    · rw [Nat.toDigits_of_lt_base (by omega), if_neg (by omega)]
      rfl
    · obtain rfl : v = 100 := by omega
      rfl

/-- The dice that show 100. -/
def hundreds (cast : Cast) : Nat := cast.values.countP fun v => v.toNat = 100

/-- The dice that show a single digit. -/
def singles (cast : Cast) : Nat := cast.values.countP fun v => v.toNat < 10

theorem length_flatMap_values : ∀ {values : List UInt32}, (∀ v ∈ values, v.toNat ≤ 100) →
    (values.flatMap fun v => Dice.toString v.toNat ++ ";".toList).length +
        values.countP (fun v => v.toNat < 10) =
      3 * values.length + values.countP fun v => v.toNat = 100
  | [], _ => rfl
  | v :: values, h => by
      have hv := length_toString (h v List.mem_cons_self)
      have ih := length_flatMap_values fun w hw => h w (List.mem_cons_of_mem v hw)
      have hsemi : (";".toList).length = 1 := rfl
      simp only [List.flatMap_cons, List.length_append, List.length_cons, List.countP_cons, hsemi,
        decide_eq_true_eq]
      by_cases h10 : v.toNat < 10
      · rw [if_neg (by omega), if_pos h10] at hv
        rw [if_pos h10, if_neg (by omega)]
        omega
      · rw [if_neg h10] at hv
        rw [if_neg h10]
        omega

/-- **The length of the text**: three characters a die, one more for each 100, one less for each
    single digit. -/
theorem length_valuesText {cast : Cast} (h : ∀ v ∈ cast.values, v.toNat ≤ 100) :
    (valuesText cast).length + singles cast = 3 * cast.values.length + hundreds cast :=
  length_flatMap_values h

/-- The room in the buffer of the command `ShowResponse` picks for a number of dice. -/
def showRoom (size : Nat) : Nat :=
  if size ≤ showResponseMax / 3 then showResponseMax else showLongResponseMax

/-- The text of a cast is stored as it is exactly when it fits. -/
theorem stored_cast_iff (l : Leftover) (cmd : Cmd) {cast : Cast} {rest : List Arg}
    (hargs : cmd.args = .cast cast :: rest) :
    cmd.stored l 0 = some (valuesText cast) ↔
      (valuesText cast).length ≤ cmd.traits.capacity 0 := by
  have hw := writes_written l (.cast cast)
  unfold Cmd.stored
  rw [hargs, ← render_cast]
  show some (written l (.cast cast) (cmd.traits.capacity 0)) = _ ↔ _
  rw [Option.some_inj]
  constructor
  · intro h
    rw [← h]
    exact hw.length_le _
  · exact hw.fits _

/-- **Shown rolls are complete** exactly when the dice that show 100 do not outnumber the single
    digits by more than the buffer has room for. -/
theorem shown_complete_iff (l : Leftover) (s : StatePlaying) (response : Response) (name : Str)
    (hsize : response.cast.values.length ≤ showLongResponseMax / 3)
    (hrange : ∀ v ∈ response.cast.values,
      response.cast.die.min ≤ v.toNat ∧ v.toNat ≤ response.cast.die.max) :
    ∃ cmd, (s.showResponse response name).2 = [.shown response, .issue cmd] ∧
      (cmd.stored l 0 = some (valuesText response.cast) ↔
        3 * response.cast.values.length + hundreds response.cast ≤
          showRoom response.cast.values.length + singles response.cast) := by
  have hmax : response.cast.die.max ≤ 100 := by cases response.cast.die <;> decide
  have hlength := length_valuesText fun v hv => (hrange v hv).2.trans hmax
  unfold StatePlaying.showResponse showRoom
  dsimp only
  rw [if_neg (Nat.not_lt.mpr hsize)]
  refine ⟨_, rfl, ?_⟩
  by_cases hshort : response.cast.values.length ≤ showResponseMax / 3
  · rw [if_pos hshort, if_pos hshort, stored_cast_iff l (.showResponse _ _ _ _) rfl]
    show (valuesText response.cast).length ≤ showResponseMax ↔ _
    omega
  · rw [if_neg hshort, if_neg hshort, stored_cast_iff l (.showLongResponse _ _ _ _) rfl]
    show (valuesText response.cast).length ≤ showLongResponseMax ↔ _
    omega

/-- A game of one node. -/
def playingAlone : StatePlaying := .construct KeySet.empty "A".toList "A".toList

/-- A cast of percentile dice that all show the same. -/
def percentile (size : Nat) (value : UInt32) (h : size ≤ maxSize) : Cast :=
  ⟨.d100, List.replicate size value, by rwa [List.length_replicate]⟩

/-- They are rolled dice when each of them shows 100. -/
theorem percentile_range (size : Nat) (h : size ≤ maxSize) :
    ∀ v ∈ (percentile size 100 h).values, Die.d100.min ≤ v.toNat ∧ v.toNat ≤ Die.d100.max :=
  fun v hv => by
    rw [List.eq_of_mem_replicate hv]
    decide

/-- Two dice are shown. -/
theorem shown_complete_two :
    ∃ cmd, (playingAlone.showResponse ⟨percentile 2 100 (by decide), none⟩ "You".toList).2 =
        [.shown ⟨percentile 2 100 (by decide), none⟩, .issue cmd] ∧
      cmd.stored noLeftover 0 = some "100;100;".toList := by
  obtain ⟨cmd, hcmd, hiff⟩ := shown_complete_iff noLeftover playingAlone
    ⟨percentile 2 100 (by decide), none⟩ "You".toList (by decide) (percentile_range 2 (by decide))
  exact ⟨cmd, hcmd, hiff.mpr (by decide)⟩

/-- Sixty-four dice that all show 100 have 256 characters, and are shown in the short command. -/
theorem shown_complete_fails : ¬ (∀ (l : Leftover) (s : StatePlaying) (response : Response)
    (name : Str), response.cast.values.length ≤ showLongResponseMax / 3 →
    (∀ v ∈ response.cast.values,
      response.cast.die.min ≤ v.toNat ∧ v.toNat ≤ response.cast.die.max) →
    ∃ cmd, (s.showResponse response name).2 = [.shown response, .issue cmd] ∧
      cmd.stored l 0 = some (valuesText response.cast)) := by
  intro h
  have hsize : (percentile 64 100 (by decide)).values.length ≤ showLongResponseMax / 3 := by
    rw [show (percentile 64 100 (by decide)).values.length = 64 from List.length_replicate]
    decide
  have hrange := percentile_range 64 (by decide)
  obtain ⟨cmd, hcmd, hstored⟩ := h noLeftover playingAlone ⟨percentile 64 100 (by decide), none⟩
    "You".toList hsize hrange
  obtain ⟨cmd', hcmd', hiff⟩ := shown_complete_iff noLeftover playingAlone
    ⟨percentile 64 100 (by decide), none⟩ "You".toList hsize hrange
  rw [hcmd] at hcmd'
  cases hcmd'
  have hfits := hiff.mp hstored
  simp only [percentile, hundreds, singles, List.length_replicate, List.countP_replicate] at hfits
  exact absurd hfits (by decide)

end Veridie.Fsm
