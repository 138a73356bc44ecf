/-
  File:      Veridie/Fsm/Ledger.lean
  Subject:   What becomes of the messages given to `RemotePeerManager::Send`.

  Each message a `Send` accepts gets a number. A ledger notes where each number is while the manager
  works: with a coroutine, in the queue, answered `OK`, or dropped; and every answer a number has
  had. The ledger watches the manager and changes nothing in it.

  * `Ledger` -- the book, with one operation for each of the manager's;
  * `Balanced` -- every number is in one place, the places agree with the manager, and the retries
    that are left with the answers; `Balanced.step` -- every step keeps that;
  * `send_conserves` -- what it says of every run.
-/
import Veridie.Fsm.Peer

namespace Veridie.Fsm

open Veridie.Lib Veridie.Dice Veridie.Sign

/-! ## 1. The book -/

/-- The messages given to `Send`, and where each one is, by its number. -/
structure Ledger where
  given : List Str
  /-- the message each coroutine of the manager is sending -/
  slots : List (Option Nat)
  queued : List Nat
  answered : List Nat
  dropped : List Nat
  /-- the answers, each with the number of the message it is for -/
  answers : List (Nat × ResponseCode)

namespace Ledger

def empty : Ledger := ⟨[], [], [], [], [], []⟩

/-- The text of a message. -/
def text (l : Ledger) (k : Nat) : Str := l.given.getD k []

/-- The numbers the coroutines are sending. -/
def inFlight (l : Ledger) : List Nat := l.slots.filterMap id

/-- The answers a message has had, in order. -/
def answersOf (l : Ledger) (k : Nat) : List ResponseCode :=
  (l.answers.filter fun a => a.1 = k).map Prod.snd

/-- `Send` has returned. -/
def finish (l : Ledger) (parent : Option RequestTask) : Ledger :=
  { l with slots := l.slots ++ (parent.map fun _ => none).toList }

/-- `Send` up to its first command: a message that is not too long gets the next number. -/
def send (l : Ledger) (message : Str) (parent : Option RequestTask) : Ledger :=
  if sendLongMessageMax < message.length then l.finish parent
  else { l with given := l.given ++ [message], slots := l.slots ++ [some l.given.length] }

/-- `Send` behind its command. -/
def onAnswer (l : Ledger) (k retriesLeft : Nat) (parent : Option RequestTask) (r : ResponseCode) :
    Ledger :=
  let l := { l with answers := l.answers ++ [(k, r)] }
  match r with
  | .invalidState | .interopFailure =>
    if 0 < retriesLeft - 1 then { l with slots := l.slots ++ [some k] }
    else { l with dropped := l.dropped ++ [k] }.finish parent
  | .ok =>
    let l := { l with answered := l.answered ++ [k] }
    match l.queued.getLast? with
    | none => l.finish parent
    | some next => { l with queued := l.queued.dropLast, slots := l.slots ++ [some next] }
  | _ => { l with queued := l.queued ++ [k] }.finish parent

/-- The coroutine `i` of the manager behind its command. -/
def onSendAnswer (l : Ledger) (p : PeerState) (i : Nat) (r : ResponseCode) : Ledger :=
  match p.tasks[i]?, l.slots[i]? with
  | some (.sending _ retriesLeft parent), some (some k) =>
    { l with slots := l.slots.eraseIdx i }.onAnswer k retriesLeft parent r
  | _, _ => l

/-- The coroutine `i` of the manager behind its timer. -/
def onTick (l : Ledger) (p : PeerState) (i : Nat) : Ledger :=
  match p.tasks[i]? with
  | some (.waiting task) =>
    let l := { l with slots := l.slots.eraseIdx i }
    if p.pendingRequest ∧ 0 < task.attempt - 1 then
      l.send task.request (some { task with attempt := task.attempt - 1 })
    else l
  | _ => l

/-- What the manager does, noted. -/
def step (l : Ledger) (p : PeerState) (isGenerator : Bool) : PeerInput → Ledger
  | .sendRequest request =>
    l.send request (if isGenerator then some ⟨request, requestAttempts⟩ else none)
  | .sendResponse response => l.send response none
  | .answer i r => l.onSendAnswer p i r
  | .tick i => l.onTick p i
  | _ => l

end Ledger

/-- A manager and its ledger. -/
def ledgered (mac : Str) (isGenerator : Bool) : Machine (PeerState × Ledger) PeerInput Out where
  step s i :=
    let (p, o) := (peer mac isGenerator).step s.1 i
    ((p, s.2.step s.1 isGenerator i), o)

/-! ## 2. Slots -/

/-- An answer on which `Send` tries the message again. -/
def Refusal (r : ResponseCode) : Prop := r = .invalidState ∨ r = .interopFailure

namespace Ledger

/-- The last answers the message has had are this many refusals. -/
def RefusedLast (l : Ledger) (k n : Nat) : Prop :=
  ∃ before last, l.answersOf k = before ++ last ∧ last.length = n ∧ ∀ r ∈ last, Refusal r

/-- A coroutine sends the message of its slot, which has been refused as often as it has tried. -/
def Slot (l : Ledger) : PeerTask → Option Nat → Prop
  | .sending message retriesLeft _, some k =>
    l.text k = message ∧ k < l.given.length ∧ 1 ≤ retriesLeft ∧ retriesLeft ≤ retryCount ∧
      l.RefusedLast k (retryCount - retriesLeft)
  | .waiting _, none => True
  | _, _ => False

theorem refusedLast_zero (l : Ledger) (k : Nat) : l.RefusedLast k 0 :=
  ⟨l.answersOf k, [], (List.append_nil _).symm, rfl, fun _ h => absurd h List.not_mem_nil⟩

theorem answersOf_snoc (l : Ledger) (k x : Nat) (r : ResponseCode) :
    { l with answers := l.answers ++ [(k, r)] }.answersOf x =
      l.answersOf x ++ if k = x then [r] else [] := by
  unfold answersOf
  rw [List.filter_append, List.map_append]
  by_cases h : k = x
  · simp [h]
  · simp [h]

/-- One refusal more. -/
theorem RefusedLast.snoc {l : Ledger} {k n : Nat} (h : l.RefusedLast k n) {r : ResponseCode}
    (hr : Refusal r) : { l with answers := l.answers ++ [(k, r)] }.RefusedLast k (n + 1) := by
  obtain ⟨before, last, heq, hlength, hlast⟩ := h
  refine ⟨before, last ++ [r], ?_, by rw [List.length_append, hlength]; rfl, fun x hx => ?_⟩
  · rw [answersOf_snoc, if_pos rfl, heq, List.append_assoc]
  · rcases List.mem_append.mp hx with hx | hx
    · exact hlast x hx
    · rw [List.mem_singleton.mp hx]
      exact hr

/-- The answers for another message change nothing. -/
theorem RefusedLast.other {l : Ledger} {k x n : Nat} (h : l.RefusedLast x n) (hne : k ≠ x)
    (r : ResponseCode) : { l with answers := l.answers ++ [(k, r)] }.RefusedLast x n := by
  obtain ⟨before, last, heq, hlast⟩ := h
  refine ⟨before, last, ?_, hlast⟩
  rw [answersOf_snoc, if_neg hne, List.append_nil, heq]

/-- Nor in another slot. -/
theorem Slot.other {l : Ledger} {task : PeerTask} {o : Option Nat} (h : l.Slot task o) {k : Nat}
    (hne : o ≠ some k) (r : ResponseCode) :
    { l with answers := l.answers ++ [(k, r)] }.Slot task o := by
  cases task with
  | waiting task =>
    cases o with
    | none => trivial
    | some x => exact h
  | sending message retriesLeft parent =>
    cases o with
    | none => exact h
    | some x =>
      obtain ⟨htext, hlt, hpos, hle, hlast⟩ := h
      have hkx : k ≠ x := fun e => hne (congrArg some e.symm)
      exact ⟨htext, hlt, hpos, hle, hlast.other hkx r⟩

theorem text_snoc (l : Ledger) (message : Str) {k : Nat} (h : k < l.given.length) :
    { l with given := l.given ++ [message] }.text k = l.text k := by
  unfold text
  rw [List.getD_append _ _ _ _ h]

end Ledger

section Aligned

variable {α β : Type} {R : α → β → Prop}

theorem forall₂_eraseIdx {as : List α} {bs : List β} (h : List.Forall₂ R as bs) (i : Nat) :
    List.Forall₂ R (as.eraseIdx i) (bs.eraseIdx i) := by
  induction h generalizing i with
  | nil => exact .nil
  | cons hab h ih =>
    cases i with
    | zero => exact h
    | succ i => exact .cons hab (ih i)

theorem forall₂_getElem? {as : List α} {bs : List β} (h : List.Forall₂ R as bs) {i : Nat} {a : α}
    (ha : as[i]? = some a) : ∃ b, bs[i]? = some b ∧ R a b := by
  induction h generalizing i with
  | nil => exact absurd ha (by simp)
  | cons hab h ih =>
    cases i with
    | zero =>
      cases ha
      exact ⟨_, rfl, hab⟩
    | succ i => exact ih ha

theorem forall₂_snoc {as : List α} {bs : List β} (h : List.Forall₂ R as bs) {a : α} {b : β}
    (hab : R a b) : List.Forall₂ R (as ++ [a]) (bs ++ [b]) := List.rel_append h (.cons hab .nil)

/-- A relation weakened where it is used. -/
theorem forall₂_imp_mem {S : α → β → Prop} {as : List α} {bs : List β} (h : List.Forall₂ R as bs)
    (hRS : ∀ a, ∀ b ∈ bs, R a b → S a b) : List.Forall₂ S as bs := by
  induction h with
  | nil => exact .nil
  | cons hab h ih =>
    exact .cons (hRS _ _ List.mem_cons_self hab)
      (ih fun a b hb => hRS a b (List.mem_cons_of_mem _ hb))

end Aligned

/-- One slot less. -/
theorem count_eraseIdx {slots : List (Option Nat)} {i : Nat} {o : Option Nat}
    (h : slots[i]? = some o) (k : Nat) :
    (slots.filterMap id).count k =
      ((slots.eraseIdx i).filterMap id).count k + if o = some k then 1 else 0 := by
  obtain ⟨hi, rfl⟩ := List.getElem?_eq_some_iff.mp h
  rw [← ((List.getElem_cons_eraseIdx_perm hi).filterMap id).count_eq k, List.filterMap_cons]
  cases ho : slots[i] with
  | none => simp
  | some x => simp [List.count_cons]

/-! ## 3. The balance -/

/-- **The balance** of a ledger and a manager, with `hand` the messages just taken from where they
    were: every number given is in one place, once. -/
structure Balanced (hand : List Nat) (tasks : List PeerTask) (queue : List Str) (l : Ledger) :
    Prop where
  slots : List.Forall₂ l.Slot tasks l.slots
  queued : queue = l.queued.map l.text
  once : ∀ k, l.answered.count k + l.queued.count k + l.inFlight.count k + l.dropped.count k +
    hand.count k = if k < l.given.length then 1 else 0
  oks : ∀ k, (l.answersOf k).count .ok = l.answered.count k
  dropped : ∀ k ∈ l.dropped, l.RefusedLast k retryCount

section Moves

variable {hand : List Nat} {tasks : List PeerTask} {queue : List Str} {l : Ledger} {k : Nat}

theorem Balanced.lt_of_mem (h : Balanced hand tasks queue l) {k : Nat}
    (hk : k ∈ hand ∨ k ∈ l.queued ∨ k ∈ l.inFlight) : k < l.given.length := by
  have honce := h.once k
  by_contra hlt
  rw [if_neg hlt] at honce
  rcases hk with hk | hk | hk <;>
    have hpos := List.count_pos_iff.mpr hk <;> omega

/-- What is in hand is nowhere else. -/
theorem Balanced.hand_only (h : Balanced hand tasks queue l) {k : Nat} (hk : k ∈ hand) :
    l.answered.count k = 0 ∧ k ∉ l.inFlight ∧ k ∉ l.dropped := by
  have honce := h.once k
  have hpos := List.count_pos_iff.mpr hk
  rw [if_pos (h.lt_of_mem (Or.inl hk))] at honce
  refine ⟨by omega, fun hm => ?_, fun hm => ?_⟩ <;>
    have hpos' := List.count_pos_iff.mpr hm <;> omega

/-- The coroutine of a slot is resumed: its message is in hand. -/
theorem Balanced.take (h : Balanced [] tasks queue l) {i k : Nat} (hslot : l.slots[i]? = some (some k)) :
    Balanced [k] (tasks.eraseIdx i) queue { l with slots := l.slots.eraseIdx i } where
  slots := forall₂_eraseIdx h.slots i
  queued := h.queued
  once := fun x => by
    have honce := h.once x
    have hcount := count_eraseIdx hslot x
    simp only [Ledger.inFlight, List.count_nil, Option.some_inj] at honce hcount ⊢
    rw [List.count_singleton, ← honce, hcount]
    simp only [beq_iff_eq]
    omega
  oks := h.oks
  dropped := h.dropped

/-- A coroutine that waits for its timer is resumed. -/
theorem Balanced.wake (h : Balanced [] tasks queue l) {i : Nat} (hslot : l.slots[i]? = some none) :
    Balanced [] (tasks.eraseIdx i) queue { l with slots := l.slots.eraseIdx i } where
  slots := forall₂_eraseIdx h.slots i
  queued := h.queued
  once := fun x => by
    have honce := h.once x
    have hcount := count_eraseIdx hslot x
    simp only [Ledger.inFlight] at honce hcount ⊢
    rw [← honce, hcount]
    simp
  oks := h.oks
  dropped := h.dropped

/-- What an answer for the message in hand leaves as it is. -/
theorem Balanced.others (h : Balanced [k] tasks queue l) (r : ResponseCode) :
    List.Forall₂ { l with answers := l.answers ++ [(k, r)] }.Slot tasks l.slots ∧
      ∀ x ∈ l.dropped, { l with answers := l.answers ++ [(k, r)] }.RefusedLast x retryCount := by
  obtain ⟨_, hflight, hdropped⟩ := h.hand_only List.mem_cons_self
  refine ⟨forall₂_imp_mem h.slots fun task o ho hs => hs.other ?_ r, fun x hx =>
    (h.dropped x hx).other ?_ r⟩
  · rintro rfl
    exact hflight (List.mem_filterMap.mpr ⟨some k, ho, rfl⟩)
  · rintro rfl
    exact hdropped hx

/-- An answer other than `OK` is noted. -/
theorem Balanced.noted (h : Balanced [k] tasks queue l) {r : ResponseCode} (hr : r ≠ .ok) :
    Balanced [k] tasks queue { l with answers := l.answers ++ [(k, r)] } where
  slots := (h.others r).1
  queued := h.queued
  once := h.once
  oks := fun x => by
    rw [Ledger.answersOf_snoc, List.count_append, h.oks x]
    split
    · simp [hr]
    · rfl
  dropped := (h.others r).2

/-- With `OK` the message is delivered. -/
theorem Balanced.delivered (h : Balanced [k] tasks queue l) :
    Balanced [] tasks queue
      { l with answers := l.answers ++ [(k, .ok)], answered := l.answered ++ [k] } where
  slots := (h.others .ok).1
  queued := h.queued
  once := fun x => by
    have honce := h.once x
    simp only [Ledger.inFlight, List.count_append, List.count_nil] at honce ⊢
    omega
  oks := fun x => by
    have hoks := h.oks x
    have hsnoc := congrArg (List.count .ok) (Ledger.answersOf_snoc l k x .ok)
    rw [List.count_append, hoks] at hsnoc
    refine hsnoc.trans ?_
    rw [List.count_append, List.count_singleton]
    by_cases e : k = x <;> simp [e]
  dropped := (h.others .ok).2

/-- The message in hand is sent by a coroutine. -/
theorem Balanced.send_again (h : Balanced [k] tasks queue l) {message : Str} {retriesLeft : Nat}
    (parent : Option RequestTask) (hslot : l.Slot (.sending message retriesLeft parent) (some k)) :
    Balanced [] (tasks ++ [.sending message retriesLeft parent]) queue
      { l with slots := l.slots ++ [some k] } where
  slots := forall₂_snoc h.slots hslot
  queued := h.queued
  once := fun x => by
    have honce := h.once x
    simp only [Ledger.inFlight, List.filterMap_append, List.count_append, List.count_nil] at honce ⊢
    show _ + _ + (_ + [k].count x) + _ + 0 = _
    omega
  oks := h.oks
  dropped := h.dropped

/-- It goes into the queue. -/
theorem Balanced.enqueue (h : Balanced [k] tasks queue l) {message : Str}
    (htext : l.text k = message) :
    Balanced [] tasks (queue ++ [message]) { l with queued := l.queued ++ [k] } where
  slots := h.slots
  queued := by
    rw [List.map_append, h.queued, ← htext]
    rfl
  once := fun x => by
    have honce := h.once x
    simp only [Ledger.inFlight, List.count_append, List.count_nil] at honce ⊢
    omega
  oks := h.oks
  dropped := h.dropped

/-- It is dropped, when it has been refused for the last time. -/
theorem Balanced.drop (h : Balanced [k] tasks queue l) (hlast : l.RefusedLast k retryCount) :
    Balanced [] tasks queue { l with dropped := l.dropped ++ [k] } where
  slots := h.slots
  queued := h.queued
  once := fun x => by
    have honce := h.once x
    simp only [Ledger.inFlight, List.count_append, List.count_nil] at honce ⊢
    omega
  oks := h.oks
  dropped := fun x hx => by
    rcases List.mem_append.mp hx with hx | hx
    · exact h.dropped x hx
    · rw [List.mem_singleton.mp hx]
      exact hlast

/-- The last message of the queue is taken. -/
theorem Balanced.dequeue (h : Balanced [] tasks queue l) (hlast : l.queued.getLast? = some k) :
    queue.getLast? = some (l.text k) ∧
      Balanced [k] tasks queue.dropLast { l with queued := l.queued.dropLast } := by
  have hqueued : l.queued = l.queued.dropLast ++ [k] :=
    (List.dropLast_append_getLast? k hlast).symm
  refine ⟨by rw [h.queued, List.getLast?_map, hlast]; rfl, h.slots, ?_, fun x => ?_, h.oks,
    h.dropped⟩
  · rw [h.queued, List.map_dropLast]
    rfl
  · have honce := h.once x
    have hcount := congrArg (List.count x) hqueued
    rw [List.count_append] at hcount
    simp only [Ledger.inFlight, List.count_nil] at honce ⊢
    omega

/-- `Send` has returned. -/
theorem Balanced.finish (h : Balanced hand tasks queue l) (parent : Option RequestTask)
    {p : PeerState} (htasks : p.tasks = tasks) :
    Balanced hand (p.finish parent).tasks queue (l.finish parent) := by
  cases parent with
  | none =>
    show Balanced hand p.tasks queue { l with slots := l.slots ++ [] }
    rw [htasks, List.append_nil]
    exact h
  | some task =>
    refine ⟨?_, h.queued, fun x => ?_, h.oks, h.dropped⟩
    · show List.Forall₂ _ (p.tasks ++ [.waiting task]) (l.slots ++ [none])
      rw [htasks]
      exact forall₂_snoc h.slots trivial
    · have hflight : (l.finish (some task)).inFlight = l.inFlight := by
        show (l.slots ++ [none]).filterMap id = _
        rw [List.filterMap_append]
        exact List.append_nil _
      rw [hflight]
      exact h.once x

/-- A message is given to `Send`. -/
theorem Balanced.give (h : Balanced [] tasks queue l) (message : Str) :
    Balanced [l.given.length] tasks queue { l with given := l.given ++ [message] } ∧
      { l with given := l.given ++ [message] }.text l.given.length = message := by
  refine ⟨⟨forall₂_imp_mem h.slots fun task o ho hs => ?_, ?_, fun x => ?_, h.oks, h.dropped⟩, ?_⟩
  · cases task with
    | waiting task =>
      cases o with
      | none => trivial
      | some x => exact hs
    | sending text retriesLeft parent =>
      cases o with
      | none => exact hs
      | some x =>
        obtain ⟨htext, hlt, hrest⟩ := hs
        refine ⟨(l.text_snoc message hlt).trans htext, ?_, hrest⟩
        show x < (l.given ++ [message]).length
        rw [List.length_append]
        omega
  · rw [h.queued]
    exact List.map_congr_left fun x hx =>
      (l.text_snoc message (h.lt_of_mem (Or.inr (Or.inl hx)))).symm
  · have honce := h.once x
    simp only [Ledger.inFlight, List.count_nil, List.length_append, List.count_singleton,
      beq_iff_eq] at honce ⊢
    rw [Nat.add_zero] at honce
    rw [honce]
    show _ = if x < l.given.length + 1 then 1 else 0
    by_cases hx : x < l.given.length
    · rw [if_pos hx, if_neg (by omega), if_pos (by omega)]
    · by_cases he : l.given.length = x
      · rw [if_neg hx, if_pos he, if_pos (by omega)]
      · rw [if_neg hx, if_neg he, if_neg (by omega)]
  · simp [Ledger.text]

/-! ## 4. Every step keeps the balance -/

theorem Balanced.send (h : Balanced [] tasks queue l) {p : PeerState} (htasks : p.tasks = tasks)
    (hqueue : p.queuedMessages = queue) (mac message : Str) (parent : Option RequestTask) :
    Balanced [] (p.send mac message parent).1.tasks (p.send mac message parent).1.queuedMessages
      (l.send message parent) := by
  unfold PeerState.send Ledger.send
  split
  · have hp : (p.finish parent).queuedMessages = queue := by
      cases parent <;> exact hqueue
    rw [hp]
    exact h.finish parent htasks
  · obtain ⟨hgiven, htext⟩ := h.give message
    rw [← htasks, ← hqueue] at hgiven
    refine hgiven.send_again parent ⟨htext, ?_, by decide, Nat.le_refl _, Ledger.refusedLast_zero _ _⟩
    show l.given.length < (l.given ++ [message]).length
    rw [List.length_append]
    exact Nat.lt_succ_self _

theorem queuedMessages_finish (p : PeerState) (parent : Option RequestTask) :
    (p.finish parent).queuedMessages = p.queuedMessages := by cases parent <;> rfl

section Answer

variable {p : PeerState} {message : Str} {retriesLeft : Nat} {parent : Option RequestTask}
  {r : ResponseCode}

/-- A refusal: the message is sent again, or dropped when no retry is left. -/
theorem Balanced.refused (h : Balanced [k] p.tasks p.queuedMessages l)
    (hslot : l.Slot (.sending message retriesLeft parent) (some k)) (mac : Str) (hr : Refusal r) :
    Balanced [] (p.retry mac message retriesLeft parent).1.tasks
      (p.retry mac message retriesLeft parent).1.queuedMessages
      (if 0 < retriesLeft - 1 then
        { l with answers := l.answers ++ [(k, r)], slots := l.slots ++ [some k] }
      else Ledger.finish { l with answers := l.answers ++ [(k, r)], dropped := l.dropped ++ [k] }
        parent) := by
  obtain ⟨htext, hlt, hpos, hle, hlast⟩ := hslot
  have hne : r ≠ .ok := by
    rintro rfl
    exact hr.elim (fun e => nomatch e) fun e => nomatch e
  have hnoted := h.noted hne
  have hmore := hlast.snoc hr
  unfold PeerState.retry
  by_cases hleft : 0 < retriesLeft - 1
  · rw [if_pos hleft, if_pos hleft]
    refine hnoted.send_again parent ⟨htext, hlt, hleft, by omega, ?_⟩
    rwa [show retryCount - (retriesLeft - 1) = retryCount - retriesLeft + 1 by omega]
  · rw [if_neg hleft, if_neg hleft, queuedMessages_finish]
    rw [show retryCount - retriesLeft + 1 = retryCount by omega] at hmore
    exact (hnoted.drop hmore).finish parent rfl

/-- Any other failure: the message goes into the queue. -/
theorem Balanced.failed (h : Balanced [k] p.tasks p.queuedMessages l) (htext : l.text k = message)
    (parent : Option RequestTask) (hr : r ≠ .ok) :
    Balanced [] (PeerState.finish { p with
        connected := false
        queuedMessages := p.queuedMessages ++ [message] } parent).tasks
      (PeerState.finish { p with
        connected := false
        queuedMessages := p.queuedMessages ++ [message] } parent).queuedMessages
      (Ledger.finish { l with answers := l.answers ++ [(k, r)], queued := l.queued ++ [k] }
        parent) := by
  rw [queuedMessages_finish]
  exact ((h.noted hr).enqueue htext).finish parent rfl

/-- `OK`: the message is delivered, and the last one of the queue is sent next. -/
theorem Balanced.succeeded (h : Balanced [k] p.tasks p.queuedMessages l) (mac : Str)
    (isGenerator : Bool) (parent : Option RequestTask) :
    Balanced [] (p.onAnswer mac isGenerator message retriesLeft parent .ok).st.tasks
      (p.onAnswer mac isGenerator message retriesLeft parent .ok).st.queuedMessages
      (l.onAnswer k retriesLeft parent .ok) := by
  have hdelivered := h.delivered
  unfold PeerState.onAnswer Ledger.onAnswer
  dsimp only
  cases hnext : l.queued.getLast? with
  | none =>
    have hempty : p.queuedMessages.getLast? = none := by
      rw [h.queued, List.getLast?_map, hnext]
      rfl
    rw [hempty]
    dsimp only
    rw [queuedMessages_finish]
    exact hdelivered.finish parent rfl
  | some next =>
    obtain ⟨hlast, htaken⟩ := hdelivered.dequeue hnext
    rw [hlast]
    exact htaken.send_again parent ⟨rfl, htaken.lt_of_mem (Or.inl List.mem_cons_self), by decide,
      Nat.le_refl _, Ledger.refusedLast_zero _ _⟩

/-- **The answer a coroutine waited for.** -/
theorem Balanced.answered (h : Balanced [k] p.tasks p.queuedMessages l)
    (hslot : l.Slot (.sending message retriesLeft parent) (some k)) (mac : Str) (isGenerator : Bool)
    (r : ResponseCode) :
    Balanced [] (p.onAnswer mac isGenerator message retriesLeft parent r).st.tasks
      (p.onAnswer mac isGenerator message retriesLeft parent r).st.queuedMessages
      (l.onAnswer k retriesLeft parent r) := by
  cases r with
  | invalidState => exact h.refused hslot mac (Or.inl rfl)
  | interopFailure => exact h.refused hslot mac (Or.inr rfl)
  | ok => exact h.succeeded mac isGenerator parent
  | _ => exact h.failed hslot.1 parent (by decide)

end Answer

theorem Balanced.onSendAnswer {p : PeerState} (h : Balanced [] p.tasks p.queuedMessages l)
    (mac : Str) (isGenerator : Bool) (i : Nat) (r : ResponseCode) :
    Balanced [] (p.onSendAnswer mac isGenerator i r).st.tasks
      (p.onSendAnswer mac isGenerator i r).st.queuedMessages (l.onSendAnswer p i r) := by
  unfold PeerState.onSendAnswer Ledger.onSendAnswer
  cases htask : p.tasks[i]? with
  | none => exact h
  | some task =>
    obtain ⟨o, ho, hslot⟩ := forall₂_getElem? h.slots htask
    rw [ho]
    cases task with
    | waiting task => exact h
    | sending message retriesLeft parent =>
      cases o with
      | none => exact hslot.elim
      | some k =>
        exact Balanced.answered (p := { p with tasks := p.tasks.eraseIdx i }) (h.take ho) hslot mac
          isGenerator r

theorem Balanced.onTick {p : PeerState} (h : Balanced [] p.tasks p.queuedMessages l) (mac : Str)
    (i : Nat) :
    Balanced [] (p.onTick mac i).st.tasks (p.onTick mac i).st.queuedMessages (l.onTick p i) := by
  unfold PeerState.onTick Ledger.onTick
  cases htask : p.tasks[i]? with
  | none => exact h
  | some task =>
    obtain ⟨o, ho, hslot⟩ := forall₂_getElem? h.slots htask
    cases task with
    | sending message retriesLeft parent => exact h
    | waiting task =>
      cases o with
      | some k => exact hslot.elim
      | none =>
        have hwoken := h.wake ho
        dsimp only
        by_cases hpending : p.pendingRequest = true
        · by_cases hattempt : 0 < task.attempt - 1
          · rw [if_pos hpending, if_pos hattempt, if_pos ⟨hpending, hattempt⟩]
            exact hwoken.send (p := { p with tasks := p.tasks.eraseIdx i }) rfl rfl mac
              task.request _
          · rw [if_pos hpending, if_neg hattempt, if_neg fun e => hattempt e.2]
            exact hwoken
        · rw [if_neg hpending, if_neg fun e => hpending e.1]
          exact hwoken

/-- **Every step keeps the balance.** -/
theorem Balanced.step {p : PeerState} (h : Balanced [] p.tasks p.queuedMessages l) (mac : Str)
    (isGenerator : Bool) (i : PeerInput) :
    Balanced [] ((peer mac isGenerator).step p i).1.tasks
      ((peer mac isGenerator).step p i).1.queuedMessages (l.step p isGenerator i) := by
  cases i with
  | sendRequest request =>
    exact h.send (p := { p with pendingRequest := true }) rfl rfl mac request _
  | sendResponse response => exact h.send rfl rfl mac response none
  | receptionSuccess answeredRequest => exact h
  | receptionFailure => exact h
  | answer i r => exact h.onSendAnswer mac isGenerator i r
  | tick i => exact h.onTick mac i

end Moves

/-! ## 5. Every run -/

/-- The messages the coroutines of a manager are sending. -/
def PeerState.inFlight (p : PeerState) : List Str :=
  p.tasks.filterMap fun
    | .sending message _ _ => some message
    | .waiting _ => none

/-- **No message is lost, none is doubled**: the ones given to `Send` are, each once, those answered
    `OK`, those of the queue, those in flight and those dropped. -/
structure Conserved (p : PeerState) (l : Ledger) : Prop where
  /-- every number is in one of the four places, once -/
  numbers : (l.answered ++ l.queued ++ l.inFlight ++ l.dropped).Perm (List.range l.given.length)
  /-- the same of the messages, with the queue and the coroutines of the manager -/
  messages : (l.given : Multiset Str) =
    (l.answered.map l.text : Multiset Str) + p.queuedMessages + p.inFlight + l.dropped.map l.text
  /-- no message has been answered `OK` twice -/
  once : ∀ k, (l.answersOf k).count .ok ≤ 1
  /-- a dropped one has been refused `RETRY_COUNT` times in a row, and not been heard of since -/
  refused : ∀ k ∈ l.dropped, l.RefusedLast k retryCount

theorem inFlight_eq {l : Ledger} {tasks : List PeerTask} {slots : List (Option Nat)}
    (h : List.Forall₂ l.Slot tasks slots) :
    (tasks.filterMap fun
      | .sending message _ _ => some message
      | .waiting _ => none) = (slots.filterMap id).map l.text := by
  induction h with
  | nil => rfl
  | @cons task o _ _ hslot _ ih =>
    cases task with
    | waiting task =>
      cases o with
      | none => exact ih
      | some k => exact hslot.elim
    | sending message retriesLeft parent =>
      cases o with
      | none => exact hslot.elim
      | some k => exact congrArg₂ List.cons hslot.1.symm ih

theorem Balanced.conserved {p : PeerState} {l : Ledger}
    (h : Balanced [] p.tasks p.queuedMessages l) : Conserved p l := by
  have hperm : (l.answered ++ l.queued ++ l.inFlight ++ l.dropped).Perm
      (List.range l.given.length) := by
    rw [List.perm_iff_count]
    intro k
    have honce := h.once k
    rw [List.count_append, List.count_append, List.count_append]
    rw [List.count_nil, Nat.add_zero] at honce
    rw [honce, List.count_range]
  have hgiven : l.given = (List.range l.given.length).map l.text := by
    refine List.ext_getElem (by simp) fun k hk _ => ?_
    simp [Ledger.text, List.getElem?_eq_getElem hk]
  refine ⟨hperm, ?_, fun k => ?_, h.dropped⟩
  · have hmessages := (hperm.map l.text).symm
    rw [← hgiven, List.map_append, List.map_append, List.map_append, ← h.queued] at hmessages
    have hflight : p.inFlight = l.inFlight.map l.text := inFlight_eq h.slots
    rw [hflight, Multiset.coe_add, Multiset.coe_add, Multiset.coe_add]
    exact Multiset.coe_eq_coe.mpr hmessages
  · have honce := h.once k
    rw [h.oks k]
    split at honce <;> omega

/-- **Sending conserves messages**, in every run of a manager. -/
theorem send_conserves (mac : Str) (isGenerator : Bool) (is : List PeerInput) :
    Conserved ((ledgered mac isGenerator).exec (freshPeer, .empty) is).1
      ((ledgered mac isGenerator).exec (freshPeer, .empty) is).2 := by
  refine Balanced.conserved (Machine.invariant
    (P := fun s : PeerState × Ledger => Balanced [] s.1.tasks s.1.queuedMessages s.2)
    (fun s i h => h.step mac isGenerator i) ?_ is)
  exact ⟨.nil, rfl, fun _ => rfl, fun _ => rfl, fun _ h => absurd h List.not_mem_nil⟩

end Veridie.Fsm
