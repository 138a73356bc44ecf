/-
  File:      Veridie/Fsm/Requests.lean
  Subject:   The requests of a node that is not the generator: when the coroutine that repeats a
             request may stop.

  `SendRequestToGenerator` looks at the flag of its manager, which four handlers clear. It stands for
  the pending request as long as every handler clears it only when that is answered; the handler of a
  device that connects clears it without a look.

  * `PeerState.Vigilant` -- whoever repeats a request has its flag set;
  * `pending_step` -- what a step can do to the pending request;
  * `Attentive` -- the invariant of a game; `attentive_step`;
  * `ends_answered` -- a coroutine that stops has been answered, in every run in which the generator
    does not connect again while it is asked.
-/
import Veridie.Fsm.Generator
import Veridie.Fsm.Peer

namespace Veridie.Fsm

open Veridie.Lib Veridie.Dice Veridie.Sign

/-! ## 1. The coroutine of a request -/

/-- The `SendRequestToGenerator` a coroutine is, or runs for. -/
def PeerTask.requestTask : PeerTask → Option RequestTask
  | sending _ _ parent => parent
  | waiting task => some task

namespace PeerState

/-- A `SendRequestToGenerator` is in progress. -/
def Asks (p : PeerState) : Prop := ∃ task ∈ p.tasks, task.requestTask.isSome

/-- Whoever repeats a request has not been told to stop. -/
def Vigilant (p : PeerState) : Prop := p.Asks → p.pendingRequest = true

/-- The `SendRequestToGenerator` `i` returns behind its timer, and does not call `m_renegotiate`. -/
structure EndsSilently (p : PeerState) (mac : Str) (i : Nat) : Prop where
  waits : ∃ task, p.tasks[i]? = some (.waiting task)
  ends : (p.onTick mac i).st.tasks = p.tasks.eraseIdx i
  silent : (p.onTick mac i).renegotiate = false

/-- What the coroutines do to a manager: the flag is left alone, and a request is repeated only if
    one was, or `parent` is one. -/
structure Keeps (parent : Option RequestTask) (p p' : PeerState) : Prop where
  flag : p'.pendingRequest = p.pendingRequest
  asks : p'.Asks → p.Asks ∨ parent.isSome

section Keeps

variable {p p' : PeerState} {parent : Option RequestTask}

theorem Keeps.of_tasks (hflag : p'.pendingRequest = p.pendingRequest) (htasks : p'.tasks = p.tasks) :
    Keeps parent p p' where
  flag := hflag
  asks := fun ⟨task, ht, hs⟩ => Or.inl ⟨task, htasks ▸ ht, hs⟩

theorem Keeps.trans {p'' : PeerState} (h : Keeps parent p p') (h' : Keeps parent p' p'') :
    Keeps parent p p'' where
  flag := h'.flag.trans h.flag
  asks := fun ha => (h'.asks ha).elim h.asks Or.inr

/-- One more coroutine, for the same request. -/
theorem Keeps.push {task : PeerTask} (ht : task.requestTask = parent) :
    Keeps parent p { p with tasks := p.tasks ++ [task] } where
  flag := rfl
  asks := by
    rintro ⟨task', hm, hs⟩
    rcases List.mem_append.mp hm with hm | hm
    · exact Or.inl ⟨task', hm, hs⟩
    · rw [List.mem_singleton.mp hm, ht] at hs
      exact Or.inr hs

/-- A coroutine taken out to be resumed. -/
theorem Keeps.pop (i : Nat) : Keeps parent p { p with tasks := p.tasks.eraseIdx i } where
  flag := rfl
  asks := fun ⟨task, ht, hs⟩ => Or.inl ⟨task, List.mem_of_mem_eraseIdx ht, hs⟩

theorem Keeps.finish : Keeps parent p (p.finish parent) := by
  cases parent with
  | none => exact .of_tasks rfl rfl
  | some task => exact .push rfl

theorem Keeps.send (mac message : Str) : Keeps parent p (p.send mac message parent).1 := by
  unfold PeerState.send
  split
  · exact .finish
  · exact .push rfl

theorem Keeps.retry (mac message : Str) (n : Nat) :
    Keeps parent p (p.retry mac message n parent).1 := by
  unfold PeerState.retry
  split
  · exact .push rfl
  · exact .finish

theorem Keeps.onAnswer (mac : Str) (isGenerator : Bool) (message : Str) (n : Nat)
    (r : ResponseCode) : Keeps parent p (p.onAnswer mac isGenerator message n parent r).st := by
  have hthere : ∀ queue, Keeps parent p { p with connected := true, queuedMessages := queue } :=
    fun _ => .of_tasks rfl rfl
  have hlost : Keeps parent p
      { p with connected := false, queuedMessages := p.queuedMessages ++ [message] } :=
    .of_tasks rfl rfl
  unfold PeerState.onAnswer
  cases r with
  | invalidState => exact .retry mac message n
  | interopFailure => exact .retry mac message n
  | ok =>
    dsimp only
    split
    · exact (hthere p.queuedMessages).trans .finish
    · exact (hthere p.queuedMessages.dropLast).trans (.retry mac _ (retryCount + 1))
  | _ => exact hlost.trans .finish

/-- A coroutine in progress goes on for the request it is for. -/
theorem Keeps.resumed (h : Keeps parent p p') {task : PeerTask} (ht : task ∈ p.tasks)
    (hparent : task.requestTask = parent) : Keeps none p p' where
  flag := h.flag
  asks := fun ha => (h.asks ha).elim Or.inl fun hs => Or.inl ⟨task, ht, hparent ▸ hs⟩

theorem Keeps.onSendAnswer (mac : Str) (isGenerator : Bool) (i : Nat) (r : ResponseCode) :
    Keeps none p (p.onSendAnswer mac isGenerator i r).st := by
  unfold PeerState.onSendAnswer
  split
  · rename_i message n parent hi
    have hanswered : Keeps parent p _ := (Keeps.pop i).trans (.onAnswer mac isGenerator message n r)
    exact hanswered.resumed (List.mem_of_getElem? hi) rfl
  · exact .of_tasks rfl rfl

theorem Keeps.onTick (mac : Str) (i : Nat) : Keeps none p (p.onTick mac i).st := by
  unfold PeerState.onTick
  split
  · rename_i task hi
    dsimp only
    split
    · split
      · have hsent : Keeps (some { task with attempt := task.attempt - 1 }) p _ :=
          (Keeps.pop i).trans (.send mac task.request)
        exact ⟨hsent.flag, fun ha => (hsent.asks ha).elim Or.inl fun _ =>
          Or.inl ⟨_, List.mem_of_getElem? hi, rfl⟩⟩
      · exact .pop i
    · exact .pop i
  · exact .of_tasks rfl rfl

end Keeps

/-- Every input but the news that the request is answered keeps a manager vigilant. -/
theorem Vigilant.handle {p : PeerState} (h : p.Vigilant) (mac : Str) (isGenerator : Bool)
    {j : PeerInput} (hj : j ≠ .receptionSuccess true) : (p.handle mac isGenerator j).st.Vigilant := by
  have hkept : ∀ {p' : PeerState}, Keeps none p p' → p'.Vigilant := fun hk ha =>
    hk.flag.trans (h ((hk.asks ha).elim id fun hs => nomatch hs))
  cases j with
  | sendRequest request => exact fun _ => (Keeps.send mac request).flag
  | sendResponse response => exact hkept (.send mac response)
  | receptionSuccess answeredRequest =>
    cases answeredRequest with
    | true => exact absurd rfl hj
    | false => exact hkept (.of_tasks rfl rfl)
  | receptionFailure => exact hkept (.of_tasks rfl rfl)
  | answer i r => exact hkept (.onSendAnswer mac isGenerator i r)
  | tick i => exact hkept (.onTick mac i)

/-- Only the generator is asked. -/
theorem handle_not_asks {p : PeerState} (h : ¬ p.Asks) (mac : Str) (j : PeerInput) :
    ¬ (p.handle mac false j).st.Asks := by
  have hkept : ∀ {p' : PeerState}, Keeps none p p' → ¬ p'.Asks := fun hk ha =>
    (hk.asks ha).elim h fun hs => nomatch hs
  cases j with
  | sendRequest request =>
    have hsent := @Keeps.send { p with pendingRequest := true } none mac request
    exact fun ha => (hsent.asks ha).elim h fun hs => nomatch hs
  | sendResponse response => exact hkept (.send mac response)
  | receptionSuccess answeredRequest => exact fun ha => h ha
  | receptionFailure => exact hkept (.of_tasks rfl rfl)
  | answer i r => exact hkept (.onSendAnswer mac false i r)
  | tick i => exact hkept (.onTick mac i)

/-- A `Send` on behalf of a request leaves one more coroutine, whichever way it goes. -/
theorem length_send (p : PeerState) (mac message : Str) (task : RequestTask) :
    (p.send mac message (some task)).1.tasks.length = p.tasks.length + 1 := by
  unfold PeerState.send
  split
  · exact List.length_append
  · exact List.length_append

/-- A coroutine that returns without calling `m_renegotiate` has seen its flag cleared. -/
theorem EndsSilently.not_pending {p : PeerState} {mac : Str} {i : Nat} (h : p.EndsSilently mac i) :
    p.pendingRequest = false := by
  obtain ⟨task, hi⟩ := h.waits
  have hends := h.ends
  have hsilent := h.silent
  unfold PeerState.onTick at hends hsilent
  rw [hi] at hends hsilent
  cases hp : p.pendingRequest with
  | false => rfl
  | true =>
    exfalso
    dsimp only at hends hsilent
    rw [if_pos hp] at hends hsilent
    split at hsilent
    · rename_i hattempt
      rw [if_pos hattempt] at hends
      have hlength := length_send { p with tasks := p.tasks.eraseIdx i } mac task.request
        { task with attempt := task.attempt - 1 }
      rw [hends] at hlength
      exact absurd hlength (Nat.ne_of_lt (Nat.lt_succ_self _))
    · exact nomatch hsilent

end PeerState

/-! ## 2. The pending request -/

/-- The input is a response of the generator that matches the request. -/
def Answers (ser : ISerializer) (gen : Str) (request : Request) (i : PlayingInput) : Prop :=
  ∃ response, Heard ser gen i response ∧ matchesRequest response (some request) = true

section Steps

variable {ser : ISerializer} {gen mac : Str} {s : StatePlaying}

theorem StatePlaying.pendingRequest_onPeer (s : StatePlaying) (x : Str)
    (f : RemotePeerManager → Effect) : (s.onPeer x f).1.pendingRequest = s.pendingRequest := by
  unfold StatePlaying.onPeer
  split <;> rfl

/-- A message leaves the pending request alone, unless it answers it. -/
theorem pending_message {P : Str → Prop} (h : Seated gen mac P s) (sender : Device) (message : Str)
    (roll : Roll) :
    (s.onMessageReceived ser sender message roll).1.pendingRequest = s.pendingRequest ∨
    ∃ request, s.pendingRequest = some request ∧
      Answers ser gen request (.event (.messageReceived sender message) roll) := by
  generalize hr : s.onMessageReceived ser sender message roll = r
  unfold StatePlaying.onMessageReceived at hr
  split at hr
  · cases hr
    exact Or.inl rfl
  · rename_i mgr hmgr
    obtain ⟨hmem, hmac⟩ := KeySet.find?_some.mp hmgr
    split at hr
    · -- an offer
      dsimp only at hr
      split at hr <;> cases hr
      · exact Or.inl (StatePlaying.pendingRequest_receptionSuccess _ _ _)
      · exact Or.inl (StatePlaying.pendingRequest_receptionSuccess _ _ _)
    · -- a response
      rename_i response hdecoded
      split at hr
      · rename_i hgenerator
        cases hmatches : matchesRequest response s.pendingRequest with
        | false =>
          cases hr
          refine Or.inl ((StatePlaying.pendingRequest_showResponse _ _ _).trans
            ((StatePlaying.pendingRequest_receptionSuccess _ _ _).trans ?_))
          rw [if_neg (ne_true_of_eq_false hmatches)]
        | true =>
          cases hp : s.pendingRequest with
          | none => rw [hp] at hmatches; exact nomatch hmatches
          | some request =>
            rw [hp] at hmatches
            exact Or.inr ⟨request, rfl, response, ⟨sender, message, roll, rfl,
              hmac ▸ (h.managers mgr hmem).remote hgenerator, hdecoded⟩, hmatches⟩
      · cases hr
        exact Or.inl rfl
    · -- a request
      dsimp only at hr
      split at hr <;> cases hr
      · exact Or.inl ((StatePlaying.pendingRequest_answerRequest _ _ _ _).trans
          (StatePlaying.pendingRequest_receptionSuccess _ _ _))
      · exact Or.inl (StatePlaying.pendingRequest_receptionSuccess _ _ _)
    · cases hr
      exact Or.inl rfl
    · cases hr
      exact Or.inl rfl
    · cases hr
      exact Or.inl rfl

/-- A node that is not the generator waits for the answer to a request it casts. -/
theorem pending_cast (hlocal : ¬ s.localGenerator = true) (request : Request) (roll : Roll) :
    (s.onCastRequest ser request roll).1.pendingRequest = some request := by
  unfold StatePlaying.onCastRequest
  dsimp only
  rw [if_neg]
  exact hlocal

/-- **What a step does to the pending request**: it is cast, or answered, or left alone. -/
theorem pending_step {P : Str → Prop} (h : Seated gen mac P s) (i : PlayingInput) :
    (∃ request roll, i = .event (.castRequest request) roll) ∨
    ((playing ser).step s i).1.pendingRequest = s.pendingRequest ∨
    ∃ request, s.pendingRequest = some request ∧ Answers ser gen request i := by
  cases i with
  | event e roll =>
    cases e with
    | castRequest request => exact Or.inl ⟨request, roll, rfl⟩
    | messageReceived sender message => exact Or.inr (pending_message h sender message roll)
    | deviceConnected remote =>
      exact Or.inr (Or.inl (s.pendingRequest_receptionSuccess remote.mac true))
    | socketReadFailure transmitter =>
      exact Or.inr (Or.inl (s.pendingRequest_onPeer transmitter.mac _))
    | _ => exact Or.inr (Or.inl rfl)
  | resume i =>
    refine Or.inr (Or.inl ?_)
    cases i with
    | send x i r => exact s.pendingRequest_onPeer x _
    | requestTick x i => exact s.pendingRequest_onPeer x _
    | «show» i r =>
      show (s.onShowAnswer i r).1.pendingRequest = s.pendingRequest
      unfold StatePlaying.onShowAnswer
      split
      · rfl
      · dsimp only
        split
        · rfl
        · split <;> rfl
    | ignoreTick => rfl

end Steps

/-! ## 3. Games -/

/-- What the code assumes: no new request until the last one has been answered. -/
def OneAtATime (s : StatePlaying) : PlayingInput → Prop
  | .event (.castRequest _) _ => s.pendingRequest = none
  | _ => True

/-- The generator does not connect while a request to it is in progress and has no answer. -/
def Undisturbed (gen : Str) (s : StatePlaying) : PlayingInput → Prop
  | .event (.deviceConnected remote) _ => remote.mac = gen →
      s.pendingRequest = none ∨ ∀ m ∈ s.managers.elems, m.mac = gen → ¬ m.st.Asks
  | _ => True

/-- A node whose managers repeat its request as long as it has no answer. -/
structure Attentive (gen mac : Str) (s : StatePlaying) : Prop where
  seated : Seated gen mac (fun _ => True) s
  others : ∀ m ∈ s.managers.elems, m.isGenerator = false → ¬ m.st.Asks
  vigilant : s.pendingRequest.isSome → ∀ m ∈ s.managers.elems, m.st.Vigilant

/-- Every request cast has been answered since, or is the pending one. -/
def Awaited (ser : ISerializer) (gen : Str) (s : StatePlaying) (is : List PlayingInput) : Prop :=
  ∀ is₁ request roll is₂, is = is₁ ++ .event (.castRequest request) roll :: is₂ →
    s.pendingRequest = some request ∨ ∃ i ∈ is₂, Answers ser gen request i

section Games

variable {ser : ISerializer} {gen mac : Str} {s : StatePlaying}

theorem attentive_construct (peers : Peers) :
    Attentive gen mac (StatePlaying.construct peers mac gen) where
  seated := seated_construct peers
  others := by
    intro m hm _ ⟨task, ht, _⟩
    obtain ⟨peer, _, rfl⟩ := List.mem_map.mp hm
    exact absurd ht List.not_mem_nil
  vigilant := fun hp => nomatch hp

/-- A device that connects clears the flag of its manager: of one that repeats no request. -/
theorem Attentive.connected (h : Attentive gen mac s) (hpending : s.pendingRequest.isSome)
    {remote : Device} {roll : Roll}
    (hundisturbed : Undisturbed gen s (.event (.deviceConnected remote) roll)) :
    ∀ m ∈ (s.receptionSuccess remote.mac true).managers.elems, m.st.Vigilant := by
  unfold StatePlaying.receptionSuccess StatePlaying.onPeer
  cases hm : s.managers.find? remote.mac with
  | none => exact h.vigilant hpending
  | some m =>
    obtain ⟨hmem, hkey⟩ := KeySet.find?_some.mp hm
    intro m' hm'
    rcases StatePlaying.mem_setPeer.mp hm' with ⟨hm', _⟩ | ⟨m'', hm'', _, rfl⟩
    · exact h.vigilant hpending m' hm'
    · have hquiet : ¬ m.st.Asks := by
        by_cases hgen : remote.mac = gen
        · rcases hundisturbed hgen with hnone | hasks
          · rw [hnone] at hpending
            exact nomatch hpending
          · exact hasks m hmem (hkey.trans hgen)
        · refine h.others m hmem (Bool.eq_false_iff.mpr fun hg => hgen ?_)
          exact hkey.symm.trans ((h.seated.managers m hmem).remote hg)
      exact fun ha => absurd ha hquiet

/-- A request cast sets every flag. -/
theorem vigilant_cast (hlocal : ¬ s.localGenerator = true) (request : Request) (roll : Roll) :
    ∀ m ∈ (s.onCastRequest ser request roll).1.managers.elems, m.st.Vigilant := by
  unfold StatePlaying.onCastRequest
  dsimp only
  rw [if_neg]
  · intro m hm _
    obtain ⟨m', _, rfl⟩ := List.mem_map.mp hm
    exact (PeerState.Keeps.send _ _).flag
  · exact hlocal

/-- **A step keeps a node attentive**, when it casts one request at a time and the generator does not
    connect in between. -/
theorem attentive_step (hmac : mac ≠ gen) (h : Attentive gen mac s) (i : PlayingInput)
    (hundisturbed : Undisturbed gen s i) : Attentive gen mac ((playing ser).step s i).1 where
  seated := (faithful_step h.seated i (fun _ => trivial) fun _ _ _ => trivial).node
  others := by
    refine manager_invariant (P := fun m => m.isGenerator = false → ¬ m.st.Asks) ser
      (fun m j hm hg => ?_) h.others [i]
    rw [hg]
    exact PeerState.handle_not_asks (hm hg) m.mac j
  vigilant := by
    intro hpending m' hm'
    by_cases hcast : ∃ request roll, i = .event (.castRequest request) roll
    · obtain ⟨request, roll, rfl⟩ := hcast
      exact vigilant_cast (fun hl => hmac (h.seated.localGenerator.mp hl)) request roll m' hm'
    · have hbefore : s.pendingRequest.isSome := by
        rcases pending_step h.seated i with hc | hsame | ⟨request, hsome, _⟩
        · exact absurd hc hcast
        · exact hsame ▸ hpending
        · rw [hsome]
          rfl
      by_cases hconnected : ∃ remote roll, i = .event (.deviceConnected remote) roll
      · obtain ⟨remote, roll, rfl⟩ := hconnected
        exact h.connected hbefore hundisturbed m' hm'
      · obtain ⟨m, hm, js, htold, rfl⟩ := (playing_follows ser s i).managers m' hm'
        refine Machine.invariant_along (M := peer m.mac m.isGenerator) (P := PeerState.Vigilant)
          (fun p j hj hp => hp.handle m.mac m.isGenerator hj) (Machine.along_of_mem _ fun j hj e => ?_)
          (h.vigilant hbefore m hm)
        rcases htold j hj e with hnone | ⟨remote, roll, he, _⟩
        · rw [hnone] at hpending
          exact nomatch hpending
        · exact hconnected ⟨remote, roll, he⟩

/-- The condition is exact: any other step leaves a coroutine that stops without an answer. -/
theorem attentive_step_iff (hmac : mac ≠ gen) (h : Attentive gen mac s) (i : PlayingInput) :
    Attentive gen mac ((playing ser).step s i).1 ↔ Undisturbed gen s i := by
  refine ⟨fun h' => ?_, attentive_step hmac h i⟩
  unfold Undisturbed
  split
  · rename_i remote roll
    intro hgen
    by_contra hnot
    obtain ⟨hpending, hasks⟩ := not_or.mp hnot
    refine hasks fun m hm hkey ha => ?_
    have hfound : s.managers.find? remote.mac = some m :=
      KeySet.find?_some.mpr ⟨hm, hkey.trans hgen.symm⟩
    have hmem : { m with st := m.st.onReceptionSuccess true } ∈
        (s.receptionSuccess remote.mac true).managers.elems := by
      unfold StatePlaying.receptionSuccess StatePlaying.onPeer
      rw [hfound]
      exact StatePlaying.mem_setPeer.mpr (Or.inr ⟨m, hm, hkey.trans hgen.symm, rfl⟩)
    have hsome : (s.receptionSuccess remote.mac true).pendingRequest.isSome := by
      rw [s.pendingRequest_receptionSuccess]
      exact Option.isSome_iff_ne_none.mpr hpending
    exact Bool.false_ne_true (h'.vigilant hsome _ hmem ha)
  · trivial

/-- **What a step leaves unanswered** is the pending request. -/
theorem awaited_step (hmac : mac ≠ gen) (h : Attentive gen mac s) {is : List PlayingInput}
    (hawaited : Awaited ser gen s is) (i : PlayingInput) (hone : OneAtATime s i) :
    Awaited ser gen ((playing ser).step s i).1 (is ++ [i]) := by
  intro is₁ request roll is₂ hsplit
  rcases List.eq_nil_or_concat is₂ with rfl | ⟨is₂, j, rfl⟩
  · obtain ⟨_, hi⟩ := List.append_inj' hsplit rfl
    cases hi
    exact Or.inl (pending_cast (fun hl => hmac (h.seated.localGenerator.mp hl)) request roll)
  · rw [List.concat_eq_append, ← List.cons_append, ← List.append_assoc] at hsplit
    obtain ⟨rfl, hi⟩ := List.append_inj' hsplit rfl
    cases hi
    rw [List.concat_eq_append]
    rcases hawaited is₁ request roll is₂ rfl with hpending | ⟨j, hj, hanswers⟩
    · rcases pending_step h.seated i with ⟨request', roll', rfl⟩ | hsame | ⟨request', hsome, hanswers⟩
      · exact nomatch hpending.symm.trans hone
      · exact Or.inl (hsame.trans hpending)
      · cases hpending.symm.trans hsome
        exact Or.inr ⟨i, List.mem_append_right _ List.mem_cons_self, hanswers⟩
    · exact Or.inr ⟨j, List.mem_append_left _ hj, hanswers⟩

/-- **A request is repeated until it is answered**, in every run of a node that is not the generator
    and casts one request at a time, when the generator does not connect while it is asked: a
    `SendRequestToGenerator` returns without calling `m_renegotiate` only when every request cast so
    far, whichever of them it is for, has been followed by a response of the generator that matches
    it. -/
theorem ends_answered (ser : ISerializer) (peers : Peers) (hmac : mac ≠ gen)
    {is : List PlayingInput}
    (hone : (playing ser).Along OneAtATime (StatePlaying.construct peers mac gen) is)
    (hundisturbed : (playing ser).Along (Undisturbed gen) (StatePlaying.construct peers mac gen) is)
    {m : RemotePeerManager}
    (hm : m ∈ ((playing ser).exec (StatePlaying.construct peers mac gen) is).managers.elems)
    {k : Nat} (hends : m.st.EndsSilently m.mac k) {is₁ is₂ : List PlayingInput} {request : Request}
    {roll : Roll} (hcast : is = is₁ ++ .event (.castRequest request) roll :: is₂) :
    ∃ i ∈ is₂, Answers ser gen request i := by
  have hrun : Attentive gen mac ((playing ser).exec (StatePlaying.construct peers mac gen) is) ∧
      Awaited ser gen ((playing ser).exec (StatePlaying.construct peers mac gen) is) ([] ++ is) := by
    refine Machine.history_invariant_along
      (G := fun s i => OneAtATime s i ∧ Undisturbed gen s i)
      (P := fun s is => Attentive gen mac s ∧ Awaited ser gen s is)
      (fun s js i hG h => ⟨attentive_step hmac h.1 i hG.2, awaited_step hmac h.1 h.2 i hG.1⟩)
      (Machine.along_and _ hone hundisturbed) ⟨attentive_construct peers, fun is₁ request roll is₂ e => ?_⟩
    exact absurd e.symm (List.append_ne_nil_of_right_ne_nil _ (List.cons_ne_nil _ _))
  obtain ⟨hattentive, hawaited⟩ := hrun
  rcases hawaited is₁ request roll is₂ hcast with hpending | hanswered
  · obtain ⟨task, ht⟩ := hends.waits
    have hflag : m.st.pendingRequest = true :=
      hattentive.vigilant (by rw [hpending]; rfl) m hm ⟨_, List.mem_of_getElem? ht, rfl⟩
    rw [hends.not_pending] at hflag
    exact nomatch hflag
  · exact hanswered

end Games

/-- "B" plays with the generator "A". -/
def guest : StatePlaying :=
  .construct (onePeer ⟨"a".toList, "A".toList⟩) "B".toList "A".toList

/-- "B" asks "A" for two dice, and the request goes out. -/
def asked : List PlayingInput :=
  [.event (.castRequest twoDice) id, .resume (.send "A".toList 0 .ok)]

/-- The response of "A". -/
def rolledByA : PlayingInput :=
  .event (.messageReceived ⟨"a".toList, "A".toList⟩
    ((xmlSerializer walkAsIs).serializeResponse (generateResponse id twoDice))) id

/-- "A" connects. -/
def connectedA : PlayingInput := .event (.deviceConnected ⟨"a".toList, "A".toList⟩) id

/-- The manager of "A", told to stop, with the coroutine that waits for its timer. -/
def toldManager : RemotePeerManager :=
  ⟨⟨"a".toList, "A".toList⟩, true, ⟨false, true, [],
    [.waiting ⟨(xmlSerializer walkAsIs).serializeRequest twoDice, requestAttempts⟩]⟩⟩

theorem toldManager_ends : toldManager.st.EndsSilently "A".toList 0 where
  waits := ⟨_, rfl⟩
  ends := rfl
  silent := rfl

theorem answered_managers : ((playing (xmlSerializer walkAsIs)).exec guest
    (asked ++ [rolledByA])).managers.elems = [toldManager] := by
  rw [Machine.exec_snoc]
  show (StatePlaying.onMessageReceived _ _ _ _ _).1.managers.elems = _
  unfold StatePlaying.onMessageReceived
  dsimp only
  rw [xmlSerializer_response]
  rfl

/-- "A" has answered when the coroutine stops. -/
theorem ends_answered_one : ∃ i ∈ [.resume (.send "A".toList 0 .ok), rolledByA],
    Answers (xmlSerializer walkAsIs) "A".toList twoDice i :=
  @ends_answered "A".toList "B".toList (xmlSerializer walkAsIs)
    (onePeer ⟨"a".toList, "A".toList⟩) (by decide) (asked ++ [rolledByA])
    ⟨rfl, trivial, trivial, trivial⟩ ⟨trivial, trivial, trivial, trivial⟩ toldManager
    (answered_managers ▸ List.mem_singleton.mpr rfl) 0 toldManager_ends [] _ twoDice id rfl

/-- "A" connects again: the coroutine stops, and "A" has not answered. -/
theorem ends_answered_fails :
    (playing (xmlSerializer walkAsIs)).Along OneAtATime guest (asked ++ [connectedA]) ∧
    (∃ m ∈ ((playing (xmlSerializer walkAsIs)).exec guest (asked ++ [connectedA])).managers.elems,
      m.st.EndsSilently m.mac 0) ∧
    ∀ i ∈ asked ++ [connectedA], ¬ Answers (xmlSerializer walkAsIs) "A".toList twoDice i := by
  refine ⟨⟨rfl, trivial, trivial, trivial⟩,
    ⟨toldManager, List.mem_singleton.mpr rfl, toldManager_ends⟩, ?_⟩
  rintro i hi ⟨response, ⟨sender, message, roll, rfl, _⟩, _⟩
  simp [asked, connectedA] at hi

end Veridie.Fsm
