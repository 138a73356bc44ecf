/-
  File:      Veridie/Fsm/Peer.lean
  Subject:   A `RemotePeerManager` by itself: its member functions, and the answers and timers its
             coroutines wait for, as the inputs of a machine.

  * `PeerInput`, `peer` -- the machine;
  * `Follows` -- what a step of `StatePlaying` does to its managers is a run of that machine, and
    nothing else sends;
  * `playing_follows` -- every step does so;
  * `manager_invariant` -- the run rule for the managers of a game.
-/
import Veridie.Fsm.Playing

namespace Veridie.Fsm

open Veridie.Lib Veridie.Dice Veridie.Sign

/-! ## 1. The machine -/

/-- What can happen to a manager. -/
inductive PeerInput where
  | sendRequest (request : Str)
  | sendResponse (response : Str)
  | receptionSuccess (answeredRequest : Bool)
  | receptionFailure
  | answer (i : Nat) (r : ResponseCode)
  | tick (i : Nat)

/-- The member functions, and the coroutines behind what they wait for. -/
def PeerState.handle (p : PeerState) (mac : Str) (isGenerator : Bool) : PeerInput → Effect
  | .sendRequest request =>
    let (p, o) := p.sendRequest mac isGenerator request
    ⟨p, o, false⟩
  | .sendResponse response =>
    let (p, o) := p.sendResponse mac response
    ⟨p, o, false⟩
  | .receptionSuccess answeredRequest => ⟨p.onReceptionSuccess answeredRequest, [], false⟩
  | .receptionFailure => p.onReceptionFailure isGenerator
  | .answer i r => p.onSendAnswer mac isGenerator i r
  | .tick i => p.onTick mac i

/-- A manager over everything that can happen to it. -/
def peer (mac : Str) (isGenerator : Bool) : Machine PeerState PeerInput Out where
  step p i := ((p.handle mac isGenerator i).st, (p.handle mac isGenerator i).outs)

/-- A manager as the constructor leaves it. -/
def freshPeer : PeerState := ⟨false, true, [], []⟩

/-! ## 2. The managers of a game -/

/-- A command that carries a message. -/
def CarriesMessage : Out → Prop
  | .issue (.sendMessage _ _) => True
  | .issue (.sendLongMessage _ _) => True
  | _ => False

/-- The managers have been moved by runs of their machine on inputs that meet `J`, and only they
    have sent. -/
structure Follows (J : Str → PeerInput → Prop) (s s' : StatePlaying) (outs : List Out) : Prop where
  managers : ∀ m' ∈ s'.managers.elems, ∃ m ∈ s.managers.elems, ∃ is : List PeerInput,
    (∀ i ∈ is, J m.mac i) ∧ m' = { m with st := (peer m.mac m.isGenerator).exec m.st is }
  sent : ∀ o ∈ outs, CarriesMessage o →
    ∃ m ∈ s.managers.elems, ∃ is : List PeerInput, o ∈ (peer m.mac m.isGenerator).outs m.st is

section Follows

variable {J : Str → PeerInput → Prop} {s s' : StatePlaying} {outs : List Out}

theorem Follows.silent (h : s'.managers = s.managers) (houts : ∀ o ∈ outs, ¬ CarriesMessage o) :
    Follows J s s' outs where
  managers := fun m' hm' => ⟨m', h ▸ hm', [], fun _ hi => absurd hi List.not_mem_nil, rfl⟩
  sent := fun o ho hc => absurd hc (houts o ho)

/-- Nothing is done. -/
theorem Follows.same : Follows J s s [] := .silent rfl fun _ ho => absurd ho List.not_mem_nil

theorem Follows.trans {s₁ s₂ : StatePlaying} {o₁ o₂ : List Out} (h₁ : Follows J s s₁ o₁)
    (h₂ : Follows J s₁ s₂ o₂) : Follows J s s₂ (o₁ ++ o₂) where
  managers := fun m₂ hm₂ => by
    obtain ⟨m₁, hm₁, is₂, hJ₂, rfl⟩ := h₂.managers m₂ hm₂
    obtain ⟨m, hm, is₁, hJ₁, rfl⟩ := h₁.managers m₁ hm₁
    refine ⟨m, hm, is₁ ++ is₂, fun i hi => (List.mem_append.mp hi).elim (hJ₁ i) (hJ₂ i), ?_⟩
    rw [Machine.exec_append]
    rfl
  sent := fun o ho hc => by
    rcases List.mem_append.mp ho with ho | ho
    · exact h₁.sent o ho hc
    · obtain ⟨m₁, hm₁, is₂, ho⟩ := h₂.sent o ho hc
      obtain ⟨m, hm, is₁, _, rfl⟩ := h₁.managers m₁ hm₁
      refine ⟨m, hm, is₁ ++ is₂, ?_⟩
      rw [Machine.outs_append]
      exact List.mem_append_right _ ho

/-- One manager has handled an input. -/
theorem Follows.onPeer (s : StatePlaying) (mac : Str) {f : RemotePeerManager → Effect}
    (i : PeerInput) (hJ : J mac i) (hf : ∀ m, f m = m.st.handle m.mac m.isGenerator i) :
    Follows J s (s.onPeer mac f).1 (s.onPeer mac f).2 := by
  unfold StatePlaying.onPeer
  cases hm : s.managers.find? mac with
  | none => exact .same
  | some m =>
    obtain ⟨hmem, hkey⟩ := KeySet.find?_some.mp hm
    refine ⟨fun m' hm' => ?_, fun o ho hc => ?_⟩
    · rcases StatePlaying.mem_setPeer.mp hm' with ⟨hm', _⟩ | ⟨m'', hm'', hk, rfl⟩
      · exact ⟨m', hm', [], fun _ hi => absurd hi List.not_mem_nil, rfl⟩
      · obtain rfl := KeySet.eq_of_key_eq hm'' hmem (hk.trans hkey.symm)
        refine ⟨m'', hm'', [i], fun j hj => ?_, ?_⟩
        · rw [List.mem_singleton.mp hj, hkey]
          exact hJ
        · rw [hf]
          rfl
    · rcases List.mem_append.mp ho with ho | ho
      · refine ⟨m, hmem, [i], ?_⟩
        rw [hf] at ho
        exact List.mem_append_left _ ho
      · split at ho
        · rw [List.mem_singleton.mp ho] at hc
          exact hc.elim
        · exact absurd ho List.not_mem_nil

/-- Every manager has handled an input. -/
theorem Follows.onAllPeers (s : StatePlaying) {f : RemotePeerManager → PeerState × List Out}
    (i : PeerInput) (hJ : ∀ mac, J mac i) (hf : ∀ m, f m = (peer m.mac m.isGenerator).step m.st i) :
    Follows J s (s.onAllPeers f).1 (s.onAllPeers f).2 where
  managers := fun m' hm' => by
    obtain ⟨m, hm, rfl⟩ := List.mem_map.mp hm'
    refine ⟨m, hm, [i], fun j hj => ?_, ?_⟩
    · rw [List.mem_singleton.mp hj]
      exact hJ m.mac
    · rw [hf]
      rfl
  sent := fun o ho _ => by
    obtain ⟨m, hm, ho⟩ := List.mem_flatMap.mp ho
    refine ⟨m, hm, [i], ?_⟩
    rw [hf] at ho
    exact List.mem_append_left _ ho

theorem Follows.receptionSuccess (s : StatePlaying) (mac : Str) (answeredRequest : Bool)
    (hJ : J mac (.receptionSuccess answeredRequest)) :
    Follows J s (s.receptionSuccess mac answeredRequest) [] :=
  ⟨(Follows.onPeer s mac (.receptionSuccess answeredRequest) hJ fun _ => rfl).managers,
    fun _ ho => absurd ho List.not_mem_nil⟩

theorem Follows.showRequest (s : StatePlaying) (request : Request) (name : Str) :
    Follows J s (s.showRequest request name).1 (s.showRequest request name).2 :=
  .silent rfl fun o ho => by
    rw [List.mem_singleton.mp ho]
    exact id

theorem Follows.showResponse (s : StatePlaying) (response : Response) (name : Str) :
    Follows J s (s.showResponse response name).1 (s.showResponse response name).2 := by
  refine .silent (s.showResponse_managers response name) fun o ho => ?_
  unfold StatePlaying.showResponse at ho
  dsimp only at ho
  split at ho
  · rcases List.mem_pair.mp ho with rfl | rfl <;> exact id
  · rcases List.mem_pair.mp ho with rfl | rfl
    · exact id
    · split <;> exact id

theorem Follows.answerRequest (ser : ISerializer) (s : StatePlaying) (request : Request)
    (roll : Roll) (hJ : ∀ mac response, J mac (.sendResponse response)) :
    Follows J s (s.answerRequest ser request roll).1 (s.answerRequest ser request roll).2 := by
  have hrolled : Follows J s s [.rolled request (generateResponse roll request)] :=
    .silent rfl fun o ho => by
      rw [List.mem_singleton.mp ho]
      exact id
  have hsent := hrolled.trans (.onAllPeers s
    (.sendResponse (ser.serializeResponse (generateResponse roll request))) (fun mac => hJ mac _)
    fun _ => rfl)
  exact hsent.trans (.showResponse _ _ _)

theorem Follows.startNegotiationWithOffer (s : StatePlaying) (sender : Device) (offer : Str) :
    Follows J s (s.startNegotiationWithOffer sender offer).1
      (s.startNegotiationWithOffer sender offer).2 where
  managers := fun m' hm' => absurd hm' List.not_mem_nil
  sent := fun o ho hc => by
    rcases List.mem_append.mp ho with ho | ho
    · obtain ⟨m, _, ho⟩ := List.mem_flatMap.mp ho
      unfold RemotePeerManager.destroy at ho
      split at ho
      · exact absurd ho List.not_mem_nil
      · rw [List.mem_singleton.mp ho] at hc
        exact hc.elim
    · rw [List.mem_singleton.mp ho] at hc
      exact hc.elim

end Follows

/-! ## 3. Every step -/

/-- What a manager can be told in a step: that its request was answered only when none is pending
    behind the step, or when the device has connected again. -/
def Told (ser : ISerializer) (s : StatePlaying) (i : PlayingInput) (mac : Str) (j : PeerInput) :
    Prop :=
  j = .receptionSuccess true → ((playing ser).step s i).1.pendingRequest = none ∨
    ∃ remote roll, i = .event (.deviceConnected remote) roll ∧ remote.mac = mac

section Steps

variable (ser : ISerializer) (s : StatePlaying)

theorem told_of_isNone {i : PlayingInput} {mac : Str} {pending : Option Request}
    (h : ((playing ser).step s i).1.pendingRequest = pending) :
    Told ser s i mac (.receptionSuccess pending.isNone) := fun e =>
  Or.inl (h.trans (Option.isNone_iff_eq_none.mp (PeerInput.receptionSuccess.inj e)))

theorem Follows.message (sender : Device) (message : Str) (roll : Roll) :
    Follows (Told ser s (.event (.messageReceived sender message) roll)) s
      (s.onMessageReceived ser sender message roll).1
      (s.onMessageReceived ser sender message roll).2 := by
  have hstep : ((playing ser).step s (.event (.messageReceived sender message) roll)) =
    s.onMessageReceived ser sender message roll := rfl
  generalize hJ : Told ser s (.event (.messageReceived sender message) roll) = J
  have htold : ∀ pending : Option Request,
      (s.onMessageReceived ser sender message roll).1.pendingRequest = pending →
      J sender.mac (.receptionSuccess pending.isNone) := fun pending h =>
    hJ ▸ told_of_isNone ser s h
  have hsends : ∀ mac response, J mac (.sendResponse response) := fun mac response =>
    hJ ▸ fun e => nomatch e
  clear hJ hstep
  revert htold
  unfold StatePlaying.onMessageReceived
  cases hm : s.managers.find? sender.mac with
  | none => exact fun _ => .same
  | some mgr =>
    dsimp only
    rcases ser.deserialize message with (_ | u) | (_ | offer | request | response)
    · exact fun _ => .same
    · exact fun _ => .silent rfl fun o ho => by
        rw [List.mem_singleton.mp ho]
        exact id
    · exact fun _ => .same
    · dsimp only
      intro htold
      split at htold
      · rename_i hignore
        rw [if_pos hignore]
        exact .receptionSuccess s sender.mac _ (htold _ (s.pendingRequest_receptionSuccess _ _))
      · rename_i hignore
        rw [if_neg hignore]
        have hheard := Follows.receptionSuccess s sender.mac s.pendingRequest.isNone (htold _
          (s.pendingRequest_receptionSuccess _ _))
        exact hheard.trans (.startNegotiationWithOffer _ sender message)
    · dsimp only
      intro htold
      split at htold
      · rename_i hlocal
        rw [if_pos hlocal]
        have hheard := Follows.receptionSuccess s sender.mac s.pendingRequest.isNone (htold _
          ((StatePlaying.pendingRequest_answerRequest _ _ _ _).trans
            (s.pendingRequest_receptionSuccess _ _)))
        exact (hheard.trans (.showRequest _ request mgr.remote.name)).trans
          (.answerRequest ser _ request roll hsends)
      · rename_i hlocal
        rw [if_neg hlocal]
        have hheard := Follows.receptionSuccess s sender.mac s.pendingRequest.isNone (htold _
          (s.pendingRequest_receptionSuccess _ _))
        exact hheard.trans (.showRequest _ request mgr.remote.name)
    · dsimp only
      intro htold
      split at htold
      · rename_i hgenerator
        rw [if_pos hgenerator]
        let s₁ : StatePlaying :=
          if matchesRequest response s.pendingRequest then { s with pendingRequest := none } else s
        have hmarked : Follows J s s₁
            (if matchesRequest response s.pendingRequest then [Out.answered] else []) := by
          refine .silent ?_ fun o ho => ?_
          · show (if _ then _ else _ : StatePlaying).managers = _
            split <;> rfl
          · split at ho
            · rw [List.mem_singleton.mp ho]
              exact id
            · exact absurd ho List.not_mem_nil
        have hheard := hmarked.trans (.receptionSuccess s₁ sender.mac s₁.pendingRequest.isNone
          (htold _ ((StatePlaying.pendingRequest_showResponse _ _ _).trans
            (s₁.pendingRequest_receptionSuccess _ _))))
        rw [List.append_nil] at hheard
        exact hheard.trans (.showResponse _ response mgr.remote.name)
      · rename_i hgenerator
        rw [if_neg hgenerator]
        exact .same

theorem Follows.castRequest {J : Str → PeerInput → Prop} (localRequest : Request) (roll : Roll)
    (hasks : ∀ mac request, J mac (.sendRequest request))
    (hsends : ∀ mac response, J mac (.sendResponse response)) :
    Follows J s (s.onCastRequest ser localRequest roll).1
      (s.onCastRequest ser localRequest roll).2 := by
  have hasked : Follows J s _ _ := (Follows.showRequest s localRequest "You".toList).trans
    (.onAllPeers _ (.sendRequest (ser.serializeRequest localRequest)) (fun mac => hasks mac _)
      fun _ => rfl)
  unfold StatePlaying.onCastRequest
  dsimp only
  split
  · exact hasked.trans (.answerRequest ser _ localRequest roll hsends)
  · exact ⟨hasked.managers, hasked.sent⟩

theorem Follows.showAnswer {J : Str → PeerInput → Prop} (i : Nat) (r : ResponseCode) :
    Follows J s (s.onShowAnswer i r).1 (s.onShowAnswer i r).2 := by
  have hstop : ∀ o ∈ StatePlaying.onGameStopped, ¬ CarriesMessage o := by
    simp [StatePlaying.onGameStopped, CarriesMessage]
  unfold StatePlaying.onShowAnswer
  split
  · exact .same
  · dsimp only
    split
    · exact .silent rfl hstop
    · split
      · exact .silent rfl fun _ ho => absurd ho List.not_mem_nil
      · refine .silent rfl fun o ho => ?_
        split at ho
        · rw [List.mem_singleton.mp ho]
          exact id
        · exact absurd ho List.not_mem_nil

/-- **Every step** moves the managers by runs of their machine. -/
theorem playing_follows (i : PlayingInput) :
    Follows (Told ser s i) s ((playing ser).step s i).1 ((playing ser).step s i).2 := by
  have hstop : ∀ o ∈ StatePlaying.onGameStopped, ¬ CarriesMessage o := by
    simp [StatePlaying.onGameStopped, CarriesMessage]
  cases i with
  | event e roll =>
    cases e with
    | bluetoothOff => exact .silent rfl hstop
    | gameStopped => exact .silent rfl hstop
    | deviceConnected remote =>
      exact .receptionSuccess s remote.mac true fun _ => Or.inr ⟨remote, roll, rfl, rfl⟩
    | messageReceived sender message => exact .message ser s sender message roll
    | castRequest localRequest =>
      exact .castRequest ser s localRequest roll (fun _ _ e => nomatch e) fun _ _ e => nomatch e
    | socketReadFailure transmitter =>
      exact .onPeer s transmitter.mac .receptionFailure (fun e => nomatch e) fun _ => rfl
    | _ => exact .same
  | resume i =>
    cases i with
    | send mac i r => exact .onPeer s mac (.answer i r) (fun e => nomatch e) fun _ => rfl
    | requestTick mac i => exact .onPeer s mac (.tick i) (fun e => nomatch e) fun _ => rfl
    | «show» i r => exact .showAnswer s i r
    | ignoreTick => exact .silent rfl fun _ ho => absurd ho List.not_mem_nil

end Steps

/-- What the constructor and every run of its machine keep holds of every manager of a game. -/
theorem manager_invariant {P : RemotePeerManager → Prop} (ser : ISerializer) {s : StatePlaying}
    (hstep : ∀ m i, P m → P { m with st := ((peer m.mac m.isGenerator).step m.st i).1 })
    (h0 : ∀ m ∈ s.managers.elems, P m) (is : List PlayingInput) :
    ∀ m ∈ ((playing ser).exec s is).managers.elems, P m := by
  refine Machine.invariant (M := playing ser) (P := fun s => ∀ m ∈ s.managers.elems, P m)
    (fun s i h m' hm' => ?_) h0 is
  obtain ⟨m, hm, js, _, rfl⟩ := (playing_follows ser s i).managers m' hm'
  have hrun : ∀ (js : List PeerInput) (p : PeerState), P { m with st := p } →
      P { m with st := (peer m.mac m.isGenerator).exec p js } := by
    intro js
    induction js with
    | nil => exact fun p hp => hp
    | cons j js ih => exact fun p hp => ih _ (hstep { m with st := p } j hp)
  exact hrun js m.st (h m hm)

end Veridie.Fsm
