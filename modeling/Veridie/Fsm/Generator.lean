/-
  File:      Veridie/Fsm/Generator.lean
  Subject:   A group of nodes that play, all with the same generator: whose rolls they display.

  The generator runs the code; in the name of any other node any message may arrive. A message can
  be delivered late, more than once, or never. What the generator has to send is either a request or
  the text of a response it has rolled, wherever the text waits: in a coroutine, in the queue of an
  unreachable peer, on its way. And nodes show responses only of the generator.

  * `game` -- the group over everything that can happen to it;
  * `Holds`, `Says` -- every text a manager keeps, and every text that goes out;
  * `Seated` -- what a node knows of the generator; `faithful_step` -- a step keeps it, and shows only
    what it has rolled or the generator has sent;
  * `rolls_respected` -- every response shown was rolled by the generator.
-/
import Veridie.Fsm.Playing
import Veridie.Lib.Network
import Veridie.Dice.RoundTrip

namespace Veridie.Fsm

open Veridie.Lib Veridie.Dice Veridie.Sign

/-! ## 1. The group -/

/-- What can happen in the group. -/
inductive GameInput where
  /-- `StatePlaying` is constructed, with the generator all agree on -/
  | enter (mac : Str) (peers : Peers)
  /-- `StatePlaying` is destroyed -/
  | leave (mac : Str)
  /-- an event other than a message -/
  | event (mac : Str) (e : Event) (roll : Roll)
  /-- an answer or a timer -/
  | resume (mac : Str) (i : PlayingResume)
  /-- a message sent arrives -/
  | deliver (k : Nat) (name : Str) (roll : Roll)
  /-- any message, in the name of any node but the generator -/
  | forge (p : Packet Str Str)

/-- The nodes of the group, and the messages on their way. -/
abbrev GameState := Network Str StatePlaying Str

/-- A message that goes out, with its receiver. -/
def transmission : Out → Option (Str × Str)
  | .issue (.sendMessage message mac) => some (mac, message)
  | .issue (.sendLongMessage message mac) => some (mac, message)
  | _ => none

/-- The group over everything that can happen to it; `gen` is the generator. -/
def game (ser : ISerializer) (gen : Str) : Machine GameState GameInput (Str × Out) where
  step w i :=
    match i with
    | .enter mac peers => w.act transmission mac (StatePlaying.construct peers mac gen, [])
    | .leave mac => (w.leave mac, [])
    | .event _ (.messageReceived _ _) _ => (w, [])
    | .event mac e roll => w.input (playing ser) transmission mac (.event e roll)
    | .resume mac i => w.input (playing ser) transmission mac (.resume i)
    | .deliver k name roll =>
      match w.sent[k]? with
      | some p => w.input (playing ser) transmission p.receiver
          (.event (.messageReceived ⟨name, p.sender⟩ p.payload) roll)
      | none => (w, [])
    | .forge p => if p.sender = gen then (w, []) else (w.inject p, [])

/-- A message sent arrives at a node of the group. -/
theorem game_deliver {ser : ISerializer} {gen : Str} {w : GameState} {k : Nat} {name : Str}
    {roll : Roll} {p : Packet Str Str} {s : StatePlaying} (hp : w.sent[k]? = some p)
    (hs : w.nodes p.receiver = some s) :
    (game ser gen).step w (.deliver k name roll) = w.act transmission p.receiver
      (s.onMessageReceived ser ⟨name, p.sender⟩ p.payload roll) := by
  unfold game Network.input
  dsimp only
  rw [hp]
  dsimp only
  rw [hs]
  rfl

/-! ## 2. The texts of a manager -/

/-- The texts a coroutine keeps. -/
def PeerTask.Holds (P : Str → Prop) : PeerTask → Prop
  | sending message _ parent => P message ∧ ∀ task ∈ parent, P task.request
  | waiting task => P task.request

/-- Every text a manager keeps. -/
structure PeerState.Holds (P : Str → Prop) (p : PeerState) : Prop where
  queued : ∀ message ∈ p.queuedMessages, P message
  tasks : ∀ task ∈ p.tasks, task.Holds P

/-- Every text that goes out; nothing is rolled or shown. -/
def Says (P : Str → Prop) : Out → Prop
  | .issue (.sendMessage message _) => P message
  | .issue (.sendLongMessage message _) => P message
  | .rolled _ _ => False
  | .shown _ => False
  | _ => True

namespace PeerState

variable {P : Str → Prop} {p : PeerState} {message : Str} {parent : Option RequestTask}

theorem Holds.mono {Q : Str → Prop} (h : p.Holds P) (hPQ : ∀ text, P text → Q text) :
    p.Holds Q where
  queued := fun m hm => hPQ m (h.queued m hm)
  tasks := by
    intro task ht
    have hold := h.tasks task ht
    cases task with
    | sending message n parent => exact ⟨hPQ _ hold.1, fun t h => hPQ _ (hold.2 t h)⟩
    | waiting task => exact hPQ _ hold

/-- One more coroutine. -/
theorem Holds.push (h : p.Holds P) {task : PeerTask} (ht : task.Holds P) :
    Holds P { p with tasks := p.tasks ++ [task] } where
  queued := h.queued
  tasks := by
    intro t hm
    rcases List.mem_append.mp hm with hm | hm
    · exact h.tasks t hm
    · exact List.mem_singleton.mp hm ▸ ht

/-- A coroutine taken out to be resumed. -/
theorem Holds.pop (h : p.Holds P) (i : Nat) :
    Holds P { p with tasks := p.tasks.eraseIdx i } :=
  ⟨h.queued, fun t ht => h.tasks t (List.mem_of_mem_eraseIdx ht)⟩

theorem Holds.finish (h : p.Holds P) (hparent : ∀ task ∈ parent, P task.request) :
    (p.finish parent).Holds P := by
  cases parent with
  | none => exact h
  | some task => exact h.push (hparent task rfl)

theorem says_command {mac : Str} (h : P message) : Says P (.issue (sendCommand message mac)) := by
  unfold sendCommand
  split <;> exact h

theorem Holds.send (h : p.Holds P) (hm : P message) (hparent : ∀ task ∈ parent, P task.request)
    (mac : Str) :
    (p.send mac message parent).1.Holds P ∧ ∀ o ∈ (p.send mac message parent).2, Says P o := by
  unfold PeerState.send
  split
  · refine ⟨h.finish hparent, fun o ho => ?_⟩
    rw [List.mem_singleton.mp ho]
    trivial
  · refine ⟨h.push ⟨hm, hparent⟩, fun o ho => ?_⟩
    rw [List.mem_singleton.mp ho]
    exact says_command hm

theorem Holds.retry (h : p.Holds P) (hm : P message) (hparent : ∀ task ∈ parent, P task.request)
    (mac : Str) (n : Nat) :
    (p.retry mac message n parent).1.Holds P ∧ ∀ o ∈ (p.retry mac message n parent).2, Says P o := by
  unfold PeerState.retry
  split
  · refine ⟨h.push ⟨hm, hparent⟩, fun o ho => ?_⟩
    rw [List.mem_singleton.mp ho]
    exact says_command hm
  · exact ⟨h.finish hparent, fun o ho => absurd ho List.not_mem_nil⟩

/-- A lost peer keeps the message, one that is there gets the last one kept. -/
theorem Holds.onAnswer (h : p.Holds P) (hm : P message) (hparent : ∀ task ∈ parent, P task.request)
    (mac : Str) (isGenerator : Bool) (n : Nat) (r : ResponseCode) :
    (p.onAnswer mac isGenerator message n parent r).st.Holds P ∧
    ∀ o ∈ (p.onAnswer mac isGenerator message n parent r).outs, Says P o := by
  have hlost : Holds P { p with connected := false, queuedMessages := p.queuedMessages ++ [message] } := by
    refine ⟨fun m hmem => ?_, h.tasks⟩
    rcases List.mem_append.mp hmem with hmem | hmem
    · exact h.queued m hmem
    · exact List.mem_singleton.mp hmem ▸ hm
  unfold PeerState.onAnswer
  cases r with
  | invalidState => exact h.retry hm hparent mac n
  | interopFailure => exact h.retry hm hparent mac n
  | ok =>
    dsimp only
    split
    · exact ⟨Holds.finish ⟨h.queued, h.tasks⟩ hparent, fun o ho => absurd ho List.not_mem_nil⟩
    · rename_i queued hqueued
      have hrest : Holds P
          { p with connected := true, queuedMessages := p.queuedMessages.dropLast } :=
        ⟨fun m hmem => h.queued m (List.dropLast_subset _ hmem), h.tasks⟩
      exact hrest.retry (h.queued _ (List.mem_of_getLast? hqueued)) hparent mac (retryCount + 1)
  | _ => exact ⟨hlost.finish hparent, fun o ho => absurd ho List.not_mem_nil⟩

theorem Holds.onSendAnswer (h : p.Holds P) (mac : Str) (isGenerator : Bool) (i : Nat)
    (r : ResponseCode) :
    (p.onSendAnswer mac isGenerator i r).st.Holds P ∧
    ∀ o ∈ (p.onSendAnswer mac isGenerator i r).outs, Says P o := by
  unfold PeerState.onSendAnswer
  split
  · rename_i message n parent hi
    obtain ⟨hm, hparent⟩ := h.tasks _ (List.mem_of_getElem? hi)
    exact (h.pop i).onAnswer hm hparent mac isGenerator n r
  · exact ⟨h, fun o ho => absurd ho List.not_mem_nil⟩

theorem Holds.onTick (h : p.Holds P) (mac : Str) (i : Nat) :
    (p.onTick mac i).st.Holds P ∧ ∀ o ∈ (p.onTick mac i).outs, Says P o := by
  unfold PeerState.onTick
  split
  · rename_i task hi
    have hrequest : P task.request := h.tasks _ (List.mem_of_getElem? hi)
    dsimp only
    split
    · split
      · exact (h.pop i).send hrequest (fun t ht => by cases ht; exact hrequest) mac
      · exact ⟨h.pop i, fun o ho => absurd ho List.not_mem_nil⟩
    · exact ⟨h.pop i, fun o ho => absurd ho List.not_mem_nil⟩
  · exact ⟨h, fun o ho => absurd ho List.not_mem_nil⟩

theorem Holds.sendRequest (h : p.Holds P) (hm : P message) (mac : Str) (isGenerator : Bool) :
    (p.sendRequest mac isGenerator message).1.Holds P ∧
    ∀ o ∈ (p.sendRequest mac isGenerator message).2, Says P o := by
  refine Holds.send (p := { p with pendingRequest := true }) ⟨h.queued, h.tasks⟩ hm
    (fun task ht => ?_) mac
  split at ht
  · cases ht
    exact hm
  · exact nomatch ht

end PeerState

/-! ## 3. What a node knows of the generator -/

/-- A manager that takes its peer for the generator is right. -/
structure RemotePeerManager.Trusts (gen : Str) (P : Str → Prop) (m : RemotePeerManager) : Prop where
  remote : m.isGenerator = true → m.mac = gen
  texts : m.st.Holds P

/-- A node that knows whether it is the generator, and who else is. -/
structure Seated (gen mac : Str) (P : Str → Prop) (s : StatePlaying) : Prop where
  localGenerator : s.localGenerator = true ↔ mac = gen
  managers : ∀ m ∈ s.managers.elems, m.Trusts gen P

/-- The input is a response from the generator. -/
def Heard (ser : ISerializer) (gen : Str) (i : PlayingInput) (response : Response) : Prop :=
  ∃ sender message roll, i = .event (.messageReceived sender message) roll ∧ sender.mac = gen ∧
    ser.deserialize message = .ok (.response response)

/-- What a step of a node may leave and put out: the texts are as meant, only the generator rolls,
    and a response shown has been rolled or heard. -/
structure Faithful (ser : ISerializer) (gen mac : Str) (P : Str → Prop) (i : PlayingInput)
    (r : StatePlaying × List Out) : Prop where
  node : Seated gen mac P r.1
  sent : ∀ o ∈ r.2, ∀ receiver text, transmission o = some (receiver, text) → P text
  rolled : ∀ request response, .rolled request response ∈ r.2 →
    mac = gen ∧ ∃ roll, response = generateResponse roll request
  shown : ∀ response, .shown response ∈ r.2 →
    (∃ request, .rolled request response ∈ r.2) ∨ Heard ser gen i response

theorem Says.transmission {P : Str → Prop} {o : Out} (h : Says P o) {receiver text : Str}
    (ht : transmission o = some (receiver, text)) : P text := by
  unfold Fsm.transmission at ht
  split at ht
  · cases ht
    exact h
  · cases ht
    exact h
  · exact nomatch ht

section Node

variable {ser : ISerializer} {gen mac : Str} {P : Str → Prop} {i : PlayingInput} {s : StatePlaying}

/-- A step that rolls and shows nothing. -/
theorem faithful_of_says {r : StatePlaying × List Out} (h : Seated gen mac P r.1)
    (ho : ∀ o ∈ r.2, Says P o) : Faithful ser gen mac P i r where
  node := h
  sent := fun o hm _ _ ht => (ho o hm).transmission ht
  rolled := fun _ _ hm => (ho _ hm).elim
  shown := fun _ hm => (ho _ hm).elim

theorem Seated.silent (h : Seated gen mac P s) : Faithful ser gen mac P i (s, []) :=
  faithful_of_says h fun _ ho => absurd ho List.not_mem_nil

/-- Something else put out before. -/
theorem Faithful.prepend {outs outs' : List Out} (h : Faithful ser gen mac P i (s, outs'))
    (ho : ∀ o ∈ outs, Says P o) : Faithful ser gen mac P i (s, outs ++ outs') where
  node := h.node
  sent := by
    intro o hm receiver text ht
    rcases List.mem_append.mp hm with hm | hm
    · exact (ho o hm).transmission ht
    · exact h.sent o hm receiver text ht
  rolled := fun request response hm =>
    (List.mem_append.mp hm).elim (fun hm => (ho _ hm).elim) (h.rolled request response)
  shown := by
    intro response hm
    rcases List.mem_append.mp hm with hm | hm
    · exact (ho _ hm).elim
    · rcases h.shown response hm with ⟨request, hr⟩ | hheard
      · exact Or.inl ⟨request, List.mem_append_right outs hr⟩
      · exact Or.inr hheard

theorem Seated.of_eq {s' : StatePlaying} (h : Seated gen mac P s)
    (hl : s'.localGenerator = s.localGenerator) (hm : s'.managers = s.managers) :
    Seated gen mac P s' :=
  ⟨by rw [hl]; exact h.localGenerator, by rw [hm]; exact h.managers⟩

theorem Seated.mono {Q : Str → Prop} (h : Seated gen mac P s) (hPQ : ∀ text, P text → Q text) :
    Seated gen mac Q s :=
  ⟨h.localGenerator, fun m hm =>
    ⟨(h.managers m hm).remote, (h.managers m hm).texts.mono hPQ⟩⟩

theorem seated_construct (peers : Peers) :
    Seated gen mac P (StatePlaying.construct peers mac gen) where
  localGenerator := decide_eq_true_iff
  managers := by
    intro m hm
    obtain ⟨peer, _, rfl⟩ := List.mem_map.mp hm
    refine ⟨fun hg => ?_, fun _ h => absurd h List.not_mem_nil, fun _ h => absurd h List.not_mem_nil⟩
    exact of_decide_eq_true (Bool.and_eq_true_iff.mp hg).2

/-- A new state for one manager. -/
theorem Seated.setPeer (h : Seated gen mac P s) {x : Str} {st : PeerState} (hst : st.Holds P) :
    Seated gen mac P (s.setPeer x st) where
  localGenerator := h.localGenerator
  managers := by
    intro m hm
    rcases StatePlaying.mem_setPeer.mp hm with ⟨hm, _⟩ | ⟨m', hm', _, rfl⟩
    · exact h.managers m hm
    · exact ⟨(h.managers m' hm').remote, hst⟩

theorem says_onGameStopped : ∀ o ∈ StatePlaying.onGameStopped, Says P o := fun o ho => by
  simp only [StatePlaying.onGameStopped, List.mem_cons, List.not_mem_nil, or_false] at ho
  rcases ho with rfl | rfl | rfl <;> trivial

theorem says_startNegotiation : ∀ o ∈ s.startNegotiation, Says P o := fun o ho => by
  rw [List.mem_singleton.mp ho]
  trivial

theorem says_startNegotiationWithOffer {sender : Device} {offer : Str} :
    ∀ o ∈ (s.startNegotiationWithOffer sender offer).2, Says P o := fun o ho => by
  rcases List.mem_append.mp ho with ho | ho
  · obtain ⟨m, _, ho⟩ := List.mem_flatMap.mp ho
    unfold RemotePeerManager.destroy at ho
    split at ho
    · exact absurd ho List.not_mem_nil
    · rw [List.mem_singleton.mp ho]
      trivial
  · rw [List.mem_singleton.mp ho]
    trivial

/-- A member function of one manager. -/
theorem Seated.onPeer (h : Seated gen mac P s) {x : Str} {f : RemotePeerManager → Effect}
    (hf : ∀ m, m.st.Holds P → (f m).st.Holds P ∧ ∀ o ∈ (f m).outs, Says P o) :
    Seated gen mac P (s.onPeer x f).1 ∧ ∀ o ∈ (s.onPeer x f).2, Says P o := by
  unfold StatePlaying.onPeer
  split
  · exact ⟨h, fun o ho => absurd ho List.not_mem_nil⟩
  · rename_i m hm
    obtain ⟨hst, houts⟩ := hf m (h.managers m (KeySet.find?_some.mp hm).1).texts
    refine ⟨h.setPeer hst, fun o ho => ?_⟩
    rcases List.mem_append.mp ho with ho | ho
    · exact houts o ho
    · split at ho
      · exact says_startNegotiation o ho
      · exact absurd ho List.not_mem_nil

/-- A member function of every manager. -/
theorem Seated.onAllPeers (h : Seated gen mac P s) {f : RemotePeerManager → PeerState × List Out}
    (hf : ∀ m, m.st.Holds P → (f m).1.Holds P ∧ ∀ o ∈ (f m).2, Says P o) :
    Seated gen mac P (s.onAllPeers f).1 ∧ ∀ o ∈ (s.onAllPeers f).2, Says P o := by
  refine ⟨⟨h.localGenerator, fun m hm => ?_⟩, fun o ho => ?_⟩
  · obtain ⟨m', hm', rfl⟩ := List.mem_map.mp hm
    exact ⟨(h.managers m' hm').remote, (hf m' (h.managers m' hm').texts).1⟩
  · obtain ⟨m', hm', ho⟩ := List.mem_flatMap.mp ho
    exact (hf m' (h.managers m' hm').texts).2 o ho

theorem Seated.receptionSuccess (h : Seated gen mac P s) (x : Str) (answered : Bool) :
    Seated gen mac P (s.receptionSuccess x answered) :=
  (h.onPeer fun _ hm => ⟨⟨hm.queued, hm.tasks⟩, fun _ ho => absurd ho List.not_mem_nil⟩).1

theorem Seated.showRequest (h : Seated gen mac P s) (request : Request) (name : Str) :
    Seated gen mac P (s.showRequest request name).1 ∧
    ∀ o ∈ (s.showRequest request name).2, Says P o := by
  refine ⟨h.of_eq rfl rfl, fun o ho => ?_⟩
  rw [List.mem_singleton.mp ho]
  trivial

/-- `ShowResponse` puts out its mark, and a command. -/
theorem Seated.showResponse (h : Seated gen mac P s) (response : Response) (name : Str) :
    Seated gen mac P (s.showResponse response name).1 ∧
    ∀ o ∈ (s.showResponse response name).2, o = .shown response ∨ Says P o := by
  unfold StatePlaying.showResponse
  dsimp only
  split
  · refine ⟨h, fun o ho => ?_⟩
    rcases List.mem_cons.mp ho with rfl | ho
    · exact Or.inl rfl
    · rw [List.mem_singleton.mp ho]
      exact Or.inr trivial
  · refine ⟨h.of_eq rfl rfl, fun o ho => ?_⟩
    rcases List.mem_cons.mp ho with rfl | ho
    · exact Or.inl rfl
    · rw [List.mem_singleton.mp ho]
      split <;> exact Or.inr trivial

/-! ## 4. A step of a node -/

/-- What the generator's part of a request puts out. -/
theorem Seated.answerRequest_outs (h : Seated gen mac P s) (request : Request) (roll : Roll)
    (hresponse : P (ser.serializeResponse (generateResponse roll request))) :
    Seated gen mac P (s.answerRequest ser request roll).1 ∧
    ∀ o ∈ (s.answerRequest ser request roll).2, o = .rolled request (generateResponse roll request) ∨
      o = .shown (generateResponse roll request) ∨ Says P o := by
  obtain ⟨hsent, htexts⟩ := h.onAllPeers fun m hm =>
    hm.send hresponse (fun _ ht => absurd ht (Option.not_mem_none _)) m.mac
  obtain ⟨hshown, houts⟩ := hsent.showResponse (generateResponse roll request) "You".toList
  refine ⟨hshown, fun o ho => ?_⟩
  rcases List.mem_append.mp ho with ho | ho
  · rcases List.mem_cons.mp ho with rfl | ho
    · exact Or.inl rfl
    · exact Or.inr (Or.inr (htexts o ho))
  · exact Or.inr (houts o ho)

/-- **The generator answers**: the response shown is the one rolled, and its text is what goes out. -/
theorem Seated.answerRequest (h : Seated gen mac P s) (hlocal : s.localGenerator = true)
    (request : Request) (roll : Roll)
    (hresponse : P (ser.serializeResponse (generateResponse roll request))) :
    Faithful ser gen mac P i (s.answerRequest ser request roll) := by
  obtain ⟨hnode, houts⟩ := h.answerRequest_outs request roll hresponse
  refine ⟨hnode, fun o ho receiver text ht => ?_, fun req resp ho => ?_, fun resp ho => ?_⟩
  · rcases houts o ho with rfl | rfl | hs
    · exact nomatch ht
    · exact nomatch ht
    · exact hs.transmission ht
  · rcases houts _ ho with he | he | hs
    · cases he
      exact ⟨h.localGenerator.mp hlocal, roll, rfl⟩
    · exact nomatch he
    · exact hs.elim
  · rcases houts _ ho with he | he | hs
    · exact nomatch he
    · cases he
      exact Or.inl ⟨request, List.mem_append_left _ List.mem_cons_self⟩
    · exact hs.elim

/-- A response of the generator is shown. -/
theorem Seated.heard (h : Seated gen mac P s) {response : Response}
    (hheard : Heard ser gen i response) (name : Str) :
    Faithful ser gen mac P i (s.showResponse response name) := by
  obtain ⟨hshown, houts⟩ := h.showResponse response name
  refine ⟨hshown, fun o ho receiver text ht => ?_, fun req resp ho => ?_, fun resp ho => ?_⟩
  · rcases houts o ho with rfl | hs
    · exact nomatch ht
    · exact hs.transmission ht
  · rcases houts _ ho with he | hs
    · exact nomatch he
    · exact hs.elim
  · rcases houts _ ho with he | hs
    · cases he
      exact Or.inr hheard
    · exact hs.elim

/-- A message arrives. -/
theorem Seated.message (h : Seated gen mac P s) (sender : Device) (message : Str) (roll : Roll)
    (hresponse : ∀ request response,
      .rolled request response ∈ (s.onMessageReceived ser sender message roll).2 →
      P (ser.serializeResponse response)) :
    Faithful ser gen mac P (.event (.messageReceived sender message) roll)
      (s.onMessageReceived ser sender message roll) := by
  generalize hr : s.onMessageReceived ser sender message roll = r at hresponse ⊢
  unfold StatePlaying.onMessageReceived at hr
  split at hr
  · cases hr
    exact h.silent
  · rename_i mgr hmgr
    obtain ⟨hmem, hmac⟩ := KeySet.find?_some.mp hmgr
    split at hr
    · -- an offer
      have hnew := h.receptionSuccess sender.mac s.pendingRequest.isNone
      dsimp only at hr
      split at hr
      · cases hr
        exact hnew.silent
      · cases hr
        exact faithful_of_says ⟨hnew.localGenerator, fun _ hm => absurd hm List.not_mem_nil⟩
          says_startNegotiationWithOffer
    · -- a response
      rename_i response hdecoded
      split at hr
      · rename_i hgenerator
        have hsender : sender.mac = gen := hmac ▸ (h.managers mgr hmem).remote hgenerator
        have hpending : Seated gen mac P (if matchesRequest response s.pendingRequest = true
            then { s with pendingRequest := none } else s) := by
          split
          · exact h.of_eq rfl rfl
          · exact h
        cases hr
        refine ((hpending.receptionSuccess _ _).heard
          ⟨sender, message, roll, rfl, hsender, hdecoded⟩ _).prepend fun o ho => ?_
        split at ho
        · rw [List.mem_singleton.mp ho]
          trivial
        · exact absurd ho List.not_mem_nil
      · cases hr
        exact h.silent
    · -- a request
      rename_i request hdecoded
      obtain ⟨hnew, htexts⟩ :=
        (h.receptionSuccess sender.mac s.pendingRequest.isNone).showRequest request mgr.remote.name
      dsimp only at hr
      split at hr
      · rename_i hlocal
        cases hr
        exact (hnew.answerRequest hlocal request roll (hresponse request _
          (List.mem_append_right _ (List.mem_append_left _ List.mem_cons_self)))).prepend htexts
      · cases hr
        exact faithful_of_says hnew htexts
    · cases hr
      exact h.silent
    · cases hr
      refine faithful_of_says h fun o ho => ?_
      rw [List.mem_singleton.mp ho]
      trivial
    · cases hr
      exact h.silent

/-- A local request. -/
theorem Seated.castRequest (h : Seated gen mac P s) (request : Request) (roll : Roll)
    (hrequest : P (ser.serializeRequest request))
    (hresponse : ∀ request' response,
      .rolled request' response ∈ (s.onCastRequest ser request roll).2 →
      P (ser.serializeResponse response)) :
    Faithful ser gen mac P i (s.onCastRequest ser request roll) := by
  obtain ⟨hshown, htexts⟩ := h.showRequest request "You".toList
  obtain ⟨hsent, htexts'⟩ := hshown.onAllPeers fun m hm => hm.sendRequest hrequest m.mac m.isGenerator
  have hboth := fun o ho => (List.mem_append.mp ho).elim (htexts o) (htexts' o)
  generalize hr : s.onCastRequest ser request roll = r at hresponse ⊢
  unfold StatePlaying.onCastRequest at hr
  dsimp only at hr
  split at hr
  · rename_i hlocal
    cases hr
    exact (hsent.answerRequest hlocal request roll (hresponse request _
      (List.mem_append_right _ (List.mem_append_left _ List.mem_cons_self)))).prepend hboth
  · cases hr
    exact faithful_of_says (hsent.of_eq rfl rfl) hboth

/-- The answer of a `ShowRequest` or `ShowResponse`. -/
theorem Seated.showAnswer (h : Seated gen mac P s) (k : Nat) (r : ResponseCode) :
    Faithful ser gen mac P i (s.onShowAnswer k r) := by
  unfold StatePlaying.onShowAnswer
  split
  · exact h.silent
  · dsimp only
    split
    · exact faithful_of_says (h.of_eq rfl rfl) says_onGameStopped
    · split
      · exact Seated.silent (h.of_eq rfl rfl)
      · refine faithful_of_says (h.of_eq rfl rfl) fun o ho => ?_
        dsimp only at ho
        split at ho
        · exact says_startNegotiation o ho
        · exact absurd ho List.not_mem_nil

/-- **A step of a node is faithful**, when every request and every response it rolls is a text as
    meant. -/
theorem faithful_step (h : Seated gen mac P s) (i : PlayingInput)
    (hrequest : ∀ request, P (ser.serializeRequest request))
    (hresponse : ∀ request response, .rolled request response ∈ ((playing ser).step s i).2 →
      P (ser.serializeResponse response)) :
    Faithful ser gen mac P i ((playing ser).step s i) := by
  cases i with
  | event e roll =>
    cases e with
    | bluetoothOff => exact faithful_of_says h says_onGameStopped
    | gameStopped => exact faithful_of_says h says_onGameStopped
    | deviceConnected remote => exact (h.receptionSuccess remote.mac true).silent
    | messageReceived sender message => exact h.message sender message roll hresponse
    | castRequest request => exact h.castRequest request roll (hrequest request) hresponse
    | socketReadFailure transmitter =>
      obtain ⟨hnode, htexts⟩ := h.onPeer (x := transmitter.mac)
        (f := fun m => m.st.onReceptionFailure m.isGenerator)
        fun _ hm => ⟨⟨hm.queued, hm.tasks⟩, fun _ ho => absurd ho List.not_mem_nil⟩
      exact faithful_of_says hnode htexts
    | _ => exact h.silent
  | resume i =>
    cases i with
    | send x k r =>
      obtain ⟨hnode, htexts⟩ := h.onPeer (x := x)
        fun m hm => hm.onSendAnswer m.mac m.isGenerator k r
      exact faithful_of_says hnode htexts
    | requestTick x k =>
      obtain ⟨hnode, htexts⟩ := h.onPeer (x := x) fun m hm => hm.onTick m.mac k
      exact faithful_of_says hnode htexts
    | «show» k r => exact h.showAnswer k r
    | ignoreTick => exact Seated.silent (h.of_eq rfl rfl)

/-! ## 5. Messages of others -/

/-- A response of another node than the generator is ignored. -/
theorem Seated.response_other (h : Seated gen mac P s) {sender : Device} (hs : sender.mac ≠ gen)
    {message : Str} {response : Response} (hdecoded : ser.deserialize message = .ok (.response response))
    (roll : Roll) : s.onMessageReceived ser sender message roll = (s, []) := by
  unfold StatePlaying.onMessageReceived
  split
  · rfl
  · rename_i mgr hmgr
    obtain ⟨hmem, hmac⟩ := KeySet.find?_some.mp hmgr
    have hother : mgr.isGenerator ≠ true := fun hg =>
      hs (hmac.symm.trans ((h.managers mgr hmem).remote hg))
    rw [hdecoded]
    dsimp only
    rw [if_neg hother]

/-- **A message of another node than the generator** answers nothing, and nothing is shown but what
    a request makes the generator roll. -/
theorem Seated.message_other (h : Seated gen mac P s) {sender : Device} (hs : sender.mac ≠ gen)
    (message : Str) (roll : Roll) :
    (s.onMessageReceived ser sender message roll).1.pendingRequest = s.pendingRequest ∧
    ∀ response, .shown response ∈ (s.onMessageReceived ser sender message roll).2 →
      mac = gen ∧ ∃ request, ser.deserialize message = .ok (.request request) ∧
        response = generateResponse roll request := by
  generalize hr : s.onMessageReceived ser sender message roll = r
  unfold StatePlaying.onMessageReceived at hr
  split at hr
  · cases hr
    exact ⟨rfl, fun _ hm => absurd hm List.not_mem_nil⟩
  · rename_i mgr hmgr
    obtain ⟨hmem, hmac⟩ := KeySet.find?_some.mp hmgr
    split at hr
    · -- an offer
      dsimp only at hr
      split at hr
      · cases hr
        exact ⟨StatePlaying.pendingRequest_receptionSuccess _ _ _, fun _ hm => absurd hm List.not_mem_nil⟩
      · cases hr
        exact ⟨StatePlaying.pendingRequest_receptionSuccess _ _ _, fun _ hm =>
          (says_startNegotiationWithOffer (P := fun _ => True) _ hm).elim⟩
    · -- a response
      split at hr
      · rename_i hgenerator
        exact absurd (hmac.symm.trans ((h.managers mgr hmem).remote hgenerator)) hs
      · cases hr
        exact ⟨rfl, fun _ hm => absurd hm List.not_mem_nil⟩
    · -- a request
      rename_i request hdecoded
      have hany : Seated gen mac (fun _ => True) s := h.mono fun _ _ => trivial
      obtain ⟨hnew, htexts⟩ :=
        (hany.receptionSuccess sender.mac s.pendingRequest.isNone).showRequest request
          mgr.remote.name
      dsimp only at hr
      split at hr
      · rename_i hlocal
        cases hr
        refine ⟨(StatePlaying.pendingRequest_answerRequest _ _ _ _).trans
          (StatePlaying.pendingRequest_receptionSuccess s sender.mac _), fun response hm => ?_⟩
        refine ⟨hnew.localGenerator.mp hlocal, request, hdecoded, ?_⟩
        rcases List.mem_append.mp hm with hm | hm
        · exact (htexts _ hm).elim
        · have houts := (@Seated.answerRequest_outs ser _ _ _ _ hnew request roll trivial).2
          rcases houts _ hm with he | he | hs
          · exact nomatch he
          · cases he
            rfl
          · exact hs.elim
      · cases hr
        exact ⟨StatePlaying.pendingRequest_receptionSuccess _ _ _, fun _ hm => (htexts _ hm).elim⟩
    · cases hr
      exact ⟨rfl, fun _ hm => absurd hm List.not_mem_nil⟩
    · cases hr
      exact ⟨rfl, fun _ hm => nomatch List.mem_singleton.mp hm⟩
    · cases hr
      exact ⟨rfl, fun _ hm => absurd hm List.not_mem_nil⟩

end Node

/-! ## 6. Runs of the group -/

/-- Requests are read as requests, and responses as they were. -/
structure Reads (ser : ISerializer) : Prop where
  request : ∀ request, ∃ unrolled,
    ser.deserialize (ser.serializeRequest request) = .ok (.request unrolled)
  response : ∀ response,
    ser.deserialize (ser.serializeResponse response) = .ok (.response response)

/-- What a text is read as, when it is a response, the generator has rolled. -/
def Honest (ser : ISerializer) (gen : Str) (log : List (Str × Out)) (text : Str) : Prop :=
  ∀ response, ser.deserialize text = .ok (.response response) →
    ∃ request, (gen, .rolled request response) ∈ log

/-- A text of the node `mac`: an honest one, when the node is the generator. -/
def Own (ser : ISerializer) (gen : Str) (log : List (Str × Out)) (mac text : Str) : Prop :=
  mac = gen → Honest ser gen log text

/-- Every node knows the generator, every text of the generator is honest, and every response shown
    has been rolled by it. -/
structure Respected (ser : ISerializer) (gen : Str) (w : GameState) (log : List (Str × Out)) :
    Prop where
  inv : Network.Inv (fun mac s => Seated gen mac (Own ser gen log mac) s)
    (fun p => Own ser gen log p.sender p.payload) w
  rolled : ∀ mac request response, (mac, .rolled request response) ∈ log →
    mac = gen ∧ ∃ roll, response = generateResponse roll request
  shown : ∀ mac response, (mac, .shown response) ∈ log →
    ∃ request, (gen, .rolled request response) ∈ log

section Runs

variable {ser : ISerializer} {gen : Str} {w : GameState} {log : List (Str × Out)}

theorem Own.append {mac text : Str} (h : Own ser gen log mac text) (log' : List (Str × Out)) :
    Own ser gen (log ++ log') mac text := fun hmac response hr => by
  obtain ⟨request, hm⟩ := h hmac response hr
  exact ⟨request, List.mem_append_left log' hm⟩

theorem own_request (hser : Reads ser) (log : List (Str × Out)) (mac : Str) (request : Request) :
    Own ser gen log mac (ser.serializeRequest request) := fun _ _ hr => by
  obtain ⟨unrolled, hread⟩ := hser.request request
  rw [hread] at hr
  exact nomatch hr

/-- A response rolled by the generator may be sent. -/
theorem own_response (hser : Reads ser) {mac : Str} {request : Request} {response : Response}
    (h : (mac, .rolled request response) ∈ log) :
    Own ser gen log mac (ser.serializeResponse response) := fun hmac response' hr => by
  rw [hser.response response] at hr
  cases hr
  exact ⟨request, hmac ▸ h⟩

theorem Respected.nothing (h : Respected ser gen w log) : Respected ser gen w (log ++ []) := by
  rwa [List.append_nil]

/-- One node makes a faithful step, and what it hears of the generator has been rolled. -/
theorem Respected.act (h : Respected ser gen w log) {mac : Str} {i : PlayingInput}
    {r : StatePlaying × List Out}
    (hfaithful : Faithful ser gen mac (Own ser gen (log ++ (w.act transmission mac r).2) mac) i r)
    (hheard : ∀ response, Heard ser gen i response →
      ∃ request, (gen, .rolled request response) ∈ log) :
    Respected ser gen (w.act transmission mac r).1 (log ++ (w.act transmission mac r).2) where
  inv := (h.inv.mono (fun _ _ hs => hs.mono fun _ ho => ho.append _) fun _ ho => ho.append _).act
    hfaithful.node hfaithful.sent
  rolled := by
    intro mac' request response hm
    rcases List.mem_append.mp hm with hm | hm
    · exact h.rolled mac' request response hm
    · obtain ⟨rfl, ho⟩ := Network.mem_outs_act.mp hm
      exact hfaithful.rolled request response ho
  shown := by
    intro mac' response hm
    rcases List.mem_append.mp hm with hm | hm
    · obtain ⟨request, hr⟩ := h.shown mac' response hm
      exact ⟨request, List.mem_append_left _ hr⟩
    · obtain ⟨rfl, ho⟩ := Network.mem_outs_act.mp hm
      rcases hfaithful.shown response ho with ⟨request, hr⟩ | hr
      · obtain ⟨hmac, _⟩ := hfaithful.rolled request response hr
        exact ⟨request, List.mem_append_right _ (Network.mem_outs_act.mpr ⟨hmac.symm, hr⟩)⟩
      · obtain ⟨request, hr⟩ := hheard response hr
        exact ⟨request, List.mem_append_left _ hr⟩

/-- Something happens to one node. -/
theorem Respected.input (hser : Reads ser) (h : Respected ser gen w log) (mac : Str)
    (i : PlayingInput) (hheard : ∀ response, Heard ser gen i response →
      ∃ request, (gen, .rolled request response) ∈ log) :
    Respected ser gen (w.input (playing ser) transmission mac i).1
      (log ++ (w.input (playing ser) transmission mac i).2) := by
  unfold Network.input
  split
  · rename_i s hs
    refine h.act (i := i) (faithful_step ((h.inv.nodes mac s hs).mono fun _ ho => ho.append _) i
      (own_request hser _ mac) fun request response ho => ?_) hheard
    exact own_response hser (List.mem_append_right _ (Network.mem_outs_act.mpr ⟨rfl, ho⟩))
  · exact h.nothing

/-- **Every step of the group keeps it**: a response delivered in the name of the generator was sent
    by it. -/
theorem respected_step (hser : Reads ser) (h : Respected ser gen w log) (i : GameInput) :
    Respected ser gen ((game ser gen).step w i).1 (log ++ ((game ser gen).step w i).2) := by
  have hdeaf : ∀ {i : PlayingInput}, (∀ sender message roll,
      i ≠ .event (.messageReceived sender message) roll) → ∀ response, Heard ser gen i response →
      ∃ request, (gen, .rolled request response) ∈ log :=
    fun hi response ⟨sender, message, roll, he, _⟩ => absurd he (hi sender message roll)
  cases i with
  | enter mac peers =>
    exact h.act (i := .resume .ignoreTick) (seated_construct peers).silent
      (hdeaf fun _ _ _ e => nomatch e)
  | leave mac =>
    show Respected ser gen (w.leave mac) (log ++ [])
    rw [List.append_nil]
    exact { h with inv := h.inv.leave mac }
  | event mac e roll =>
    cases e with
    | messageReceived sender message => exact h.nothing
    | _ => exact h.input hser mac _ (hdeaf fun _ _ _ e => nomatch e)
  | resume mac i => exact h.input hser mac (.resume i) (hdeaf fun _ _ _ e => nomatch e)
  | deliver k name roll =>
    unfold game
    dsimp only
    split
    · rename_i p hp
      refine h.input hser p.receiver _ fun response ⟨sender, message, _, he, hsender, hr⟩ => ?_
      cases he
      exact h.inv.sent p (List.mem_of_getElem? hp) hsender response hr
    · exact h.nothing
  | forge p =>
    unfold game
    dsimp only
    split
    · exact h.nothing
    · rename_i hp
      rw [List.append_nil]
      exact { h with inv := h.inv.inject fun e => absurd e hp }

theorem respected_run (hser : Reads ser) (is : List GameInput) :
    Respected ser gen ((game ser gen).exec Network.empty is)
      ((game ser gen).outs Network.empty is) :=
  Machine.log_invariant (P := Respected ser gen) (l := [])
    (fun _ _ i h => respected_step hser h i)
    ⟨Network.inv_empty, fun _ _ _ h => absurd h List.not_mem_nil,
      fun _ _ h => absurd h List.not_mem_nil⟩ is

/-- The answer to a request counts its successes. -/
theorem generateResponse_count {roll : Roll} {request : Request} {count : UInt64}
    (h : (generateResponse roll request).successCount = some count) :
    ∃ threshold, request.threshold = some threshold ∧
      count.toNat = successes (generateResponse roll request).cast.values threshold := by
  obtain ⟨threshold, ht, rfl⟩ := Option.map_eq_some_iff.mp h
  exact ⟨threshold, ht, getSuccessCount_toNat _ _⟩

/-- A message of another node than the generator arrives. -/
theorem Respected.other (h : Respected ser gen w log) {k : Nat} {p : Packet Str Str}
    (hp : w.sent[k]? = some p) (hsender : p.sender ≠ gen) (name : Str) (roll : Roll) :
    (∀ mac s, w.nodes mac = some s →
      ∃ s', ((game ser gen).step w (.deliver k name roll)).1.nodes mac = some s' ∧
        s'.pendingRequest = s.pendingRequest) ∧
    (∀ mac response, (mac, .shown response) ∈ ((game ser gen).step w (.deliver k name roll)).2 →
      mac = gen ∧ ∃ request, ser.deserialize p.payload = .ok (.request request) ∧
        response = generateResponse roll request) ∧
    (∀ response, ser.deserialize p.payload = .ok (.response response) →
      ((game ser gen).step w (.deliver k name roll)).2 = []) := by
  cases hs : w.nodes p.receiver with
  | none =>
    have hstep : (game ser gen).step w (.deliver k name roll) = (w, []) := by
      unfold game Network.input
      dsimp only
      rw [hp]
      dsimp only
      rw [hs]
    rw [hstep]
    exact ⟨fun mac s hs => ⟨s, hs, rfl⟩, fun _ _ hm => absurd hm List.not_mem_nil, fun _ _ => rfl⟩
  | some s =>
    have hseated := h.inv.nodes p.receiver s hs
    obtain ⟨hpending, hshown⟩ := @Seated.message_other ser _ _ _ _ hseated
      ⟨name, p.sender⟩ hsender p.payload roll
    rw [game_deliver hp hs]
    refine ⟨fun mac s' hs' => ?_, fun mac response hm => ?_, fun response hdecoded => ?_⟩
    · by_cases hmac : mac = p.receiver
      · rw [hmac, hs] at hs'
        cases hs'
        exact ⟨_, hmac ▸ Network.nodes_act_self .., hpending⟩
      · exact ⟨s', (Network.nodes_act_ne transmission w _ hmac).trans hs', rfl⟩
    · obtain ⟨rfl, ho⟩ := Network.mem_outs_act.mp hm
      exact hshown response ho
    · rw [hseated.response_other hsender hdecoded roll]
      rfl

end Runs

/-- **Every roll displayed is one of the generator**, in every run of the group: a response shown was
    returned by `GenerateResponse` on the generator, and its count is that of the dice not below the
    threshold of the request. A message in the name of any other node never answers the pending
    request; when it is a response nothing comes of it, and when it is a request, the generator, and
    nobody else, shows what it rolls. -/
theorem rolls_respected (ord : Xml.AttrOrder) (gen : Str) (is : List GameInput) :
    (∀ mac response,
      (mac, .shown response) ∈ (game (xmlSerializer ord) gen).outs Network.empty is →
      ∃ request roll, (gen, .rolled request response) ∈
          (game (xmlSerializer ord) gen).outs Network.empty is ∧
        response = generateResponse roll request ∧
        ∀ count, response.successCount = some count → ∃ threshold,
          request.threshold = some threshold ∧
          count.toNat = successes response.cast.values threshold) ∧
    (∀ k p name roll,
      ((game (xmlSerializer ord) gen).exec Network.empty is).sent[k]? = some p → p.sender ≠ gen →
      let r := (game (xmlSerializer ord) gen).step
        ((game (xmlSerializer ord) gen).exec Network.empty is) (.deliver k name roll)
      (∀ mac s, ((game (xmlSerializer ord) gen).exec Network.empty is).nodes mac = some s →
        ∃ s', r.1.nodes mac = some s' ∧ s'.pendingRequest = s.pendingRequest) ∧
      (∀ mac response, (mac, .shown response) ∈ r.2 →
        mac = gen ∧ ∃ request, deserialize p.payload = .ok (.request request) ∧
          response = generateResponse roll request) ∧
      (∀ response, deserialize p.payload = .ok (.response response) → r.2 = [])) := by
  have h : Respected (xmlSerializer ord) gen _ _ :=
    respected_run ⟨xmlSerializer_request ord, xmlSerializer_response ord⟩ is
  refine ⟨fun mac response hm => ?_, fun k p name roll hp hs => h.other hp hs name roll⟩
  obtain ⟨request, hr⟩ := h.shown mac response hm
  obtain ⟨_, roll, rfl⟩ := h.rolled gen request response hr
  exact ⟨request, roll, hr, rfl, fun count hc => generateResponse_count hc⟩

/-- Two four-sided dice, successes from three. -/
def twoDice : Request := ⟨⟨.d4, [0, 0], by decide⟩, some 3⟩

/-- One peer. -/
def onePeer (device : Device) : Peers := ⟨[device], List.nodup_singleton device.mac⟩

/-- "B" asks the generator "A" for two dice, and gets its answer. -/
def oneRoll : List GameInput :=
  [.enter "A".toList (onePeer ⟨"b".toList, "B".toList⟩),
    .enter "B".toList (onePeer ⟨"a".toList, "A".toList⟩),
    .event "B".toList (.castRequest twoDice) id, .deliver 0 "b".toList id,
    .deliver 1 "a".toList id]

/-- "B" shows the two dice "A" has rolled. -/
theorem oneRoll_shown : ("B".toList, .shown (generateResponse id twoDice)) ∈
    (game (xmlSerializer walkAsIs) "A".toList).outs Network.empty oneRoll := by
  have hrequest : (xmlSerializer walkAsIs).deserialize
      ((xmlSerializer walkAsIs).serializeRequest twoDice) = .ok (.request twoDice) := by
    rw [← (serialize_eq walkAsIs).1 twoDice]
    exact deserialize_request walkAsIs twoDice rfl
  have hresponse := xmlSerializer_response walkAsIs (generateResponse id twoDice)
  unfold oneRoll
  rw [Machine.outs_cons, Machine.outs_cons, Machine.outs_cons, Machine.outs_cons,
    game_deliver (p := ⟨"B".toList, "A".toList, _⟩) rfl rfl]
  unfold StatePlaying.onMessageReceived
  dsimp only
  rw [hrequest, Machine.outs_cons]
  iterate 4 refine List.mem_append_right _ ?_
  rw [game_deliver (p := ⟨"A".toList, "B".toList, _⟩) rfl rfl]
  unfold StatePlaying.onMessageReceived
  dsimp only
  rw [hresponse]
  exact List.mem_append_left _ (List.mem_map_of_mem (List.mem_cons_of_mem _ List.mem_cons_self))

/-- That roll is one of "A". -/
theorem rolls_respected_two : ∃ request roll, ("A".toList,
      .rolled request (generateResponse id twoDice)) ∈
        (game (xmlSerializer walkAsIs) "A".toList).outs Network.empty oneRoll ∧
    generateResponse id twoDice = generateResponse roll request ∧
    ∀ count, (generateResponse id twoDice).successCount = some count → ∃ threshold,
      request.threshold = some threshold ∧
      count.toNat = successes (generateResponse id twoDice).cast.values threshold :=
  (rolls_respected walkAsIs "A".toList oneRoll).1 "B".toList (generateResponse id twoDice)
    oneRoll_shown

end Veridie.Fsm
