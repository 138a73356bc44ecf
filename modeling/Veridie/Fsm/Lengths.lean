/-
  File:      Veridie/Fsm/Lengths.lean
  Subject:   Whether a message fits the buffer of the command it is sent with.

  A greeting carries the MAC of a device, and a `Send` looks at the size of its message. An offer
  carries the nominee, and nobody looks: the MAC of a device fits, but the nominee can be the local
  MAC, which is whatever the first greeting said, and is escaped once more.

  * `length_hello_le`, `length_offer` -- the messages;
  * `PeerState.Short`, `PeerState.Short.step` -- the managers;
  * `Addressed`, `Measured` -- what every state and every output keeps;
  * `messages_fit_iff` -- every message fits exactly in the runs in which a local MAC that is nominated
    is short enough.
-/
import Veridie.Fsm.Transitions
import Veridie.Fsm.Peer

namespace Veridie.Fsm

open Veridie.Lib Veridie.Dice Veridie.Sign Veridie.Xml

/-! ## 1. Messages -/

/-- A MAC as a device has it. -/
def Address (mac : Str) : Prop := mac.length = 17

/-- The characters of a text once its special characters are references. -/
def escapedLength (text : Str) : Nat := (insertEntityRef text).length

/-- The longest reference has six characters. -/
theorem escapedLength_le (text : Str) : escapedLength text ≤ 6 * text.length := by
  unfold escapedLength
  rw [insertEntityRef_eq]
  induction text with
  | nil => exact Nat.le_refl 0
  | cons c cs ih =>
    have hc : (escapeChar c).length ≤ 6 := by
      unfold escapeChar
      rcases entityRef_cases c with ⟨hr, _⟩ | ⟨hr, _⟩ | ⟨hr, _⟩ | ⟨hr, _⟩ | ⟨hr, _⟩ | ⟨hr, _⟩ <;>
        simp [hr]
    rw [List.flatMap_cons, List.length_append, List.length_cons]
    omega

/-- A round has ten digits at most. -/
theorem length_round_le (round : UInt32) : (Dice.toString round.toNat).length ≤ 10 := by
  unfold Dice.toString
  rw [Nat.length_toDigits_le_iff (by decide) (by decide)]
  have hlt := round.toNat_lt
  omega

/-- The child of a greeting and of an offer; an empty MAC is a tag of its own. -/
theorem length_macLeaf (ord : AttrOrder) (mac : Str) :
    ((leaf "Mac".toList mac).toText ord).length =
      if mac = [] then 7 else 11 + escapedLength mac := by
  have hwalk : ord.walk [] = [] := (ord.perm []).eq_nil
  show ("<".toList ++ "Mac".toList ++ (ord.walk []).flatMap attrText ++ _).length = _
  rw [hwalk]
  cases mac with
  | nil => rfl
  | cons c cs =>
    rw [if_neg (List.cons_ne_nil c cs)]
    simp [escapedLength, childrenText]
    omega

theorem length_hello (ord : AttrOrder) (mac : Str) :
    ((xmlSerializer ord).serializeHello ⟨mac⟩).length =
      15 + ((leaf "Mac".toList mac).toText ord).length := by
  have hwalk : ord.walk [] = [] := (ord.perm []).eq_nil
  show ("<".toList ++ "Hello".toList ++ (ord.walk []).flatMap attrText ++ _).length = _
  rw [hwalk]
  simp [childrenText, insertEntityRef_eq]
  omega

theorem length_offer (ord : AttrOrder) (mac : Str) (round : UInt32) :
    ((xmlSerializer ord).serializeOffer ⟨mac, round⟩).length =
      24 + (Dice.toString round.toNat).length + ((leaf "Mac".toList mac).toText ord).length := by
  have hwalk : ord.walk [("round".toList, Dice.toString round.toNat)] =
      [("round".toList, Dice.toString round.toNat)] :=
    List.perm_singleton.mp (ord.perm _)
  show ("<".toList ++ "Offer".toList ++
    (ord.walk [("round".toList, Dice.toString round.toNat)]).flatMap attrText ++ _).length = _
  rw [hwalk]
  simp [childrenText, insertEntityRef_eq, attrText]
  omega

/-- The greeting of a device fits. -/
theorem hello_fits (ord : AttrOrder) {mac : Str} (h : Address mac) :
    ((xmlSerializer ord).serializeHello ⟨mac⟩).length ≤ sendMessageMax := by
  have hescaped := escapedLength_le mac
  rw [show mac.length = 17 from h] at hescaped
  rw [length_hello, length_macLeaf]
  show _ ≤ 255
  split <;> omega

/-- Whether an offer that nominates a MAC fits: 220 characters are left for the MAC and the round. -/
theorem offer_fits_iff (ord : AttrOrder) (mac : Str) (round : UInt32) :
    ((xmlSerializer ord).serializeOffer ⟨mac, round⟩).length ≤ sendMessageMax ↔
      escapedLength mac + (Dice.toString round.toNat).length ≤ 220 := by
  have hround := length_round_le round
  rw [length_offer, length_macLeaf]
  show _ ≤ 255 ↔ _
  split
  · rename_i hempty
    rw [hempty, show escapedLength [] = 0 from rfl]
    omega
  · omega

/-- An offer that nominates a device fits. -/
theorem address_offer_fits (ord : AttrOrder) {mac : Str} (h : Address mac) (round : UInt32) :
    ((xmlSerializer ord).serializeOffer ⟨mac, round⟩).length ≤ sendMessageMax := by
  have hescaped := escapedLength_le mac
  have hround := length_round_le round
  rw [show mac.length = 17 from h] at hescaped
  rw [offer_fits_iff]
  omega

/-! ## 2. Managers -/

/-- A command for a message holds all of it. -/
def Fits : Out → Prop
  | .issue (.sendMessage message _) => message.length ≤ sendMessageMax
  | .issue (.sendLongMessage message _) => message.length ≤ sendLongMessageMax
  | _ => True

namespace PeerState

/-- No message that waits, or is on its way, is longer than the longest command takes. -/
structure Short (p : PeerState) : Prop where
  queued : ∀ message ∈ p.queuedMessages, message.length ≤ sendLongMessageMax
  sending : ∀ message n parent, .sending message n parent ∈ p.tasks →
    message.length ≤ sendLongMessageMax

section Short

variable {p : PeerState} {message : Str} {parent : Option RequestTask}

theorem sendCommand_fits (h : message.length ≤ sendLongMessageMax) (mac : Str) :
    Fits (.issue (sendCommand message mac)) := by
  unfold sendCommand
  split
  · rename_i hshort
    exact hshort
  · exact h

theorem Short.wait (h : p.Short) (task : RequestTask) :
    Short { p with tasks := p.tasks ++ [.waiting task] } where
  queued := h.queued
  sending := fun message n parent hm => (List.mem_append.mp hm).elim (h.sending message n parent)
    fun hm => nomatch List.mem_singleton.mp hm

theorem Short.push (h : p.Short) (hm : message.length ≤ sendLongMessageMax) (n : Nat) :
    Short { p with tasks := p.tasks ++ [.sending message n parent] } where
  queued := h.queued
  sending := by
    intro message' n' parent' hmem
    rcases List.mem_append.mp hmem with hmem | hmem
    · exact h.sending message' n' parent' hmem
    · cases List.mem_singleton.mp hmem
      exact hm

theorem Short.pop (h : p.Short) (i : Nat) : Short { p with tasks := p.tasks.eraseIdx i } :=
  ⟨h.queued, fun message n parent hm => h.sending message n parent (List.mem_of_mem_eraseIdx hm)⟩

theorem Short.finish (h : p.Short) : (p.finish parent).Short := by
  cases parent with
  | none => exact h
  | some task => exact h.wait task

/-- `Send` looks at the size. -/
theorem Short.send (h : p.Short) (mac message : Str) :
    (p.send mac message parent).1.Short ∧ ∀ o ∈ (p.send mac message parent).2, Fits o := by
  unfold PeerState.send
  split
  · refine ⟨h.finish, fun o ho => ?_⟩
    rw [List.mem_singleton.mp ho]
    trivial
  · rename_i hlong
    have hm := Nat.not_lt.mp hlong
    refine ⟨h.push hm retryCount, fun o ho => ?_⟩
    rw [List.mem_singleton.mp ho]
    exact sendCommand_fits hm mac

theorem Short.retry (h : p.Short) (hm : message.length ≤ sendLongMessageMax) (mac : Str) (n : Nat) :
    (p.retry mac message n parent).1.Short ∧ ∀ o ∈ (p.retry mac message n parent).2, Fits o := by
  unfold PeerState.retry
  split
  · refine ⟨h.push hm (n - 1), fun o ho => ?_⟩
    rw [List.mem_singleton.mp ho]
    exact sendCommand_fits hm mac
  · exact ⟨h.finish, fun o ho => absurd ho List.not_mem_nil⟩

theorem Short.onAnswer (h : p.Short) (hm : message.length ≤ sendLongMessageMax) (mac : Str)
    (isGenerator : Bool) (n : Nat) (r : ResponseCode) :
    (p.onAnswer mac isGenerator message n parent r).st.Short ∧
    ∀ o ∈ (p.onAnswer mac isGenerator message n parent r).outs, Fits o := by
  have hlost : Short
      { p with connected := false, queuedMessages := p.queuedMessages ++ [message] } := by
    refine ⟨fun text ht => ?_, h.sending⟩
    rcases List.mem_append.mp ht with ht | ht
    · exact h.queued text ht
    · exact List.mem_singleton.mp ht ▸ hm
  unfold PeerState.onAnswer
  cases r with
  | invalidState => exact h.retry hm mac n
  | interopFailure => exact h.retry hm mac n
  | ok =>
    dsimp only
    split
    · exact ⟨Short.finish ⟨h.queued, h.sending⟩, fun o ho => absurd ho List.not_mem_nil⟩
    · rename_i queued hqueued
      have hrest : Short { p with connected := true, queuedMessages := p.queuedMessages.dropLast } :=
        ⟨fun text ht => h.queued text (List.dropLast_subset _ ht), h.sending⟩
      exact hrest.retry (h.queued _ (List.mem_of_getLast? hqueued)) mac (retryCount + 1)
  | _ => exact ⟨hlost.finish, fun o ho => absurd ho List.not_mem_nil⟩

/-- **Every step of a manager** sends what fits. -/
theorem Short.step (h : p.Short) (mac : Str) (isGenerator : Bool) (j : PeerInput) :
    (p.handle mac isGenerator j).st.Short ∧ ∀ o ∈ (p.handle mac isGenerator j).outs, Fits o := by
  have hsilent : ∀ {p' : PeerState}, p'.Short → p'.Short ∧ ∀ o ∈ ([] : List Out), Fits o :=
    fun h => ⟨h, fun o ho => absurd ho List.not_mem_nil⟩
  cases j with
  | sendRequest request =>
    have hasked : Short { p with pendingRequest := true } := ⟨h.queued, h.sending⟩
    exact hasked.send mac request
  | sendResponse response => exact h.send mac response
  | receptionSuccess answeredRequest => exact hsilent ⟨h.queued, h.sending⟩
  | receptionFailure => exact hsilent ⟨h.queued, h.sending⟩
  | answer i r =>
    show (p.onSendAnswer mac isGenerator i r).st.Short ∧
      ∀ o ∈ (p.onSendAnswer mac isGenerator i r).outs, Fits o
    unfold PeerState.onSendAnswer
    split
    · rename_i message n parent hi
      exact (h.pop i).onAnswer (h.sending message n parent (List.mem_of_getElem? hi)) mac
        isGenerator n r
    · exact hsilent h
  | tick i =>
    show (p.onTick mac i).st.Short ∧ ∀ o ∈ (p.onTick mac i).outs, Fits o
    unfold PeerState.onTick
    split
    · dsimp only
      split
      · split
        · exact (h.pop i).send mac _
        · exact hsilent (h.pop i)
      · exact hsilent (h.pop i)
    · exact hsilent h

/-- So does every run. -/
theorem Short.run (h : p.Short) (mac : Str) (isGenerator : Bool) (js : List PeerInput) :
    ((peer mac isGenerator).exec p js).Short ∧ ∀ o ∈ (peer mac isGenerator).outs p js, Fits o := by
  refine Machine.log_invariant (M := peer mac isGenerator) (l := [])
    (P := fun p log => p.Short ∧ ∀ o ∈ log, Fits o) (fun p log j hp => ?_)
    ⟨h, fun o ho => absurd ho List.not_mem_nil⟩ js
  obtain ⟨hshort, hfits⟩ := hp.1.step mac isGenerator j
  exact ⟨hshort, fun o ho => (List.mem_append.mp ho).elim (hp.2 o) (hfits o)⟩

end Short

end PeerState

/-! ## 3. States -/

/-- The peers a constructor is called with. -/
def Target.members : Target → Option Peers
  | negotiating peers _ => some peers
  | negotiatingWithOffer peers _ _ _ => some peers
  | playing peers _ _ => some peers
  | _ => none

/-- What is sent fits, and what is passed on are devices. -/
def Measured : Out → Prop
  | .switch t => ∀ peers, t.members = some peers → ∀ mac ∈ peers.keys, Address mac
  | o => Fits o

/-- Neither sent nor passed on. -/
def Unsent : Out → Prop
  | .switch t => t.members = none
  | .issue (.sendMessage _ _) => False
  | .issue (.sendLongMessage _ _) => False
  | _ => True

theorem Unsent.measured {o : Out} (h : Unsent o) : Measured o := by
  cases o with
  | «switch» t =>
    intro peers hpeers
    rw [show t.members = none from h] at hpeers
    exact nomatch hpeers
  | issue cmd =>
    cases cmd with
    | sendMessage message mac => exact h.elim
    | sendLongMessage message mac => exact h.elim
    | _ => trivial
  | _ => trivial

/-- The device of an event. -/
def Event.mac : Event → Option Str
  | deviceConnected remote => some remote.mac
  | deviceDisconnected remote => some remote.mac
  | messageReceived sender _ => some sender.mac
  | socketReadFailure transmitter => some transmitter.mac
  | _ => none

/-- The devices in events have addresses. -/
def ControllerInput.Addressed : ControllerInput → Prop
  | .event e _ => ∀ mac ∈ e.mac, Address mac
  | _ => True

/-- Whom a state sends to are devices; offers are for devices, or for the local node. -/
def FsmState.Addressed : FsmState → Prop
  | idle _ => True
  | connecting s =>
    (∀ mac ∈ s.peers.keys, Address mac) ∧ ∀ task ∈ s.hellos, Address task.mac
  | negotiating s => (∀ mac ∈ s.peers.keys, Address mac) ∧
      (s.task = .done ∨ ∀ mac ∈ s.offers.keys, mac = s.localMac ∨ Address mac)
  | playing s => ∀ m ∈ s.managers.elems, Address m.mac ∧ m.st.Short

/-- The input lets the loop of `UpdateAndBroadcastOffer` run. -/
def StateNegotiating.Checks (s : StateNegotiating) : NegotiatingInput → Prop
  | .resume (.start r) => s.task = .starting ∧ r = .ok
  | .resume .tick => s.task = .waiting
  | _ => False

/-- When a round of the loop nominates the local node, to whatever peers there are, its MAC is short
    enough. -/
def OwnOfferFits (round : UInt32) (s : FsmState) (i : ControllerInput) : Prop :=
  ∀ n j, s = .negotiating n → i.negotiating? = some j → n.Checks j → n.peers.elems ≠ [] →
    (∃ lo, n.offers.find? n.localMac = some lo ∧ ¬ Negotiation.AllOffersEqual n.offers lo) →
    getLocalOfferMac (Negotiation.maxRound round n.offers) n.offers = some n.localMac →
    escapedLength n.localMac +
      (Dice.toString (Negotiation.maxRound round n.offers).toNat).length ≤ 220

section Negotiating

variable {ser : ISerializer} {n : Negotiation}

theorem step_of_checks {j : NegotiatingInput} (h : n.state.Checks j) :
    (negotiating ser).step n j = n.updateAndBroadcastOffer ser := by
  unfold StateNegotiating.Checks at h
  split at h
  · show (if n.state.task = .starting then n.onStartAnswer ser _ else (n, [])) = _
    rw [if_pos h.1]
    exact if_pos h.2
  · exact if_pos h
  · exact h.elim

/-- A step that is not a round of the loop sends nothing. -/
theorem negotiating_outs (j : NegotiatingInput) :
    (n.state.Checks j ∧ (negotiating ser).step n j = n.updateAndBroadcastOffer ser) ∨
    ∀ o ∈ ((negotiating ser).step n j).2, Unsent o := by
  have herase : ∀ (m : Negotiation) (mac : Str), ∀ o ∈ (m.erasePeer mac).2, Unsent o := by
    intro m mac o ho
    unfold Negotiation.erasePeer at ho
    dsimp only at ho
    split at ho
    · rw [List.mem_singleton.mp ho]
      trivial
    · exact absurd ho List.not_mem_nil
  cases j with
  | event e =>
    refine Or.inr ?_
    cases e with
    | messageReceived sender message =>
      show ∀ o ∈ (n.onMessageReceived ser sender message).2, Unsent o
      unfold Negotiation.onMessageReceived
      dsimp only
      split
      · split <;> simp [Unsent]
      · simp
    | socketReadFailure transmitter =>
      show ∀ o ∈ (n.onSocketReadFailure transmitter.mac).2, Unsent o
      unfold Negotiation.onSocketReadFailure
      split
      · intro o ho
        rcases List.mem_cons.mp ho with rfl | ho
        · trivial
        · exact herase _ _ o ho
      · simp
    | _ => simp [negotiating, Negotiation.onEvent, Unsent, Target.members]
  | resume i =>
    cases i with
    | start r =>
      by_cases hchecks : n.state.task = .starting ∧ r = .ok
      · exact Or.inl ⟨hchecks, step_of_checks hchecks⟩
      · refine Or.inr ?_
        show ∀ o ∈ (if n.state.task = .starting then n.onStartAnswer ser r else (n, [])).2, Unsent o
        split
        · rename_i htask
          unfold Negotiation.onStartAnswer
          rw [if_neg fun hr => hchecks ⟨htask, hr⟩]
          simp
        · simp
    | tick =>
      by_cases htask : n.state.task = .waiting
      · exact Or.inl ⟨htask, step_of_checks htask⟩
      · refine Or.inr ?_
        show ∀ o ∈ (if n.state.task = .waiting then n.updateAndBroadcastOffer ser else (n, [])).2,
          Unsent o
        rw [if_neg htask]
        simp
    | send i r =>
      refine Or.inr ?_
      show ∀ o ∈ (n.onSendAnswer i r).2, Unsent o
      unfold Negotiation.onSendAnswer
      split
      · simp
      · dsimp only
        split
        · split
          · simp [Unsent]
          · exact herase _ _
        · split
          · simp [Unsent]
          · exact herase _ _
          · simp
    | close i r =>
      refine Or.inr ?_
      show ∀ o ∈ (n.onCloseAnswer i r).2, Unsent o
      unfold Negotiation.onCloseAnswer
      split
      · simp
      · split <;> simp [Unsent]

/-- Every move keeps the devices. -/
theorem addressed_move {j : NegotiatingInput} {r : Negotiation × List Out}
    (hmove : Negotiation.Move ser n j r) (h : (FsmState.negotiating n.state).Addressed) :
    (FsmState.negotiating r.1.state).Addressed := by
  obtain ⟨hpeers, hoffers⟩ := h
  have hpeers' : ∀ mac ∈ r.1.state.peers.keys, Address mac := fun mac hmac => by
    obtain ⟨device, hdevice, rfl⟩ := KeySet.mem_keys_iff.mp hmac
    exact hpeers _ (KeySet.mem_keys_of_mem (hmove.peers device hdevice))
  refine ⟨hpeers', ?_⟩
  rcases hoffers with hdone | hoffers
  · exact Or.inl (hmove.done hdone)
  · cases hmove with
    | idle task sends closes outs htask hsends houts => exact Or.inr hoffers
    | stored sender message offer hinput hpeer hdecoded =>
      refine Or.inr fun mac hmac => ?_
      rcases OrdMap.mem_keys_insert.mp hmac with rfl | hmac
      · exact Or.inr (hpeers _ hpeer)
      · exact hoffers mac hmac
    | erased mac sends closes outs hmac hsends houts =>
      exact Or.inr fun mac hmac => hoffers mac (OrdMap.mem_keys_erase.mp hmac).1
    | checked htask =>
      rcases n.check_cases ser with ⟨_, he⟩ | ⟨lo, _, _, he⟩ | ⟨lo, mac, _, _, _, he⟩
      · rw [he]
        exact Or.inl rfl
      · rw [he]
        exact Or.inl rfl
      · rw [he]
        refine Or.inr fun mac hmac => ?_
        rcases OrdMap.mem_keys_insert.mp hmac with rfl | hmac
        · exact Or.inl rfl
        · exact hoffers mac hmac

/-- What a round of the loop sends: the offer of the candidate, to every peer. -/
theorem measured_check (h : (FsmState.negotiating n.state).Addressed) {ord : AttrOrder}
    (hser : ser = xmlSerializer ord) (htask : n.state.task ≠ .done)
    (hfits : n.state.peers.elems ≠ [] →
      (∃ lo, n.state.offers.find? n.state.localMac = some lo ∧
        ¬ Negotiation.AllOffersEqual n.state.offers lo) →
      getLocalOfferMac (Negotiation.maxRound n.round n.state.offers) n.state.offers =
        some n.state.localMac →
      escapedLength n.state.localMac +
        (Dice.toString (Negotiation.maxRound n.round n.state.offers).toNat).length ≤ 220) :
    ∀ o ∈ (n.updateAndBroadcastOffer ser).2, Measured o := by
  rcases n.check_cases ser with ⟨_, he⟩ | ⟨lo, _, _, he⟩ | ⟨lo, mac, hlo, hne, hmac, he⟩
  · rw [he]
    intro o ho
    rw [List.mem_singleton.mp ho]
    trivial
  · rw [he]
    intro o ho
    simp only [Negotiation.conclude, List.mem_cons, List.not_mem_nil, or_false] at ho
    rcases ho with rfl | rfl | rfl
    · trivial
    · intro peers hpeers
      cases hpeers
      exact h.1
    · trivial
  · rw [he]
    intro o ho
    rcases List.mem_cons.mp ho with rfl | ho
    · trivial
    · obtain ⟨remote, hremote, rfl⟩ := List.mem_map.mp ho
      show (ser.serializeOffer ⟨mac, _⟩).length ≤ sendMessageMax
      rw [hser]
      rcases (h.2.resolve_left htask) mac (getLocalOfferMac_mem hmac) with rfl | haddress
      · exact (offer_fits_iff ord _ _).mpr (hfits (List.ne_nil_of_mem hremote) ⟨lo, hlo, hne⟩ hmac)
      · exact address_offer_fits ord haddress _

end Negotiating

/-! ## 4. Handlers -/

section Handlers

variable (ord : AttrOrder)

theorem negotiating_measured (round : UInt32) (s : StateNegotiating) (i : ControllerInput)
    (hfits : OwnOfferFits round (.negotiating s) i) (h : (FsmState.negotiating s).Addressed) :
    ((FsmState.negotiating s).handle (xmlSerializer ord) round i).1.Addressed ∧
    ∀ o ∈ ((FsmState.negotiating s).handle (xmlSerializer ord) round i).2.2, Measured o := by
  rw [handle_negotiating]
  cases hj : i.negotiating? with
  | none => exact ⟨h, fun o ho => absurd ho List.not_mem_nil⟩
  | some j =>
    dsimp only
    refine ⟨@addressed_move (xmlSerializer ord) ⟨round, s⟩ j _ (step_move _ _ j) h, ?_⟩
    rcases @negotiating_outs (xmlSerializer ord) ⟨round, s⟩ j with ⟨hchecks, hstep⟩ | hquiet
    · rw [hstep]
      refine measured_check h rfl ?_ fun hpeers hlo hmac => hfits s j rfl hj hchecks hpeers hlo hmac
      intro hdone
      unfold StateNegotiating.Checks at hchecks
      split at hchecks
      · exact nomatch hchecks.1.symm.trans hdone
      · exact nomatch hchecks.symm.trans hdone
      · exact hchecks
    · exact fun o ho => (hquiet o ho).measured

/-- What a handler of `StateConnecting` leaves and puts out. -/
def ConnectingMeasured (r : StateConnecting × List Out) : Prop :=
  (FsmState.connecting r.1).Addressed ∧ ∀ o ∈ r.2, Measured o

theorem hello_measured {s : StateConnecting} (h : (FsmState.connecting s).Addressed) {mac : Str}
    (hmac : Address mac) (retriesLeft : Nat) :
    ConnectingMeasured (s.sendHello (xmlSerializer ord) mac retriesLeft) := by
  unfold StateConnecting.sendHello
  split
  · refine ⟨⟨h.1, fun task ht => ?_⟩, fun o ho => ?_⟩
    · rcases List.mem_append.mp ht with ht | ht
      · exact h.2 task ht
      · exact List.mem_singleton.mp ht ▸ hmac
    · rw [List.mem_singleton.mp ho]
      exact hello_fits ord hmac
  · exact ⟨h, fun o ho => absurd ho List.not_mem_nil⟩

/-- A new device is greeted. -/
theorem connected_measured {s : StateConnecting} (h : (FsmState.connecting s).Addressed)
    {remote : Device} (hmac : Address remote.mac) :
    ConnectingMeasured (s.onDeviceConnected (xmlSerializer ord) remote) := by
  refine hello_measured ord (s := { s with peers := s.peers.insert remote })
    ⟨fun mac hm => ?_, h.2⟩ hmac _
  rcases KeySet.mem_keys_insert.mp hm with rfl | hm
  · exact hmac
  · exact h.1 mac hm

theorem heard_measured {s : StateConnecting} (h : (FsmState.connecting s).Addressed)
    {sender : Device} (hmac : Address sender.mac) (message : Str) :
    ConnectingMeasured (s.onMessageReceived (xmlSerializer ord) sender message) := by
  have hgreeted : ConnectingMeasured (if sender.mac ∈ s.peers.keys then (s, [])
      else s.onDeviceConnected (xmlSerializer ord) sender) := by
    split
    · exact ⟨h, fun o ho => absurd ho List.not_mem_nil⟩
    · exact connected_measured ord h hmac
  unfold StateConnecting.onMessageReceived
  generalize (if sender.mac ∈ s.peers.keys then (s, [])
    else s.onDeviceConnected (xmlSerializer ord) sender) = r at hgreeted ⊢
  obtain ⟨hstate, houts⟩ := hgreeted
  dsimp only
  split
  · exact ⟨hstate, houts⟩
  · split
    · exact ⟨hstate, houts⟩
    · refine ⟨hstate, fun o ho => ?_⟩
      rcases List.mem_append.mp ho with ho | ho
      · exact houts o ho
      · rw [List.mem_singleton.mp ho]
        trivial
    · exact ⟨hstate, houts⟩

/-- The peers of the negotiation are those of the state. -/
theorem start_measured {s : StateConnecting} (h : (FsmState.connecting s).Addressed)
    (retriesLeft : Nat) : ConnectingMeasured (s.attemptNegotiationStart retriesLeft) := by
  unfold StateConnecting.attemptNegotiationStart
  split
  · refine ⟨⟨fun mac hm => absurd hm List.not_mem_nil, h.2⟩, fun o ho => ?_⟩
    rcases List.mem_pair.mp ho with rfl | rfl
    · trivial
    · intro peers hpeers
      cases hpeers
      exact h.1
  · refine ⟨h, fun o ho => ?_⟩
    dsimp only at ho
    split at ho
    · rw [List.mem_singleton.mp ho]
      trivial
    · exact absurd ho List.not_mem_nil

theorem quiet_measured {r : StateConnecting × List Out} (h : (FsmState.connecting r.1).Addressed)
    (houts : ∀ o ∈ r.2, Unsent o) : ConnectingMeasured r :=
  ⟨h, fun o ho => (houts o ho).measured⟩

theorem fatal_unsent (s : StateConnecting) : ∀ o ∈ s.detectFatalFailure, Unsent o := by
  unfold StateConnecting.detectFatalFailure
  split <;> simp [Unsent, Target.members]

theorem helloAnswer_measured {s : StateConnecting} (h : (FsmState.connecting s).Addressed)
    (i : Nat) (r : ResponseCode) :
    ConnectingMeasured (s.onHelloAnswer (xmlSerializer ord) i r) := by
  have hpeers : ∀ mac, ∀ x ∈ (s.peers.erase mac).keys, Address x := fun mac x hx =>
    h.1 x (KeySet.mem_keys_erase.mp hx).1
  have hrest : ∀ task ∈ s.hellos.eraseIdx i, Address task.mac := fun task ht =>
    h.2 task (List.mem_of_mem_eraseIdx ht)
  unfold StateConnecting.onHelloAnswer
  split
  · exact quiet_measured h (by simp)
  · rename_i task hi
    have hmac : Address task.mac := h.2 task (List.mem_of_getElem? hi)
    dsimp only
    split
    · split
      · exact quiet_measured h (by simp [Unsent])
      · exact quiet_measured ⟨h.1, hrest⟩ (by simp)
    · split
      · exact quiet_measured ⟨hpeers task.mac, hrest⟩ (by simp)
      · refine quiet_measured ⟨hpeers task.mac, fun t ht => ?_⟩ (by simp [Unsent])
        rcases List.mem_append.mp ht with ht | ht
        · exact hrest t ht
        · exact List.mem_singleton.mp ht ▸ hmac
      · split
        · exact hello_measured ord (s := { s with hellos := s.hellos.eraseIdx i })
            ⟨h.1, hrest⟩ hmac _
        · exact quiet_measured ⟨h.1, hrest⟩ (by simp)
      · exact quiet_measured ⟨h.1, hrest⟩ (by simp)

theorem connecting_resume_measured {s : StateConnecting} (h : (FsmState.connecting s).Addressed)
    (i : ConnectingResume) : ConnectingMeasured (s.resume (xmlSerializer ord) i) := by
  cases i with
  | hello i r => exact helloAnswer_measured ord h i r
  | close i r =>
    show ConnectingMeasured (s.onCloseAnswer i r)
    unfold StateConnecting.onCloseAnswer
    split
    · exact quiet_measured h (by simp)
    · split
      · exact quiet_measured h (by simp [Unsent])
      · exact quiet_measured h (by simp)
  | retryTick =>
    unfold StateConnecting.resume
    dsimp only
    split
    · unfold StateConnecting.onRetryTick
      split
      · exact start_measured h _
      · exact quiet_measured h (by simp [Unsent, Target.members])
    · exact quiet_measured h (by simp)
  | discovery r =>
    unfold StateConnecting.resume
    dsimp only
    split
    · unfold StateConnecting.onDiscoveryAnswer
      split <;> exact quiet_measured h
        (by simp [StateConnecting.onBluetoothOff, Unsent, Target.members])
    · exact quiet_measured h (by simp)
  | discoveryTick =>
    unfold StateConnecting.resume
    dsimp only
    split
    · unfold StateConnecting.onDiscoveryTick
      split
      · exact quiet_measured h (by simp [Unsent])
      · exact quiet_measured h (fatal_unsent _)
    · exact quiet_measured h (by simp)
  | listening r =>
    unfold StateConnecting.resume
    dsimp only
    split
    · unfold StateConnecting.onListeningAnswer
      split
      · exact quiet_measured h (by simp)
      · exact quiet_measured h (by simp [StateConnecting.onBluetoothOff, Unsent, Target.members])
      · exact quiet_measured h (fatal_unsent _)
      · exact quiet_measured h (by simp)
    · exact quiet_measured h (by simp)
  | listeningTick =>
    unfold StateConnecting.resume
    dsimp only
    split
    · unfold StateConnecting.onListeningTick
      split
      · exact quiet_measured h (by simp [Unsent])
      · exact quiet_measured h (fatal_unsent _)
    · exact quiet_measured h (by simp)

theorem connecting_event_measured {s : StateConnecting} (h : (FsmState.connecting s).Addressed)
    {e : Event} (he : ∀ mac ∈ e.mac, Address mac) :
    ConnectingMeasured (s.onEvent (xmlSerializer ord) e) := by
  have herased : ∀ mac, ∀ x ∈ (s.peers.erase mac).keys, Address x := fun mac x hx =>
    h.1 x (KeySet.mem_keys_erase.mp hx).1
  cases e with
  | deviceConnected remote => exact connected_measured ord h (he _ rfl)
  | messageReceived sender message => exact heard_measured ord h (he _ rfl) message
  | deviceDisconnected remote =>
    exact quiet_measured ⟨herased remote.mac, h.2⟩ fun o ho => absurd ho List.not_mem_nil
  | socketReadFailure from' =>
    show ConnectingMeasured (s.onSocketReadFailure from')
    unfold StateConnecting.onSocketReadFailure
    split
    · exact quiet_measured ⟨herased from'.mac, h.2⟩ (by simp [Unsent])
    · exact quiet_measured h (by simp)
  | connectivityEstablished =>
    show ConnectingMeasured s.onConnectivityEstablished
    unfold StateConnecting.onConnectivityEstablished
    split
    · exact quiet_measured h (by simp)
    · exact start_measured h _
  | bluetoothOff =>
    refine quiet_measured h fun o ho => ?_
    rw [List.mem_singleton.mp ho]
    rfl
  | gameStopped =>
    refine quiet_measured h fun o ho => ?_
    rcases List.mem_pair.mp ho with rfl | rfl
    · trivial
    · rfl
  | _ => exact quiet_measured h fun o ho => absurd ho List.not_mem_nil

theorem connecting_measured (round : UInt32) (s : StateConnecting) {i : ControllerInput}
    (hi : i.Addressed) (h : (FsmState.connecting s).Addressed) :
    ((FsmState.connecting s).handle (xmlSerializer ord) round i).1.Addressed ∧
    ∀ o ∈ ((FsmState.connecting s).handle (xmlSerializer ord) round i).2.2, Measured o := by
  have hsame : ((FsmState.connecting s)).Addressed ∧ ∀ o ∈ ([] : List Out), Measured o :=
    ⟨h, fun o ho => absurd ho List.not_mem_nil⟩
  cases i with
  | start => exact hsame
  | fire => exact hsame
  | event e roll => exact connecting_event_measured ord h hi
  | resume i =>
    cases i with
    | connecting i => exact connecting_resume_measured ord h i
    | _ => exact hsame

/-- The switches of `StatePlaying` pass on devices it has managers for. -/
theorem playing_switch {s : StatePlaying} (h : (FsmState.playing s).Addressed)
    {ser : ISerializer} (i : PlayingInput) {t : Target}
    (ht : .switch t ∈ ((playing ser).step s i).2) : Measured (.switch t) := by
  intro peers hpeers mac hmac
  have hcarried : t.carried = some peers := by
    cases t with
    | playing peers localMac generatorMac =>
      rcases playing_requests ser s i with hnone | ⟨t', ht', hlegal⟩
      · rw [← mem_requested, hnone] at ht
        exact absurd ht List.not_mem_nil
      · rw [← mem_requested, ht', List.mem_singleton] at ht
        rw [← ht] at hlegal
        exact nomatch hlegal
    | _ => exact hpeers
  have hafter : s.connectedAfter ser i mac = some true :=
    (leaving_step ser s i).elim (fun hk => (hk.carries t peers ht hcarried mac).mp hmac)
      fun hc => (hc.carries t peers ht hcarried mac).mp hmac
  obtain ⟨m, hm, _⟩ := Option.map_eq_some_iff.mp hafter
  obtain ⟨hmem, rfl⟩ := KeySet.find?_some.mp hm
  exact (h m hmem).1

theorem playing_step_measured {s : StatePlaying} (h : (FsmState.playing s).Addressed)
    (ser : ISerializer) (i : PlayingInput) :
    (FsmState.playing ((playing ser).step s i).1).Addressed ∧
    ∀ o ∈ ((playing ser).step s i).2, Measured o := by
  obtain ⟨hmanagers, hsent⟩ := playing_follows ser s i
  refine ⟨fun m' hm' => ?_, fun o ho => ?_⟩
  · obtain ⟨m, hm, js, _, rfl⟩ := hmanagers m' hm'
    exact ⟨(h m hm).1, ((h m hm).2.run m.mac m.isGenerator js).1⟩
  · have hfits : CarriesMessage o → Fits o := fun hc => by
      obtain ⟨m, hm, js, hmem⟩ := hsent o ho hc
      exact ((h m hm).2.run m.mac m.isGenerator js).2 o hmem
    cases o with
    | «switch» t => exact playing_switch h i ho
    | issue cmd =>
      cases cmd with
      | sendMessage message mac => exact hfits trivial
      | sendLongMessage message mac => exact hfits trivial
      | _ => trivial
    | _ => trivial

theorem playing_measured (round : UInt32) (s : StatePlaying) (i : ControllerInput)
    (ser : ISerializer) (h : (FsmState.playing s).Addressed) :
    ((FsmState.playing s).handle ser round i).1.Addressed ∧
    ∀ o ∈ ((FsmState.playing s).handle ser round i).2.2, Measured o := by
  have hsame : ((FsmState.playing s)).Addressed ∧ ∀ o ∈ ([] : List Out), Measured o :=
    ⟨h, fun o ho => absurd ho List.not_mem_nil⟩
  cases i with
  | start => exact hsame
  | fire => exact hsame
  | event e roll => exact playing_step_measured h ser (.event e roll)
  | resume i =>
    cases i with
    | playing i => exact playing_step_measured h ser (.resume i)
    | _ => exact hsame

theorem ask_unsent (s : StateIdle) : ∀ o ∈ s.requestBluetoothOn.2, Unsent o := by
  unfold StateIdle.requestBluetoothOn
  split <;> simp [Unsent]

theorem idle_event_unsent (s : StateIdle) (e : Event) : ∀ o ∈ (s.onEvent e).2, Unsent o := by
  cases e with
  | bluetoothOn =>
    show ∀ o ∈ (if s.newGamePending then [Out.switch .connecting] else []), Unsent o
    split <;> simp [Unsent, Target.members]
  | bluetoothOff =>
    show ∀ o ∈ s.onBluetoothOff.2, Unsent o
    unfold StateIdle.onBluetoothOff
    dsimp only
    split
    · exact ask_unsent _
    · simp
  | newGame =>
    show ∀ o ∈ s.onNewGame.2, Unsent o
    unfold StateIdle.onNewGame
    dsimp only
    split
    · simp [Unsent, Target.members]
    · split
      · exact ask_unsent _
      · simp
  | _ => exact fun o ho => absurd ho List.not_mem_nil

theorem idle_resume_unsent (s : StateIdle) (i : IdleResume) : ∀ o ∈ (s.resume i).2, Unsent o := by
  unfold StateIdle.resume
  split
  · split
    · simp
    · simp
    · dsimp only
      split <;> simp [Unsent, Target.members]
    · simp [Unsent, Target.members]
    · simp
    · exact ask_unsent _
  · exact ask_unsent _
  · simp

theorem idle_measured (round : UInt32) (s : StateIdle) (i : ControllerInput) (ser : ISerializer) :
    ((FsmState.idle s).handle ser round i).1.Addressed ∧
    ∀ o ∈ ((FsmState.idle s).handle ser round i).2.2, Measured o := by
  have hquiet : ∀ {s' : StateIdle} {outs : List Out}, (∀ o ∈ outs, Unsent o) →
      (FsmState.idle s').Addressed ∧ ∀ o ∈ outs, Measured o :=
    fun h => ⟨trivial, fun o ho => (h o ho).measured⟩
  have hsame : (FsmState.idle s).Addressed ∧ ∀ o ∈ ([] : List Out), Measured o :=
    hquiet fun o ho => absurd ho List.not_mem_nil
  cases i with
  | start => exact hsame
  | fire => exact hsame
  | event e roll => exact hquiet (idle_event_unsent s e)
  | resume i =>
    cases i with
    | idle i => exact hquiet (idle_resume_unsent s i)
    | _ => exact hsame

/-- A constructor of `StateNegotiating` sends nothing yet. -/
theorem entry_measured (ser : ISerializer) (round : UInt32) {peers : Peers}
    (hpeers : ∀ mac ∈ peers.keys, Address mac) (localMac : Str) (entry : Entry) :
    (FsmState.negotiating (entry.construct ser round peers localMac).1.state).Addressed ∧
    ∀ o ∈ (entry.construct ser round peers localMac).2, Measured o := by
  obtain ⟨offers, mac, heq, hkeys, _⟩ := Negotiation.construct_spec round peers localMac
  have hstate :
      (FsmState.negotiating (Negotiation.construct round peers localMac).1.state).Addressed := by
    rw [heq]
    exact ⟨hpeers, Or.inr fun mac hmac => ((hkeys mac).mp hmac).imp id (hpeers mac)⟩
  have houts : ∀ o ∈ (Negotiation.construct round peers localMac).2, Measured o := by
    rw [heq]
    intro o ho
    rcases List.mem_pair.mp ho with rfl | rfl <;> trivial
  cases entry with
  | plain => exact ⟨hstate, houts⟩
  | withOffer sender message =>
    let n := (Negotiation.construct round peers localMac).1
    have hheard : (FsmState.negotiating (n.onMessageReceived ser sender message).1.state).Addressed :=
      addressed_move (n.onMessageReceived_move ser sender message) hstate
    refine ⟨hheard, fun o ho => ?_⟩
    rcases List.mem_append.mp ho with ho | ho
    · exact houts o ho
    · rcases @negotiating_outs ser n (.event (.messageReceived sender message)) with ⟨hc, _⟩ | hquiet
      · exact hc.elim
      · exact (hquiet o ho).measured

theorem construct_measured (round : UInt32) {t : Target} {ser : ISerializer}
    {r : FsmState × UInt32 × List Out} (ht : Measured (.switch t))
    (hr : t.construct ser round = some r) : r.1.Addressed ∧ ∀ o ∈ r.2.2, Measured o := by
  cases t with
  | idle startNewGame =>
    cases hr
    refine ⟨trivial, fun o ho => ?_⟩
    cases startNewGame <;> rcases List.mem_pair.mp ho with rfl | rfl <;> trivial
  | connecting =>
    cases hr
    refine ⟨⟨fun _ hm => absurd hm List.not_mem_nil, fun _ hm => absurd hm List.not_mem_nil⟩,
      fun o ho => ?_⟩
    rcases List.mem_pair.mp ho with rfl | rfl <;> trivial
  | negotiating peers localMac =>
    cases hr
    exact entry_measured ser round (ht peers rfl) localMac .plain
  | negotiatingWithOffer peers localMac sender message =>
    cases hr
    exact entry_measured ser round (ht peers rfl) localMac (.withOffer sender message)
  | playing peers localMac generatorMac =>
    cases hr
    refine ⟨fun m hm => ?_, fun o ho => absurd ho List.not_mem_nil⟩
    obtain ⟨device, hdevice, rfl⟩ := List.mem_map.mp hm
    exact ⟨ht peers rfl _ (KeySet.mem_keys_of_mem hdevice),
      fun _ h => absurd h List.not_mem_nil, fun _ _ _ h => absurd h List.not_mem_nil⟩
  | empty => exact nomatch hr

theorem destroy_measured (s : FsmState) : ∀ o ∈ s.destroy, Measured o := by
  intro o ho
  cases s with
  | connecting s =>
    rcases List.mem_append.mp ho with ho | ho
    · split at ho
      · rw [List.mem_singleton.mp ho]
        trivial
      · exact absurd ho List.not_mem_nil
    · split at ho
      · rw [List.mem_singleton.mp ho]
        trivial
      · exact absurd ho List.not_mem_nil
  | playing s =>
    obtain ⟨m, _, ho⟩ := List.mem_flatMap.mp ho
    unfold RemotePeerManager.destroy at ho
    split at ho
    · exact absurd ho List.not_mem_nil
    · rw [List.mem_singleton.mp ho]
      trivial
  | _ => exact absurd ho List.not_mem_nil

/-- **Addresses are kept, and what is sent fits**, as long as a local MAC that is nominated does. -/
theorem upholds_measured : Upholds (xmlSerializer ord)
    (fun round s i => i.Addressed ∧ OwnOfferFits round s i) FsmState.Addressed Measured where
  start := fun peers hpeers => nomatch hpeers
  construct := fun round t r ht hr => construct_measured round ht hr
  destroy := fun s _ => destroy_measured s
  handle := by
    intro round s i hG h
    cases s with
    | idle s => exact idle_measured round s i _
    | connecting s => exact connecting_measured ord round s hG.1 h
    | negotiating s => exact negotiating_measured ord round s i hG.2 h
    | playing s => exact playing_measured round s i _ h

end Handlers

/-! ## 5. Runs -/

theorem Measured.fits {o : Out} (h : Measured o) : Fits o := by
  cases o with
  | «switch» t => trivial
  | _ => exact h

/-- A round of the loop that nominates the local node sends its MAC. -/
theorem nominated_fits {ord : AttrOrder} {c : Controller} {s : StateNegotiating}
    (hs : c.state = some (.negotiating s)) {i : ControllerInput} {j : NegotiatingInput}
    (hj : i.negotiating? = some j) (hchecks : s.Checks j) (hpeers : s.peers.elems ≠ [])
    (hdiffer : ∃ lo, s.offers.find? s.localMac = some lo ∧
      ¬ Negotiation.AllOffersEqual s.offers lo)
    (hmac : getLocalOfferMac (Negotiation.maxRound c.round s.offers) s.offers = some s.localMac)
    (hfits : ∀ o, .did o ∈ ((controller (xmlSerializer ord)).step c i).2 → Fits o) :
    escapedLength s.localMac +
      (Dice.toString (Negotiation.maxRound c.round s.offers).toNat).length ≤ 220 := by
  obtain ⟨lo, hlo, hne⟩ := hdiffer
  obtain ⟨remote, hremote⟩ := List.exists_mem_of_ne_nil _ hpeers
  rw [← offer_fits_iff ord]
  refine hfits (.issue (.sendMessage _ remote.mac)) ?_
  rw [step_negotiating _ hs hj, did_mem_map, @step_of_checks _ ⟨c.round, s⟩ j hchecks]
  rcases (⟨c.round, s⟩ : Negotiation).check_cases (xmlSerializer ord) with
    ⟨hnone, _⟩ | ⟨lo', hlo', hall, _⟩ | ⟨lo', mac, _, _, hmac', he⟩
  · exact nomatch hnone.symm.trans hlo
  · cases hlo.symm.trans hlo'
    exact absurd hall hne
  · cases hmac.symm.trans hmac'
    rw [he]
    exact List.mem_cons_of_mem _ (List.mem_map.mpr ⟨remote, hremote, rfl⟩)

/-- **Every message fits** the buffer of the command it is sent with, in a run in which devices have
    addresses, exactly when each time a round of the loop nominates the local node, its MAC is short
    enough: with its special characters escaped it has, together with the round, 220 characters at
    most. -/
theorem messages_fit_iff (ord : AttrOrder) {is : List ControllerInput}
    (haddressed : ∀ i ∈ is, i.Addressed) :
    (∀ o, .did o ∈ (controller (xmlSerializer ord)).outs .initial is → Fits o) ↔
    (controller (xmlSerializer ord)).Along (Judged OwnOfferFits) .initial is := by
  constructor
  · intro h
    refine Machine.along_of_split _ fun is₁ i is₂ hsplit s hs n j hn hj hchecks hpeers hdiffer
      hmac => ?_
    subst hn
    refine @nominated_fits ord _ n hs i j hj hchecks hpeers hdiffer hmac fun o ho => h o ?_
    rw [hsplit, Machine.outs_append, Machine.outs_cons]
    exact List.mem_append_right _ (List.mem_append_left _ ho)
  · intro h
    have hG : (controller (xmlSerializer ord)).Along
        (Judged fun round s i => i.Addressed ∧ OwnOfferFits round s i) .initial is := by
      refine Machine.along_mono _ (fun c i hG s hs => ⟨hG.1, hG.2 s hs⟩)
        (Machine.along_and _ (Machine.along_of_mem _ haddressed) h)
    exact fun o ho => ((controller_invariant (upholds_measured ord) hG).log o ho).fits

/-- A device. -/
def device49 : Device := ⟨"b".toList, "5c:b9:01:f8:b6:49".toList⟩

/-- A game is requested, and the device connects. -/
def connect49 : List ControllerInput :=
  [.start, .fire, .event .newGame id, .event .bluetoothOn id, .fire,
    .event (.deviceConnected device49) id]

theorem connect49_addressed : ∀ i ∈ connect49, i.Addressed := by
  intro i hi
  simp only [connect49, List.mem_cons, List.not_mem_nil, or_false] at hi
  rcases hi with rfl | rfl | rfl | rfl | rfl | rfl
  · trivial
  · trivial
  · exact fun mac hmac => absurd hmac (Option.not_mem_none mac)
  · exact fun mac hmac => absurd hmac (Option.not_mem_none mac)
  · trivial
  · rintro mac ⟨⟩
    rfl

/-- The greeting of a device, with no negotiation after it. -/
theorem messages_fit_greeting : (∀ i ∈ connect49, i.Addressed) ∧
    ∀ o, .did o ∈ (controller (xmlSerializer walkAsIs)).outs .initial connect49 → Fits o := by
  refine ⟨connect49_addressed, (@messages_fit_iff walkAsIs connect49 connect49_addressed).mpr
    ⟨?_, ?_, ?_, ?_, ?_, ?_, trivial⟩⟩
  all_goals
    rintro s hs n j rfl
    exact nomatch hs

/-- A text of 250 characters. -/
def longMac : Str := List.replicate 250 'x'

theorem macText_longMac : MacText longMac where
  plain := fun c hc => by rw [List.eq_of_mem_replicate hc]; decide
  clean := ⟨fun hc => absurd (List.eq_of_mem_replicate hc) (by decide),
    Or.inr ⟨'x', List.mem_replicate.mpr ⟨by decide, rfl⟩, by decide⟩⟩

/-- The device has connected, and has not greeted yet. -/
def connected49 : StateConnecting where
  discovering := none
  listening := none
  localMac := none
  peers := ⟨[device49], List.nodup_singleton _⟩
  retryStart := none
  discovery := some (.asking 2)
  listen := some (.asking 2)
  hellos := [⟨device49.mac, 10, false⟩]
  closes := []

/-- The device says that the local MAC is that text. -/
def greeting49 : ControllerInput :=
  .event (.messageReceived device49 ((xmlSerializer walkAsIs).serializeHello ⟨longMac⟩)) id

theorem step_greeting49 : (controller (xmlSerializer walkAsIs)).step
    ((controller (xmlSerializer walkAsIs)).exec .initial connect49) greeting49 =
      (⟨true, some (.connecting { connected49 with localMac := some longMac }), [], 0⟩, []) :=
  @step_greeting _ ⟨true, some (.connecting connected49), [], 0⟩ connected49 rfl device49
    (List.mem_singleton.mpr rfl) rfl _ _ (xmlSerializer_hello walkAsIs macText_longMac) id

/-- The negotiation starts. -/
def negotiate49 : List ControllerInput :=
  [.event .connectivityEstablished id, .fire, .resume (.negotiating (.start .ok))]

/-- How long the messages are that are sent. -/
def sentLengths (log : List Trace) : List Nat := log.filterMap fun
  | .did (.issue (.sendMessage message _)) => some message.length
  | _ => none

theorem mem_sentLengths {log : List Trace} {n : Nat} (h : n ∈ sentLengths log) :
    ∃ message mac, .did (.issue (.sendMessage message mac)) ∈ log ∧ message.length = n := by
  obtain ⟨e, he, hlength⟩ := List.mem_filterMap.mp h
  split at hlength
  · rename_i message mac
    exact ⟨message, mac, he, Option.some.inj hlength⟩
  · exact nomatch hlength

/-- **A local MAC of 250 characters is sent in an offer of 286**. -/
theorem messages_fit_fails :
    (∀ i ∈ connect49 ++ greeting49 :: negotiate49, i.Addressed) ∧
    ¬ ∀ o, .did o ∈ (controller (xmlSerializer walkAsIs)).outs .initial
      (connect49 ++ greeting49 :: negotiate49) → Fits o := by
  constructor
  · intro i hi
    rcases List.mem_append.mp hi with hi | hi
    · exact connect49_addressed i hi
    · simp only [negotiate49, List.mem_cons, List.not_mem_nil, or_false] at hi
      rcases hi with rfl | rfl | rfl | rfl
      · rintro mac ⟨⟩
        rfl
      · exact fun mac hmac => absurd hmac (Option.not_mem_none mac)
      · trivial
      · trivial
  · intro h
    have hlengths : sentLengths ((controller (xmlSerializer walkAsIs)).outs
        ⟨true, some (.connecting { connected49 with localMac := some longMac }), [], 0⟩
        negotiate49) = [286] := by decide +kernel
    obtain ⟨message, mac, hmem, hlength⟩ := mem_sentLengths (n := 286)
      (hlengths ▸ List.mem_singleton_self 286)
    have hfits : message.length ≤ 255 := by
      refine h (.issue (.sendMessage message mac)) ?_
      rw [Machine.outs_append, Machine.outs_cons, step_greeting49]
      exact List.mem_append_right _ (List.mem_append_right _ hmem)
    omega

end Veridie.Fsm
