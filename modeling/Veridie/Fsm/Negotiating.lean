/-
  File:      Veridie/Fsm/Negotiating.lean
  Subject:   `StateNegotiating` (fsm/statenegotiating.cpp): every node offers the round it is in and
             the generator it would choose; the negotiation is over when all offers are equal.

  * `getLocalOfferMac` -- the candidate of a round: the MAC at that index of the sorted offers;
  * `Negotiation.construct`, `Negotiation.constructWithOffer` -- the constructors;
  * `Negotiation.updateAndBroadcastOffer` -- one round of the loop of `UpdateAndBroadcastOffer`;
  * `negotiating` -- the state over everything that can happen to it;
  * `check_cases` -- the three things a round of the loop can do;
  * `Move`, `step_move` -- the four things a step can do;
  * `negotiation_invariant` -- the run rule, from either constructor.
-/
import Veridie.Fsm.Context
import Veridie.Dice.Serializer
import Veridie.Lib.OrdMap

namespace Veridie.Fsm

open Veridie.Lib Veridie.Dice Veridie.Sign

/-! ## 1. Data -/

/-- `std::map<std::string, dice::Offer>`. -/
abbrev Offers := OrdMap Str Offer

/-- Where `StartNegotiation` and `UpdateAndBroadcastOffer` wait. -/
inductive NegotiationTask where
  /-- for the answer of `NegotiationStart` -/
  | starting
  /-- for the timer behind a broadcast -/
  | waiting
  | done
  deriving DecidableEq, Repr

/-- A `SendOffer` that waits for its `SendMessage`, or for its `DisconnectDevice`. -/
structure SendOfferTask where
  receiver : Device
  closing : Bool
  deriving DecidableEq, Repr

/-- `StateNegotiating`; `closes` are the `DisconnectDevice` coroutines of read failures. -/
structure StateNegotiating where
  localMac : Str
  peers : Peers
  offers : Offers
  task : NegotiationTask
  sends : List SendOfferTask
  closes : List Str

/-- The state with the process-wide `g_negotiationRound`. -/
structure Negotiation where
  round : UInt32
  state : StateNegotiating

/-- The answers and timers the state waits for; the coroutines of one kind are told apart by their
    position. -/
inductive NegotiatingResume where
  | start (r : ResponseCode)
  | tick
  | send (i : Nat) (r : ResponseCode)
  | close (i : Nat) (r : ResponseCode)

/-- `GetLocalOfferMac`; `none` where the index is computed modulo 0. -/
def getLocalOfferMac (round : UInt32) (offers : Offers) : Option Str :=
  offers.keys[round.toNat % offers.size]?

namespace Negotiation

/-! ## 2. The loop -/

/-- The largest round among the offers and `g_negotiationRound`. -/
def maxRound (round : UInt32) (offers : Offers) : UInt32 :=
  offers.entries.foldl (fun m e => if m < e.2.round then e.2.round else m) round

/-- The end of the loop: all offers are equal. What is moved out is left empty. -/
def conclude (n : Negotiation) (localOffer : Offer) : Negotiation × List Out :=
  let s := n.state
  let nomineeName := match s.peers.find? localOffer.mac with
    | some device => device.name
    | none => "You".toList
  ({ n with state := { s with
      localMac := []
      peers := KeySet.empty
      offers := s.offers.insert s.localMac ⟨[], localOffer.round⟩
      task := .done } },
    [.issue (.negotiationStop nomineeName), .switch (.playing s.peers s.localMac localOffer.mac),
      .conclude localOffer])

/-- The rest of a round: the local offer updated and sent to every peer. -/
def broadcast (ser : ISerializer) (n : Negotiation) (round : UInt32) (mac : Str) :
    Negotiation × List Out :=
  let s := n.state
  let message := ser.serializeOffer ⟨mac, round⟩
  (⟨round, { s with
      offers := s.offers.insert s.localMac ⟨mac, round⟩
      task := .waiting
      sends := s.sends ++ s.peers.elems.map fun remote => ⟨remote, false⟩ }⟩,
    .update ⟨mac, round⟩ ::
      s.peers.elems.map fun remote => .issue (.sendMessage message remote.mac))

/-- The loop of `UpdateAndBroadcastOffer`, once. -/
def updateAndBroadcastOffer (ser : ISerializer) (n : Negotiation) : Negotiation × List Out :=
  let s := n.state
  match s.offers.find? s.localMac with
  | none => ({ n with state := { s with task := .done } }, [.undefined .endIterator])
  | some localOffer =>
    if s.offers.entries.all (fun e => e.2.round = localOffer.round && e.2.mac = localOffer.mac) then
      n.conclude localOffer
    else
      let maxRound := maxRound n.round s.offers
      let round := if n.round < maxRound then maxRound else n.round
      match getLocalOfferMac round s.offers with
      | some mac => n.broadcast ser round mac
      | none => ({ n with state := { s with task := .done } }, [.undefined .endIterator])

/-! ## 3. Handlers -/

/-- `OnMessageReceived`. -/
def onMessageReceived (ser : ISerializer) (n : Negotiation) (sender : Device) (message : Str) :
    Negotiation × List Out :=
  let s := n.state
  if sender.mac ∈ s.peers.keys then
    match ser.deserialize message with
    | .ok (.offer offer) =>
      ({ n with state := { s with offers := s.offers.insert sender.mac offer } }, [])
    | .error (.ub u) => (n, [.undefined u])
    | _ => (n, [])
  else (n, [])

/-- `m_peers.erase(device)` and `m_offers.erase(device.mac)`. -/
def erasePeer (n : Negotiation) (mac : Str) : Negotiation × List Out :=
  let s := n.state
  ({ n with state := { s with peers := s.peers.erase mac, offers := s.offers.erase mac } },
    if mac ∈ s.peers.keys then [.erased mac] else [])

/-- `OnSocketReadFailure`. -/
def onSocketReadFailure (n : Negotiation) (mac : Str) : Negotiation × List Out :=
  if mac ∈ n.state.peers.keys then
    let (n, o) := n.erasePeer mac
    ({ n with state := { n.state with closes := n.state.closes ++ [mac] } },
      .issue (.closeConnection [] mac) :: o)
  else (n, [])

/-- The handlers `StateNegotiating` overrides. -/
def onEvent (ser : ISerializer) (n : Negotiation) : Event → Negotiation × List Out
  | .bluetoothOff => (n, [.issue .resetConnections, .issue .resetGame, .switch (.idle false)])
  | .messageReceived sender message => n.onMessageReceived ser sender message
  | .gameStopped => (n, [.issue .resetConnections, .switch (.idle false)])
  | .socketReadFailure transmitter => n.onSocketReadFailure transmitter.mac
  | _ => (n, [])

/-- The loop of `DisconnectDevice` issues its command again. -/
def closeAgain (r : ResponseCode) : Bool := r = .invalidState || r = .interopFailure

/-- `SendOffer` behind its command, or behind the `DisconnectDevice` it waits for. -/
def onSendAnswer (n : Negotiation) (i : Nat) (r : ResponseCode) : Negotiation × List Out :=
  match n.state.sends[i]? with
  | none => (n, [])
  | some task =>
    let rest : Negotiation := ⟨n.round, { n.state with sends := n.state.sends.eraseIdx i }⟩
    if task.closing then
      if closeAgain r then (n, [.issue (.closeConnection [] task.receiver.mac)])
      else rest.erasePeer task.receiver.mac
    else
      match r with
      | .socketError =>
        (⟨n.round, { n.state with
          sends := n.state.sends.eraseIdx i ++ [{ task with closing := true }] }⟩,
          [.issue (.closeConnection [] task.receiver.mac)])
      | .connectionNotFound => rest.erasePeer task.receiver.mac
      | _ => (rest, [])

/-- `DisconnectDevice` behind its command. -/
def onCloseAnswer (n : Negotiation) (i : Nat) (r : ResponseCode) : Negotiation × List Out :=
  match n.state.closes[i]? with
  | none => (n, [])
  | some mac =>
    if closeAgain r then (n, [.issue (.closeConnection [] mac)])
    else (⟨n.round, { n.state with closes := n.state.closes.eraseIdx i }⟩, [])

/-- `StartNegotiation` behind its command. -/
def onStartAnswer (ser : ISerializer) (n : Negotiation) (r : ResponseCode) :
    Negotiation × List Out :=
  if r = .ok then n.updateAndBroadcastOffer ser
  else ({ n with state := { n.state with task := .done } }, [])

/-- The coroutines behind what they wait for. -/
def resume (ser : ISerializer) (n : Negotiation) : NegotiatingResume → Negotiation × List Out
  | .start r => if n.state.task = .starting then n.onStartAnswer ser r else (n, [])
  | .tick => if n.state.task = .waiting then n.updateAndBroadcastOffer ser else (n, [])
  | .send i r => n.onSendAnswer i r
  | .close i r => n.onCloseAnswer i r

/-! ## 4. Constructors -/

/-- The constructor. The local MAC has an offer when the candidate is looked up, so there is one. -/
def construct (round : UInt32) (peers : Peers) (localMac : Str) : Negotiation × List Out :=
  let round := round + 1
  let offers := (OrdMap.ofList (peers.keys.map fun mac => (mac, (⟨[], 0⟩ : Offer)))).insert localMac
    ⟨[], round⟩
  let offer : Offer := ⟨(getLocalOfferMac round offers).getD [], round⟩
  (⟨round, ⟨localMac, peers, offers.insert localMac offer, .starting, [], []⟩⟩,
    [.update offer, .issue .negotiationStart])

/-- The constructor that is handed an offer. -/
def constructWithOffer (ser : ISerializer) (round : UInt32) (peers : Peers) (localMac : Str)
    (sender : Device) (message : Str) : Negotiation × List Out :=
  let (n, o) := construct round peers localMac
  let (n, o') := n.onMessageReceived ser sender message
  (n, o ++ o')

end Negotiation

/-- What can happen to the state. -/
inductive NegotiatingInput where
  | event (e : Event)
  | resume (i : NegotiatingResume)

/-- The state over everything that can happen to it. -/
def negotiating (ser : ISerializer) : Machine Negotiation NegotiatingInput Out where
  step n i :=
    match i with
    | .event e => n.onEvent ser e
    | .resume i => n.resume ser i

/-- The two ways to enter the state. -/
inductive Entry where
  | plain
  | withOffer (sender : Device) (message : Str)

/-- The state as a constructor leaves it, and what the constructor does. -/
def Entry.construct (ser : ISerializer) (round : UInt32) (peers : Peers) (localMac : Str) :
    Entry → Negotiation × List Out
  | .plain => Negotiation.construct round peers localMac
  | .withOffer sender message =>
    Negotiation.constructWithOffer ser round peers localMac sender message

/-! ## 5. The candidate and the largest round -/

theorem getLocalOfferMac_mem {round : UInt32} {offers : Offers} {mac : Str}
    (h : getLocalOfferMac round offers = some mac) : mac ∈ offers.keys := List.mem_of_getElem? h

theorem exists_getLocalOfferMac (round : UInt32) {offers : Offers} {k : Str}
    (h : k ∈ offers.keys) : ∃ mac, getLocalOfferMac round offers = some mac := by
  have hpos : 0 < offers.size := by
    rw [← offers.length_keys]
    exact List.length_pos_of_mem h
  have hlt : round.toNat % offers.size < offers.keys.length := by
    rw [offers.length_keys]
    exact Nat.mod_lt _ hpos
  exact ⟨_, List.getElem?_eq_getElem hlt⟩

namespace Negotiation

theorem le_foldl_max : ∀ (es : List (Str × Offer)) (m : UInt32),
    m.toNat ≤ (es.foldl (fun m e => if m < e.2.round then e.2.round else m) m).toNat ∧
    ∀ e ∈ es, e.2.round.toNat ≤
      (es.foldl (fun m e => if m < e.2.round then e.2.round else m) m).toNat
  | [], m => ⟨Nat.le_refl _, fun e he => absurd he List.not_mem_nil⟩
  | e :: es, m => by
      have hstep : m.toNat ≤ (if m < e.2.round then e.2.round else m).toNat ∧
          e.2.round.toNat ≤ (if m < e.2.round then e.2.round else m).toNat := by
        split
        · rename_i hlt
          exact ⟨Nat.le_of_lt (UInt32.lt_iff_toNat_lt.mp hlt), Nat.le_refl _⟩
        · rename_i hlt
          exact ⟨Nat.le_refl _, Nat.le_of_not_lt fun h => hlt (UInt32.lt_iff_toNat_lt.mpr h)⟩
      obtain ⟨hm, hes⟩ := le_foldl_max es (if m < e.2.round then e.2.round else m)
      rw [List.foldl_cons]
      refine ⟨hstep.1.trans hm, fun f hf => ?_⟩
      rcases List.mem_cons.mp hf with rfl | hf
      · exact hstep.2.trans hm
      · exact hes f hf

/-- The largest round is at least the node's own, and at least that of every offer. -/
theorem le_maxRound (round : UInt32) (offers : Offers) :
    round.toNat ≤ (maxRound round offers).toNat ∧
    ∀ e ∈ offers.entries, e.2.round.toNat ≤ (maxRound round offers).toNat :=
  le_foldl_max offers.entries round

theorem foldl_max_bounded {b : Nat} : ∀ (es : List (Str × Offer)) (m : UInt32),
    m.toNat ≤ b → (∀ e ∈ es, e.2.round.toNat ≤ b) →
    (es.foldl (fun m e => if m < e.2.round then e.2.round else m) m).toNat ≤ b
  | [], _, hm, _ => hm
  | e :: es, m, hm, hes => by
      rw [List.foldl_cons]
      refine foldl_max_bounded es _ ?_ fun f hf => hes f (List.mem_cons_of_mem e hf)
      split
      · exact hes e List.mem_cons_self
      · exact hm

/-- A bound of all rounds is a bound of the largest. -/
theorem maxRound_le {b : Nat} {round : UInt32} {offers : Offers} (hr : round.toNat ≤ b)
    (ho : ∀ e ∈ offers.entries, e.2.round.toNat ≤ b) : (maxRound round offers).toNat ≤ b :=
  foldl_max_bounded offers.entries round hr ho

/-- The new round is the largest one. -/
theorem nextRound_eq (round : UInt32) (offers : Offers) :
    (if round < maxRound round offers then maxRound round offers else round) =
      maxRound round offers := by
  split
  · rfl
  · rename_i hlt
    exact UInt32.toNat_inj.mp (Nat.le_antisymm (le_maxRound round offers).1
      (Nat.le_of_not_lt fun h => hlt (UInt32.lt_iff_toNat_lt.mpr h)))

/-! ## 6. What a round of the loop can do -/

/-- All offers are equal to this one. -/
def AllOffersEqual (offers : Offers) (localOffer : Offer) : Prop :=
  ∀ e ∈ offers.entries, e.2 = localOffer

theorem all_eq_iff (offers : Offers) (lo : Offer) :
    (offers.entries.all fun e => e.2.round = lo.round && e.2.mac = lo.mac) = true ↔
      AllOffersEqual offers lo := by
  simp only [List.all_eq_true, AllOffersEqual, Bool.and_eq_true, decide_eq_true_eq]
  constructor
  · intro h e he
    obtain ⟨hr, hm⟩ := h e he
    cases hoff : e.2
    rw [hoff] at hr hm
    cases lo
    cases hr
    cases hm
    rfl
  · intro h e he
    rw [h e he]
    exact ⟨rfl, rfl⟩

/-- **A round of the loop**: without a local offer it is undefined; when all offers are equal it
    ends; else the new local offer goes out. -/
theorem check_cases (ser : ISerializer) (n : Negotiation) :
    (n.state.offers.find? n.state.localMac = none ∧
      n.updateAndBroadcastOffer ser =
        ({ n with state := { n.state with task := .done } }, [.undefined .endIterator])) ∨
    (∃ lo, n.state.offers.find? n.state.localMac = some lo ∧ AllOffersEqual n.state.offers lo ∧
      n.updateAndBroadcastOffer ser = n.conclude lo) ∨
    (∃ lo mac, n.state.offers.find? n.state.localMac = some lo ∧
      ¬ AllOffersEqual n.state.offers lo ∧
      getLocalOfferMac (maxRound n.round n.state.offers) n.state.offers = some mac ∧
      n.updateAndBroadcastOffer ser =
        n.broadcast ser (maxRound n.round n.state.offers) mac) := by
  unfold updateAndBroadcastOffer
  dsimp only
  cases hf : n.state.offers.find? n.state.localMac with
  | none => exact Or.inl ⟨rfl, rfl⟩
  | some lo =>
    refine Or.inr ?_
    dsimp only
    by_cases hall : AllOffersEqual n.state.offers lo
    · refine Or.inl ⟨lo, rfl, hall, ?_⟩
      rw [if_pos ((all_eq_iff n.state.offers lo).mpr hall)]
    · obtain ⟨mac, hmac⟩ := exists_getLocalOfferMac (maxRound n.round n.state.offers)
        (OrdMap.mem_keys_of_find? hf)
      refine Or.inr ⟨lo, mac, rfl, hall, hmac, ?_⟩
      rw [if_neg fun h => hall ((all_eq_iff n.state.offers lo).mp h), nextRound_eq, hmac]

/-! ## 7. What the constructor leaves -/

/-- **The constructor**: an offer for the local MAC and every peer; the local one nominates the
    candidate of the new round, the others are placeholders. -/
theorem construct_spec (round : UInt32) (peers : Peers) (localMac : Str) :
    ∃ offers mac, construct round peers localMac =
        (⟨round + 1, ⟨localMac, peers, offers, .starting, [], []⟩⟩,
          [.update ⟨mac, round + 1⟩, .issue .negotiationStart]) ∧
      (∀ x, x ∈ offers.keys ↔ x = localMac ∨ x ∈ peers.keys) ∧
      offers.find? localMac = some ⟨mac, round + 1⟩ ∧
      (∀ x ∈ peers.keys, x ≠ localMac → offers.find? x = some ⟨[], 0⟩) ∧
      getLocalOfferMac (round + 1) offers = some mac := by
  let base : Offers := (OrdMap.ofList (peers.keys.map fun mac => (mac, (⟨[], 0⟩ : Offer)))).insert
    localMac ⟨[], round + 1⟩
  have hkeys : ∀ x, x ∈ base.keys ↔ x = localMac ∨ x ∈ peers.keys := fun x => by
    rw [OrdMap.mem_keys_insert, OrdMap.mem_keys_ofList, List.map_map]
    simp
  obtain ⟨mac, hmac⟩ := exists_getLocalOfferMac (round + 1) ((hkeys localMac).mpr (Or.inl rfl))
  have hsame : (base.insert localMac ⟨mac, round + 1⟩).keys = base.keys :=
    OrdMap.keys_insert_of_mem _ ((hkeys localMac).mpr (Or.inl rfl))
  refine ⟨base.insert localMac ⟨mac, round + 1⟩, mac, ?_, ?_, OrdMap.find?_insert_self _ _ _, ?_, ?_⟩
  · unfold construct
    dsimp only
    rw [hmac]
    rfl
  · rw [hsame]
    exact hkeys
  · intro x hx hne
    rw [OrdMap.find?_insert_ne _ _ hne, OrdMap.find?_insert_ne _ _ hne,
      OrdMap.find?_ofList_const, if_pos hx]
  · rw [getLocalOfferMac, hsame, ← OrdMap.length_keys, hsame, OrdMap.length_keys]
    exact hmac

/-! ## 8. What a step can do -/

/-- Nothing an election is judged by: no mark of a round of the loop, no erased device, no game. -/
def Quiet : Out → Prop
  | .update _ | .conclude _ | .erased _ => False
  | .switch (.playing _ _ _) => False
  | .issue (.sendMessage _ _) => False
  | _ => True

/-- The devices sent to are among those sent to before. -/
def SendsWithin (old new : List SendOfferTask) : Prop :=
  ∀ task ∈ new, ∃ task' ∈ old, task'.receiver = task.receiver

theorem SendsWithin.refl (sends : List SendOfferTask) : SendsWithin sends sends :=
  fun task h => ⟨task, h, rfl⟩

theorem SendsWithin.eraseIdx (sends : List SendOfferTask) (i : Nat) :
    SendsWithin sends (sends.eraseIdx i) := fun task h => ⟨task, List.mem_of_mem_eraseIdx h, rfl⟩

/-- What a step can do: nothing to the offers, an offer stored, a device erased, or one round of
    the loop. -/
inductive Move (ser : ISerializer) (n : Negotiation) (i : NegotiatingInput) :
    Negotiation × List Out → Prop where
  | idle (task : NegotiationTask) (sends : List SendOfferTask) (closes : List Str)
      (outs : List Out) (htask : task = n.state.task ∨ task = .done)
      (hsends : SendsWithin n.state.sends sends) (houts : ∀ o ∈ outs, Quiet o) :
      Move ser n i
        (⟨n.round, { n.state with task := task, sends := sends, closes := closes }⟩, outs)
  | stored (sender : Device) (message : Str) (offer : Offer)
      (hinput : i = .event (.messageReceived sender message))
      (hpeer : sender.mac ∈ n.state.peers.keys)
      (hdecoded : ser.deserialize message = .ok (.offer offer)) :
      Move ser n i
        (⟨n.round, { n.state with offers := n.state.offers.insert sender.mac offer }⟩, [])
  | erased (mac : Str) (sends : List SendOfferTask) (closes : List Str) (outs : List Out)
      (hmac : mac ∈ n.state.peers.keys ∨ ∃ task ∈ n.state.sends, task.receiver.mac = mac)
      (hsends : SendsWithin n.state.sends sends) (houts : ∀ o ∈ outs, Quiet o) :
      Move ser n i
        (⟨n.round, { n.state with
            peers := n.state.peers.erase mac
            offers := n.state.offers.erase mac
            sends := sends
            closes := closes }⟩,
          outs ++ if mac ∈ n.state.peers.keys then [.erased mac] else [])
  | checked (htask : n.state.task = .starting ∨ n.state.task = .waiting) :
      Move ser n i (n.updateAndBroadcastOffer ser)

/-- Nothing changed, quiet outputs. -/
theorem Move.same {ser : ISerializer} {n : Negotiation} {i : NegotiatingInput} {outs : List Out}
    (h : ∀ o ∈ outs, Quiet o) : Move ser n i (n, outs) :=
  .idle n.state.task n.state.sends n.state.closes outs (Or.inl rfl) (.refl _) h

/-- An ended loop stays ended. -/
theorem Move.done {ser : ISerializer} {n : Negotiation} {i : NegotiatingInput}
    {r : Negotiation × List Out} (hmove : Move ser n i r) (hdone : n.state.task = .done) :
    r.1.state.task = .done := by
  cases hmove with
  | idle task sends closes outs htask hsends houts => exact htask.elim (fun e => e.trans hdone) id
  | stored sender message offer hinput hpeer hdecoded => exact hdone
  | erased mac sends closes outs hmac hsends houts => exact hdone
  | checked htask =>
    rw [hdone] at htask
    exact htask.elim (fun e => nomatch e) fun e => nomatch e

/-- After the loop the round stays, nothing is sent and nothing ends again. -/
theorem Move.after_done {ser : ISerializer} {n : Negotiation} {i : NegotiatingInput}
    {r : Negotiation × List Out} (hmove : Move ser n i r) (hdone : n.state.task = .done) :
    r.1.round = n.round ∧ ∀ o ∈ r.2, Quiet o ∨ ∃ mac, o = .erased mac := by
  cases hmove with
  | idle task sends closes outs htask hsends houts => exact ⟨rfl, fun o ho => Or.inl (houts o ho)⟩
  | stored sender message offer hinput hpeer hdecoded =>
    exact ⟨rfl, fun o ho => absurd ho List.not_mem_nil⟩
  | erased mac sends closes outs hmac hsends houts =>
    refine ⟨rfl, fun o ho => ?_⟩
    rcases List.mem_append.mp ho with ho | ho
    · exact Or.inl (houts o ho)
    · split at ho
      · exact Or.inr ⟨mac, List.mem_singleton.mp ho⟩
      · exact absurd ho List.not_mem_nil
  | checked htask =>
    rw [hdone] at htask
    exact htask.elim (fun e => nomatch e) fun e => nomatch e

/-- Peers are only erased. -/
theorem Move.peers {ser : ISerializer} {n : Negotiation} {i : NegotiatingInput}
    {r : Negotiation × List Out} (hmove : Move ser n i r) :
    ∀ device ∈ r.1.state.peers.elems, device ∈ n.state.peers.elems := by
  cases hmove with
  | erased mac sends closes outs hmac hsends houts =>
    exact fun device hd => (KeySet.mem_elems_erase.mp hd).1
  | checked htask =>
    rcases n.check_cases ser with ⟨_, he⟩ | ⟨lo, _, _, he⟩ | ⟨lo, mac, _, _, _, he⟩
    · rw [he]
      exact fun _ hd => hd
    · rw [he]
      exact fun _ hd => absurd hd List.not_mem_nil
    · rw [he]
      exact fun _ hd => hd
  | _ => exact fun _ hd => hd

/-- The outputs only the end of the loop has. -/
def EndsLoop : Out → Prop
  | .conclude _ => True
  | .switch (.playing _ _ _) => True
  | _ => False

theorem Quiet.endsLoop {o : Out} (h : Quiet o) : ¬ EndsLoop o := by
  intro he
  unfold EndsLoop at he
  split at he
  · exact h
  · exact h
  · exact he

/-- **Where the loop ends**: a round of it that has found all offers equal. -/
theorem Move.ends {ser : ISerializer} {n : Negotiation} {i : NegotiatingInput}
    {r : Negotiation × List Out} {o : Out} (hmove : Move ser n i r) (ho : o ∈ r.2)
    (hends : EndsLoop o) :
    (n.state.task = .starting ∨ n.state.task = .waiting) ∧
    ∃ lo, n.state.offers.find? n.state.localMac = some lo ∧ AllOffersEqual n.state.offers lo ∧
      r = n.conclude lo := by
  have hloud : ¬ Quiet o := fun hq => hq.endsLoop hends
  cases hmove with
  | idle task sends closes outs htask hsends houts => exact absurd (houts o ho) hloud
  | stored sender message offer hinput hpeer hdecoded => exact absurd ho List.not_mem_nil
  | erased mac sends closes outs hmac hsends houts =>
    rcases List.mem_append.mp ho with h | h
    · exact absurd (houts o h) hloud
    · split at h
      · rw [List.mem_singleton.mp h] at hends
        exact hends.elim
      · exact absurd h List.not_mem_nil
  | checked htask =>
    refine ⟨htask, ?_⟩
    rcases n.check_cases ser with ⟨_, he⟩ | ⟨lo, hlo, hall, he⟩ | ⟨lo, mac, _, _, _, he⟩
    · rw [he] at ho
      rw [List.mem_singleton.mp ho] at hends
      exact hends.elim
    · exact ⟨lo, hlo, hall, he⟩
    · rw [he] at ho
      rcases List.mem_cons.mp ho with rfl | h
      · exact hends.elim
      · obtain ⟨_, _, rfl⟩ := List.mem_map.mp h
        exact hends.elim

theorem conclude_switch {n : Negotiation} {lo : Offer} {peers : Peers} {localMac generatorMac : Str}
    (h : .switch (.playing peers localMac generatorMac) ∈ (n.conclude lo).2) :
    peers = n.state.peers ∧ localMac = n.state.localMac ∧ generatorMac = lo.mac := by
  have hs : Out.switch (.playing peers localMac generatorMac) =
      .switch (.playing n.state.peers n.state.localMac lo.mac) := by
    simpa [conclude] using h
  cases hs
  exact ⟨rfl, rfl, rfl⟩

theorem onMessageReceived_move (ser : ISerializer) (n : Negotiation) (sender : Device)
    (message : Str) :
    Move ser n (.event (.messageReceived sender message)) (n.onMessageReceived ser sender message) := by
  unfold onMessageReceived
  dsimp only
  split
  · rename_i hpeer
    split
    · rename_i offer hdecoded
      exact .stored sender message offer rfl hpeer hdecoded
    · exact .same (by simp [Quiet])
    · exact .same (by simp)
  · exact .same (by simp)

theorem onEvent_move (ser : ISerializer) (n : Negotiation) (e : Event) :
    Move ser n (.event e) (n.onEvent ser e) := by
  cases e with
  | messageReceived sender message => exact n.onMessageReceived_move ser sender message
  | socketReadFailure transmitter =>
    show Move ser n _ (n.onSocketReadFailure transmitter.mac)
    unfold onSocketReadFailure erasePeer
    split
    · rename_i hpeer
      exact .erased transmitter.mac n.state.sends (n.state.closes ++ [transmitter.mac])
        [.issue (.closeConnection [] transmitter.mac)] (Or.inl hpeer) (.refl _) (by simp [Quiet])
    · exact .same (by simp)
  | bluetoothOff => exact .same (by simp [Quiet])
  | gameStopped => exact .same (by simp [Quiet])
  | _ => exact .same (by simp)

theorem onSendAnswer_move (ser : ISerializer) (n : Negotiation) (i : Nat) (r : ResponseCode) :
    Move ser n (.resume (.send i r)) (n.onSendAnswer i r) := by
  unfold onSendAnswer
  split
  · exact .same (by simp)
  · rename_i task hi
    have hmem : task ∈ n.state.sends := List.mem_of_getElem? hi
    have hrest := SendsWithin.eraseIdx n.state.sends i
    dsimp only
    split
    · split
      · exact .same (by simp [Quiet])
      · exact .erased task.receiver.mac _ n.state.closes [] (Or.inr ⟨task, hmem, rfl⟩) hrest
          (by simp)
    · split
      · refine .idle n.state.task _ n.state.closes _ (Or.inl rfl) (fun t ht => ?_) (by simp [Quiet])
        rcases List.mem_append.mp ht with ht | ht
        · exact hrest t ht
        · rw [List.mem_singleton.mp ht]
          exact ⟨task, hmem, rfl⟩
      · exact .erased task.receiver.mac _ n.state.closes [] (Or.inr ⟨task, hmem, rfl⟩) hrest
          (by simp)
      · exact .idle n.state.task _ n.state.closes [] (Or.inl rfl) hrest (by simp)

theorem onCloseAnswer_move (ser : ISerializer) (n : Negotiation) (i : Nat) (r : ResponseCode) :
    Move ser n (.resume (.close i r)) (n.onCloseAnswer i r) := by
  unfold onCloseAnswer
  split
  · exact .same (by simp)
  · split
    · exact .same (by simp [Quiet])
    · exact .idle n.state.task n.state.sends _ [] (Or.inl rfl) (.refl _) (by simp)

theorem resume_move (ser : ISerializer) (n : Negotiation) (i : NegotiatingResume) :
    Move ser n (.resume i) (n.resume ser i) := by
  cases i with
  | start r =>
    show Move ser n _ (if n.state.task = .starting then n.onStartAnswer ser r else (n, []))
    split
    · rename_i htask
      unfold onStartAnswer
      split
      · exact .checked (Or.inl htask)
      · exact .idle .done n.state.sends n.state.closes [] (Or.inr rfl) (.refl _) (by simp)
    · exact .same (by simp)
  | tick =>
    show Move ser n _ (if n.state.task = .waiting then n.updateAndBroadcastOffer ser else (n, []))
    split
    · rename_i htask
      exact .checked (Or.inr htask)
    · exact .same (by simp)
  | send i r => exact n.onSendAnswer_move ser i r
  | close i r => exact n.onCloseAnswer_move ser i r

end Negotiation

/-- **Every step is one of the four moves.** -/
theorem step_move (ser : ISerializer) (n : Negotiation) (i : NegotiatingInput) :
    Negotiation.Move ser n i ((negotiating ser).step n i) := by
  cases i with
  | event e => exact n.onEvent_move ser e
  | resume i => exact n.resume_move ser i

/-- An offer of a peer is stored. -/
theorem step_offer {ser : ISerializer} {n : Negotiation} {sender : Device} {message : Str}
    {offer : Offer} (hpeer : sender.mac ∈ n.state.peers.keys)
    (hdecoded : ser.deserialize message = .ok (.offer offer)) :
    (negotiating ser).step n (.event (.messageReceived sender message)) =
      (⟨n.round, { n.state with offers := n.state.offers.insert sender.mac offer }⟩, []) := by
  show Negotiation.onMessageReceived ser n sender message = _
  unfold Negotiation.onMessageReceived
  rw [if_pos hpeer, hdecoded]

/-! ## 9. Runs from the constructor -/

section Runs

variable (ser : ISerializer) (round : UInt32) (peers : Peers) (localMac : Str)

/-- The state a run from the constructor ends in. -/
def negotiationAfter (entry : Entry) (is : List NegotiatingInput) : Negotiation :=
  (negotiating ser).exec (entry.construct ser round peers localMac).1 is

/-- What has been done on the way, the constructor included. -/
def negotiationLog (entry : Entry) (is : List NegotiatingInput) : List Out :=
  (entry.construct ser round peers localMac).2 ++
    (negotiating ser).outs (entry.construct ser round peers localMac).1 is

/-- The inputs of a run, the offer handed to the constructor among them. -/
def Entry.inputs (is : List NegotiatingInput) : Entry → List NegotiatingInput
  | .plain => is
  | .withOffer sender message => .event (.messageReceived sender message) :: is

theorem negotiationAfter_eq (entry : Entry) (is : List NegotiatingInput) :
    negotiationAfter ser round peers localMac entry is =
      (negotiating ser).exec (Negotiation.construct round peers localMac).1 (entry.inputs is) := by
  cases entry <;> rfl

theorem negotiationLog_eq (entry : Entry) (is : List NegotiatingInput) :
    negotiationLog ser round peers localMac entry is =
      (Negotiation.construct round peers localMac).2 ++
        (negotiating ser).outs (Negotiation.construct round peers localMac).1
          (entry.inputs is) := by
  cases entry with
  | plain => rfl
  | withOffer sender message =>
    show ((Negotiation.construct round peers localMac).2 ++ _) ++ _ = _
    rw [List.append_assoc]
    rfl

variable {ser round peers localMac}

/-- **The run rule**: what the constructor leaves and every move keeps holds after every run, from
    either constructor. -/
theorem negotiation_invariant {P : Negotiation → List Out → Prop}
    (h0 : P (Negotiation.construct round peers localMac).1
      (Negotiation.construct round peers localMac).2)
    (hmove : ∀ n log i r, Negotiation.Move ser n i r → P n log → P r.1 (log ++ r.2))
    (entry : Entry) (is : List NegotiatingInput) :
    P (negotiationAfter ser round peers localMac entry is)
      (negotiationLog ser round peers localMac entry is) := by
  rw [negotiationAfter_eq, negotiationLog_eq]
  exact Machine.log_invariant (fun n log i h => hmove n log i _ (step_move ser n i) h) h0 _

end Runs

end Veridie.Fsm
