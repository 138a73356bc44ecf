/-
  File:      Veridie/Fsm/Offers.lean
  Subject:   When the table of offers of `StateNegotiating` has a local offer.

  The table has an offer for each peer and one for the local MAC, which is whatever the first greeting
  said. A peer that fails is erased with its offer; when the greeting has named that peer, the local
  offer is gone with it, and the loop looks it up all the same.

  * `StateNegotiating.WellFormed` -- the table as the loop needs it;
  * `StateNegotiating.failing` -- the peer an input reports as failed;
  * `Tabled`, `tabled_move` -- the invariant;
  * `offers_well_formed_iff` -- the table is well formed all along exactly in the runs in which no
    failing peer has the local MAC.
-/
import Veridie.Fsm.Elected
import Veridie.Fsm.Runs

namespace Veridie.Fsm

open Veridie.Lib Veridie.Dice Veridie.Sign

/-! ## 1. The table -/

namespace StateNegotiating

/-- There is an offer for the local MAC and for every peer and no other; so the local one is found,
    no index is computed modulo 0 or lies outside, and a round of the loop is defined. -/
structure WellFormed (s : StateNegotiating) : Prop where
  keys : ∀ x, x ∈ s.offers.keys ↔ x = s.localMac ∨ x ∈ s.peers.keys
  found : ∃ localOffer, s.offers.find? s.localMac = some localOffer
  nonempty : s.offers.size ≠ 0
  inRange : ∀ round, ∃ mac, getLocalOfferMac round s.offers = some mac
  defined : ∀ ser round, .undefined .endIterator ∉
    (Negotiation.updateAndBroadcastOffer ser ⟨round, s⟩).2

/-- The keys are all that matters. -/
theorem wellFormed_of_keys {s : StateNegotiating}
    (h : ∀ x, x ∈ s.offers.keys ↔ x = s.localMac ∨ x ∈ s.peers.keys) : s.WellFormed := by
  have hlocal : s.localMac ∈ s.offers.keys := (h s.localMac).mpr (Or.inl rfl)
  obtain ⟨localOffer, hfound⟩ := OrdMap.mem_keys_iff.mp hlocal
  refine ⟨h, ⟨localOffer, hfound⟩, ?_, fun round => exists_getLocalOfferMac round hlocal, ?_⟩
  · rw [← s.offers.length_keys]
    exact List.length_pos_of_mem hlocal |>.ne'
  · intro ser round hm
    rcases (⟨round, s⟩ : Negotiation).check_cases ser with ⟨hnone, _⟩ | ⟨lo, _, _, he⟩ | ⟨lo, mac, _, _, _, he⟩
    · exact nomatch hnone.symm.trans hfound
    · rw [he] at hm
      simp [Negotiation.conclude] at hm
    · rw [he] at hm
      simp [Negotiation.broadcast] at hm

/-- The MAC of the peer an input reports as failed, for good: a read failure, or the answer to the
    offer sent to it. -/
def failing (s : StateNegotiating) : NegotiatingInput → Option Str
  | .event (.socketReadFailure transmitter) => some transmitter.mac
  | .resume (.send i r) =>
    match s.sends[i]? with
    | some task =>
      if task.closing then if Negotiation.closeAgain r then none else some task.receiver.mac
      else if r = .connectionNotFound then some task.receiver.mac else none
    | none => none
  | _ => none

end StateNegotiating

/-! ## 2. A step -/

section Steps

variable {ser : ISerializer} {n : Negotiation}

theorem erased_not_mem_check (mac : Str) : .erased mac ∉ (n.updateAndBroadcastOffer ser).2 := by
  rcases n.check_cases ser with ⟨_, he⟩ | ⟨lo, _, _, he⟩ | ⟨lo, mac, _, _, _, he⟩
  · simp [he]
  · simp [he, Negotiation.conclude]
  · simp [he, Negotiation.broadcast]

theorem mem_erasePeer {mac mac' : Str} (h : .erased mac ∈ (n.erasePeer mac').2) : mac = mac' := by
  unfold Negotiation.erasePeer at h
  dsimp only at h
  split at h
  · exact Out.erased.inj (List.mem_singleton.mp h)
  · exact absurd h List.not_mem_nil

/-- A device is erased where its failure is reported, and nowhere else. -/
theorem failing_of_erased {i : NegotiatingInput} {mac : Str}
    (h : .erased mac ∈ ((negotiating ser).step n i).2) : n.state.failing i = some mac := by
  cases i with
  | event e =>
    cases e with
    | socketReadFailure transmitter =>
      change _ ∈ (n.onSocketReadFailure transmitter.mac).2 at h
      unfold Negotiation.onSocketReadFailure at h
      split at h
      · rcases List.mem_cons.mp h with h | h
        · exact nomatch h
        · rw [mem_erasePeer h]
          rfl
      · exact absurd h List.not_mem_nil
    | messageReceived sender message =>
      change _ ∈ (n.onMessageReceived ser sender message).2 at h
      unfold Negotiation.onMessageReceived at h
      dsimp only at h
      split at h
      · split at h <;> simp at h
      · exact absurd h List.not_mem_nil
    | _ => simp [negotiating, Negotiation.onEvent] at h
  | resume i =>
    cases i with
    | start r =>
      change _ ∈ (if n.state.task = .starting then n.onStartAnswer ser r else (n, [])).2 at h
      unfold Negotiation.onStartAnswer at h
      split at h
      · split at h
        · exact absurd h (erased_not_mem_check mac)
        · exact absurd h List.not_mem_nil
      · exact absurd h List.not_mem_nil
    | tick =>
      change _ ∈ (if n.state.task = .waiting then n.updateAndBroadcastOffer ser else (n, [])).2 at h
      split at h
      · exact absurd h (erased_not_mem_check mac)
      · exact absurd h List.not_mem_nil
    | send i r =>
      change _ ∈ (n.onSendAnswer i r).2 at h
      unfold Negotiation.onSendAnswer at h
      unfold StateNegotiating.failing
      dsimp only
      cases ht : n.state.sends[i]? with
      | none =>
        rw [ht] at h
        exact absurd h List.not_mem_nil
      | some task =>
        rw [ht] at h
        dsimp only at h ⊢
        split at h
        · rename_i hclosing
          rw [if_pos hclosing]
          split at h
          · simp at h
          · rename_i hagain
            rw [if_neg hagain, mem_erasePeer h]
        · rename_i hclosing
          rw [if_neg hclosing]
          split at h
          · simp at h
          · rw [if_pos rfl, mem_erasePeer h]
          · exact absurd h List.not_mem_nil
    | close i r =>
      change _ ∈ (n.onCloseAnswer i r).2 at h
      unfold Negotiation.onCloseAnswer at h
      split at h
      · exact absurd h List.not_mem_nil
      · split at h <;> simp at h

/-- The peer that has failed is gone, and its offer. -/
theorem step_failing {i : NegotiatingInput} {mac : Str}
    (hpeer : mac ∈ n.state.peers.keys) (h : n.state.failing i = some mac) :
    ((negotiating ser).step n i).1.state.localMac = n.state.localMac ∧
    ((negotiating ser).step n i).1.state.offers = n.state.offers.erase mac ∧
    ∀ offer, .conclude offer ∉ ((negotiating ser).step n i).2 := by
  unfold StateNegotiating.failing at h
  split at h
  · rename_i transmitter
    cases h
    show (n.onSocketReadFailure transmitter.mac).1.state.localMac = _ ∧
      (n.onSocketReadFailure transmitter.mac).1.state.offers = _ ∧
      ∀ offer, .conclude offer ∉ (n.onSocketReadFailure transmitter.mac).2
    unfold Negotiation.onSocketReadFailure Negotiation.erasePeer
    rw [if_pos hpeer]
    exact ⟨rfl, rfl, by simp [hpeer]⟩
  · rename_i i r
    show (n.onSendAnswer i r).1.state.localMac = _ ∧ (n.onSendAnswer i r).1.state.offers = _ ∧
      ∀ offer, .conclude offer ∉ (n.onSendAnswer i r).2
    unfold Negotiation.onSendAnswer
    split at h
    · rename_i task ht
      rw [ht]
      dsimp only
      split at h
      · rename_i hclosing
        rw [if_pos hclosing]
        split at h
        · exact nomatch h
        · rename_i hagain
          cases h
          rw [if_neg hagain]
          unfold Negotiation.erasePeer
          exact ⟨rfl, rfl, by simp [hpeer]⟩
      · rename_i hclosing
        rw [if_neg hclosing]
        split at h
        · rename_i hr
          cases h
          rw [hr]
          unfold Negotiation.erasePeer
          exact ⟨rfl, rfl, by simp [hpeer]⟩
        · exact nomatch h
    · exact nomatch h
  · exact nomatch h

end Steps

/-! ## 3. The invariant -/

/-- The table has its keys, and an offer on its way to the local MAC goes to a peer. -/
structure Tabled (s : StateNegotiating) : Prop where
  keys : ∀ x, x ∈ s.offers.keys ↔ x = s.localMac ∨ x ∈ s.peers.keys
  sent : ∀ task ∈ s.sends, task.receiver.mac = s.localMac → s.localMac ∈ s.peers.keys

theorem tabled_construct (round : UInt32) (peers : Peers) (localMac : Str) :
    Tabled (Negotiation.construct round peers localMac).1.state := by
  obtain ⟨offers, mac, heq, hkeys, _⟩ := Negotiation.construct_spec round peers localMac
  rw [heq]
  exact ⟨hkeys, fun task ht => absurd ht List.not_mem_nil⟩

section Moves

variable {ser : ISerializer} {n : Negotiation} {i : NegotiatingInput} {r : Negotiation × List Out}

/-- **Every move keeps the table**, until the loop has found all offers equal, when it does not erase
    the peer with the local MAC. -/
theorem tabled_move (hmove : Negotiation.Move ser n i r) (h : Tabled n.state)
    (hkeeps : n.state.localMac ∈ n.state.peers.keys → .erased n.state.localMac ∉ r.2) :
    (∃ offer, .conclude offer ∈ r.2) ∨ Tabled r.1.state := by
  cases hmove with
  | idle task sends closes outs htask hsends houts =>
    refine Or.inr ⟨h.keys, fun t ht hmac => ?_⟩
    obtain ⟨t', ht', hr⟩ := hsends t ht
    exact h.sent t' ht' (hr ▸ hmac)
  | stored sender message offer hinput hpeer hdecoded =>
    refine Or.inr ⟨fun x => ?_, h.sent⟩
    show x ∈ (n.state.offers.insert sender.mac offer).keys ↔ _
    rw [OrdMap.keys_insert_of_mem offer ((h.keys sender.mac).mpr (Or.inr hpeer))]
    exact h.keys x
  | erased mac sends closes outs hmac hsends houts =>
    have hne : mac ≠ n.state.localMac := by
      rintro rfl
      have hpeer : n.state.localMac ∈ n.state.peers.keys :=
        hmac.elim id fun ⟨task, ht, hreceiver⟩ => h.sent task ht hreceiver
      refine hkeeps hpeer (List.mem_append_right outs ?_)
      rw [if_pos hpeer]
      exact List.mem_singleton.mpr rfl
    refine Or.inr ⟨fun x => ?_, fun t ht hreceiver => ?_⟩
    · show x ∈ (n.state.offers.erase mac).keys ↔
        x = n.state.localMac ∨ x ∈ (n.state.peers.erase mac).keys
      rw [OrdMap.mem_keys_erase, KeySet.mem_keys_erase, h.keys x]
      constructor
      · rintro ⟨hx, hxm⟩
        exact hx.imp id fun hx => ⟨hx, hxm⟩
      · rintro (rfl | ⟨hx, hxm⟩)
        · exact ⟨Or.inl rfl, hne.symm⟩
        · exact ⟨Or.inr hx, hxm⟩
    · obtain ⟨t', ht', hr⟩ := hsends t ht
      exact KeySet.mem_keys_erase.mpr ⟨h.sent t' ht' (hr ▸ hreceiver), hne.symm⟩
  | checked htask =>
    rcases n.check_cases ser with ⟨hnone, _⟩ | ⟨lo, _, _, he⟩ | ⟨lo, mac, _, _, _, he⟩
    · obtain ⟨lo, hlo⟩ := (StateNegotiating.wellFormed_of_keys h.keys).found
      exact nomatch hnone.symm.trans hlo
    · rw [he]
      exact Or.inl ⟨lo, by simp [Negotiation.conclude]⟩
    · rw [he]
      refine Or.inr ⟨fun x => ?_, fun t ht hreceiver => ?_⟩
      · show x ∈ (n.state.offers.insert n.state.localMac _).keys ↔ _
        rw [OrdMap.keys_insert_of_mem _ ((h.keys n.state.localMac).mpr (Or.inl rfl))]
        exact h.keys x
      · rcases List.mem_append.mp ht with ht | ht
        · exact h.sent t ht hreceiver
        · obtain ⟨remote, hremote, rfl⟩ := List.mem_map.mp ht
          have hpeer := KeySet.mem_keys_of_mem hremote
          rwa [show remote.mac = n.state.localMac from hreceiver] at hpeer

end Moves

/-! ## 4. Runs -/

/-- One more entry of the log. -/
def Trace.concludes (found : Bool) : Trace → Bool
  | .did (.conclude _) => true
  | .installed _ => false
  | .did _ => found

/-- Whether the `StateNegotiating` there is has found all offers equal. -/
def concluded (log : List Trace) : Bool := log.foldl Trace.concludes false

theorem concluded_snoc (log : List Trace) (e : Trace) :
    concluded (log ++ [e]) = Trace.concludes (concluded log) e := List.foldl_concat ..

theorem concluded_did_iff {log : List Trace} {outs : List Out} :
    concluded (log ++ outs.map .did) = true ↔
      concluded log = true ∨ ∃ offer, .conclude offer ∈ outs := by
  induction outs using List.reverseRecOn with
  | nil => simp
  | append_singleton outs o ih =>
    rw [List.map_append, ← List.append_assoc, List.map_singleton, concluded_snoc]
    cases o <;> simp [Trace.concludes, ih]

/-- As long as the local MAC is that of a peer, no input reports that peer as failed. -/
def KeepsLocalPeer (c : Controller) (i : ControllerInput) : Prop :=
  ∀ s, c.state = some (.negotiating s) → s.localMac ∈ s.peers.keys →
    ∀ j, i.negotiating? = some j → s.failing j ≠ some s.localMac

/-- The table of the `StateNegotiating` there is, if any, before it has found all offers equal. -/
def TableWellFormed (c : Controller) (log : List Trace) : Prop :=
  ∀ s, c.state = some (.negotiating s) → concluded log = false → s.WellFormed

section Runs

variable {ser : ISerializer}

/-- Either constructor leaves a table. -/
theorem tabled_entry (round : UInt32) (peers : Peers) (localMac : Str) (entry : Entry) :
    Tabled (entry.construct ser round peers localMac).1.state := by
  have hplain := tabled_construct round peers localMac
  cases entry with
  | plain => exact hplain
  | withOffer sender message =>
    let n := (Negotiation.construct round peers localMac).1
    show Tabled (n.onMessageReceived ser sender message).1.state
    rcases tabled_move (n.onMessageReceived_move ser sender message) hplain fun _ he =>
      nomatch @failing_of_erased ser n (.event (.messageReceived sender message)) _ he with hc | ht
    · obtain ⟨offer, hc⟩ := hc
      unfold Negotiation.onMessageReceived at hc
      dsimp only at hc
      split at hc
      · split at hc <;> simp at hc
      · exact absurd hc List.not_mem_nil
    · exact ht

/-- What is left behind the end of the loop has no peers. -/
theorem concluded_step {c : Controller} {log : List Trace} (i : ControllerInput)
    (h : ∀ s, c.state = some (.negotiating s) → concluded log = true → s.peers.elems = []) :
    ∀ s, ((controller ser).step c i).1.state = some (.negotiating s) →
      concluded (log ++ ((controller ser).step c i).2) = true → s.peers.elems = [] := by
  intro s' hs' hconcluded
  rcases negotiating_origin hs' with ⟨hs, hlog⟩ | ⟨s, j, hs, hj, rfl, hlog⟩ |
    ⟨entry, peers, localMac, log', _, hlog⟩
  · rw [hlog, List.append_nil] at hconcluded
    exact h s' hs hconcluded
  · rw [hlog, concluded_did_iff] at hconcluded
    have hmove := step_move ser ⟨c.round, s⟩ j
    rcases hconcluded with hbefore | ⟨offer, hoffer⟩
    · refine List.eq_nil_iff_forall_not_mem.mpr fun device hd => ?_
      have hpeer := hmove.peers device hd
      rw [h s hs hbefore] at hpeer
      exact absurd hpeer List.not_mem_nil
    · obtain ⟨_, lo, _, _, hr⟩ := hmove.ends hoffer trivial
      rw [hr]
      rfl
  · rw [hlog, ← List.append_assoc, concluded_snoc] at hconcluded
    exact nomatch hconcluded

/-- **A step keeps the table**, when it reports no failure of the local MAC. -/
theorem tabled_step {c : Controller} {log : List Trace} {i : ControllerInput}
    (hkeeps : KeepsLocalPeer c i)
    (h : ∀ s, c.state = some (.negotiating s) → concluded log = false → Tabled s) :
    ∀ s, ((controller ser).step c i).1.state = some (.negotiating s) →
      concluded (log ++ ((controller ser).step c i).2) = false → Tabled s := by
  intro s' hs' hopen
  rcases negotiating_origin hs' with ⟨hs, hlog⟩ | ⟨s, j, hs, hj, rfl, hlog⟩ |
    ⟨entry, peers, localMac, log', rfl, _⟩
  · rw [hlog, List.append_nil] at hopen
    exact h s' hs hopen
  · rw [hlog, ← Bool.not_eq_true, concluded_did_iff, not_or, Bool.not_eq_true] at hopen
    exact (tabled_move (step_move ser ⟨c.round, s⟩ j) (h s hs hopen.1) fun hpeer he =>
      hkeeps s hs hpeer j hj (failing_of_erased he)).resolve_left hopen.2
  · exact tabled_entry c.round peers localMac entry

theorem initial_not_negotiating (s : StateNegotiating) :
    Controller.initial.state ≠ some (.negotiating s) := nofun

theorem concluded_run (is : List ControllerInput) :
    ∀ s, ((controller ser).exec .initial is).state = some (.negotiating s) →
      concluded ((controller ser).outs .initial is) = true → s.peers.elems = [] :=
  Machine.log_invariant (M := controller ser) (l := [])
    (P := fun c log => ∀ s, c.state = some (.negotiating s) → concluded log = true →
      s.peers.elems = [])
    (fun _ _ i h => concluded_step i h) (fun s hs => absurd hs (initial_not_negotiating s)) is

theorem tabled_run {is : List ControllerInput}
    (hkeeps : (controller ser).Along KeepsLocalPeer .initial is) :
    ∀ s, ((controller ser).exec .initial is).state = some (.negotiating s) →
      concluded ((controller ser).outs .initial is) = false → Tabled s :=
  Machine.log_invariant_along (l := [])
    (P := fun c log => ∀ s, c.state = some (.negotiating s) → concluded log = false → Tabled s)
    (fun _ _ _ hkeeps h => tabled_step hkeeps h) hkeeps
    fun s hs => absurd hs (initial_not_negotiating s)

/-- A failure of the peer with the local MAC leaves no local offer. -/
theorem not_wellFormed_of_failing {c : Controller} {log : List Trace} {s : StateNegotiating}
    (hs : c.state = some (.negotiating s)) (hopen : concluded log = false) {i : ControllerInput}
    {j : NegotiatingInput} (hj : i.negotiating? = some j) (hpeer : s.localMac ∈ s.peers.keys)
    (hfailing : s.failing j = some s.localMac) :
    ¬ TableWellFormed ((controller ser).step c i).1 (log ++ ((controller ser).step c i).2) := by
  intro h
  obtain ⟨hlocal, hoffers, hconclude⟩ := @step_failing ser ⟨c.round, s⟩ j s.localMac hpeer hfailing
  rw [step_negotiating ser hs hj] at h
  have hkeys := (h _ rfl (Bool.not_eq_true _ ▸ fun he => by
    rcases concluded_did_iff.mp he with hlog | ⟨offer, hoffer⟩
    · exact Bool.false_ne_true (hopen.symm.trans hlog)
    · exact hconclude offer hoffer)).keys s.localMac
  rw [hoffers, hlocal] at hkeys
  exact (OrdMap.mem_keys_erase.mp (hkeys.mpr (Or.inl rfl))).2 rfl

/-- **The table of offers** is well formed at every point of a run at which the negotiation goes on
    exactly when no input of the run reports a failure of a peer whose MAC is the local one. -/
theorem offers_well_formed_iff (ser : ISerializer) (is : List ControllerInput) :
    (∀ is₁, is₁ <+: is → TableWellFormed ((controller ser).exec .initial is₁)
      ((controller ser).outs .initial is₁)) ↔
    (controller ser).Along KeepsLocalPeer .initial is := by
  constructor
  · intro h
    refine Machine.along_of_split _ fun is₁ i is₂ hsplit s hs hpeer j hj hfailing => ?_
    have hopen : concluded ((controller ser).outs .initial is₁) = false := by
      refine Bool.not_eq_true _ ▸ fun hconcluded => ?_
      obtain ⟨device, hdevice, _⟩ := KeySet.mem_keys_iff.mp hpeer
      rw [concluded_run is₁ s hs hconcluded] at hdevice
      exact absurd hdevice List.not_mem_nil
    refine @not_wellFormed_of_failing ser _ _ _ hs hopen _ _ hj hpeer hfailing ?_
    have hafter := h (is₁ ++ [i]) ⟨is₂, by rw [hsplit, List.append_assoc]; rfl⟩
    rwa [Machine.exec_snoc, Machine.outs_snoc] at hafter
  · rintro hkeeps is₁ ⟨is₂, rfl⟩ s hs hopen
    exact StateNegotiating.wellFormed_of_keys
      (tabled_run ((Machine.along_append _).mp hkeeps).1 s hs hopen).keys

end Runs

/-- A peer "B" that greets with its own MAC. -/
def deviceB : Device := ⟨"b".toList, "B".toList⟩

/-- A game is requested, and "B" connects. -/
def connectB : List ControllerInput :=
  [.start, .fire, .event .newGame id, .event .bluetoothOn id, .fire,
    .event (.deviceConnected deviceB) id]

/-- "B" has connected, and has not greeted yet. -/
def connectedB : StateConnecting where
  discovering := none
  listening := none
  localMac := none
  peers := ⟨[deviceB], List.nodup_singleton _⟩
  retryStart := none
  discovery := some (.asking 2)
  listen := some (.asking 2)
  hellos := [⟨"B".toList, 10, false⟩]
  closes := []

/-- "B" says that the local MAC is "B". -/
def greetingB : ControllerInput :=
  .event (.messageReceived deviceB ((xmlSerializer walkAsIs).serializeHello ⟨"B".toList⟩)) id

/-- The negotiation starts, and "B" fails. -/
def failB : List ControllerInput :=
  [.event .connectivityEstablished id, .fire, .event (.socketReadFailure deviceB) id]

theorem xmlSerializer_hello_b : (xmlSerializer walkAsIs).deserialize
    ((xmlSerializer walkAsIs).serializeHello ⟨"B".toList⟩) = .ok (.hello ⟨"B".toList⟩) :=
  xmlSerializer_hello walkAsIs ⟨by decide, by decide, Or.inr ⟨'B', by decide, by decide⟩⟩

theorem step_greetingB : (controller (xmlSerializer walkAsIs)).step
    ((controller (xmlSerializer walkAsIs)).exec .initial connectB) greetingB =
      (⟨true, some (.connecting { connectedB with localMac := some "B".toList }), [], 0⟩, []) :=
  @step_greeting _ ⟨true, some (.connecting connectedB), [], 0⟩ connectedB rfl deviceB
    (List.mem_singleton.mpr rfl) rfl _ _ xmlSerializer_hello_b id

/-- "B" says that the local MAC is "A". -/
def greetingA : ControllerInput :=
  .event (.messageReceived deviceB ((xmlSerializer walkAsIs).serializeHello ⟨"A".toList⟩)) id

theorem step_greetingA : (controller (xmlSerializer walkAsIs)).step
    ((controller (xmlSerializer walkAsIs)).exec .initial connectB) greetingA =
      (⟨true, some (.connecting { connectedB with localMac := some "A".toList }), [], 0⟩, []) :=
  @step_greeting _ ⟨true, some (.connecting connectedB), [], 0⟩ connectedB rfl deviceB
    (List.mem_singleton.mpr rfl) rfl _ _
    (xmlSerializer_hello walkAsIs ⟨by decide, by decide, Or.inr ⟨'A', by decide, by decide⟩⟩) id

/-- The table is empty, and the loop looks for the local offer. -/
theorem offers_well_formed_fails :
    ¬ TableWellFormed
      ((controller (xmlSerializer walkAsIs)).exec .initial (connectB ++ greetingB :: failB))
      ((controller (xmlSerializer walkAsIs)).outs .initial (connectB ++ greetingB :: failB)) ∧
    .did (.undefined .endIterator) ∈ (controller (xmlSerializer walkAsIs)).outs .initial
      (connectB ++ greetingB :: failB ++ [.resume (.negotiating (.start .ok))]) := by
  constructor
  · intro h
    rw [Machine.exec_append, Machine.exec_cons, Machine.outs_append, Machine.outs_cons,
      step_greetingB] at h
    have hnonempty := (h _ rfl (by decide)).nonempty
    exact hnonempty rfl
  · rw [List.append_assoc, Machine.outs_append, List.cons_append, Machine.outs_cons,
      step_greetingB]
    refine List.mem_append_right _ (List.mem_append_right _ ?_)
    exact List.mem_of_getElem? (i := 7) rfl

end Veridie.Fsm
