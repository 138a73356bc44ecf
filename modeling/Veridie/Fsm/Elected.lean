/-
  File:      Veridie/Fsm/Elected.lean
  Subject:   When the generator a negotiation ends with is a member of the game it starts.

  The nominee of the local offer is chosen from the peers of that moment. A peer can be erased
  before all offers are found equal, by a read failure or by the answer to an offer sent to it, and
  the offers of the others may still name it.

  * `Watch` -- what the log of a run says of the nominee;
  * `Watched` -- how the state agrees with it; `watched_move` -- every move keeps that;
  * `elected_member_iff` -- the generator is a member exactly when the nominee was not erased.
-/
import Veridie.Fsm.Negotiating
import Veridie.Fsm.Playing
import Veridie.Dice.RoundTrip

namespace Veridie.Fsm

open Veridie.Lib Veridie.Dice Veridie.Sign

/-! ## 1. The game a generator is passed to -/

/-- The generator is the local node or a peer, the new `StatePlaying` marks that one and no other,
    and the name shown is its name. -/
structure GeneratorIsMember (peers : Peers) (localMac generatorMac name : Str) : Prop where
  member : generatorMac = localMac ∨ generatorMac ∈ peers.keys
  marked :
    ((StatePlaying.construct peers localMac generatorMac).localGenerator = true ∧
      (StatePlaying.construct peers localMac generatorMac).managers.elems.countP
        (fun m => m.isGenerator) = 0) ∨
    ((StatePlaying.construct peers localMac generatorMac).localGenerator = false ∧
      (StatePlaying.construct peers localMac generatorMac).managers.elems.countP
        (fun m => m.isGenerator) = 1)
  named : (generatorMac = localMac ∧ name = "You".toList) ∨
    (generatorMac ≠ localMac ∧ ∃ device ∈ peers.elems,
      device.mac = generatorMac ∧ name = device.name)

/-- The managers marked as the generator: the device of that MAC, unless the local node is it. -/
theorem countP_isGenerator (peers : Peers) (localMac generatorMac : Str) :
    (StatePlaying.construct peers localMac generatorMac).managers.elems.countP
      (fun m => m.isGenerator) =
    if generatorMac ≠ localMac ∧ generatorMac ∈ peers.keys then 1 else 0 := by
  show (peers.elems.map _).countP _ = _
  rw [List.countP_map]
  by_cases hlocal : localMac = generatorMac
  · rw [if_neg fun h => h.1 hlocal.symm, List.countP_eq_zero]
    intro device _
    simp [hlocal]
  · have hcount := KeySet.countP_key peers generatorMac
    rw [List.countP_congr (q := fun device => device.mac = generatorMac)
      fun device _ => by simp [hlocal], hcount]
    by_cases hpeer : generatorMac ∈ peers.keys
    · rw [if_pos hpeer, if_pos ⟨fun h => hlocal h.symm, hpeer⟩]
    · rw [if_neg hpeer, if_neg fun h => hpeer h.2]

/-- A member is marked, and alone. -/
theorem marked_of_member {peers : Peers} {localMac generatorMac : Str}
    (h : generatorMac = localMac ∨ generatorMac ∈ peers.keys) :
    ((StatePlaying.construct peers localMac generatorMac).localGenerator = true ∧
      (StatePlaying.construct peers localMac generatorMac).managers.elems.countP
        (fun m => m.isGenerator) = 0) ∨
    ((StatePlaying.construct peers localMac generatorMac).localGenerator = false ∧
      (StatePlaying.construct peers localMac generatorMac).managers.elems.countP
        (fun m => m.isGenerator) = 1) := by
  rw [countP_isGenerator]
  by_cases hlocal : generatorMac = localMac
  · exact Or.inl ⟨decide_eq_true hlocal.symm, if_neg fun h => h.1 hlocal⟩
  · exact Or.inr ⟨decide_eq_false fun e => hlocal e.symm, if_pos ⟨hlocal, h.resolve_left hlocal⟩⟩

/-! ## 2. The nominee, followed along the log -/

/-- The nominee of the last local offer computed, and whether it has been erased since. -/
structure Watch where
  nominee : Str
  lost : Bool

/-- One more output. -/
def Watch.see (w : Watch) : Out → Watch
  | .update offer => ⟨offer.mac, false⟩
  | .erased mac => if mac = w.nominee then ⟨w.nominee, true⟩ else w
  | _ => w

/-- What a log says. -/
def watch (log : List Out) : Watch := log.foldl Watch.see ⟨[], false⟩

theorem watch_append (log outs : List Out) :
    watch (log ++ outs) = outs.foldl Watch.see (watch log) := List.foldl_append

theorem see_quiet {w : Watch} {o : Out} (h : Negotiation.Quiet o) : w.see o = w := by
  cases o with
  | update offer => exact h.elim
  | erased mac => exact h.elim
  | _ => rfl

theorem foldl_quiet {w : Watch} : ∀ {outs : List Out}, (∀ o ∈ outs, Negotiation.Quiet o) →
    outs.foldl Watch.see w = w
  | [], _ => rfl
  | o :: outs, h => by
      rw [List.foldl_cons, see_quiet (h o List.mem_cons_self)]
      exact foldl_quiet fun o' ho' => h o' (List.mem_cons_of_mem o ho')

/-- The offers sent say nothing of the nominee. -/
theorem foldl_sends {w : Watch} (message : Str) : ∀ (devices : List Device),
    (devices.map fun remote => Out.issue (.sendMessage message remote.mac)).foldl Watch.see w = w
  | [] => rfl
  | _ :: devices => foldl_sends message devices

/-! ## 3. The state and the watch -/

/-- There is an offer for the local MAC and for every peer and no other; the local one names the
    nominee; the nominee is a member until it is lost. -/
structure Watched (localMac : Str) (n : Negotiation) (w : Watch) : Prop where
  localMac_eq : n.state.localMac = localMac
  notPeer : localMac ∉ n.state.peers.keys
  notSent : ∀ task ∈ n.state.sends, task.receiver.mac ≠ localMac
  keys : ∀ x, x ∈ n.state.offers.keys ↔ x = localMac ∨ x ∈ n.state.peers.keys
  stored : ∃ lo, n.state.offers.find? localMac = some lo ∧ lo.mac = w.nominee
  member : (w.nominee = localMac ∨ w.nominee ∈ n.state.peers.keys) ↔ w.lost = false

theorem watched_construct (round : UInt32) {peers : Peers} {localMac : Str}
    (h : localMac ∉ peers.keys) :
    Watched localMac (Negotiation.construct round peers localMac).1
      (watch (Negotiation.construct round peers localMac).2) := by
  obtain ⟨offers, mac, heq, hkeys, hlocal, _, hmac⟩ :=
    Negotiation.construct_spec round peers localMac
  rw [heq]
  exact {
    localMac_eq := rfl
    notPeer := h
    notSent := fun task ht => absurd ht List.not_mem_nil
    keys := hkeys
    stored := ⟨_, hlocal, rfl⟩
    member := ⟨fun _ => rfl, fun _ => (hkeys mac).mp (getLocalOfferMac_mem hmac)⟩ }

section Moves

variable {ser : ISerializer} {localMac : Str} {n : Negotiation} {w : Watch}

theorem Watched.stored_offer (h : Watched localMac n w) {mac : Str} (offer : Offer)
    (hmac : mac ∈ n.state.peers.keys) :
    Watched localMac
      ⟨n.round, { n.state with offers := n.state.offers.insert mac offer }⟩ w where
  localMac_eq := h.localMac_eq
  notPeer := h.notPeer
  notSent := h.notSent
  keys := fun x => by
    rw [OrdMap.keys_insert_of_mem offer ((h.keys mac).mpr (Or.inr hmac))]
    exact h.keys x
  stored := by
    obtain ⟨lo, hlo, hw⟩ := h.stored
    have hne : localMac ≠ mac := fun e => h.notPeer (e ▸ hmac)
    exact ⟨lo, (OrdMap.find?_insert_ne _ offer hne).trans hlo, hw⟩
  member := h.member

theorem Watched.erased_peer (h : Watched localMac n w) {mac : Str} {sends : List SendOfferTask}
    {closes : List Str}
    (hmac : mac ∈ n.state.peers.keys ∨ ∃ task ∈ n.state.sends, task.receiver.mac = mac)
    (hsends : Negotiation.SendsWithin n.state.sends sends) :
    Watched localMac
      ⟨n.round, { n.state with
        peers := n.state.peers.erase mac
        offers := n.state.offers.erase mac
        sends := sends
        closes := closes }⟩
      ((if mac ∈ n.state.peers.keys then [.erased mac] else []).foldl Watch.see w) := by
  have hne : mac ≠ localMac := by
    rcases hmac with hmac | ⟨task, ht, hmac⟩
    · exact fun e => h.notPeer (e ▸ hmac)
    · exact fun e => h.notSent task ht (hmac.trans e)
  have hkeys : ∀ x, x ∈ (n.state.offers.erase mac).keys ↔
      x = localMac ∨ x ∈ (n.state.peers.erase mac).keys := fun x => by
    rw [OrdMap.mem_keys_erase, KeySet.mem_keys_erase, h.keys x]
    constructor
    · rintro ⟨hx, hxm⟩
      exact hx.imp id fun hx => ⟨hx, hxm⟩
    · rintro (rfl | ⟨hx, hxm⟩)
      · exact ⟨Or.inl rfl, hne.symm⟩
      · exact ⟨Or.inr hx, hxm⟩
  have hnominee : ((if mac ∈ n.state.peers.keys then [Out.erased mac] else []).foldl
      Watch.see w).nominee = w.nominee := by
    split
    · show (if mac = w.nominee then (⟨w.nominee, true⟩ : Watch) else w).nominee = w.nominee
      split <;> rfl
    · rfl
  obtain ⟨lo, hlo, hw⟩ := h.stored
  refine ⟨h.localMac_eq, fun hx => h.notPeer (KeySet.mem_keys_erase.mp hx).1, ?_, hkeys,
    ⟨lo, (OrdMap.find?_erase_ne _ hne.symm).trans hlo, hw.trans hnominee.symm⟩, ?_⟩
  · intro task ht
    obtain ⟨task', ht', hr⟩ := hsends task ht
    rw [← hr]
    exact h.notSent task' ht'
  · rw [hnominee]
    show w.nominee = localMac ∨ w.nominee ∈ (n.state.peers.erase mac).keys ↔ _
    rw [KeySet.mem_keys_erase]
    by_cases hpeer : mac ∈ n.state.peers.keys
    · rw [if_pos hpeer]
      show _ ↔ (if mac = w.nominee then (⟨w.nominee, true⟩ : Watch) else w).lost = false
      by_cases heq : mac = w.nominee
      · rw [if_pos heq]
        constructor
        · rintro (hx | ⟨_, hx⟩)
          · exact absurd (heq.trans hx) hne
          · exact absurd heq.symm hx
        · exact fun hx => nomatch hx
      · rw [if_neg heq, ← h.member]
        exact or_congr_right ⟨fun hx => hx.1, fun hx => ⟨hx, fun e => heq e.symm⟩⟩
    · rw [if_neg hpeer]
      show _ ↔ w.lost = false
      rw [← h.member]
      exact or_congr_right ⟨fun hx => hx.1, fun hx => ⟨hx, fun e => hpeer (e ▸ hx)⟩⟩

theorem Watched.broadcast (h : Watched localMac n w) {round : UInt32} {mac : Str}
    (hmac : mac ∈ n.state.offers.keys) :
    Watched localMac (n.broadcast ser round mac).1
      ((n.broadcast ser round mac).2.foldl Watch.see w) := by
  have hw : (n.broadcast ser round mac).2.foldl Watch.see w = ⟨mac, false⟩ :=
    foldl_sends _ n.state.peers.elems
  rw [hw]
  refine ⟨h.localMac_eq, h.notPeer, ?_, ?_, ⟨⟨mac, round⟩, ?_, rfl⟩, ?_⟩
  · intro task ht
    rcases List.mem_append.mp ht with ht | ht
    · exact h.notSent task ht
    · obtain ⟨remote, hr, rfl⟩ := List.mem_map.mp ht
      exact fun e => h.notPeer (e ▸ KeySet.mem_keys_of_mem hr)
  · intro x
    show x ∈ (n.state.offers.insert n.state.localMac ⟨mac, round⟩).keys ↔ _
    rw [h.localMac_eq, OrdMap.keys_insert_of_mem _ ((h.keys localMac).mpr (Or.inl rfl))]
    exact h.keys x
  · show (n.state.offers.insert n.state.localMac ⟨mac, round⟩).find? localMac = _
    rw [h.localMac_eq]
    exact OrdMap.find?_insert_self _ _ _
  · exact ⟨fun _ => rfl, fun _ => (h.keys mac).mp hmac⟩

/-- **Every move keeps the watch**, until the loop has ended. -/
theorem watched_move {i : NegotiatingInput} {r : Negotiation × List Out}
    (hmove : Negotiation.Move ser n i r) (h : n.state.task = .done ∨ Watched localMac n w) :
    r.1.state.task = .done ∨ Watched localMac r.1 (r.2.foldl Watch.see w) := by
  rcases h with hdone | h
  · exact Or.inl (hmove.done hdone)
  · cases hmove with
    | idle task sends closes outs htask hsends houts =>
      rw [foldl_quiet houts]
      refine Or.inr ⟨h.localMac_eq, h.notPeer, fun t ht => ?_, h.keys, h.stored, h.member⟩
      obtain ⟨t', ht', e⟩ := hsends t ht
      rw [← e]
      exact h.notSent t' ht'
    | stored sender message offer hinput hpeer hdecoded =>
      exact Or.inr (h.stored_offer offer hpeer)
    | erased mac sends closes outs hmac hsends houts =>
      rw [List.foldl_append, foldl_quiet houts]
      exact Or.inr (h.erased_peer hmac hsends)
    | checked htask =>
      rcases n.check_cases ser with ⟨_, he⟩ | ⟨lo, _, _, he⟩ | ⟨lo, mac, _, _, hmac, he⟩
      · rw [he]
        exact Or.inl rfl
      · rw [he]
        exact Or.inl rfl
      · rw [he]
        exact Or.inr (h.broadcast (getLocalOfferMac_mem hmac))

end Moves

/-! ## 4. Where a run ends in a game -/

section Runs

variable {ser : ISerializer} {round : UInt32} {peers : Peers} {localMac : Str}

theorem watched_run (ser : ISerializer) (round : UInt32) (hlocal : localMac ∉ peers.keys)
    (entry : Entry) (is : List NegotiatingInput) :
    (negotiationAfter ser round peers localMac entry is).state.task = .done ∨
    Watched localMac (negotiationAfter ser round peers localMac entry is)
      (watch (negotiationLog ser round peers localMac entry is)) :=
  negotiation_invariant
    (P := fun n log => n.state.task = .done ∨ Watched localMac n (watch log))
    (Or.inr (watched_construct round hlocal))
    (fun n log i r hmove h => by
      rw [watch_append]
      exact watched_move hmove h) entry is

theorem nomineeName_mem {n : Negotiation} {lo : Offer} {name : Str}
    (hname : .issue (.negotiationStop name) ∈ (n.conclude lo).2) :
    name = match n.state.peers.find? lo.mac with
      | some device => device.name
      | none => "You".toList := by
  rcases List.mem_cons.mp hname with h | h
  · exact Cmd.negotiationStop.inj (Out.issue.inj h)
  · simp at h

/-- The name shown is that of the generator, when the generator is a member. -/
theorem named_of_member {n : Negotiation} {lo : Offer} {name localMac : Str}
    (hlocal : localMac ∉ n.state.peers.keys) (h : lo.mac = localMac ∨ lo.mac ∈ n.state.peers.keys)
    (hname : .issue (.negotiationStop name) ∈ (n.conclude lo).2) :
    (lo.mac = localMac ∧ name = "You".toList) ∨
      (lo.mac ≠ localMac ∧ ∃ device ∈ n.state.peers.elems,
        device.mac = lo.mac ∧ name = device.name) := by
  have hn := nomineeName_mem hname
  rcases h with hmac | hmac
  · rw [hmac, KeySet.find?_none.mpr hlocal] at hn
    exact Or.inl ⟨hmac, hn⟩
  · obtain ⟨device, hdevice⟩ := KeySet.exists_find? hmac
    rw [hdevice] at hn
    obtain ⟨hmem, hkey⟩ := KeySet.find?_some.mp hdevice
    exact Or.inr ⟨fun e => hlocal (e ▸ hmac), device, hmem, hkey, hn⟩

/-- **The elected generator.** Where a run from either constructor starts a game, the generator is
    a member of it exactly when the nominee of the local offer has not been erased since that offer
    was computed. -/
theorem elected_member_iff (ser : ISerializer) (round : UInt32) {peers : Peers} {localMac : Str}
    (hlocal : localMac ∉ peers.keys) (entry : Entry) (is : List NegotiatingInput)
    (i : NegotiatingInput) {peers' : Peers} {mac generatorMac name : Str}
    (hswitch : .switch (.playing peers' mac generatorMac) ∈
      ((negotiating ser).step (negotiationAfter ser round peers localMac entry is) i).2)
    (hname : .issue (.negotiationStop name) ∈
      ((negotiating ser).step (negotiationAfter ser round peers localMac entry is) i).2) :
    GeneratorIsMember peers' mac generatorMac name ↔
      (watch (negotiationLog ser round peers localMac entry is)).lost = false := by
  obtain ⟨htask, lo, hlo, _, hr⟩ := (step_move ser _ i).ends hswitch trivial
  rw [hr] at hname hswitch
  obtain ⟨rfl, rfl, rfl⟩ := Negotiation.conclude_switch hswitch
  rcases watched_run ser round hlocal entry is with hdone | h
  · rw [hdone] at htask
    exact htask.elim (fun e => nomatch e) fun e => nomatch e
  · obtain ⟨lo', hlo', hw⟩ := h.stored
    rw [h.localMac_eq] at hlo ⊢
    rw [hlo] at hlo'
    cases hlo'
    rw [← h.member, ← hw]
    exact ⟨fun hg => hg.member,
      fun hm => ⟨hm, marked_of_member hm, named_of_member h.notPeer hm hname⟩⟩

end Runs

/-- Two peers of a node "A". -/
def peersBC : Peers := ⟨[⟨"b".toList, "B".toList⟩, ⟨"c".toList, "C".toList⟩], by decide⟩

/-- The second round of three nodes nominates "C". -/
theorem xmlSerializer_offer_c : (xmlSerializer walkAsIs).deserialize
    ((xmlSerializer walkAsIs).serializeOffer ⟨"C".toList, 2⟩) = .ok (.offer ⟨"C".toList, 2⟩) :=
  xmlSerializer_offer walkAsIs
    ⟨by decide, by decide, Or.inr ⟨'C', by decide, by decide⟩⟩ (by decide)

/-- Both peers agree, and nobody is erased. -/
theorem elected_member_abc :
    GeneratorIsMember peersBC "A".toList "C".toList "c".toList ↔
      (watch (negotiationLog (xmlSerializer walkAsIs) 1 peersBC "A".toList .plain
        [.resume (.start .ok),
          .event (.messageReceived ⟨"b".toList, "B".toList⟩
            ((xmlSerializer walkAsIs).serializeOffer ⟨"C".toList, 2⟩)),
          .event (.messageReceived ⟨"c".toList, "C".toList⟩
            ((xmlSerializer walkAsIs).serializeOffer ⟨"C".toList, 2⟩))])).lost = false := by
  have hrun : ((negotiating (xmlSerializer walkAsIs)).step
      (negotiationAfter (xmlSerializer walkAsIs) 1 peersBC "A".toList .plain
        [.resume (.start .ok),
          .event (.messageReceived ⟨"b".toList, "B".toList⟩
            ((xmlSerializer walkAsIs).serializeOffer ⟨"C".toList, 2⟩)),
          .event (.messageReceived ⟨"c".toList, "C".toList⟩
            ((xmlSerializer walkAsIs).serializeOffer ⟨"C".toList, 2⟩))]) (.resume .tick)).2 =
      [.issue (.negotiationStop "c".toList), .switch (.playing peersBC "A".toList "C".toList),
        .conclude ⟨"C".toList, 2⟩] := by
    unfold negotiationAfter
    rw [Machine.exec_cons, Machine.exec_cons, step_offer (by decide) xmlSerializer_offer_c,
      Machine.exec_cons, step_offer (by decide) xmlSerializer_offer_c]
    rfl
  exact elected_member_iff (xmlSerializer walkAsIs) 1 (by decide) .plain _ (.resume .tick)
    (by rw [hrun]; simp) (by rw [hrun]; simp)

/-- "C" is nominated, fails, and is still named by the offer of "B". -/
theorem elected_member_fails : ¬ (∀ (ser : ISerializer) (round : UInt32) (peers : Peers)
    (localMac : Str) (_ : localMac ∉ peers.keys) (entry : Entry) (is : List NegotiatingInput)
    (i : NegotiatingInput) (peers' : Peers) (mac generatorMac name : Str)
    (_ : .switch (.playing peers' mac generatorMac) ∈
      ((negotiating ser).step (negotiationAfter ser round peers localMac entry is) i).2)
    (_ : .issue (.negotiationStop name) ∈
      ((negotiating ser).step (negotiationAfter ser round peers localMac entry is) i).2),
    GeneratorIsMember peers' mac generatorMac name) := by
  intro h
  have hrun : ((negotiating (xmlSerializer walkAsIs)).step
      (negotiationAfter (xmlSerializer walkAsIs) 1 peersBC "A".toList .plain
        [.resume (.start .ok),
          .event (.messageReceived ⟨"b".toList, "B".toList⟩
            ((xmlSerializer walkAsIs).serializeOffer ⟨"C".toList, 2⟩)),
          .event (.socketReadFailure ⟨"c".toList, "C".toList⟩)]) (.resume .tick)).2 =
      [.issue (.negotiationStop "You".toList),
        .switch (.playing (peersBC.erase "C".toList) "A".toList "C".toList),
        .conclude ⟨"C".toList, 2⟩] := by
    unfold negotiationAfter
    rw [Machine.exec_cons, Machine.exec_cons, step_offer (by decide) xmlSerializer_offer_c]
    rfl
  have hmember := (h (xmlSerializer walkAsIs) 1 peersBC "A".toList (by decide) .plain _
    (.resume .tick) (peersBC.erase "C".toList) "A".toList "C".toList "You".toList
    (by rw [hrun]; simp) (by rw [hrun]; simp)).member
  revert hmember
  decide

end Veridie.Fsm
