/-
  File:      Veridie/Fsm/Election.lean
  Subject:   A group of nodes that elect a generator among themselves, each running
             `StateNegotiating` with all the others as its peers.

  Nodes are constructed, answered and woken in any order; an offer sent can be delivered late, more
  than once, or never. Every offer a node makes names the candidate of its round, and no round is
  below the sender's first or above the largest first round. So offers that are all equal can only
  be the candidate of that largest round.

  * `election` -- the group over everything that can happen to it;
  * `Legit` -- what an offer of a member can be; `Live` -- what a node that still negotiates knows;
  * `live_check` -- a round of the loop keeps both, and ends only in the largest round;
  * `election_agreement` -- all nodes that conclude agree on round and generator.
-/
import Veridie.Fsm.Negotiating
import Veridie.Lib.Network
import Veridie.Dice.RoundTrip

namespace Veridie.Fsm

open Veridie.Lib Veridie.Dice Veridie.Sign

/-! ## 1. The group -/

/-- The nodes of an election by their MACs, each with all the others as its peers, and what
    `g_negotiationRound` was before; the constructor's increment does not wrap. -/
structure Group where
  members : List Str
  nodup : members.Nodup
  peers : Str → Peers
  initial : Str → UInt32
  peers_keys : ∀ mac ∈ members, ∀ x, x ∈ (peers mac).keys ↔ x ∈ members ∧ x ≠ mac
  firstRound_pos : ∀ mac ∈ members, 1 ≤ (initial mac + 1).toNat

namespace Group

/-- The round the constructor of a node starts in. -/
def firstRound (g : Group) (mac : Str) : Nat := (g.initial mac + 1).toNat

/-- The largest of the first rounds. -/
def maxRound (g : Group) : Nat := (g.members.map g.firstRound).foldr max 0

/-- The MACs in order. -/
def sorted (g : Group) : List Str := g.members.insertionSort (· ≤ ·)

/-- The generator a round would choose. -/
def candidate (g : Group) (round : Nat) : Option Str := g.sorted[round % g.members.length]?

variable {g : Group}

theorem firstRound_le {mac : Str} (h : mac ∈ g.members) : g.firstRound mac ≤ g.maxRound :=
  List.le_max_of_le (List.mem_map_of_mem h) (Nat.le_refl _)

theorem maxRound_le {b : Nat} (h : ∀ mac ∈ g.members, g.firstRound mac ≤ b) : g.maxRound ≤ b := by
  refine List.max_le_of_forall_le _ b fun r hr => ?_
  obtain ⟨mac, hmac, rfl⟩ := List.mem_map.mp hr
  exact h mac hmac

theorem mem_sorted {mac : Str} : mac ∈ g.sorted ↔ mac ∈ g.members := List.mem_insertionSort _

theorem length_sorted : g.sorted.length = g.members.length := List.length_insertionSort _ _

theorem sorted_pairwise : g.sorted.Pairwise (· < ·) := by
  have hle : g.sorted.Pairwise (· ≤ ·) := List.pairwise_insertionSort (· ≤ ·) g.members
  have hne : g.sorted.Pairwise (· ≠ ·) :=
    (List.perm_insertionSort (· ≤ ·) g.members).nodup_iff.mpr g.nodup
  exact (hle.and hne).imp fun h => lt_of_le_of_ne h.1 h.2

theorem candidate_mem {round : Nat} {mac : Str} (h : g.candidate round = some mac) :
    mac ∈ g.members := mem_sorted.mp (List.mem_of_getElem? h)

/-- Offers for exactly the members are in the order of the members. -/
theorem getLocalOfferMac_eq {offers : Offers} (h : ∀ x, x ∈ offers.keys ↔ x ∈ g.members)
    (round : UInt32) : getLocalOfferMac round offers = g.candidate round.toNat := by
  have hkeys : offers.keys = g.sorted :=
    OrdMap.keys_eq_of_mem_iff offers.keys_pairwise sorted_pairwise fun x =>
      (h x).trans mem_sorted.symm
  unfold getLocalOfferMac candidate
  rw [← offers.length_keys, hkeys, length_sorted]

end Group

/-! ## 2. The election -/

/-- What can happen in the group. -/
inductive ElectionInput where
  | construct (mac : Str)
  /-- the answer of `NegotiationStart` -/
  | start (mac : Str) (r : ResponseCode)
  /-- the timer behind a broadcast -/
  | tick (mac : Str)
  /-- the answer to an offer sent, unless it says that the peer is gone -/
  | answer (mac : Str) (i : Nat) (r : ResponseCode)
  /-- a message sent arrives -/
  | deliver (k : Nat) (name : Str)

/-- The nodes of the group, and the offers on their way. -/
abbrev ElectionState := Network Str Negotiation Str

/-- What a node sends. -/
def sends : Out → Option (Str × Str)
  | .issue (.sendMessage message mac) => some (mac, message)
  | _ => none

/-- The group over everything that can happen to it. -/
def election (ser : ISerializer) (g : Group) : Machine ElectionState ElectionInput (Str × Out) where
  step w i :=
    match i with
    | .construct mac =>
      if mac ∈ g.members ∧ (w.nodes mac).isNone then
        w.act sends mac (Negotiation.construct (g.initial mac) (g.peers mac) mac)
      else (w, [])
    | .start mac r => w.input (negotiating ser) sends mac (.resume (.start r))
    | .tick mac => w.input (negotiating ser) sends mac (.resume .tick)
    | .answer mac i r =>
      if r = .socketError ∨ r = .connectionNotFound then (w, [])
      else w.input (negotiating ser) sends mac (.resume (.send i r))
    | .deliver k name =>
      match w.sent[k]? with
      | some p => w.input (negotiating ser) sends p.receiver (.event (.messageReceived ⟨name, p.sender⟩ p.payload))
      | none => (w, [])

/-! ## 3. What offers can be, and what a node knows -/

/-- An offer a member can make. -/
structure Legit (g : Group) (mac : Str) (offer : Offer) : Prop where
  member : mac ∈ g.members
  candidate : g.candidate offer.round.toNat = some offer.mac
  first : g.firstRound mac ≤ offer.round.toNat
  bound : offer.round.toNat ≤ g.maxRound

/-- A node that negotiates: its own offer is legitimate and of its round; of every peer it has the
    placeholder or an offer the peer made. -/
structure Live (g : Group) (mac : Str) (n : Negotiation) : Prop where
  localMac_eq : n.state.localMac = mac
  peers : ∀ x, x ∈ n.state.peers.keys ↔ x ∈ g.members ∧ x ≠ mac
  keys : ∀ x, x ∈ n.state.offers.keys ↔ x ∈ g.members
  own : ∃ lo, n.state.offers.find? mac = some lo ∧ lo.round = n.round ∧ Legit g mac lo
  others : ∀ x ∈ g.members, x ≠ mac → ∃ o, n.state.offers.find? x = some o ∧
    (o = ⟨[], 0⟩ ∨ Legit g x o)
  sends : ∀ task ∈ n.state.sends, task.closing = false

/-- What the end of a loop says. -/
def Agreed (g : Group) (mac : Str) : Out → Prop
  | .conclude lo => lo.round.toNat = g.maxRound ∧ g.candidate g.maxRound = some lo.mac
  | .switch (.playing _ localMac generatorMac) =>
    localMac = mac ∧ g.candidate g.maxRound = some generatorMac
  | _ => True

/-- What a step of a node may leave and put out: it still negotiates or has ended, its messages are
    offers it can make, and where the loop ends, the round is the largest one. -/
structure Sound (ser : ISerializer) (g : Group) (mac : Str) (r : Negotiation × List Out) : Prop where
  node : r.1.state.task = .done ∨ Live g mac r.1
  sent : ∀ message receiver, .issue (.sendMessage message receiver) ∈ r.2 →
    ∃ o, message = ser.serializeOffer o ∧ Legit g mac o
  agreed : ∀ o ∈ r.2, Negotiation.EndsLoop o →
    Agreed g mac o ∧ r.1.state.task = .done ∧ r.1.round.toNat = g.maxRound

section Node

variable {ser : ISerializer} {g : Group} {mac : Str} {n : Negotiation}

/-- A step that puts out nothing. -/
theorem Sound.silent {n : Negotiation} (h : n.state.task = .done ∨ Live g mac n) :
    Sound ser g mac (n, []) :=
  ⟨h, fun _ _ h => absurd h List.not_mem_nil, fun _ h => absurd h List.not_mem_nil⟩

theorem live_construct (hmac : mac ∈ g.members) :
    Live g mac (Negotiation.construct (g.initial mac) (g.peers mac) mac).1 := by
  obtain ⟨offers, nominee, heq, hkeys, hlocal, hothers, hnominee⟩ :=
    Negotiation.construct_spec (g.initial mac) (g.peers mac) mac
  have hmembers : ∀ x, x ∈ offers.keys ↔ x ∈ g.members := fun x => by
    rw [hkeys, g.peers_keys mac hmac]
    by_cases hx : x = mac
    · exact ⟨fun _ => hx ▸ hmac, fun _ => Or.inl hx⟩
    · exact ⟨fun h => (h.resolve_left hx).1, fun h => Or.inr ⟨h, hx⟩⟩
  rw [Group.getLocalOfferMac_eq hmembers] at hnominee
  rw [heq]
  exact {
    localMac_eq := rfl
    peers := g.peers_keys mac hmac
    keys := hmembers
    own := ⟨_, hlocal, rfl, hmac, hnominee, Nat.le_refl _, Group.firstRound_le hmac⟩
    others := fun x hx hne =>
      ⟨_, hothers x ((g.peers_keys mac hmac x).mpr ⟨hx, hne⟩) hne, Or.inl rfl⟩
    sends := fun task ht => absurd ht List.not_mem_nil }

/-- The constructor makes no offer to others. -/
theorem sound_construct (hmac : mac ∈ g.members) :
    Sound ser g mac (Negotiation.construct (g.initial mac) (g.peers mac) mac) := by
  refine ⟨Or.inr (live_construct hmac), fun message receiver h => ?_, fun o h he => ?_⟩
  · simp [Negotiation.construct] at h
  · rcases List.mem_cons.mp h with rfl | h
    · exact he.elim
    · rw [List.mem_singleton.mp h] at he
      exact he.elim

/-- An offer stored is one a member has made. -/
theorem Live.entry (h : Live g mac n) {e : Str × Offer} (he : e ∈ n.state.offers.entries) :
    e.2 = ⟨[], 0⟩ ∨ Legit g e.1 e.2 := by
  have hfind : n.state.offers.find? e.1 = some e.2 := OrdMap.mem_entries_iff.mp he
  by_cases hx : e.1 = mac
  · obtain ⟨lo, hlo, _, hlegit⟩ := h.own
    rw [hx, hlo] at hfind
    cases hfind
    exact Or.inr (hx ▸ hlegit)
  · obtain ⟨o, ho, hlegit⟩ := h.others e.1 ((h.keys e.1).mp (OrdMap.mem_keys_of_find? hfind)) hx
    rw [hfind] at ho
    cases ho
    exact hlegit

/-- The largest round a node knows of is the round of none but a member. -/
theorem Live.maxRound_bound (h : Live g mac n) :
    n.round.toNat ≤ (Negotiation.maxRound n.round n.state.offers).toNat ∧
    (Negotiation.maxRound n.round n.state.offers).toNat ≤ g.maxRound := by
  refine ⟨(Negotiation.le_maxRound _ _).1, Negotiation.maxRound_le ?_ fun e he => ?_⟩
  · obtain ⟨lo, _, hround, hlegit⟩ := h.own
    rw [← hround]
    exact hlegit.bound
  · rcases h.entry he with h0 | hlegit
    · rw [h0]
      exact Nat.zero_le _
    · exact hlegit.bound

/-- **Equal offers are those of the largest round**: every member has made one, so none of their
    first rounds is larger. -/
theorem Live.concluded (h : Live g mac n) {lo : Offer} (hlo : n.state.offers.find? mac = some lo)
    (hall : Negotiation.AllOffersEqual n.state.offers lo) : lo.round.toNat = g.maxRound := by
  obtain ⟨lo', hlo', _, hlegit⟩ := h.own
  rw [hlo] at hlo'
  cases hlo'
  refine Nat.le_antisymm hlegit.bound (Group.maxRound_le fun x hx => ?_)
  by_cases hxm : x = mac
  · rw [hxm]
    exact hlegit.first
  · obtain ⟨o, ho, hor⟩ := h.others x hx hxm
    have heq : o = lo := hall (x, o) (OrdMap.mem_entries_iff.mpr ho)
    rw [heq] at hor
    rcases hor with h0 | hx
    · have hfirst := hlegit.first
      have hpos := g.firstRound_pos mac hlegit.member
      rw [h0] at hfirst
      exact absurd (Nat.le_trans hpos hfirst) (by decide)
    · exact hx.first

/-- The rest of a round: the offer of the new round is legitimate, and goes to the others. -/
theorem Live.broadcast (h : Live g mac n) {nominee : Str}
    (hnominee : getLocalOfferMac (Negotiation.maxRound n.round n.state.offers) n.state.offers =
      some nominee) :
    Sound ser g mac
      (n.broadcast ser (Negotiation.maxRound n.round n.state.offers) nominee) := by
  obtain ⟨lo, hlo, hround, hown⟩ := h.own
  rw [Group.getLocalOfferMac_eq h.keys] at hnominee
  have hnew : Legit g mac ⟨nominee, Negotiation.maxRound n.round n.state.offers⟩ :=
    ⟨hown.member, hnominee, (hround ▸ hown.first).trans h.maxRound_bound.1, h.maxRound_bound.2⟩
  have hkeys : ∀ offer, (n.state.offers.insert n.state.localMac offer).keys = n.state.offers.keys :=
    fun offer => OrdMap.keys_insert_of_mem offer (h.localMac_eq ▸ (h.keys mac).mpr hown.member)
  refine ⟨Or.inr ⟨h.localMac_eq, h.peers, fun x => ?_, ⟨_, ?_, rfl, hnew⟩, fun x hx hne => ?_, ?_⟩,
    fun message receiver hm => ⟨_, ?_, hnew⟩, fun o ho he => ?_⟩
  · show x ∈ (n.state.offers.insert n.state.localMac _).keys ↔ _
    rw [hkeys]
    exact h.keys x
  · show (n.state.offers.insert n.state.localMac _).find? mac = _
    rw [h.localMac_eq]
    exact OrdMap.find?_insert_self _ _ _
  · obtain ⟨o, ho, hor⟩ := h.others x hx hne
    exact ⟨o, (OrdMap.find?_insert_ne _ _ (h.localMac_eq ▸ hne)).trans ho, hor⟩
  · intro task ht
    rcases List.mem_append.mp ht with ht | ht
    · exact h.sends task ht
    · obtain ⟨remote, _, rfl⟩ := List.mem_map.mp ht
      rfl
  · rcases List.mem_cons.mp hm with hm | hm
    · exact nomatch hm
    · obtain ⟨remote, _, he⟩ := List.mem_map.mp hm
      cases he
      rfl
  · rcases List.mem_cons.mp ho with rfl | ho
    · exact he.elim
    · obtain ⟨remote, _, rfl⟩ := List.mem_map.mp ho
      exact he.elim

/-- **A round of the loop is sound.** -/
theorem live_check (h : Live g mac n) : Sound ser g mac (n.updateAndBroadcastOffer ser) := by
  rcases n.check_cases ser with ⟨hnone, _⟩ | ⟨lo, hlo, hall, he⟩ | ⟨lo, nominee, _, _, hnominee, he⟩
  · obtain ⟨lo, hlo, _⟩ := h.own
    rw [h.localMac_eq, hlo] at hnone
    exact nomatch hnone
  · rw [he]
    rw [h.localMac_eq] at hlo
    have hmax := h.concluded hlo hall
    obtain ⟨lo', hlo', hround, hlegit⟩ := h.own
    rw [hlo] at hlo'
    cases hlo'
    have hcandidate : g.candidate g.maxRound = some lo.mac := hmax ▸ hlegit.candidate
    refine ⟨Or.inl rfl, fun message receiver hm => ?_, fun o ho hends => ⟨?_, rfl, ?_⟩⟩
    · simp [Negotiation.conclude] at hm
    · rcases List.mem_cons.mp ho with rfl | ho
      · exact hends.elim
      · rcases List.mem_cons.mp ho with rfl | ho
        · exact ⟨h.localMac_eq, hcandidate⟩
        · rw [List.mem_singleton.mp ho]
          exact ⟨hmax, hcandidate⟩
    · rw [← hmax, hround]
      rfl
  · rw [he]
    exact h.broadcast hnominee

/-! ## 4. Steps of a node -/

/-- A node whose loop has ended is silent. -/
theorem sound_done {i : NegotiatingInput} {r : Negotiation × List Out}
    (hmove : Negotiation.Move ser n i r) (hdone : n.state.task = .done) : Sound ser g mac r := by
  obtain ⟨_, houts⟩ := hmove.after_done hdone
  refine ⟨Or.inl (hmove.done hdone), fun message receiver hm => ?_, fun o ho hends => ?_⟩
  · rcases houts _ hm with hq | ⟨_, he⟩
    · exact hq.elim
    · exact nomatch he
  · rcases houts o ho with hq | ⟨_, rfl⟩
    · exact absurd hends hq.endsLoop
    · exact hends.elim

/-- The answer of `NegotiationStart`. -/
theorem Live.start (h : Live g mac n) (r : ResponseCode) :
    Sound ser g mac (n.resume ser (.start r)) := by
  show Sound ser g mac (if n.state.task = .starting then n.onStartAnswer ser r else (n, []))
  split
  · unfold Negotiation.onStartAnswer
    split
    · exact live_check h
    · exact .silent (Or.inl rfl)
  · exact .silent (Or.inr h)

/-- The timer behind a broadcast. -/
theorem Live.tick (h : Live g mac n) : Sound ser g mac (n.resume ser .tick) := by
  show Sound ser g mac (if n.state.task = .waiting then n.updateAndBroadcastOffer ser else (n, []))
  split
  · exact live_check h
  · exact .silent (Or.inr h)

/-- An offer sent has been answered. -/
theorem Live.answer (h : Live g mac n) (i : Nat) {r : ResponseCode} (herror : r ≠ .socketError)
    (hgone : r ≠ .connectionNotFound) : Sound ser g mac (n.resume ser (.send i r)) := by
  show Sound ser g mac (n.onSendAnswer i r)
  unfold Negotiation.onSendAnswer
  split
  · exact .silent (Or.inr h)
  · rename_i task hi
    have hrest : Live g mac ⟨n.round, { n.state with sends := n.state.sends.eraseIdx i }⟩ :=
      { h with sends := fun t ht => h.sends t (List.mem_of_mem_eraseIdx ht) }
    rw [h.sends task (List.mem_of_getElem? hi)]
    cases r with
    | socketError => exact absurd rfl herror
    | connectionNotFound => exact absurd rfl hgone
    | _ => exact .silent (Or.inr hrest)

/-- An offer of a member arrives. -/
theorem Live.message (h : Live g mac n) (sender : Device) {message : Str} {offer : Offer}
    (hdecoded : ser.deserialize message = .ok (.offer offer)) (hlegit : Legit g sender.mac offer) :
    Sound ser g mac ((negotiating ser).step n (.event (.messageReceived sender message))) := by
  by_cases hpeer : sender.mac ∈ n.state.peers.keys
  · rw [step_offer hpeer hdecoded]
    have hne : sender.mac ≠ mac := ((h.peers sender.mac).mp hpeer).2
    refine .silent (Or.inr { h with keys := fun x => ?_, own := ?_, others := fun x hx hxm => ?_ })
    · show x ∈ (n.state.offers.insert sender.mac offer).keys ↔ _
      rw [OrdMap.keys_insert_of_mem offer ((h.keys sender.mac).mpr hlegit.member)]
      exact h.keys x
    · obtain ⟨lo, hlo, hrest⟩ := h.own
      exact ⟨lo, (OrdMap.find?_insert_ne _ offer hne.symm).trans hlo, hrest⟩
    · by_cases hxs : x = sender.mac
      · exact ⟨offer, hxs ▸ OrdMap.find?_insert_self _ _ _, Or.inr (hxs ▸ hlegit)⟩
      · obtain ⟨o, ho, hor⟩ := h.others x hx hxm
        exact ⟨o, (OrdMap.find?_insert_ne _ offer hxs).trans ho, hor⟩
  · show Sound ser g mac (n.onMessageReceived ser sender message)
    unfold Negotiation.onMessageReceived
    rw [if_neg hpeer]
    exact .silent (Or.inr h)

end Node

/-! ## 5. Runs of the group -/

/-- What a message of the group is: an offer its sender can make. -/
def OfferPacket (ser : ISerializer) (g : Group) (p : Packet Str Str) : Prop :=
  ∃ o, p.payload = ser.serializeOffer o ∧ Legit g p.sender o

/-- Every node still negotiates or has ended, every message is an offer its sender can make, and
    every node that has concluded is in the largest round. -/
structure Agreeing (ser : ISerializer) (g : Group) (w : ElectionState) (log : List (Str × Out)) :
    Prop where
  inv : Network.Inv (fun mac n => n.state.task = .done ∨ Live g mac n) (OfferPacket ser g) w
  concluded : ∀ mac o, (mac, o) ∈ log → Negotiation.EndsLoop o → Agreed g mac o ∧
    ∃ n, w.nodes mac = some n ∧ n.state.task = .done ∧ n.round.toNat = g.maxRound

section Runs

variable {ser : ISerializer} {g : Group} {w : ElectionState} {log : List (Str × Out)}

theorem Agreeing.nothing (h : Agreeing ser g w log) :
    Agreeing ser g w (log ++ []) := by rwa [List.append_nil]

/-- One node makes a sound step, and does not leave the end of its loop. -/
theorem Agreeing.act (h : Agreeing ser g w log) {mac : Str} {r : Negotiation × List Out}
    (hsound : Sound ser g mac r) (hdone : ∀ n, w.nodes mac = some n → n.state.task = .done →
      r.1.state.task = .done ∧ r.1.round = n.round) :
    Agreeing ser g (w.act sends mac r).1 (log ++ (w.act sends mac r).2) where
  inv := h.inv.act hsound.node fun o ho receiver message hs => by
    have heq : o = .issue (.sendMessage message receiver) := by
      unfold sends at hs
      split at hs
      · cases hs
        rfl
      · exact nomatch hs
    exact hsound.sent message receiver (heq ▸ ho)
  concluded := by
    intro mac' o hmem hends
    rcases List.mem_append.mp hmem with hmem | hmem
    · obtain ⟨hagreed, n, hn, htask, hround⟩ := h.concluded mac' o hmem hends
      refine ⟨hagreed, ?_⟩
      by_cases heq : mac' = mac
      · obtain ⟨htask', hround'⟩ := hdone n (heq ▸ hn) htask
        exact ⟨r.1, heq ▸ Network.nodes_act_self sends w mac r, htask', hround' ▸ hround⟩
      · exact ⟨n, (Network.nodes_act_ne sends w r heq).trans hn, htask, hround⟩
    · obtain ⟨rfl, ho⟩ := Network.mem_outs_act.mp hmem
      obtain ⟨hagreed, htask, hround⟩ := hsound.agreed o ho hends
      exact ⟨hagreed, r.1, Network.nodes_act_self sends w mac' r, htask, hround⟩

/-- Something happens to one node, to which a node that negotiates answers soundly. -/
theorem Agreeing.input (h : Agreeing ser g w log) {mac : Str} {i : NegotiatingInput}
    (hlive : ∀ n, Live g mac n → Sound ser g mac ((negotiating ser).step n i)) :
    Agreeing ser g (w.input (negotiating ser) sends mac i).1 (log ++ (w.input (negotiating ser) sends mac i).2) := by
  unfold Network.input
  split
  · rename_i n hn
    refine h.act ?_ fun n' hn' htask => ?_
    · rcases h.inv.nodes mac n hn with hdone | hn
      · exact sound_done (step_move ser n i) hdone
      · exact hlive n hn
    · rw [hn] at hn'
      cases hn'
      exact ⟨(step_move ser n i).done htask, ((step_move ser n i).after_done htask).1⟩
  · exact h.nothing

/-- **Every step of the group keeps what they agree on.** -/
theorem agreeing_step
    (hcodec : ∀ offer : Offer, offer.mac ∈ g.members → offer.round.toNat ≤ g.maxRound →
      ser.deserialize (ser.serializeOffer offer) = .ok (.offer offer))
    (h : Agreeing ser g w log) (i : ElectionInput) :
    Agreeing ser g ((election ser g).step w i).1 (log ++ ((election ser g).step w i).2) := by
  cases i with
  | construct mac =>
    unfold election
    dsimp only
    split
    · rename_i hc
      refine h.act (sound_construct hc.1) fun n hn _ => ?_
      rw [hn] at hc
      exact nomatch hc.2
    · exact h.nothing
  | start mac r => exact h.input fun n hn => hn.start r
  | tick mac => exact h.input fun n hn => hn.tick
  | answer mac i r =>
    unfold election
    dsimp only
    split
    · exact h.nothing
    · rename_i hr
      exact h.input fun n hn => hn.answer i (fun e => hr (Or.inl e)) fun e => hr (Or.inr e)
  | deliver k name =>
    unfold election
    dsimp only
    split
    · rename_i p hp
      obtain ⟨o, hpayload, hlegit⟩ := h.inv.sent p (List.mem_of_getElem? hp)
      have hdecoded : ser.deserialize p.payload = .ok (.offer o) := by
        rw [hpayload]
        exact hcodec o (Group.candidate_mem hlegit.candidate) hlegit.bound
      exact h.input fun n hn => hn.message ⟨name, p.sender⟩ hdecoded hlegit
    · exact h.nothing

theorem agreeing_run
    (hcodec : ∀ offer : Offer, offer.mac ∈ g.members → offer.round.toNat ≤ g.maxRound →
      ser.deserialize (ser.serializeOffer offer) = .ok (.offer offer)) (is : List ElectionInput) :
    Agreeing ser g ((election ser g).exec Network.empty is)
      ((election ser g).outs Network.empty is) :=
  Machine.log_invariant (P := Agreeing ser g) (l := []) (fun _ _ i h => agreeing_step hcodec h i)
    ⟨Network.inv_empty, fun _ _ h => absurd h List.not_mem_nil⟩ is

/-- **Agreement of the election.** In every run of the group, whoever concludes does so in the
    largest first round and with its candidate; so any two nodes conclude with the same offer. -/
theorem election_agreement (ser : ISerializer) (g : Group)
    (hcodec : ∀ offer : Offer, offer.mac ∈ g.members → offer.round.toNat ≤ g.maxRound →
      ser.deserialize (ser.serializeOffer offer) = .ok (.offer offer)) (is : List ElectionInput) :
    (∀ mac lo mac' lo', (mac, .conclude lo) ∈ (election ser g).outs Network.empty is →
      (mac', .conclude lo') ∈ (election ser g).outs Network.empty is → lo = lo') ∧
    (∀ mac lo, (mac, .conclude lo) ∈ (election ser g).outs Network.empty is →
      lo.round.toNat = g.maxRound ∧ g.candidate g.maxRound = some lo.mac ∧
      ∃ n, ((election ser g).exec Network.empty is).nodes mac = some n ∧
        n.round.toNat = g.maxRound) ∧
    (∀ mac peers localMac generatorMac,
      (mac, .switch (.playing peers localMac generatorMac)) ∈
        (election ser g).outs Network.empty is →
      localMac = mac ∧ g.candidate g.maxRound = some generatorMac) := by
  have h := agreeing_run hcodec is
  have hoffer : ∀ mac lo, (mac, .conclude lo) ∈ (election ser g).outs Network.empty is →
      lo.round.toNat = g.maxRound ∧ g.candidate g.maxRound = some lo.mac := fun mac lo hm =>
    (h.concluded mac _ hm trivial).1
  refine ⟨fun mac lo mac' lo' hm hm' => ?_, fun mac lo hm => ?_, fun mac peers l generator hm => ?_⟩
  · obtain ⟨hround, hmac⟩ := hoffer mac lo hm
    obtain ⟨hround', hmac'⟩ := hoffer mac' lo' hm'
    cases lo
    cases lo'
    rw [hmac] at hmac'
    cases hmac'
    cases UInt32.toNat_inj.mp (hround.trans hround'.symm)
    rfl
  · obtain ⟨n, hn, _, hround⟩ := (h.concluded mac _ hm trivial).2
    exact ⟨(hoffer mac lo hm).1, (hoffer mac lo hm).2, n, hn, hround⟩
  · exact (h.concluded mac _ hm trivial).1

end Runs

/-- Two nodes, the second one round ahead. -/
def groupAB : Group where
  members := ["A".toList, "B".toList]
  nodup := by decide
  peers := fun mac => if mac = "A".toList then ⟨[⟨"b".toList, "B".toList⟩], by decide⟩
    else ⟨[⟨"a".toList, "A".toList⟩], by decide⟩
  initial := fun mac => if mac = "A".toList then 0 else 1
  peers_keys := by
    intro mac hmac x
    rcases List.mem_cons.mp hmac with rfl | hmac
    · show x ∈ ["B".toList] ↔ x ∈ ["A".toList, "B".toList] ∧ x ≠ "A".toList
      simp only [List.mem_cons, List.not_mem_nil, or_false]
      exact ⟨fun e => ⟨Or.inr e, e ▸ by decide⟩, fun h => h.1.resolve_left h.2⟩
    · rw [List.mem_singleton.mp hmac]
      show x ∈ ["A".toList] ↔ x ∈ ["A".toList, "B".toList] ∧ x ≠ "B".toList
      simp only [List.mem_cons, List.not_mem_nil, or_false]
      exact ⟨fun e => ⟨Or.inl e, e ▸ by decide⟩, fun h => h.1.resolve_right h.2⟩
  firstRound_pos := by decide

/-- The codec hands over what the two nodes can offer. -/
theorem codec_ab (offer : Offer) (hmac : offer.mac ∈ groupAB.members)
    (hround : offer.round.toNat ≤ groupAB.maxRound) :
    (xmlSerializer walkAsIs).deserialize ((xmlSerializer walkAsIs).serializeOffer offer) =
      .ok (.offer offer) := by
  obtain ⟨mac, round⟩ := offer
  have hmax : groupAB.maxRound = 2 := by decide
  dsimp only at hmac hround
  refine xmlSerializer_offer walkAsIs ?_ (by omega)
  rcases List.mem_cons.mp hmac with rfl | hmac
  · exact macText_a
  · rw [List.mem_singleton.mp hmac]
    exact ⟨by decide, by decide, Or.inr ⟨'B', by decide, by decide⟩⟩

/-- The first node catches up with the second, and both offer "A" for the second round. -/
def catchUp : List ElectionInput :=
  [.construct "A".toList, .construct "B".toList, .start "A".toList .ok, .start "B".toList .ok,
    .deliver 1 "b".toList, .tick "A".toList, .deliver 2 "a".toList, .tick "B".toList]

theorem step_deliver {ser : ISerializer} {g : Group} {w : ElectionState} {k : Nat} {name : Str}
    {p : Packet Str Str} {n : Negotiation} {o : Offer} (hp : w.sent[k]? = some p)
    (hn : w.nodes p.receiver = some n) (hpeer : p.sender ∈ n.state.peers.keys)
    (hdecoded : ser.deserialize p.payload = .ok (.offer o)) :
    (election ser g).step w (.deliver k name) = w.act sends p.receiver
      (⟨n.round, { n.state with offers := n.state.offers.insert p.sender o }⟩, []) := by
  unfold election Network.input
  dsimp only
  rw [hp]
  dsimp only
  rw [hn]
  dsimp only
  rw [step_offer hpeer hdecoded]

theorem catchUp_concludes : ("B".toList, Out.conclude ⟨"A".toList, 2⟩) ∈
    (election (xmlSerializer walkAsIs) groupAB).outs Network.empty catchUp := by
  have hdecoded := codec_ab ⟨"A".toList, 2⟩ (by decide) (by decide)
  unfold catchUp
  rw [Machine.outs_cons, Machine.outs_cons, Machine.outs_cons, Machine.outs_cons,
    Machine.outs_cons, step_deliver (p := ⟨"B".toList, "A".toList, _⟩) rfl rfl (by decide) hdecoded,
    Machine.outs_cons, Machine.outs_cons,
    step_deliver (p := ⟨"A".toList, "B".toList, _⟩) rfl rfl (by decide) hdecoded,
    Machine.outs_cons]
  iterate 7 refine List.mem_append_right _ ?_
  exact List.mem_append_left _
    (List.mem_cons_of_mem _ (List.mem_cons_of_mem _ List.mem_cons_self))

/-- "B" concludes that run in the second round. -/
theorem election_agreement_ab :
    ∃ n, ((election (xmlSerializer walkAsIs) groupAB).exec Network.empty catchUp).nodes
      "B".toList = some n ∧ n.round.toNat = 2 :=
  ((election_agreement (xmlSerializer walkAsIs) groupAB codec_ab catchUp).2.1 _ _
    catchUp_concludes).2.2

end Veridie.Fsm
