/-
  File:      Veridie/Fsm/Roster.lean
  Subject:   Who is there when `StateConnecting` starts a negotiation, and how many blocks it asks
             the pool for.

  * `Comes`, `Goes`, `Attempts`, `Greets` -- what an input does to the devices, the negotiation and
    the local MAC;
  * `Roster`, `roster_step` -- each step follows them;
  * `There`, `there_run` -- the devices of a state are those that have come and not gone since;
  * `pool_never_emptied_iff` -- the pool is asked for blocks in every run, but for an attempt
    without a device.
-/
import Veridie.Fsm.Radio
import Veridie.Fsm.Offers

namespace Veridie.Fsm

open Veridie.Lib Veridie.Dice Veridie.Sign

/-! ## 1. What an input does -/

/-- The input makes a device a peer: it is connected, or sends a message. -/
def Comes (mac : Str) : ConnectingInput → Prop
  | .event (.deviceConnected remote) => remote.mac = mac
  | .event (.messageReceived sender _) => sender.mac = mac
  | _ => False

/-- The input ends a device as a peer: it is disconnected, cannot be read from, or cannot be
    greeted. -/
def Loses (mac : Str) (s : StateConnecting) : ConnectingInput → Prop
  | .event (.deviceDisconnected remote) => remote.mac = mac
  | .event (.socketReadFailure from') => from'.mac = mac
  | .resume (.hello k r) => ∃ task, s.hellos[k]? = some task ∧ task.mac = mac ∧
      task.closing = false ∧ (r = .connectionNotFound ∨ r = .socketError)
  | _ => False

/-- The input makes the state see whether it can start a negotiation: connectivity is established
    while no earlier attempt waits, or one that waits has a retry left. -/
def Attempts (s : StateConnecting) : ConnectingInput → Prop
  | .event .connectivityEstablished => s.retryStart = none
  | .resume .retryTick => ∃ retriesLeft, s.retryStart = some retriesLeft ∧ 1 < retriesLeft
  | _ => False

/-- The input is a greeting. -/
def Greets (ser : ISerializer) : ConnectingInput → Prop
  | .event (.messageReceived _ message) => ∃ hello, ser.deserialize message = .ok (.hello hello)
  | _ => False

/-- The input starts a negotiation. -/
def Starts (s : StateConnecting) (i : ConnectingInput) : Prop := s.localMac.isSome ∧ Attempts s i

/-- A device is lost, or handed over with all others. -/
def Goes (mac : Str) (s : StateConnecting) (i : ConnectingInput) : Prop :=
  Loses mac s i ∨ Starts s i

/-! ## 2. A step -/

/-- What a step does to the devices, the local MAC and the pool. -/
structure Roster (ser : ISerializer) (s : StateConnecting) (i : ConnectingInput)
    (r : StateConnecting × List Out) : Prop where
  peers : ∀ mac, mac ∈ r.1.peers.keys ↔ Comes mac i ∨ mac ∈ s.peers.keys ∧ ¬ Goes mac s i
  localMac : r.1.localMac.isSome ↔ Greets ser i ∨ s.localMac.isSome
  pool : ∀ n, .resizePool n ∈ r.2 ↔ Starts s i ∧ n = s.peers.elems.length

/-- No call of `Resize`. -/
def Unsized : Out → Prop
  | .resizePool _ => False
  | _ => True

section Roster

variable {ser : ISerializer} {s : StateConnecting} {i : ConnectingInput}

/-- Neither a greeting nor a start. -/
theorem roster_of_peers {r : StateConnecting × List Out} (hstart : ¬ Attempts s i)
    (hgreet : ¬ Greets ser i) (hmac : r.1.localMac = s.localMac) (hpool : ∀ o ∈ r.2, Unsized o)
    (hpeers : ∀ mac, mac ∈ r.1.peers.keys ↔ Comes mac i ∨ mac ∈ s.peers.keys ∧ ¬ Loses mac s i) :
    Roster ser s i r where
  peers := fun mac => by
    rw [hpeers, Goes, or_iff_left fun h : Starts s i => hstart h.2]
  localMac := by rw [hmac, or_iff_right hgreet]
  pool := fun n => iff_of_false (fun hm => hpool _ hm) fun h => hstart h.1.2

/-- Nothing that a step follows. -/
theorem roster_same {r : StateConnecting × List Out} (hstart : ¬ Attempts s i)
    (hgreet : ¬ Greets ser i) (hcomes : ∀ mac, ¬ Comes mac i) (hloses : ∀ mac, ¬ Loses mac s i)
    (hmac : r.1.localMac = s.localMac) (hpeers : r.1.peers = s.peers)
    (hpool : ∀ o ∈ r.2, Unsized o) : Roster ser s i r :=
  roster_of_peers hstart hgreet hmac hpool fun mac => by
    rw [hpeers, or_iff_right (hcomes mac), and_iff_left (hloses mac)]

theorem sendHello_same (s : StateConnecting) (mac : Str) (n : Nat) :
    (StateConnecting.sendHello ser s mac n).1.peers = s.peers ∧
    (StateConnecting.sendHello ser s mac n).1.localMac = s.localMac ∧
    ∀ o ∈ (StateConnecting.sendHello ser s mac n).2, Unsized o := by
  unfold StateConnecting.sendHello
  split
  · exact ⟨rfl, rfl, by simp [Unsized]⟩
  · exact ⟨rfl, rfl, by simp⟩

theorem fatal_unsized (s : StateConnecting) : ∀ o ∈ s.detectFatalFailure, Unsized o := by
  unfold StateConnecting.detectFatalFailure
  split <;> simp [Unsized]

/-- `AttemptNegotiationStart`. -/
theorem start_roster (n : Nat) (hstart : Attempts s i) (hgreet : ¬ Greets ser i)
    (hcomes : ∀ mac, ¬ Comes mac i) (hloses : ∀ mac, ¬ Loses mac s i) :
    Roster ser s i (s.attemptNegotiationStart n) := by
  have hstarts : Starts s i ↔ s.localMac.isSome := and_iff_left hstart
  unfold StateConnecting.attemptNegotiationStart
  split
  · rename_i localMac hmac
    have hsome : s.localMac.isSome := by rw [hmac]; rfl
    refine ⟨fun mac => ?_, ?_, fun k => ?_⟩
    · refine iff_of_false List.not_mem_nil ?_
      rintro (h | ⟨_, h⟩)
      · exact hcomes mac h
      · exact h (Or.inr (hstarts.mpr hsome))
    · exact iff_of_true rfl (Or.inr hsome)
    · rw [hstarts, and_iff_right hsome]
      simp
  · rename_i hmac
    have hnone : ¬ Starts s i := by
      rw [hstarts, hmac]
      exact nofun
    refine ⟨fun mac => ?_, ?_, fun k => iff_of_false ?_ fun h => hnone h.1⟩
    · rw [or_iff_right (hcomes mac), Goes, or_iff_left hnone, and_iff_left (hloses mac)]
    · rw [or_iff_right hgreet]
    · dsimp only
      split <;> simp

/-- The peers once a device has been heard of. -/
theorem heard_peers (sender : Device) :
    ∀ mac, mac ∈ (if sender.mac ∈ s.peers.keys then (s, ([] : List Out))
      else StateConnecting.onDeviceConnected ser s sender).1.peers.keys ↔
      sender.mac = mac ∨ mac ∈ s.peers.keys := by
  intro mac
  split
  · rename_i hin
    exact ⟨Or.inr, fun h => h.elim (fun e => e ▸ hin) id⟩
  · rw [StateConnecting.onDeviceConnected, (sendHello_same _ _ _).1, KeySet.mem_keys_insert,
      eq_comm]

/-- `OnMessageReceived`. -/
theorem message_roster (sender : Device) (message : Str) :
    Roster ser s (.event (.messageReceived sender message))
      (StateConnecting.onMessageReceived ser s sender message) := by
  have hpeers := @heard_peers ser s sender
  have hrest : (if sender.mac ∈ s.peers.keys then (s, ([] : List Out))
      else StateConnecting.onDeviceConnected ser s sender).1.localMac = s.localMac ∧
      ∀ o ∈ (if sender.mac ∈ s.peers.keys then (s, ([] : List Out))
        else StateConnecting.onDeviceConnected ser s sender).2, Unsized o := by
    split
    · exact ⟨rfl, fun o ho => absurd ho List.not_mem_nil⟩
    · exact (sendHello_same _ _ _).2
  have hmembers : ∀ mac, sender.mac = mac ∨ mac ∈ s.peers.keys ↔
      Comes mac (.event (.messageReceived sender message)) ∨ mac ∈ s.peers.keys ∧
        ¬ Goes mac s (.event (.messageReceived sender message)) := fun mac =>
    or_congr_right (and_iff_left fun h => h.elim id fun h => h.2).symm
  have hnone : ∀ n, ¬ (Starts s (.event (.messageReceived sender message)) ∧
      n = s.peers.elems.length) := fun n h => h.1.2
  unfold StateConnecting.onMessageReceived
  generalize (if sender.mac ∈ s.peers.keys then (s, ([] : List Out))
    else StateConnecting.onDeviceConnected ser s sender) = r at hpeers hrest ⊢
  obtain ⟨hmac, hpool⟩ := hrest
  dsimp only
  split
  · rename_i hsome
    rw [hmac] at hsome
    refine ⟨fun mac => (hpeers mac).trans (hmembers mac), ?_,
      fun n => iff_of_false (fun hm => hpool _ hm) (hnone n)⟩
    rw [hmac]
    exact iff_of_true hsome (Or.inr hsome)
  · rename_i hnotSome
    rw [hmac] at hnotSome
    have hother : (∀ hello, ser.deserialize message ≠ .ok (.hello hello)) →
        (r.1.localMac.isSome ↔ Greets ser (.event (.messageReceived sender message)) ∨
          s.localMac.isSome) := fun hno => by
      rw [hmac]
      exact iff_of_false hnotSome fun h => h.elim (fun ⟨hello, he⟩ => hno hello he) hnotSome
    split
    · rename_i hello he
      exact ⟨fun mac => (hpeers mac).trans (hmembers mac), iff_of_true rfl (Or.inl ⟨hello, he⟩),
        fun n => iff_of_false (fun hm => hpool _ hm) (hnone n)⟩
    · rename_i u he
      refine ⟨fun mac => (hpeers mac).trans (hmembers mac), hother ?_,
        fun n => iff_of_false (fun hm => ?_) (hnone n)⟩
      · intro hello he'
        exact nomatch he.symm.trans he'
      · rcases List.mem_append.mp hm with hm | hm
        · exact hpool _ hm
        · exact nomatch List.mem_singleton.mp hm
    · rename_i hno _
      exact ⟨fun mac => (hpeers mac).trans (hmembers mac), hother hno,
        fun n => iff_of_false (fun hm => hpool _ hm) (hnone n)⟩

theorem event_roster (e : Event) : Roster ser s (.event e) (s.onEvent ser e) := by
  have hsame : ∀ e : Event, ¬ Attempts s (.event e) → ¬ Greets ser (.event e) →
      (∀ mac, ¬ Comes mac (.event e)) → (∀ mac, ¬ Loses mac s (.event e)) →
      Roster ser s (.event e) (s, []) := fun e h₁ h₂ h₃ h₄ =>
    roster_same h₁ h₂ h₃ h₄ rfl rfl fun o ho => absurd ho List.not_mem_nil
  cases e with
  | messageReceived sender message => exact message_roster sender message
  | connectivityEstablished =>
    show Roster ser s _ s.onConnectivityEstablished
    unfold StateConnecting.onConnectivityEstablished
    split
    · rename_i hwaits
      refine hsame _ (fun h => ?_) id (fun _ => id) fun _ => id
      rw [show s.retryStart = none from h] at hwaits
      exact nomatch hwaits
    · rename_i hwaits
      exact start_roster _ (Option.not_isSome_iff_eq_none.mp hwaits) id (fun _ => id) fun _ => id
  | deviceConnected remote =>
    obtain ⟨hpeers, hmac, hpool⟩ :=
      @sendHello_same ser { s with peers := s.peers.insert remote } remote.mac
        StateConnecting.maxSendRetryCount
    refine roster_of_peers id id hmac hpool fun mac => ?_
    show mac ∈ (StateConnecting.sendHello ser _ _ _).1.peers.keys ↔ _
    rw [hpeers, KeySet.mem_keys_insert, eq_comm]
    exact or_congr_right (and_iff_left id).symm
  | deviceDisconnected remote =>
    refine roster_of_peers id id rfl (fun o ho => absurd ho List.not_mem_nil) fun mac => ?_
    show mac ∈ (s.peers.erase remote.mac).keys ↔ _
    rw [KeySet.mem_keys_erase, or_iff_right (show ¬ Comes mac _ from id), ne_comm]
    exact Iff.rfl
  | socketReadFailure from' =>
    show Roster ser s _ (s.onSocketReadFailure from')
    have hlost : ∀ mac, (mac ∈ s.peers.keys ∧ mac ≠ from'.mac) ↔
        Comes mac (.event (.socketReadFailure from')) ∨ mac ∈ s.peers.keys ∧
          ¬ Loses mac s (.event (.socketReadFailure from')) := fun mac => by
      rw [or_iff_right (show ¬ Comes mac (.event (.socketReadFailure from')) from id), ne_comm]
      exact Iff.rfl
    unfold StateConnecting.onSocketReadFailure
    split
    · refine roster_of_peers id id rfl (by simp [Unsized]) fun mac => ?_
      show mac ∈ (s.peers.erase from'.mac).keys ↔ _
      rw [KeySet.mem_keys_erase]
      exact hlost mac
    · rename_i hout
      refine roster_of_peers id id rfl (fun o ho => absurd ho List.not_mem_nil) fun mac => ?_
      rw [← hlost]
      refine (and_iff_left_of_imp fun hm he => hout ?_).symm
      rw [← he]
      exact hm
  | bluetoothOff =>
    exact roster_same id id (fun _ => id) (fun _ => id) rfl rfl (by
      simp [StateConnecting.onEvent, StateConnecting.onBluetoothOff, Unsized])
  | gameStopped =>
    exact roster_same id id (fun _ => id) (fun _ => id) rfl rfl (by
      simp [StateConnecting.onEvent, StateConnecting.onGameStopped, Unsized])
  | _ => exact hsame _ id id (fun _ => id) fun _ => id

/-- `SendHelloTo`. -/
theorem hello_roster (k : Nat) (r : ResponseCode) :
    Roster ser s (.resume (.hello k r)) (s.onHelloAnswer ser k r) := by
  unfold StateConnecting.onHelloAnswer
  split
  · rename_i hk
    refine roster_same id id (fun _ => id) ?_ rfl rfl fun o ho => absurd ho List.not_mem_nil
    rintro mac ⟨task, htask, _⟩
    exact nomatch hk.symm.trans htask
  · rename_i task hk
    have hloses : ∀ mac, Loses mac s (.resume (.hello k r)) ↔ task.mac = mac ∧
        task.closing = false ∧ (r = .connectionNotFound ∨ r = .socketError) := fun mac => by
      simp [Loses, hk]
    have hkept : task.closing = true ∨ (r ≠ .connectionNotFound ∧ r ≠ .socketError) → ∀ mac,
        ¬ Loses mac s (.resume (.hello k r)) := by
      rintro h mac hl
      obtain ⟨_, hopen, hr⟩ := (hloses mac).mp hl
      rcases h with h | h
      · exact absurd hopen (by rw [h]; exact nofun)
      · exact hr.elim h.1 h.2
    have herase : task.closing = false → (r = .connectionNotFound ∨ r = .socketError) → ∀ mac,
        mac ∈ (s.peers.erase task.mac).keys ↔ Comes mac (.resume (.hello k r)) ∨
          mac ∈ s.peers.keys ∧ ¬ Loses mac s (.resume (.hello k r)) := fun hopen hr mac => by
      rw [KeySet.mem_keys_erase, or_iff_right (show ¬ Comes mac (.resume (.hello k r)) from id),
        hloses, and_iff_left (a := task.mac = mac) ⟨hopen, hr⟩, ne_comm]
    dsimp only
    split
    · rename_i hclosing
      split
      · exact roster_same id id (fun _ => id) (hkept (Or.inl hclosing)) rfl rfl (by simp [Unsized])
      · exact roster_same id id (fun _ => id) (hkept (Or.inl hclosing)) rfl rfl
          fun o ho => absurd ho List.not_mem_nil
    · rename_i hopen
      have hopen := Bool.eq_false_iff.mpr hopen
      split
      · exact roster_of_peers id id rfl (fun o ho => absurd ho List.not_mem_nil)
          (herase hopen (Or.inl rfl))
      · exact roster_of_peers id id rfl (by simp [Unsized]) (herase hopen (Or.inr rfl))
      · have hsame := hkept (Or.inr ⟨nofun, nofun⟩)
        split
        · obtain ⟨hpeers, hmac, hpool⟩ := @sendHello_same ser
            { s with hellos := s.hellos.eraseIdx k } task.mac (task.retriesLeft - 1)
          exact roster_same id id (fun _ => id) hsame hmac hpeers hpool
        · exact roster_same id id (fun _ => id) hsame rfl rfl fun o ho => absurd ho List.not_mem_nil
      · rename_i hnotFound hbroken _
        exact roster_same id id (fun _ => id) (hkept (Or.inr ⟨hnotFound, hbroken⟩)) rfl rfl
          fun o ho => absurd ho List.not_mem_nil

theorem resume_roster (i : ConnectingResume) : Roster ser s (.resume i) (s.resume ser i) := by
  have hloop : ∀ i : ConnectingResume, ¬ Attempts s (.resume i) →
      (∀ mac, ¬ Loses mac s (.resume i)) → ∀ r : StateConnecting × List Out, r.1.localMac = s.localMac → r.1.peers = s.peers →
      (∀ o ∈ r.2, Unsized o) → Roster ser s (.resume i) r := fun i hstart hloses r =>
    roster_same hstart (by cases i <;> exact id) (by cases i <;> exact fun _ => id) hloses
  have hnil : ∀ o ∈ ([] : List Out), Unsized o := fun o ho => absurd ho List.not_mem_nil
  cases i with
  | hello k r => exact hello_roster k r
  | close k r =>
    show Roster ser s _ (s.onCloseAnswer k r)
    unfold StateConnecting.onCloseAnswer
    split
    · exact hloop _ id (fun _ => id) _ rfl rfl hnil
    · split
      · exact hloop _ id (fun _ => id) _ rfl rfl (by simp [Unsized])
      · exact hloop _ id (fun _ => id) _ rfl rfl hnil
  | retryTick =>
    unfold StateConnecting.resume
    dsimp only
    split
    · rename_i n hn
      unfold StateConnecting.onRetryTick
      split
      · exact start_roster _ ⟨n, hn, by omega⟩ id (fun _ => id) fun _ => id
      · refine hloop _ ?_ (fun _ => id) _ rfl rfl (by simp [Unsized])
        rintro ⟨n', hn', hlt⟩
        cases hn.symm.trans hn'
        omega
    · rename_i hn
      refine hloop _ ?_ (fun _ => id) _ rfl rfl hnil
      rintro ⟨n', hn', _⟩
      exact nomatch hn.symm.trans hn'
  | discovery r =>
    unfold StateConnecting.resume
    dsimp only
    split
    · unfold StateConnecting.onDiscoveryAnswer
      split <;> exact hloop _ id (fun _ => id) _ rfl rfl
        (by simp [StateConnecting.onBluetoothOff, Unsized])
    · exact hloop _ id (fun _ => id) _ rfl rfl hnil
  | discoveryTick =>
    unfold StateConnecting.resume
    dsimp only
    split
    · unfold StateConnecting.onDiscoveryTick
      split
      · exact hloop _ id (fun _ => id) _ rfl rfl (by simp [Unsized])
      · exact hloop _ id (fun _ => id) _ rfl rfl (fatal_unsized _)
    · exact hloop _ id (fun _ => id) _ rfl rfl hnil
  | listening r =>
    unfold StateConnecting.resume
    dsimp only
    split
    · unfold StateConnecting.onListeningAnswer
      split
      · exact hloop _ id (fun _ => id) _ rfl rfl hnil
      · exact hloop _ id (fun _ => id) _ rfl rfl (by simp [StateConnecting.onBluetoothOff, Unsized])
      · exact hloop _ id (fun _ => id) _ rfl rfl (fatal_unsized _)
      · exact hloop _ id (fun _ => id) _ rfl rfl hnil
    · exact hloop _ id (fun _ => id) _ rfl rfl hnil
  | listeningTick =>
    unfold StateConnecting.resume
    dsimp only
    split
    · unfold StateConnecting.onListeningTick
      split
      · exact hloop _ id (fun _ => id) _ rfl rfl (by simp [Unsized])
      · exact hloop _ id (fun _ => id) _ rfl rfl (fatal_unsized _)
    · exact hloop _ id (fun _ => id) _ rfl rfl hnil

/-- **Every step** follows what its input does. -/
theorem roster_step (ser : ISerializer) (s : StateConnecting) (i : ConnectingInput) :
    Roster ser s i ((connecting ser).step s i) := by
  cases i with
  | event e => exact event_roster e
  | resume i => exact resume_roster i

end Roster

/-! ## 3. Runs -/

/-- The device has come, and not gone since. -/
def There (ser : ISerializer) (mac : Str) (is : List ConnectingInput) : Prop :=
  (connecting ser).Since (fun _ i => Comes mac i) (Goes mac) StateConnecting.construct.1 is

section Runs

variable {ser : ISerializer}

/-- The peers are the devices there. -/
theorem there_run (mac : Str) (is : List ConnectingInput) :
    mac ∈ ((connecting ser).exec StateConnecting.construct.1 is).peers.keys ↔ There ser mac is :=
  Machine.since_iff (M := connecting ser) (P := fun s => mac ∈ s.peers.keys) List.not_mem_nil
    (fun s i => (roster_step ser s i).peers mac) is

/-- The local MAC is known once somebody has greeted. -/
theorem greeted_run (is : List ConnectingInput) :
    ((connecting ser).exec StateConnecting.construct.1 is).localMac.isSome ↔
      ∃ i ∈ is, Greets ser i := by
  induction is using List.reverseRecOn with
  | nil => exact iff_of_false nofun fun ⟨_, h, _⟩ => absurd h List.not_mem_nil
  | append_singleton is i ih =>
    rw [Machine.exec_snoc, (roster_step ser _ i).localMac, ih]
    simp only [List.mem_append, List.mem_singleton]
    constructor
    · rintro (h | ⟨j, hj, h⟩)
      · exact ⟨i, Or.inr rfl, h⟩
      · exact ⟨j, Or.inl hj, h⟩
    · rintro ⟨j, hj | rfl, h⟩
      · exact Or.inr ⟨j, hj, h⟩
      · exact Or.inl h

theorem elems_pos_iff (peers : Peers) : 0 < peers.elems.length ↔ ∃ mac, mac ∈ peers.keys := by
  rw [List.length_pos_iff_exists_mem]
  constructor
  · rintro ⟨device, h⟩
    exact ⟨device.mac, KeySet.mem_keys_of_mem h⟩
  · rintro ⟨mac, h⟩
    obtain ⟨device, hd, _⟩ := KeySet.mem_keys_iff.mp h
    exact ⟨device, hd⟩

/-- **The pool is never emptied** by a run of `StateConnecting` exactly when a device is there at
    each attempt behind a greeting. -/
theorem pool_never_emptied_iff (ser : ISerializer) (is : List ConnectingInput) :
    (∀ n, .resizePool n ∈ StateConnecting.construct.2 ++
        (connecting ser).outs StateConnecting.construct.1 is → 0 < n) ↔
    ∀ is₁ i is₂, is = is₁ ++ i :: is₂ →
      Attempts ((connecting ser).exec StateConnecting.construct.1 is₁) i →
      (∃ j ∈ is₁, Greets ser j) → ∃ mac, There ser mac is₁ := by
  have hresize : ∀ n, .resizePool n ∈ StateConnecting.construct.2 ++
      (connecting ser).outs StateConnecting.construct.1 is ↔
      ∃ is₁ i is₂, is = is₁ ++ i :: is₂ ∧
        Starts ((connecting ser).exec StateConnecting.construct.1 is₁) i ∧
        n = ((connecting ser).exec StateConnecting.construct.1 is₁).peers.elems.length := fun n => by
    rw [List.mem_append, or_iff_right (by simp [StateConnecting.construct]), Machine.mem_outs]
    simp only [(roster_step ser _ _).pool]
  have hthere : ∀ is₁, (∃ mac, There ser mac is₁) ↔
      0 < ((connecting ser).exec StateConnecting.construct.1 is₁).peers.elems.length := fun is₁ => by
    simp only [elems_pos_iff, there_run]
  constructor
  · intro h is₁ i is₂ hsplit hattempt hgreeted
    have hpos := h _ ((hresize _).mpr
      ⟨is₁, i, is₂, hsplit, ⟨(greeted_run is₁).mpr hgreeted, hattempt⟩, rfl⟩)
    exact (hthere is₁).mpr hpos
  · intro h n hn
    obtain ⟨is₁, i, is₂, hsplit, ⟨hgreeted, hattempt⟩, rfl⟩ := (hresize n).mp hn
    exact (hthere is₁).mp (h is₁ i is₂ hsplit hattempt ((greeted_run is₁).mp hgreeted))

/-- "B" connects, greets and disconnects before connectivity is established. -/
def leaveB : List ConnectingInput :=
  [.event (.deviceConnected deviceB),
    .event (.messageReceived deviceB ((xmlSerializer walkAsIs).serializeHello ⟨"B".toList⟩)),
    .event (.deviceDisconnected deviceB), .event .connectivityEstablished]

/-- **The only peer greets and leaves**: the pool is asked for no block at all. -/
theorem pool_never_emptied_fails : ¬ ∀ n, .resizePool n ∈ StateConnecting.construct.2 ++
    (connecting (xmlSerializer walkAsIs)).outs StateConnecting.construct.1 leaveB → 0 < n := by
  intro h
  have hwaits : ((connecting (xmlSerializer walkAsIs)).exec StateConnecting.construct.1
      (leaveB.take 3)).retryStart = none := by decide +kernel
  have hleft : ((connecting (xmlSerializer walkAsIs)).exec StateConnecting.construct.1
      (leaveB.take 3)).peers.elems.length = 0 := by decide +kernel
  have hgreeted : ∃ i ∈ leaveB.take 3, Greets (xmlSerializer walkAsIs) i :=
    ⟨_, List.mem_of_getElem? (i := 1) rfl, _, xmlSerializer_hello_b⟩
  have hstep := roster_step (xmlSerializer walkAsIs) ((connecting (xmlSerializer walkAsIs)).exec
    StateConnecting.construct.1 (leaveB.take 3)) (.event .connectivityEstablished)
  have hresize := (hstep.pool 0).mpr
    ⟨⟨(greeted_run _).mpr hgreeted, hwaits⟩, hleft.symm⟩
  exact absurd (h 0 (List.mem_append_right _ ((Machine.mem_outs _).mpr
    ⟨leaveB.take 3, .event .connectivityEstablished, [], rfl, hresize⟩))) (Nat.lt_irrefl 0)

end Runs

end Veridie.Fsm
