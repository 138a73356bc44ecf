/-
  File:      Veridie/Fsm/Runs.lean
  Subject:   The steps of the controller by what they do to the state it holds, and the induction
             rules for its runs.

  * `Controller.Move`, `controller_move` -- the six things a step can do;
  * `Upholds` -- what the constructors give, the handlers keep, and every switch requested carries;
  * `controller_invariant` -- the run rule for the state held and the switches that wait.
-/
import Veridie.Fsm.Controller

namespace Veridie.Fsm

open Veridie.Lib Veridie.Dice Veridie.Sign

/-! ## 1. The steps -/

/-- What a step of the controller can do: nothing, start, let the state handle an input, drop a
    switch to where it is, destroy the state, or destroy it and construct another one. -/
inductive Controller.Move (ser : ISerializer) (c : Controller) (i : ControllerInput) :
    Controller × List Trace → Prop where
  | ignored : Move ser c i (c, [])
  | started (hi : i = .start) :
      Move ser c i ({ c with started := true, switches := c.switches ++ [.idle false] }, [])
  | handled (s : FsmState) (hs : c.state = some s) (hi : i ≠ .start ∧ i ≠ .fire) :
      Move ser c i
        (c.absorb (s.handle ser c.round i), (s.handle ser c.round i).2.2.map .did)
  | dropped (t : Target) (rest : List Target) (hi : i = .fire) (hq : c.switches = t :: rest)
      (hkind : c.state.map FsmState.kind = t.kind) :
      Move ser c i ({ c with switches := rest }, [])
  | emptied (t : Target) (rest : List Target) (hi : i = .fire) (hq : c.switches = t :: rest)
      (log : List Trace) (hlog : ∀ e ∈ log, e = .installed none ∨ ∃ o ∈ c.destroyed, e = .did o) :
      Move ser c i ({ c with state := none, switches := rest }, log)
  | installed (t : Target) (rest : List Target) (r : FsmState × UInt32 × List Out) (hi : i = .fire)
      (hq : c.switches = t :: rest) (hr : t.construct ser c.round = some r) :
      Move ser c i ({ c with switches := rest }.absorb r,
        c.destroyed.map .did ++ r.2.2.map .did ++ [.installed (some r.1.kind)])

theorem Controller.handle_move (ser : ISerializer) (c : Controller) {i : ControllerInput}
    (hi : i ≠ .start ∧ i ≠ .fire) : Move ser c i (c.handle ser i) := by
  unfold Controller.handle
  split
  · exact .ignored
  · rename_i s hs
    exact .handled s hs hi

theorem Controller.fire_move (ser : ISerializer) (c : Controller) : Move ser c .fire (c.fire ser) := by
  unfold Controller.fire
  split
  · exact .ignored
  · rename_i t rest hq
    split
    · refine .emptied t rest rfl hq _ fun e he => ?_
      rcases List.mem_append.mp he with he | he
      · obtain ⟨o, ho, rfl⟩ := List.mem_map.mp he
        exact Or.inr ⟨o, ho, rfl⟩
      · split at he
        · exact Or.inl (List.mem_singleton.mp he)
        · exact absurd he List.not_mem_nil
    · rename_i r hr
      split
      · rename_i hkind
        exact .dropped t rest rfl hq (hkind.trans (requested_construct hr).2.symm)
      · exact .installed t rest r rfl hq hr

/-- **Every step is one of the six moves.** -/
theorem controller_move (ser : ISerializer) (c : Controller) (i : ControllerInput) :
    Controller.Move ser c i ((controller ser).step c i) := by
  cases i with
  | start =>
    show Controller.Move ser c .start c.start
    unfold Controller.start
    split
    · exact .ignored
    · exact .started rfl
  | fire => exact c.fire_move ser
  | event e roll => exact c.handle_move ser ⟨nofun, nofun⟩
  | resume i => exact c.handle_move ser ⟨nofun, nofun⟩

/-- Handlers keep the class of the state. -/
theorem handle_kind (ser : ISerializer) (round : UInt32) (s : FsmState) (i : ControllerInput) :
    (s.handle ser round i).1.kind = s.kind := by
  cases i with
  | event e roll => cases s <;> rfl
  | resume i => cases s <;> cases i <;> rfl
  | _ => rfl

/-- The inputs of `StateNegotiating` among those of the controller. -/
def ControllerInput.negotiating? : ControllerInput → Option NegotiatingInput
  | .event e _ => some (.event e)
  | .resume (.negotiating i) => some (.resume i)
  | _ => none

/-- What `StateNegotiating` makes of an input. -/
theorem handle_negotiating (ser : ISerializer) (round : UInt32) (s : StateNegotiating)
    (i : ControllerInput) :
    (FsmState.negotiating s).handle ser round i =
      match i.negotiating? with
      | some j =>
        let r := (negotiating ser).step ⟨round, s⟩ j
        (.negotiating r.1.state, r.1.round, r.2)
      | none => (.negotiating s, round, []) := by
  cases i with
  | resume i => cases i <;> rfl
  | _ => rfl

theorem step_negotiating (ser : ISerializer) {c : Controller} {s : StateNegotiating}
    (hs : c.state = some (.negotiating s)) {i : ControllerInput} {j : NegotiatingInput}
    (hj : i.negotiating? = some j) :
    (controller ser).step c i =
      (c.absorb (.negotiating ((negotiating ser).step ⟨c.round, s⟩ j).1.state,
          ((negotiating ser).step ⟨c.round, s⟩ j).1.round, ((negotiating ser).step ⟨c.round, s⟩ j).2),
        ((negotiating ser).step ⟨c.round, s⟩ j).2.map .did) := by
  have hstep : (controller ser).step c i = c.handle ser i := by
    cases i with
    | start => exact nomatch hj
    | fire => exact nomatch hj
    | event e roll => rfl
    | resume i => rfl
  rw [hstep]
  unfold Controller.handle
  rw [hs]
  dsimp only
  rw [handle_negotiating, hj]

/-- The first greeting of a peer tells the local MAC. -/
theorem step_greeting {ser : ISerializer} {c : Controller} {s : StateConnecting}
    (hs : c.state = some (.connecting s)) {sender : Device} (hpeer : sender.mac ∈ s.peers.keys)
    (hlocal : s.localMac = none) {message mac : Str}
    (hdecoded : ser.deserialize message = .ok (.hello ⟨mac⟩)) (roll : Roll) :
    (controller ser).step c (.event (.messageReceived sender message) roll) =
      (c.absorb (.connecting { s with localMac := some mac }, c.round, []), []) := by
  have hheard : StateConnecting.onMessageReceived ser s sender message =
      ({ s with localMac := some mac }, []) := by
    unfold StateConnecting.onMessageReceived
    rw [if_pos hpeer]
    dsimp only
    rw [hlocal, hdecoded]
    rfl
  have hstep : (controller ser).step c (.event (.messageReceived sender message) roll) =
      (c.absorb (.connecting (StateConnecting.onMessageReceived ser s sender message).1, c.round,
        (StateConnecting.onMessageReceived ser s sender message).2),
        (StateConnecting.onMessageReceived ser s sender message).2.map Trace.did) := by
    show c.handle ser _ = _
    unfold Controller.handle
    rw [hs]
    rfl
  rw [hstep, hheard]
  rfl

/-- **Where a `StateNegotiating` comes from**: it was there, it has handled an input, or it has been
    constructed. -/
theorem negotiating_origin {ser : ISerializer} {c : Controller} {i : ControllerInput}
    {s' : StateNegotiating}
    (h : ((controller ser).step c i).1.state = some (.negotiating s')) :
    (c.state = some (.negotiating s') ∧ ((controller ser).step c i).2 = []) ∨
    (∃ s j, c.state = some (.negotiating s) ∧ i.negotiating? = some j ∧
      s' = ((negotiating ser).step ⟨c.round, s⟩ j).1.state ∧
      ((controller ser).step c i).2 = ((negotiating ser).step ⟨c.round, s⟩ j).2.map .did) ∨
    (∃ (entry : Entry) (peers : Peers) (localMac : Str) (log : List Trace),
      s' = (entry.construct ser c.round peers localMac).1.state ∧
      ((controller ser).step c i).2 = log ++ [.installed (some .negotiating)]) := by
  have hmove := controller_move ser c i
  generalize (controller ser).step c i = r at h hmove ⊢
  cases hmove with
  | ignored => exact Or.inl ⟨h, rfl⟩
  | started hi => exact Or.inl ⟨h, rfl⟩
  | dropped t rest hi hq hkind => exact Or.inl ⟨h, rfl⟩
  | emptied t rest hi hq log hlog => exact nomatch h
  | handled s hs hi =>
    have hstate : (s.handle ser c.round i).1 = .negotiating s' := Option.some.inj h
    have hkind := handle_kind ser c.round s i
    rw [hstate] at hkind
    cases s with
    | negotiating s =>
      rw [handle_negotiating] at hstate ⊢
      cases hj : i.negotiating? with
      | none =>
        rw [hj] at hstate
        cases hstate
        exact Or.inl ⟨hs, rfl⟩
      | some j =>
        rw [hj] at hstate
        cases hstate
        exact Or.inr (Or.inl ⟨s, j, hs, rfl, rfl, rfl⟩)
    | idle s => exact nomatch hkind
    | connecting s => exact nomatch hkind
    | playing s => exact nomatch hkind
  | installed t rest r hi hq hr =>
    have hstate : r.1 = .negotiating s' := Option.some.inj h
    refine Or.inr (Or.inr ?_)
    cases t with
    | negotiating peers localMac =>
      cases hr
      cases hstate
      exact ⟨.plain, peers, localMac, _, rfl, rfl⟩
    | negotiatingWithOffer peers localMac sender message =>
      cases hr
      cases hstate
      exact ⟨.withOffer sender message, peers, localMac, _, rfl, rfl⟩
    | idle startNewGame => cases hr; exact nomatch hstate
    | connecting => cases hr; exact nomatch hstate
    | playing peers localMac generatorMac => cases hr; exact nomatch hstate
    | empty => exact nomatch hr

/-! ## 2. Runs -/

/-- What holds of every state and every output: a constructor called with what an output carries
    gives it, and a handler keeps it on the inputs that meet `G`. -/
structure Upholds (ser : ISerializer) (G : UInt32 → FsmState → ControllerInput → Prop)
    (P : FsmState → Prop) (R : Out → Prop) : Prop where
  start : R (.switch (.idle false))
  construct : ∀ round t r, R (.switch t) → t.construct ser round = some r →
    P r.1 ∧ ∀ o ∈ r.2.2, R o
  destroy : ∀ s, P s → ∀ o ∈ s.destroy, R o
  handle : ∀ round s i, G round s i → P s →
    P (s.handle ser round i).1 ∧ ∀ o ∈ (s.handle ser round i).2.2, R o

/-- A condition on the state there is and the input. -/
def Judged (G : UInt32 → FsmState → ControllerInput → Prop) (c : Controller) (i : ControllerInput) :
    Prop := ∀ s, c.state = some s → G c.round s i

/-- The state there is, the switches that wait and the log. -/
structure Upheld (P : FsmState → Prop) (R : Out → Prop) (c : Controller) (log : List Trace) :
    Prop where
  state : ∀ s, c.state = some s → P s
  switches : ∀ t ∈ c.switches, R (.switch t)
  log : ∀ o, .did o ∈ log → R o

section Invariant

variable {ser : ISerializer} {G : UInt32 → FsmState → ControllerInput → Prop}
  {P : FsmState → Prop} {R : Out → Prop} {c : Controller} {log : List Trace}

theorem mem_requested {t : Target} {outs : List Out} : t ∈ requested outs ↔ .switch t ∈ outs := by
  unfold requested
  rw [List.mem_filterMap]
  constructor
  · rintro ⟨o, ho, he⟩
    split at he
    · cases he
      exact ho
    · exact nomatch he
  · exact fun h => ⟨_, h, rfl⟩

theorem did_mem_map {o : Out} {outs : List Out} : .did o ∈ outs.map Trace.did ↔ o ∈ outs :=
  List.mem_map_of_injective fun _ _ e => Trace.did.inj e

/-- A new state, with what has been done to get there. -/
theorem Upheld.absorb {r : FsmState × UInt32 × List Out} (h : Upheld P R c log)
    (hstate : P r.1) (houts : ∀ o ∈ r.2.2, R o) {log' : List Trace}
    (hlog : ∀ o, .did o ∈ log' → R o) : Upheld P R (c.absorb r) (log ++ log') where
  state := fun _ hs => Option.some.inj hs ▸ hstate
  switches := fun t ht => (List.mem_append.mp ht).elim (h.switches t)
    fun ht => houts _ (mem_requested.mp ht)
  log := fun o ho => (List.mem_append.mp ho).elim (h.log o) (hlog o)

theorem upheld_step (hup : Upholds ser G P R) (h : Upheld P R c log) {i : ControllerInput}
    (hG : Judged G c i) :
    Upheld P R ((controller ser).step c i).1 (log ++ ((controller ser).step c i).2) := by
  have hmove := controller_move ser c i
  generalize (controller ser).step c i = r at hmove ⊢
  have hdestroyed : ∀ o ∈ c.destroyed, R o := by
    unfold Controller.destroyed
    split
    · rename_i s hs
      exact hup.destroy s (h.state s hs)
    · exact fun o ho => absurd ho List.not_mem_nil
  cases hmove with
  | ignored => rwa [List.append_nil]
  | started hi =>
    rw [List.append_nil]
    refine { h with switches := fun t ht => ?_ }
    rcases List.mem_append.mp ht with ht | ht
    · exact h.switches t ht
    · exact List.mem_singleton.mp ht ▸ hup.start
  | handled s hs hi =>
    obtain ⟨hstate, houts⟩ := hup.handle c.round s i (hG s hs) (h.state s hs)
    exact h.absorb hstate houts fun o ho => houts o (did_mem_map.mp ho)
  | dropped t rest hi hq hkind =>
    rw [List.append_nil]
    exact { h with switches := fun t ht => h.switches t (hq ▸ List.mem_cons_of_mem _ ht) }
  | emptied t rest hi hq log' hlog =>
    refine ⟨nofun, fun t ht => h.switches t (hq ▸ List.mem_cons_of_mem _ ht),
      fun o ho => ?_⟩
    rcases List.mem_append.mp ho with ho | ho
    · exact h.log o ho
    · rcases hlog _ ho with he | ⟨o', ho', he⟩
      · exact nomatch he
      · cases he
        exact hdestroyed o ho'
  | installed t rest r hi hq hr =>
    have ht : R (.switch t) := h.switches t (hq ▸ List.mem_cons_self)
    obtain ⟨hstate, houts⟩ := hup.construct c.round t r ht hr
    have hrest : Upheld P R { c with switches := rest } log :=
      { h with switches := fun t ht => h.switches t (hq ▸ List.mem_cons_of_mem _ ht) }
    refine hrest.absorb hstate houts fun o ho => ?_
    rcases List.mem_append.mp ho with ho | ho
    · rcases List.mem_append.mp ho with ho | ho
      · exact hdestroyed o (did_mem_map.mp ho)
      · exact houts o (did_mem_map.mp ho)
    · exact nomatch List.mem_singleton.mp ho

/-- **The run rule of the controller.** -/
theorem controller_invariant (hup : Upholds ser G P R) {is : List ControllerInput}
    (hG : (controller ser).Along (Judged G) .initial is) :
    Upheld P R ((controller ser).exec .initial is) ((controller ser).outs .initial is) :=
  Machine.log_invariant_along (P := Upheld P R) (l := []) (fun _ _ _ hG h => upheld_step hup h hG) hG
    ⟨nofun, fun _ ht => absurd ht List.not_mem_nil, fun _ ho => absurd ho List.not_mem_nil⟩

end Invariant

end Veridie.Fsm
