/-
  File:      Veridie/Fsm/Outliving.lean
  Subject:   Whether discovery and listening outlive the `StateConnecting` that started them.

  The destructor stops what the flags say has been found to run. A start that is on its way when the
  state is destroyed is answered to a cancelled coroutine, which sets no flag and stops nothing.

  * `Start` -- a start command: whether its state is gone, its answer, whether it was stopped;
  * `searching` -- the controller with all starts, and the answers to those whose state is gone;
  * `Overseen` -- a start that succeeded is known to the state that made it, or stopped with it;
  * `searches_stopped_iff` -- every search is stopped, but for a start that succeeds too late.
-/
import Veridie.Fsm.Radio
import Veridie.Fsm.Runs

namespace Veridie.Fsm

open Veridie.Lib Veridie.Dice Veridie.Sign

/-! ## 1. Starts -/

/-- What `StateConnecting` starts. -/
inductive Search where
  | discovery
  | listening
  deriving DecidableEq, Repr

/-- `m_discovering` and `m_listening`. -/
def StateConnecting.flag (s : StateConnecting) : Search → Option Bool
  | .discovery => s.discovering
  | .listening => s.listening

/-- The search that an output starts. -/
def Out.starts : Out → Option Search
  | .issue .startDiscovery => some .discovery
  | .issue .startListening => some .listening
  | _ => none

/-- The search that an output stops. -/
def Out.stops : Out → Option Search
  | .issue .stopDiscovery => some .discovery
  | .issue .stopListening => some .listening
  | _ => none

/-- A `StartDiscovery` or `StartListening` issued by a `StateConnecting`: whether the state has been
    destroyed, the answer, and whether a `StopDiscovery` or `StopListening` came behind it. -/
structure Start where
  search : Search
  orphaned : Bool
  answer : Option ResponseCode
  stopped : Bool
  deriving DecidableEq, Repr

/-- The search runs on, and there is nobody left to stop it. -/
def Start.Outlives (t : Start) : Prop := t.orphaned = true ∧ t.answer = some .ok ∧ t.stopped = false

/-- The answer a loop of the state waits for. -/
def Start.hear (answer : Option (Search × ResponseCode)) (t : Start) : Start :=
  match answer with
  | some (search, r) =>
    if t.search = search ∧ t.orphaned = false ∧ t.answer = none then { t with answer := some r }
    else t
  | none => t

/-- The answer to a cancelled loop. -/
def Start.hearLate (r : ResponseCode) (t : Start) : Start :=
  if t.orphaned = true ∧ t.answer = none then { t with answer := some r } else t

/-- The state is gone. -/
def Start.orphan (t : Start) : Start := { t with orphaned := true }

/-- A command that stops a search. -/
def Start.stop (search : Search) (t : Start) : Start :=
  if t.search = search then { t with stopped := true } else t

/-- The starts once the controller has done something; `connecting` tells whether it was a
    `StateConnecting` that did it. -/
def noteStart (connecting : Bool) (starts : List Start) : Trace → List Start
  | .did o =>
    match o.starts, o.stops with
    | some search, _ => if connecting then starts ++ [⟨search, false, none, false⟩] else starts
    | none, some search => starts.map (Start.stop search)
    | none, none => starts
  | .installed _ => starts

/-! ## 2. The controller and the starts -/

/-- Whether the state is `StateConnecting`. -/
def Controller.searches (c : Controller) : Bool :=
  match c.state with
  | some (.connecting _) => true
  | _ => false

/-- The start that an input answers to the state, and what it answers. -/
def Controller.answers (c : Controller) (i : ControllerInput) : Option (Search × ResponseCode) :=
  match c.state, i with
  | some (.connecting s), .resume (.connecting (.discovery r)) =>
    match s.discovery with
    | some (.asking _) => some (.discovery, r)
    | _ => none
  | some (.connecting s), .resume (.connecting (.listening r)) =>
    match s.listen with
    | some (.asking _) => some (.listening, r)
    | _ => none
  | _, _ => none

/-- The controller, and the starts from the oldest on. -/
structure Searching where
  controller : Controller
  starts : List Start

/-- What can happen: what can happen to the controller, or an answer to a start whose state is
    gone. -/
inductive SearchingInput where
  | regular (i : ControllerInput)
  | late (k : Nat) (r : ResponseCode)

/-- The starts behind a step of the controller: one may have been answered, all are orphaned unless
    there is a `StateConnecting`, and the log starts and stops. -/
def Searching.follow (w : Searching) (i : ControllerInput) (c : Controller) (log : List Trace) :
    Searching where
  controller := c
  starts :=
    let heard := w.starts.map (Start.hear (w.controller.answers i))
    log.foldl (noteStart c.searches) (if c.searches then heard else heard.map Start.orphan)

/-- The controller over everything that can happen, with the starts. -/
def searching (ser : ISerializer) : Machine Searching SearchingInput Trace where
  step w i :=
    match i with
    | .regular i =>
      let (c, log) := (controller ser).step w.controller i
      (w.follow i c log, log)
    | .late k r => (⟨w.controller, w.starts.modify k (Start.hearLate r)⟩, [])

/-- Before `Start`. -/
def Searching.initial : Searching := ⟨.initial, []⟩

/-- A start whose state is gone succeeds while nothing has stopped its search. -/
def SucceedsLate (w : Searching) (i : SearchingInput) : Prop :=
  ∃ k t, i = .late k .ok ∧ w.starts[k]? = some t ∧ t.orphaned = true ∧ t.answer = none ∧
    t.stopped = false

/-! ## 3. A step of the controller -/

/-- What a step of the controller is to a `StateConnecting`. -/
inductive ConnectingNext (ser : ISerializer) (c c' : Controller) (log : List Trace) : Prop where
  | stays (s s' : StateConnecting) (hs : c.state = some (.connecting s))
      (hs' : c'.state = some (.connecting s'))
      (hstep : s' = s ∨ ∃ i, s' = ((connecting ser).step s i).1)
  | leaves (s : StateConnecting) (hs : c.state = some (.connecting s))
      (hnone : ∀ s', c'.state ≠ some (.connecting s')) (hlog : ∀ o ∈ s.destroy, .did o ∈ log)
  | comes (hnone : ∀ s, c.state ≠ some (.connecting s))
      (hs' : c'.state = some (.connecting StateConnecting.construct.1))
  | other (hnone : ∀ s, c.state ≠ some (.connecting s))
      (hnone' : ∀ s, c'.state ≠ some (.connecting s))

section Next

variable {ser : ISerializer} {c : Controller}

theorem next_of_state {c' : Controller} {log : List Trace} (h : c'.state = c.state) :
    ConnectingNext ser c c' log := by
  by_cases hs : ∃ s, c.state = some (.connecting s)
  · obtain ⟨s, hs⟩ := hs
    exact .stays s s hs (h.trans hs) (Or.inl rfl)
  · have hnone : ∀ s, c.state ≠ some (.connecting s) := fun s he => hs ⟨s, he⟩
    exact .other hnone fun s he => hnone s (h.symm.trans he)

theorem handle_next (i : ControllerInput) :
    ConnectingNext ser c (c.handle ser i).1 (c.handle ser i).2 := by
  unfold Controller.handle
  split
  · exact next_of_state rfl
  · rename_i s hs
    have hkind := handle_kind ser c.round s i
    cases s with
    | connecting s =>
      cases i with
      | start => exact next_of_state hs.symm
      | fire => exact next_of_state hs.symm
      | event e roll => exact .stays s _ hs rfl (Or.inr ⟨.event e, rfl⟩)
      | resume i =>
        cases i with
        | connecting i => exact .stays s _ hs rfl (Or.inr ⟨.resume i, rfl⟩)
        | _ => exact next_of_state hs.symm
    | _ =>
      refine .other (fun s' he => nomatch hs.symm.trans he) fun s' he => ?_
      rw [show _ = FsmState.connecting s' from Option.some.inj he] at hkind
      exact nomatch hkind

/-- The state that a constructor makes. -/
theorem construct_next {t : Target} {r : FsmState × UInt32 × List Out}
    (hr : t.construct ser c.round = some r) :
    r.1 = .connecting StateConnecting.construct.1 ∨ r.1.kind ≠ .connecting := by
  cases t with
  | connecting =>
    cases hr
    exact Or.inl rfl
  | empty => exact nomatch hr
  | _ =>
    cases hr
    exact Or.inr nofun

theorem fire_next : ConnectingNext ser c (c.fire ser).1 (c.fire ser).2 := by
  have hdestroyed : ∀ {s : StateConnecting}, c.state = some (.connecting s) → ∀ o ∈ s.destroy,
      .did o ∈ c.destroyed.map Trace.did := fun hs o ho => by
    refine List.mem_map_of_mem ?_
    unfold Controller.destroyed
    rw [hs]
    exact ho
  unfold Controller.fire
  split
  · exact next_of_state rfl
  · rename_i t rest hq
    split
    · by_cases hs : ∃ s, c.state = some (.connecting s)
      · obtain ⟨s, hs⟩ := hs
        exact .leaves s hs nofun fun o ho => List.mem_append_left _ (hdestroyed hs o ho)
      · exact .other (fun s he => hs ⟨s, he⟩) nofun
    · rename_i r hr
      split
      · exact next_of_state rfl
      · rename_i hkind
        by_cases hs : ∃ s, c.state = some (.connecting s)
        · obtain ⟨s, hs⟩ := hs
          refine .leaves s hs (fun s' he => hkind ?_) fun o ho =>
            List.mem_append_left _ (List.mem_append_left _ (hdestroyed hs o ho))
          rw [hs, show r.1 = _ from Option.some.inj he]
          rfl
        · have hnone : ∀ s, c.state ≠ some (.connecting s) := fun s he => hs ⟨s, he⟩
          rcases construct_next hr with he | he
          · exact .comes hnone (congrArg some he)
          · refine .other hnone fun s' hs' => he ?_
            rw [show r.1 = _ from Option.some.inj hs']
            rfl

/-- **A step of the controller**, as `StateConnecting` sees it. -/
theorem controller_next (i : ControllerInput) :
    ConnectingNext ser c ((controller ser).step c i).1 ((controller ser).step c i).2 := by
  cases i with
  | start =>
    show ConnectingNext ser c c.start.1 c.start.2
    unfold Controller.start
    split
    · exact next_of_state rfl
    · exact next_of_state rfl
  | fire => exact fire_next
  | event e roll => exact handle_next _
  | resume i => exact handle_next _

/-- A start that succeeds sets the flag. -/
theorem answers_ok {i : ControllerInput} {search : Search} (h : c.answers i = some (search, .ok)) :
    ∃ s', ((controller ser).step c i).1.state = some (.connecting s') ∧
      s'.flag search = some true := by
  unfold Controller.answers at h
  split at h
  · rename_i s r hs
    split at h
    · rename_i n hloop
      cases h
      refine ⟨{ s with discovering := some true, discovery := none }, ?_, rfl⟩
      show (c.handle ser _).1.state = _
      unfold Controller.handle
      rw [hs]
      simp only [Controller.absorb, FsmState.handle, FsmState.resume, StateConnecting.resume, hloop,
        StateConnecting.onDiscoveryAnswer]
    · exact nomatch h
  · rename_i s r hs
    split at h
    · rename_i n hloop
      cases h
      refine ⟨{ s with listening := some true, listen := none }, ?_, rfl⟩
      show (c.handle ser _).1.state = _
      unfold Controller.handle
      rw [hs]
      simp only [Controller.absorb, FsmState.handle, FsmState.resume, StateConnecting.resume, hloop,
        StateConnecting.onListeningAnswer]
    · exact nomatch h
  · exact nomatch h

/-- A flag that is set stays. -/
theorem flag_kept {s : StateConnecting} (he : Ended s.radio) {search : Search}
    (h : s.flag search = some true) (i : ConnectingInput) :
    ((connecting ser).step s i).1.flag search = some true := by
  have hdiscovery : search = .discovery → s.discovery = none := by
    rintro rfl
    exact he.discovery (Option.isSome_iff_exists.mpr ⟨true, h⟩)
  have hlistening : search = .listening → s.listen = none := by
    rintro rfl
    exact he.listening (Option.isSome_iff_exists.mpr ⟨true, h⟩)
  have hmove := @radio_move ser s i
  generalize (connecting ser).step s i = r at hmove ⊢
  cases search with
  | discovery =>
    have hnone := hdiscovery rfl
    cases hmove with
    | framed r hf => exact (congrArg Radio.discovering hf.1).trans h
    | discoveryOk n hs hi => rfl
    | discoveryOff n hs hi => exact h
    | discoveryBusy n hs hi => exact h
    | discoveryFailed n r hs hi hr => exact nomatch hnone.symm.trans hs
    | discoveryRetried n hs hi hn => exact h
    | discoveryGivenUp hs hi s' hs' => exact nomatch hnone.symm.trans hs
    | listeningDeclined n hs hi s' hs' => exact hs' ▸ h
    | listeningGivenUp hs hi s' hs' => exact hs' ▸ h
    | _ => exact h
  | listening =>
    have hnone := hlistening rfl
    cases hmove with
    | framed r hf => exact (congrArg Radio.listening hf.1).trans h
    | listeningOk n hs hi => rfl
    | listeningDeclined n hs hi s' hs' => exact nomatch hnone.symm.trans hs
    | listeningGivenUp hs hi s' hs' => exact nomatch hnone.symm.trans hs
    | discoveryGivenUp hs hi s' hs' => exact hs' ▸ h
    | _ => exact h

/-- The destructor stops what the flags say. -/
theorem destroy_stops {s : StateConnecting} {search : Search} (h : s.flag search = some true) :
    ∃ o ∈ s.destroy, o.stops = some search := by
  unfold StateConnecting.destroy
  cases search with
  | discovery =>
    refine ⟨.issue .stopDiscovery, List.mem_append_left _ ?_, rfl⟩
    rw [show s.discovering = some true from h]
    exact List.mem_singleton.mpr rfl
  | listening =>
    refine ⟨.issue .stopListening, List.mem_append_right _ ?_, rfl⟩
    rw [show s.listening = some true from h]
    exact List.mem_singleton.mpr rfl

end Next

/-! ## 4. What the log does to the starts -/

/-- The log stops a search. -/
def StopsIn (search : Search) (log : List Trace) : Prop := ∃ o, .did o ∈ log ∧ o.stops = some search

/-- A start with the same answer and the same state, which is stopped when `P` holds. -/
structure Start.Passes (P : Prop) (t t' : Start) : Prop where
  search : t'.search = t.search
  orphaned : t'.orphaned = t.orphaned
  answer : t'.answer = t.answer
  stopped : t'.stopped = true ↔ t.stopped = true ∨ P

section Log

theorem stop_passes (search : Search) (t : Start) :
    t.Passes (t.search = search) (t.stop search) := by
  unfold Start.stop
  split
  · rename_i h
    exact ⟨rfl, rfl, rfl, iff_of_true rfl (Or.inr h)⟩
  · rename_i h
    exact ⟨rfl, rfl, rfl, (or_iff_left h).symm⟩

theorem starts_stops {o : Out} {search : Search} (h : o.starts = some search) : o.stops = none := by
  unfold Out.starts at h
  split at h
  · rfl
  · rfl
  · exact nomatch h

/-- A start behind one entry of the log. -/
theorem mem_noteStart {connecting : Bool} {starts : List Start} {e : Trace} {t' : Start}
    (h : t' ∈ noteStart connecting starts e) :
    (∃ t ∈ starts, t.Passes (StopsIn t.search [e]) t') ∨
      (connecting = true ∧ t'.orphaned = false ∧ t'.answer = none) := by
  have hsame : (∀ search, ¬ StopsIn search [e]) → t' ∈ starts →
      ∃ t ∈ starts, t.Passes (StopsIn t.search [e]) t' := fun hno hm =>
    ⟨t', hm, rfl, rfl, rfl, (or_iff_left (hno _)).symm⟩
  cases e with
  | installed kind =>
    refine Or.inl (hsame ?_ h)
    rintro search ⟨o, ho, _⟩
    exact nomatch List.mem_singleton.mp ho
  | did o =>
    have hstops : ∀ search, StopsIn search [.did o] ↔ o.stops = some search := fun search => by
      simp [StopsIn]
    unfold noteStart at h
    dsimp only at h
    split at h
    · rename_i search hstarts
      have hno : ∀ search, ¬ StopsIn search [.did o] := fun search hs => by
        rw [hstops, starts_stops hstarts] at hs
        exact nomatch hs
      split at h
      · rename_i hconnecting
        rcases List.mem_append.mp h with h | h
        · exact Or.inl (hsame hno h)
        · rw [List.mem_singleton.mp h]
          exact Or.inr ⟨hconnecting, rfl, rfl⟩
      · exact Or.inl (hsame hno h)
    · rename_i search hstart hstop
      obtain ⟨t, ht, rfl⟩ := List.mem_map.mp h
      have hpasses := stop_passes search t
      refine Or.inl ⟨t, ht, hpasses.search, hpasses.orphaned, hpasses.answer, ?_⟩
      rw [hpasses.stopped, hstops, hstop, Option.some.injEq, eq_comm (a := search)]
    · rename_i hstart hstop
      refine Or.inl (hsame (fun search hs => ?_) h)
      rw [hstops, hstop] at hs
      exact nomatch hs

/-- A start behind the whole log. -/
theorem mem_noteStarts {connecting : Bool} {log : List Trace} {starts : List Start} {t' : Start}
    (h : t' ∈ log.foldl (noteStart connecting) starts) :
    (∃ t ∈ starts, t.Passes (StopsIn t.search log) t') ∨
      (connecting = true ∧ t'.orphaned = false ∧ t'.answer = none) := by
  induction log generalizing starts with
  | nil => exact Or.inl ⟨t', h, rfl, rfl, rfl, by simp [StopsIn]⟩
  | cons e log ih =>
    rcases ih h with ⟨t, ht, hlater⟩ | hnew
    · rcases mem_noteStart ht with ⟨t₀, ht₀, hfirst⟩ | ⟨hconnecting, horphaned, hanswer⟩
      · refine Or.inl ⟨t₀, ht₀, hlater.search.trans hfirst.search,
          hlater.orphaned.trans hfirst.orphaned, hlater.answer.trans hfirst.answer, ?_⟩
        rw [hlater.stopped, hfirst.stopped, hfirst.search, or_assoc]
        refine or_congr_right ?_
        simp [StopsIn, or_and_right, exists_or]
      · exact Or.inr
          ⟨hconnecting, hlater.orphaned.trans horphaned, hlater.answer.trans hanswer⟩
    · exact Or.inr hnew

theorem hear_eq (answer : Option (Search × ResponseCode)) (t : Start) :
    t.hear answer = t ∨ ∃ r, answer = some (t.search, r) ∧ t.orphaned = false ∧
      t.hear answer = { t with answer := some r } := by
  unfold Start.hear
  split
  · rename_i search r
    split
    · rename_i h
      exact Or.inr ⟨r, by rw [h.1], h.2.1, rfl⟩
    · exact Or.inl rfl
  · exact Or.inl rfl

theorem hear_same (answer : Option (Search × ResponseCode)) (t : Start) :
    (t.hear answer).search = t.search ∧ (t.hear answer).orphaned = t.orphaned ∧
      (t.hear answer).stopped = t.stopped := by
  rcases hear_eq answer t with he | ⟨r, _, _, he⟩ <;> rw [he] <;> exact ⟨rfl, rfl, rfl⟩

/-- A start behind a step of the controller: an earlier one, or a new one. -/
theorem mem_follow {w : Searching} {i : ControllerInput} {c : Controller} {log : List Trace}
    {t' : Start} (h : t' ∈ (w.follow i c log).starts) :
    (∃ t ∈ w.starts, t'.search = t.search ∧ t'.orphaned = (t.orphaned || !c.searches) ∧
      t'.answer = (t.hear (w.controller.answers i)).answer ∧
      (t'.stopped = true ↔ t.stopped = true ∨ StopsIn t.search log)) ∨
    (c.searches = true ∧ t'.orphaned = false ∧ t'.answer = none) := by
  unfold Searching.follow at h
  dsimp only at h
  refine (mem_noteStarts h).imp_left ?_
  rintro ⟨t₁, ht₁, hpasses⟩
  obtain ⟨t, ht, hsearch, horphaned, hanswer, hstopped⟩ : ∃ t ∈ w.starts, t₁.search = t.search ∧
      t₁.orphaned = (t.orphaned || !c.searches) ∧
      t₁.answer = (t.hear (w.controller.answers i)).answer ∧ t₁.stopped = t.stopped := by
    split at ht₁
    · rename_i hthere
      obtain ⟨t, ht, rfl⟩ := List.mem_map.mp ht₁
      obtain ⟨hsearch, horphaned, hstopped⟩ := hear_same (w.controller.answers i) t
      exact ⟨t, ht, hsearch, by rw [horphaned, hthere, Bool.not_true, Bool.or_false], rfl, hstopped⟩
    · rename_i hgone
      obtain ⟨t₂, ht₂, rfl⟩ := List.mem_map.mp ht₁
      obtain ⟨t, ht, rfl⟩ := List.mem_map.mp ht₂
      obtain ⟨hsearch, _, hstopped⟩ := hear_same (w.controller.answers i) t
      exact ⟨t, ht, hsearch, by rw [Bool.eq_false_iff.mpr hgone, Bool.not_false, Bool.or_true]; rfl,
        rfl, hstopped⟩
  refine ⟨t, ht, hpasses.search.trans hsearch, hpasses.orphaned.trans horphaned,
    hpasses.answer.trans hanswer, ?_⟩
  rw [hpasses.stopped, hstopped, hsearch]

end Log

/-! ## 5. Runs -/

/-- What holds of the starts: a success that the state has heard of is in its flag, and no search
    outlives it. -/
structure Overseen (w : Searching) : Prop where
  ended : ∀ s, w.controller.state = some (.connecting s) → Ended s.radio
  flagged : ∀ t ∈ w.starts, t.orphaned = false → t.answer = some .ok →
    ∃ s, w.controller.state = some (.connecting s) ∧ s.flag t.search = some true
  stopped : ∀ t ∈ w.starts, ¬ t.Outlives

section Runs

variable {ser : ISerializer} {w : Searching}

theorem searches_iff {c : Controller} :
    c.searches = true ↔ ∃ s, c.state = some (.connecting s) := by
  unfold Controller.searches
  split
  · rename_i s hs
    exact iff_of_true rfl ⟨s, hs⟩
  · rename_i h
    exact iff_of_false nofun fun ⟨s, hs⟩ => h s hs

/-- A start that the state has heard succeed, before the step or by it. -/
theorem heard_ok (h : Overseen w) (i : ControllerInput) {t : Start} (ht : t ∈ w.starts)
    (horphaned : t.orphaned = false) (hok : (t.hear (w.controller.answers i)).answer = some .ok) :
    (∃ s, w.controller.state = some (.connecting s) ∧ s.flag t.search = some true) ∨
    ∃ s', ((controller ser).step w.controller i).1.state = some (.connecting s') ∧
      s'.flag t.search = some true := by
  rcases hear_eq (w.controller.answers i) t with he | ⟨r, hanswers, _, he⟩
  · rw [he] at hok
    exact Or.inl (h.flagged t ht horphaned hok)
  · rw [he] at hok
    cases hok
    exact Or.inr (answers_ok hanswers)

/-- A success that came before the state was gone has been stopped. -/
theorem orphan_stopped (h : Overseen w) (i : ControllerInput) {t : Start} (ht : t ∈ w.starts)
    (horphaned : t.orphaned = true) (hok : (t.hear (w.controller.answers i)).answer = some .ok) :
    t.stopped = true := by
  rcases hear_eq (w.controller.answers i) t with he | ⟨_, _, hnot, _⟩
  · rw [he] at hok
    exact Bool.of_not_eq_false fun hst => h.stopped t ht ⟨horphaned, hok, hst⟩
  · exact nomatch horphaned.symm.trans hnot

/-- A step behind which there is a `StateConnecting`: its flags say what it has heard. -/
theorem overseen_there (h : Overseen w) (i : ControllerInput)
    (hthere : ((controller ser).step w.controller i).1.searches = true) :
    Overseen (w.follow i ((controller ser).step w.controller i).1
      ((controller ser).step w.controller i).2) := by
  obtain ⟨s', hs'⟩ := searches_iff.mp hthere
  have hended : Ended s'.radio ∧ ∀ s, w.controller.state = some (.connecting s) → ∀ search,
      s.flag search = some true → s'.flag search = some true := by
    cases @controller_next ser w.controller i with
    | stays s₀ s₁ hs₀ hs₁ hstep =>
      cases hs'.symm.trans hs₁
      refine ⟨?_, fun s hs search hsearch => ?_⟩
      · rcases hstep with rfl | ⟨j, rfl⟩
        · exact h.ended _ hs₀
        · exact ended_step (h.ended _ hs₀) j
      · cases hs.symm.trans hs₀
        rcases hstep with rfl | ⟨j, rfl⟩
        · exact hsearch
        · exact flag_kept (h.ended _ hs) hsearch j
    | leaves s₀ hs₀ hnone hlog => exact absurd hs' (hnone s')
    | comes hnone hs₁ =>
      cases hs'.symm.trans hs₁
      exact ⟨ended_construct, fun s hs => absurd hs (hnone s)⟩
    | other hnone hnone' => exact absurd hs' (hnone' s')
  refine ⟨fun s hs => ?_, fun t' ht' horphaned hok => ?_, fun t' ht' => ?_⟩
  · cases hs'.symm.trans hs
    exact hended.1
  · rcases mem_follow ht' with ⟨t, ht, hsearch, hkept, hanswer, _⟩ | ⟨_, _, hnone⟩
    · rw [hkept, hthere, Bool.not_true, Bool.or_false] at horphaned
      refine ⟨s', hs', ?_⟩
      rw [hsearch]
      rcases @heard_ok ser w h i t ht horphaned (hanswer.symm.trans hok) with
        ⟨s, hs, hflag⟩ | ⟨s₁, hs₁, hflag⟩
      · exact hended.2 s hs _ hflag
      · cases hs'.symm.trans hs₁
        exact hflag
    · exact nomatch hnone.symm.trans hok
  · rintro ⟨horphaned, hok, hstopped⟩
    rcases mem_follow ht' with ⟨t, ht, _, hkept, hanswer, hstops⟩ | ⟨_, _, hnone⟩
    · rw [hkept, hthere, Bool.not_true, Bool.or_false] at horphaned
      have hbefore := orphan_stopped h i ht horphaned (hanswer.symm.trans hok)
      exact nomatch (hstops.mpr (Or.inl hbefore)).symm.trans hstopped
    · exact nomatch hnone.symm.trans hok

/-- A step behind which there is none: what one had heard was stopped when it was destroyed. -/
theorem overseen_gone (h : Overseen w) (i : ControllerInput)
    (hgone : ((controller ser).step w.controller i).1.searches = false) :
    Overseen (w.follow i ((controller ser).step w.controller i).1
      ((controller ser).step w.controller i).2) := by
  have hnone : ∀ s, ((controller ser).step w.controller i).1.state ≠ some (.connecting s) :=
    fun s hs => nomatch hgone.symm.trans (searches_iff.mpr ⟨s, hs⟩)
  have hstops : ∀ s, w.controller.state = some (.connecting s) → ∀ search,
      s.flag search = some true → StopsIn search ((controller ser).step w.controller i).2 := by
    intro s hs search hsearch
    cases @controller_next ser w.controller i with
    | stays s₀ s₁ hs₀ hs₁ hstep => exact absurd hs₁ (hnone s₁)
    | leaves s₀ hs₀ hnone' hlog =>
      cases hs.symm.trans hs₀
      obtain ⟨o, ho, hstop⟩ := destroy_stops hsearch
      exact ⟨o, hlog o ho, hstop⟩
    | comes hnone' hs₁ => exact absurd hs (hnone' s)
    | other hnone' hnone'' => exact absurd hs (hnone' s)
  have hfollowed : ∀ t' ∈ (w.follow i ((controller ser).step w.controller i).1
      ((controller ser).step w.controller i).2).starts, t'.orphaned = true ∧
      (t'.answer = some .ok → t'.stopped = true) := by
    intro t' ht'
    rcases mem_follow ht' with ⟨t, ht, _, hkept, hanswer, hstopped⟩ | ⟨hthere, _⟩
    · rw [hgone, Bool.not_false, Bool.or_true] at hkept
      refine ⟨hkept, fun hok => hstopped.mpr ?_⟩
      rw [hanswer] at hok
      cases horphaned : t.orphaned with
      | true => exact Or.inl (orphan_stopped h i ht horphaned hok)
      | false =>
        rcases @heard_ok ser w h i t ht horphaned hok with ⟨s, hs, hflag⟩ | ⟨s₁, hs₁, _⟩
        · exact Or.inr (hstops s hs _ hflag)
        · exact absurd hs₁ (hnone s₁)
    · exact nomatch hgone.symm.trans hthere
  exact ⟨fun s hs => absurd hs (hnone s),
    fun t' ht' horphaned _ => (nomatch horphaned.symm.trans (hfollowed t' ht').1),
    fun t' ht' ⟨_, hok, hstopped⟩ => nomatch ((hfollowed t' ht').2 hok).symm.trans hstopped⟩

/-- An answer to a start whose state is gone. -/
theorem overseen_late (h : Overseen w) {k : Nat} {r : ResponseCode}
    (hlate : ¬ SucceedsLate w (.late k r)) : Overseen ((searching ser).step w (.late k r)).1 := by
  have hmem : ∀ t' ∈ w.starts.modify k (Start.hearLate r), t' ∈ w.starts ∨
      ∃ t, w.starts[k]? = some t ∧ t.orphaned = true ∧ t.answer = none ∧
        t' = { t with answer := some r } := by
    intro t' ht'
    obtain ⟨j, hj⟩ := List.mem_iff_getElem?.mp ht'
    rw [List.getElem?_modify] at hj
    split at hj
    · rename_i hk
      obtain ⟨t, ht, rfl⟩ := Option.map_eq_some_iff.mp hj
      unfold Start.hearLate
      split
      · rename_i hcancelled
        exact Or.inr ⟨t, hk ▸ ht, hcancelled.1, hcancelled.2, rfl⟩
      · exact Or.inl (List.mem_of_getElem? ht)
    · obtain ⟨t, ht, rfl⟩ := Option.map_eq_some_iff.mp hj
      exact Or.inl (List.mem_of_getElem? ht)
  refine ⟨h.ended, fun t' ht' horphaned hok => ?_, fun t' ht' => ?_⟩
  · rcases hmem t' ht' with ht | ⟨t, _, horphaned', _, rfl⟩
    · exact h.flagged t' ht horphaned hok
    · exact nomatch horphaned.symm.trans horphaned'
  · rcases hmem t' ht' with ht | ⟨t, ht, horphaned, hnone, rfl⟩
    · exact h.stopped t' ht
    · rintro ⟨_, hok, hstopped⟩
      cases hok
      exact hlate ⟨k, t, rfl, ht, horphaned, hnone, hstopped⟩

/-- **A step** lets no search outlive its state, unless a start succeeds late. -/
theorem overseen_step (h : Overseen w) {i : SearchingInput} (hlate : ¬ SucceedsLate w i) :
    Overseen ((searching ser).step w i).1 := by
  cases i with
  | regular i =>
    show Overseen (w.follow i _ _)
    cases hthere : ((controller ser).step w.controller i).1.searches with
    | true => exact overseen_there h i hthere
    | false => exact overseen_gone h i hthere
  | late k r => exact overseen_late h hlate

/-- A start that succeeds late outlives its state. -/
theorem outlives_late {i : SearchingInput} (h : SucceedsLate w i) :
    ∃ t ∈ ((searching ser).step w i).1.starts, t.Outlives := by
  obtain ⟨k, t, rfl, ht, horphaned, hnone, hstopped⟩ := h
  refine ⟨t.hearLate .ok, List.mem_of_getElem? (i := k) ?_, ?_⟩
  · show (w.starts.modify k (Start.hearLate .ok))[k]? = _
    rw [List.getElem?_modify, ht]
    simp
  · unfold Start.hearLate
    rw [if_pos ⟨horphaned, hnone⟩]
    exact ⟨horphaned, rfl, hstopped⟩

theorem overseen_initial : Overseen .initial :=
  ⟨nofun, fun _ ht => absurd ht List.not_mem_nil, fun _ ht => absurd ht List.not_mem_nil⟩

/-- **No search outlives its state** at any point of a run exactly when no start succeeds after its
    state is gone, while nothing has stopped its search. -/
theorem searches_stopped_iff (ser : ISerializer) (is : List SearchingInput) :
    (∀ is₁, is₁ <+: is → ∀ t ∈ ((searching ser).exec .initial is₁).starts, ¬ t.Outlives) ↔
      (searching ser).Along (fun w i => ¬ SucceedsLate w i) .initial is := by
  constructor
  · intro h
    refine Machine.along_of_split _ fun is₁ i is₂ hsplit hlate => ?_
    obtain ⟨t, ht, houtlives⟩ := @outlives_late ser _ _ hlate
    rw [← Machine.exec_snoc] at ht
    exact h (is₁ ++ [i]) ⟨is₂, by rw [hsplit, List.append_assoc]; rfl⟩ t ht houtlives
  · rintro h is₁ ⟨is₂, rfl⟩
    exact (Machine.invariant_along (P := Overseen) (fun w i hlate hw => overseen_step hw hlate)
      ((Machine.along_append _).mp h).1 overseen_initial).stopped

/-- A game is requested, stopped again before discovery is answered, and discovery succeeds. -/
def stopEarly : List SearchingInput :=
  [.regular .start, .regular .fire, .regular (.event .newGame id),
    .regular (.event .bluetoothOn id), .regular .fire, .regular (.event .gameStopped id),
    .regular .fire, .late 0 .ok]

/-- **The game is stopped while discovery is asked for**: nothing stops discovery. -/
theorem searches_stopped_fails : ¬ ∀ t ∈ ((searching (xmlSerializer walkAsIs)).exec .initial
    stopEarly).starts, ¬ t.Outlives := by
  intro h
  have hstarts : ((searching (xmlSerializer walkAsIs)).exec .initial stopEarly).starts =
      [⟨.discovery, true, some .ok, false⟩, ⟨.listening, true, none, false⟩] := rfl
  rw [hstarts] at h
  exact h _ List.mem_cons_self ⟨rfl, rfl, rfl⟩

end Runs

end Veridie.Fsm
