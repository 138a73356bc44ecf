/-
  File:      Veridie/Utils/FirstResult.lean
  Subject:   What the caller of `AnyOf` gets, and what becomes of the competing tasks, in every run.

  Until the first task completes all of them are suspended under wrappers that are not canceled;
  from then on each is gone, or suspended under a wrapper that is canceled. The exceptions are two:
  a task behind one that completes when it is started is never started, and nobody frees it; and
  the wrappers do not look at the flag of the caller.

  * `Body.immediate` -- the task completes when it is started;
  * `Fair` -- what the frames and the events so far ought to be like;
  * `Racing`, `Settled` -- what they are like before and after the first completion;
  * `first_result_iff` -- when every run is as it ought to be.
-/
import Veridie.Utils.AnyOf

namespace Veridie.Utils

open Veridie.Lib

variable {R V O : Type}

/-! ## 1. Events -/

/-- A competing task executes a statement. -/
def RaceEvent.statement : RaceEvent V O → Bool
  | .exec _ _ | .awaits _ | .completed _ _ => true
  | .resumed _ _ | .freed _ | .undefined => false

def RaceEvent.completion? : RaceEvent V O → Option (Nat × V)
  | .completed k v => some (k, v)
  | _ => none

def RaceEvent.result? : RaceEvent V O → Option (Nat × V)
  | .resumed k v => some (k, v)
  | _ => none

def RaceEvent.frees (f : FrameName) : RaceEvent V O → Bool
  | .freed g => g = f
  | _ => false

/-- Statements before a completion. -/
def RaceEvent.quiet : RaceEvent V O → Bool
  | .exec _ _ | .awaits _ => true
  | .completed _ _ | .resumed _ _ | .freed _ | .undefined => false

/-- The task completes when it is started. -/
def Body.immediate : Body R V O → Bool
  | .exec _ rest => rest.immediate
  | .await _ => false
  | .ret _ => true

section Events

variable {evs evs' : List (RaceEvent V O)}

theorem RaceEvent.of_quiet {e : RaceEvent V O} (h : e.quiet = true) : e.completion? = none ∧
    e.result? = none ∧ (∀ f, e.frees f = false) ∧ e ≠ .undefined := by
  cases e with
  | exec k o => exact ⟨rfl, rfl, fun _ => rfl, nofun⟩
  | awaits k => exact ⟨rfl, rfl, fun _ => rfl, nofun⟩
  | completed k v => exact nomatch h
  | resumed k v => exact nomatch h
  | freed f => exact nomatch h
  | undefined => exact nomatch h

theorem completions_quiet (h : ∀ e ∈ evs, e.quiet = true) :
    evs.filterMap RaceEvent.completion? = [] :=
  List.filterMap_eq_nil_iff.mpr fun e he => (RaceEvent.of_quiet (h e he)).1

theorem results_quiet (h : ∀ e ∈ evs, e.quiet = true) : evs.filterMap RaceEvent.result? = [] :=
  List.filterMap_eq_nil_iff.mpr fun e he => (RaceEvent.of_quiet (h e he)).2.1

theorem frees_quiet (h : ∀ e ∈ evs, e.quiet = true) (f : FrameName) :
    evs.countP (RaceEvent.frees f) = 0 :=
  List.countP_eq_zero.mpr fun e he => Bool.not_eq_true _ ▸ (RaceEvent.of_quiet (h e he)).2.2.1 f

theorem defined_quiet (h : ∀ e ∈ evs, e.quiet = true) : RaceEvent.undefined ∉ evs :=
  fun hin => nomatch h _ hin

theorem quiet_append (h : ∀ e ∈ evs, e.quiet = true) (h' : ∀ e ∈ evs', e.quiet = true) :
    ∀ e ∈ evs ++ evs', e.quiet = true := fun e he => (List.mem_append.mp he).elim (h e) (h' e)

/-- A task that runs is suspended somewhere behind its first statement. -/
theorem Body.run_suspended {b : Body R V O} (h : b.immediate = false) (k : Nat) :
    ∃ evs next, b.run k = (evs, .suspended next) ∧ (∀ e ∈ evs, e.quiet = true) := by
  induction b with
  | exec o rest ih =>
    obtain ⟨evs, next, hrun, hquiet⟩ := ih h
    refine ⟨.exec k o :: evs, next, ?_, ?_⟩
    · rw [Body.run, hrun]
    · exact List.forall_mem_cons.mpr ⟨rfl, hquiet⟩
  | await next => exact ⟨[.awaits k], next, rfl, List.forall_mem_singleton.mpr rfl⟩
  | ret v => exact nomatch h

/-- Or it completes. -/
theorem Body.run_completed {b : Body R V O} (h : b.immediate = true) (k : Nat) :
    ∃ evs v, b.run k = (evs ++ [.completed k v], .completed v) ∧ (∀ e ∈ evs, e.quiet = true) := by
  induction b with
  | exec o rest ih =>
    obtain ⟨evs, v, hrun, hquiet⟩ := ih h
    refine ⟨.exec k o :: evs, v, ?_, ?_⟩
    · rw [Body.run, hrun]
      rfl
    · exact List.forall_mem_cons.mpr ⟨rfl, hquiet⟩
  | await next => exact nomatch h
  | ret v => exact ⟨[], v, rfl, List.forall_mem_nil _⟩

/-- It executes a statement in any case. -/
theorem Body.run_statement (b : Body R V O) (k : Nat) :
    ∃ e ∈ (b.run k).1, e.statement = true := by
  cases b with
  | exec o rest => exact ⟨.exec k o, List.mem_cons_self, rfl⟩
  | await next => exact ⟨.awaits k, List.mem_cons_self, rfl⟩
  | ret v => exact ⟨.completed k v, List.mem_cons_self, rfl⟩

end Events

/-! ## 2. Lanes -/

/-- A task that has not been started. -/
def Lane.fresh (b : Body R V O) : Lane R V O :=
  ⟨some ⟨false, false, .initial b⟩, some ⟨false, .initial⟩⟩

/-- A task that is suspended, and what it goes on with. -/
def Lane.suspended (canceled : Bool) (next : R → Body R V O) : Lane R V O :=
  ⟨some ⟨false, true, .awaiting next⟩, some ⟨canceled, .joined⟩⟩

/-- The task is suspended, under a wrapper that is canceled or not. -/
def Lane.Waits (l : Lane R V O) (canceled : Bool) : Prop := ∃ next, l = .suspended canceled next

def Lane.gone : Lane R V O := ⟨none, none⟩

/-- A task that has completed when it was started. -/
def Lane.ended (v : V) : Lane R V O :=
  ⟨some ⟨false, false, .final (some v)⟩, some ⟨false, .final⟩⟩

/-- A task whose wrapper has not started it, because there is a result. -/
def Lane.late (b : Body R V O) : Lane R V O :=
  ⟨some ⟨false, false, .initial b⟩, some ⟨false, .final⟩⟩

/-- The task has not been started, and its handle is gone. -/
def Lane.lost (b : Body R V O) : Lane R V O := ⟨some ⟨true, false, .initial b⟩, none⟩

/-- The handle of a wrapper that is not at its end is destroyed. -/
def Lane.cancel (l : Lane R V O) : Lane R V O :=
  { l with wrapper := l.wrapper.map fun w => { w with canceled := true } }

theorem Lane.cancel_waits {l : Lane R V O} {canceled : Bool} (h : l.Waits canceled) :
    l.cancel.Waits true := by
  obtain ⟨next, rfl⟩ := h
  exact ⟨next, rfl⟩

/-- `handles` goes out of scope while each wrapper is suspended or running. -/
theorem dropHandles_cancel {ls : List (Lane R V O)}
    (h : ∀ l ∈ ls, ∃ w, l.wrapper = some w ∧ w.point ≠ .final) (k : Nat) :
    dropHandles k ls = (ls.map Lane.cancel, []) := by
  induction ls generalizing k with
  | nil => rfl
  | cons l ls ih =>
    obtain ⟨w, hw, hpoint⟩ := h l List.mem_cons_self
    have hdrop : l.dropWrapper k = (l.cancel, []) := by
      simp only [Lane.dropWrapper, hw, if_neg hpoint, Lane.cancel, Option.map_some]
    rw [dropHandles, ih (fun l' hl' => h l' (List.mem_cons_of_mem l hl')) (k + 1), hdrop]
    rfl

/-- `handles` goes out of scope, and all wrappers are at their end before their tasks have been
    started. -/
theorem dropHandles_late (bs : List (Body R V O)) (k : Nat) :
    (dropHandles k (bs.map Lane.late)).1 = bs.map Lane.lost := by
  induction bs generalizing k with
  | nil => rfl
  | cons b bs ih =>
    rw [List.map_cons, List.map_cons, dropHandles, ← ih (k + 1)]
    rfl

theorem dropHandles_append (ls ls' : List (Lane R V O)) (k : Nat) : dropHandles k (ls ++ ls') =
    ((dropHandles k ls).1 ++ (dropHandles (k + ls.length) ls').1,
      (dropHandles (k + ls.length) ls').2 ++ (dropHandles k ls).2) := by
  induction ls generalizing k with
  | nil => rw [List.nil_append, List.length_nil, Nat.add_zero, dropHandles, List.append_nil]; rfl
  | cons l ls ih =>
    rw [List.cons_append, dropHandles, ih (k + 1), dropHandles, List.length_cons,
      Nat.add_right_comm k 1, Nat.add_assoc k]
    simp only [List.cons_append, List.append_assoc]

section Middle

variable {α : Type} {xs ys : List α} {k : Nat}

theorem getElem?_middle (y : α) (h : xs.length = k) : (xs ++ y :: ys)[k]? = some y := by
  rw [← h, List.getElem?_append_right (Nat.le_refl _), Nat.sub_self]
  rfl

theorem set_middle (y z : α) (h : xs.length = k) : (xs ++ y :: ys).set k z = xs ++ z :: ys := by
  rw [← h, List.set_append_right _ _ (Nat.le_refl _), Nat.sub_self]
  rfl

theorem exists_middle {zs : List α} {y : α} (h : zs[k]? = some y) :
    ∃ xs ys, zs = xs ++ y :: ys ∧ xs.length = k := by
  obtain ⟨hlt, rfl⟩ := List.getElem?_eq_some_iff.mp h
  refine ⟨zs.take k, zs.drop (k + 1), ?_, List.length_take_of_le (Nat.le_of_lt hlt)⟩
  rw [List.getElem_cons_drop, List.take_append_drop]

end Middle

/-! ## 3. The call -/

section Call

variable (ps ls : List (Lane R V O)) {b : Body R V O} (c : Option CallerFrame)

/-- `AnyOf` in its loop. -/
def AnyOfFrame.looping (ret : Option (Nat × V)) : AnyOfFrame V :=
  ⟨false, false, ret, false, .running⟩

theorem runWrapper_suspended (hb : b.immediate = false) : ∃ evs next, (∀ e ∈ evs, e.quiet = true) ∧
    runWrapper ps.length ⟨ps ++ .fresh b :: ls, some (.looping none), c⟩ =
      (⟨ps ++ .suspended false next :: ls, some (.looping none), c⟩, evs) := by
  obtain ⟨evs, next, hrun, hquiet⟩ := b.run_suspended hb ps.length
  refine ⟨evs, next, hquiet, ?_⟩
  simp only [runWrapper, getElem?_middle _ rfl, Lane.fresh, AnyOfFrame.looping, Option.isSome_none,
    Bool.or_self, Bool.false_eq_true, if_false, runTask, hrun, AnyOfState.set, set_middle _ _ rfl,
    Lane.suspended]

theorem runWrapper_completed (hb : b.immediate = true) : ∃ evs v, (∀ e ∈ evs, e.quiet = true) ∧
    runWrapper ps.length ⟨ps ++ .fresh b :: ls, some (.looping none), c⟩ =
      (⟨ps ++ .ended v :: ls, some (.looping (some (ps.length, v))), c⟩,
        evs ++ [.completed ps.length v]) := by
  obtain ⟨evs, v, hrun, hquiet⟩ := b.run_completed hb ps.length
  refine ⟨evs, v, hquiet, ?_⟩
  simp only [runWrapper, getElem?_middle _ rfl, Lane.fresh, AnyOfFrame.looping, Option.isSome_none,
    Bool.or_self, Bool.false_eq_true, if_false, runTask, hrun, AnyOfState.set, set_middle _ _ rfl,
    finishTask, resumeWrapper, emplace, finishWrapper, List.append_nil, Lane.ended]

theorem runWrapper_late (r : Nat × V) :
    runWrapper ps.length ⟨ps ++ .fresh b :: ls, some (.looping (some r)), c⟩ =
      (⟨ps ++ .late b :: ls, some (.looping (some r)), c⟩, []) := by
  simp only [runWrapper, getElem?_middle _ rfl, Lane.fresh, AnyOfFrame.looping, Option.isSome_some,
    Bool.or_true, if_true, AnyOfState.set, set_middle _ _ rfl, finishWrapper, Bool.false_eq_true,
    if_false, Lane.late]

/-- The loop, as long as no task completes. -/
theorem runHandles_suspended {bs : List (Body R V O)} (h : ∀ b ∈ bs, b.immediate = false)
    (n : Nat) : ∃ ws evs, ws.length = bs.length ∧ (∀ w ∈ ws, w.Waits false) ∧
      (∀ e ∈ evs, e.quiet = true) ∧
      runHandles ps.length (bs.length + n) ⟨ps ++ (bs.map .fresh ++ ls), some (.looping none), c⟩ =
        let after := runHandles (ps ++ ws).length n ⟨ps ++ ws ++ ls, some (.looping none), c⟩
        (after.1, evs ++ after.2) := by
  induction bs generalizing ps with
  | nil =>
    refine ⟨[], [], rfl, List.forall_mem_nil _, List.forall_mem_nil _, ?_⟩
    rw [List.append_nil, List.map_nil, List.nil_append, List.length_nil, Nat.zero_add]
    rfl
  | cons b bs ih =>
    obtain ⟨evs, next, hquiet, hrun⟩ :=
      runWrapper_suspended ps (bs.map .fresh ++ ls) c (h b List.mem_cons_self)
    obtain ⟨ws, evs', hlength, hws, hquiet', hrest⟩ :=
      ih (ps ++ [.suspended false next]) fun b' hb' => h b' (List.mem_cons_of_mem b hb')
    refine ⟨.suspended false next :: ws, evs ++ evs', congrArg Nat.succ hlength,
      List.forall_mem_cons.mpr ⟨⟨next, rfl⟩, hws⟩, quiet_append hquiet hquiet', ?_⟩
    rw [List.length_append, List.length_singleton, List.append_assoc,
      List.singleton_append] at hrest
    rw [List.length_cons, Nat.add_right_comm, runHandles, List.map_cons, List.cons_append, hrun]
    simp only
    rw [hrest, List.append_assoc ps, List.singleton_append]
    simp only [List.append_assoc]

/-- The loop when a task has completed. -/
theorem runHandles_late (bs : List (Body R V O)) (r : Nat × V) :
    runHandles ps.length bs.length ⟨ps ++ bs.map .fresh, some (.looping (some r)), c⟩ =
      (⟨ps ++ bs.map .late, some (.looping (some r)), c⟩, []) := by
  induction bs generalizing ps with
  | nil => rfl
  | cons b bs ih =>
    have hrest := ih (ps ++ [.late b])
    rw [List.length_append, List.length_singleton, List.append_assoc,
      List.singleton_append] at hrest
    rw [List.length_cons, runHandles, List.map_cons, runWrapper_late]
    simp only
    rw [hrest, List.append_assoc, List.singleton_append]
    rfl

/-- No task completes when it is started. -/
theorem anyOf_suspends {tasks : List (Body R V O)} (h : ∀ b ∈ tasks, b.immediate = false) :
    ∃ ws evs, ws.length = tasks.length ∧ (∀ w ∈ ws, w.Waits false) ∧ (∀ e ∈ evs, e.quiet = true) ∧
      anyOf tasks =
        (⟨ws, some ⟨false, true, none, true, .suspended⟩, some ⟨false, .waiting⟩⟩, evs) := by
  obtain ⟨ws, evs, hlength, hws, hquiet, hrun⟩ :=
    runHandles_suspended [] [] (some ⟨false, .waiting⟩) h 0
  refine ⟨ws, evs, hlength, hws, hquiet, ?_⟩
  rw [List.append_nil, List.append_nil, List.nil_append, List.nil_append] at hrun
  have hnew : AnyOfState.new tasks =
      ⟨tasks.map .fresh, some (.looping none), some ⟨false, .waiting⟩⟩ := rfl
  have hloop : runHandles 0 tasks.length (AnyOfState.new tasks) =
      (⟨ws, some (.looping none), some ⟨false, .waiting⟩⟩, evs) := by
    rw [hnew]
    refine hrun.trans ?_
    rw [runHandles]
    simp only [List.append_nil]
  rw [anyOf, hloop]
  rfl

/-- Task `pre.length` is the first that completes when it is started. -/
theorem anyOf_completes {pre : List (Body R V O)} (post : List (Body R V O))
    (hpre : ∀ b ∈ pre, b.immediate = false) (hb : b.immediate = true) :
    ∃ (ws : List (Lane R V O)) (evs : List (RaceEvent V O)) (v : V),
      ws.length = pre.length ∧ (∀ w ∈ ws, w.Waits false) ∧ (∀ e ∈ evs, e.quiet = true) ∧
      anyOf (pre ++ b :: post) =
        (⟨ws.map .cancel ++ .gone :: post.map .lost, none, some ⟨false, .beyond⟩⟩,
          evs ++ .completed pre.length v :: ((dropHandles (pre.length + 1) (post.map .late)).2 ++
            [.freed (.task pre.length), .freed (.wrapper pre.length), .resumed pre.length v,
              .freed .anyOf])) := by
  obtain ⟨ws, evs, hlength, hws, hquiet, hrun⟩ := runHandles_suspended []
    (.fresh b :: post.map .fresh) (some ⟨false, .waiting⟩) hpre (post.length + 1)
  obtain ⟨evs', v, hquiet', hcompleted⟩ := runWrapper_completed ws (post.map .fresh)
    (some ⟨false, .waiting⟩) hb
  rw [hlength] at hcompleted
  have hlate := runHandles_late (ws ++ [Lane.ended v]) (some ⟨false, .waiting⟩) post
    (pre.length, v)
  rw [List.length_append, List.length_singleton, List.append_assoc, List.append_assoc,
    List.singleton_append, List.singleton_append, hlength] at hlate
  refine ⟨ws, evs ++ evs', v, hlength, hws, quiet_append hquiet hquiet', ?_⟩
  have hnew : AnyOfState.new (pre ++ b :: post) =
      ⟨[] ++ (pre.map .fresh ++ .fresh b :: post.map .fresh), some (.looping none),
        some ⟨false, .waiting⟩⟩ := by
    rw [AnyOfState.new, List.map_append]
    rfl
  have hloop : runHandles 0 (pre ++ b :: post).length (AnyOfState.new (pre ++ b :: post)) =
      (⟨ws ++ .ended v :: post.map .late, some (.looping (some (pre.length, v))),
        some ⟨false, .waiting⟩⟩,
        evs ++ (evs' ++ [.completed pre.length v])) := by
    rw [hnew, List.length_append]
    refine hrun.trans ?_
    rw [List.nil_append, hlength, runHandles, hcompleted]
    simp only
    rw [hlate]
    simp only [List.append_nil]
  have hdrop : dropHandles 0 (ws ++ .ended v :: post.map .late) =
      (ws.map .cancel ++ .gone :: post.map .lost,
        (dropHandles (pre.length + 1) (post.map .late)).2 ++
          [.freed (.task pre.length), .freed (.wrapper pre.length)]) := by
    have hws' : ∀ w ∈ ws, ∃ w', w.wrapper = some w' ∧ w'.point ≠ .final := by
      intro w hw
      obtain ⟨next, rfl⟩ := hws w hw
      exact ⟨_, rfl, nofun⟩
    rw [dropHandles_append, dropHandles_cancel hws', dropHandles, ← dropHandles_late, hlength,
      Nat.zero_add, List.append_nil]
    rfl
  rw [anyOf, hloop]
  simp only [AnyOfFrame.looping, finishAnyOf, hdrop, Bool.false_eq_true, if_false, resumeCaller,
    List.append_assoc, List.cons_append, List.nil_append]

end Call

/-! ## 4. Resumptions -/

section Resume

variable {xs ys : List (Lane R V O)} {next : R → Body R V O} {k : Nat} {r : R}
  {a : Option (AnyOfFrame V)} {c : Option CallerFrame}

/-- `AnyOf`, as long as there is no result. -/
def AnyOfFrame.waiting : AnyOfFrame V := ⟨false, true, none, true, .suspended⟩

theorem resume_suspends (ys : List (Lane R V O)) (a : Option (AnyOfFrame V))
    (c : Option CallerFrame) (hk : xs.length = k) (hr : (next r).immediate = false) : ∃ evs next',
    (∀ e ∈ evs, e.quiet = true) ∧ resumeTask k r ⟨xs ++ .suspended false next :: ys, a, c⟩ =
      (⟨xs ++ .suspended false next' :: ys, a, c⟩, evs) := by
  obtain ⟨evs, next', hrun, hquiet⟩ := (next r).run_suspended hr k
  refine ⟨evs, next', hquiet, ?_⟩
  simp only [resumeTask, getElem?_middle _ hk, Lane.suspended, Bool.or_self, Bool.false_eq_true,
    if_false, runTask, hrun, AnyOfState.set, set_middle _ _ hk]

/-- What the caller does when there is a result. -/
def CallerFrame.after (canceled : Bool) : Option CallerFrame :=
  if canceled then none else some ⟨false, .beyond⟩

/-- And what is seen of it. -/
def callerEvents (canceled : Bool) (k : Nat) (v : V) : List (RaceEvent V O) :=
  if canceled then [.freed .anyOf, .freed .caller] else [.resumed k v, .freed .anyOf]

/-- The first result is there: `AnyOf` and its caller go on. -/
theorem emplace_waiting {zs : List (Lane R V O)} (canceled : Bool)
    (h : ∀ l ∈ zs, ∃ w, l.wrapper = some w ∧ w.point ≠ .final) (k : Nat) (v : V) :
    emplace k v ⟨zs, some .waiting, some ⟨canceled, .waiting⟩⟩ =
      (⟨zs.map .cancel, none, CallerFrame.after canceled⟩, callerEvents canceled k v) := by
  cases canceled with
  | false =>
    simp only [emplace, AnyOfFrame.waiting, if_true, resumeAnyOf, Bool.or_self, Bool.false_eq_true,
      if_false, finishAnyOf, dropHandles_cancel h, resumeCaller, List.nil_append]
    rfl
  | true =>
    simp only [emplace, AnyOfFrame.waiting, if_true, resumeAnyOf, Bool.or_true, Bool.false_eq_true,
      if_false, finishAnyOf, dropHandles_cancel h, resumeCaller, List.nil_append]
    rfl

theorem resume_settles (canceled : Bool) (hxs : ∀ l ∈ xs, l.Waits false)
    (hys : ∀ l ∈ ys, l.Waits false) (hk : xs.length = k) (hr : (next r).immediate = true) :
    ∃ (evs : List (RaceEvent V O)) (v : V), (∀ e ∈ evs, e.quiet = true) ∧
      resumeTask k r ⟨xs ++ .suspended false next :: ys, some .waiting, some ⟨canceled, .waiting⟩⟩ =
        (⟨xs.map .cancel ++ .gone :: ys.map .cancel, none, CallerFrame.after canceled⟩,
          evs ++ .completed k v ::
            (callerEvents canceled k v ++ [.freed (.task k), .freed (.wrapper k)])) := by
  obtain ⟨evs, v, hrun, hquiet⟩ := (next r).run_completed hr k
  refine ⟨evs, v, hquiet, ?_⟩
  have hlive : ∀ l ∈ xs ++ ⟨some ⟨false, true, .final (some v)⟩, some ⟨false, .running⟩⟩ :: ys,
      ∃ w, Lane.wrapper l = some w ∧ w.point ≠ .final := by
    intro l hl
    rcases List.mem_append.mp hl with hl | hl
    · obtain ⟨_, rfl⟩ := hxs l hl
      exact ⟨_, rfl, nofun⟩
    · rcases List.mem_cons.mp hl with rfl | hl
      · exact ⟨_, rfl, nofun⟩
      · obtain ⟨_, rfl⟩ := hys l hl
        exact ⟨_, rfl, nofun⟩
  have hk' : (xs.map Lane.cancel).length = k := (List.length_map _).trans hk
  have hemplace := emplace_waiting canceled hlive k v
  rw [List.map_append, List.map_cons] at hemplace
  simp only [resumeTask, getElem?_middle _ hk, Lane.suspended, Bool.or_self, Bool.false_eq_true,
    if_false, runTask, hrun, AnyOfState.set, set_middle _ _ hk, finishTask, if_true, resumeWrapper,
    hemplace, finishWrapper, getElem?_middle _ hk', Lane.cancel, Option.map_some,
    Lane.freeWrapper, Lane.dropTask, TaskFrame.done, set_middle _ _ hk', Lane.gone,
    List.append_assoc, List.singleton_append]

/-- A task whose wrapper is canceled executes nothing, and is freed. -/
theorem resume_unwinds (hk : xs.length = k) :
    resumeTask k r ⟨xs ++ .suspended true next :: ys, a, c⟩ =
      (⟨xs ++ .gone :: ys, a, c⟩, [.freed (.task k), .freed (.wrapper k)]) := by
  simp only [resumeTask, getElem?_middle _ hk, Lane.suspended, Bool.or_true, if_true, finishTask,
    Bool.false_eq_true, if_false, AnyOfState.set, set_middle _ _ hk, resumeWrapper, finishWrapper,
    Lane.freeWrapper, Lane.dropTask, TaskFrame.done, Lane.gone, List.singleton_append]

theorem resume_statement (hk : xs.length = k) :
    ∃ e ∈ (resumeTask k r ⟨xs ++ .suspended false next :: ys, a, c⟩).2, e.statement = true := by
  obtain ⟨e, he, hstatement⟩ := (next r).run_statement k
  refine ⟨e, ?_, hstatement⟩
  simp only [resumeTask, getElem?_middle _ hk, Lane.suspended, Bool.or_self, Bool.false_eq_true,
    if_false, runTask]
  split
  · rename_i hrun
    rw [hrun] at he
    exact he
  · rename_i hrun
    rw [hrun] at he
    exact List.mem_append_left _ he

end Resume

/-! ## 5. What ought to hold -/

/-- The task is suspended. -/
def Lane.Pending (l : Lane R V O) : Prop := ∃ t next, l.task = some t ∧ t.point = .awaiting next

/-- The first completion has been delivered, and no other one; a frame of a task or a wrapper has
    been freed once if it does not exist any more; and once there is a completion, the frames that
    are left are those of tasks that are suspended. -/
structure Fair (n : Nat) (s : AnyOfState R V O) (log : List (RaceEvent V O)) : Prop where
  lanes : s.lanes.length = n
  defined : .undefined ∉ log
  delivered : log.filterMap RaceEvent.result? = (log.filterMap RaceEvent.completion?).take 1
  task_once : ∀ k l, s.lanes[k]? = some l →
    log.countP (RaceEvent.frees (.task k)) = if l.task.isSome then 0 else 1
  wrapper_once : ∀ k l, s.lanes[k]? = some l →
    log.countP (RaceEvent.frees (.wrapper k)) = if l.wrapper.isSome then 0 else 1
  freed : log.filterMap RaceEvent.completion? ≠ [] → ∀ l ∈ s.lanes,
    l.task = none ∧ l.wrapper = none ∨ l.Pending

/-- So it is in every state of the run; after the first completion nothing happens but that frames
    are freed, and a suspended task that is resumed is gone behind that step, with its wrapper; and
    when the caller has been destroyed no competing task executes a statement. -/
structure FirstResult (tasks : List (Body R V O)) (is : List (AnyOfInput R)) : Prop where
  fair : ∀ as bs, is = as ++ bs → Fair tasks.length (anyOfMachine.exec (anyOf tasks).1 as)
    ((anyOf tasks).2 ++ anyOfMachine.outs (anyOf tasks).1 as)
  settled : ∀ as i bs, is = as ++ i :: bs →
    ((anyOf tasks).2 ++ anyOfMachine.outs (anyOf tasks).1 as).filterMap RaceEvent.completion? ≠ [] →
    ∀ e ∈ (anyOfMachine.step (anyOfMachine.exec (anyOf tasks).1 as) i).2, ∃ f, e = .freed f
  unwound : ∀ as k r bs l, is = as ++ .resume k r :: bs →
    ((anyOf tasks).2 ++ anyOfMachine.outs (anyOf tasks).1 as).filterMap RaceEvent.completion? ≠ [] →
    (anyOfMachine.exec (anyOf tasks).1 as).lanes[k]? = some l → l.Pending →
    (anyOfMachine.step (anyOfMachine.exec (anyOf tasks).1 as) (.resume k r)).1.lanes[k]? = some .gone
  canceled : ∀ as i bs, is = as ++ i :: bs → AnyOfInput.destroy ∈ as →
    ∀ e ∈ (anyOfMachine.step (anyOfMachine.exec (anyOf tasks).1 as) i).2, e.statement = false

/-- The handle of the caller has been destroyed while it waits. -/
def AnyOfState.Deserted (s : AnyOfState R V O) : Prop :=
  ∃ c, s.caller = some c ∧ c.canceled = true ∧ c.point = .waiting

/-- No competing task is resumed then. -/
def AnyOfInput.Heeded (s : AnyOfState R V O) : AnyOfInput R → Prop
  | .resume k _ => s.Deserted → ∀ l, s.lanes[k]? = some l → ¬ l.Pending
  | .destroy => True

/-! ## 6. Every run -/

/-- Before the first completion. -/
structure Racing (n : Nat) (s : AnyOfState R V O) (log : List (RaceEvent V O)) : Prop where
  length : s.lanes.length = n
  lanes : ∀ l ∈ s.lanes, l.Waits false
  anyOf : s.anyOf = some .waiting
  caller : ∃ c, s.caller = some ⟨c, .waiting⟩
  quiet : ∀ e ∈ log, e.quiet = true

/-- After it. -/
structure Over (s : AnyOfState R V O) : Prop where
  caller : ∀ c, s.caller = some c → c.point = .beyond
  lanes : ∀ l ∈ s.lanes, l = .gone ∨ l.Waits true ∨ ∃ b, l = .lost b

/-- After it, if all tasks have been started and the caller has been told. -/
structure Settled (n : Nat) (s : AnyOfState R V O) (log : List (RaceEvent V O)) : Prop where
  length : s.lanes.length = n
  caller : ∀ c, s.caller = some c → c.point = .beyond
  defined : .undefined ∉ log
  result : ∃ r, log.filterMap RaceEvent.completion? = [r] ∧ log.filterMap RaceEvent.result? = [r]
  lanes : ∀ k l, s.lanes[k]? = some l →
    l = .gone ∧ log.countP (RaceEvent.frees (.task k)) = 1 ∧
      log.countP (RaceEvent.frees (.wrapper k)) = 1 ∨
    l.Waits true ∧ log.countP (RaceEvent.frees (.task k)) = 0 ∧
      log.countP (RaceEvent.frees (.wrapper k)) = 0

section Runs

variable {s : AnyOfState R V O} {log evs : List (RaceEvent V O)} {n k : Nat} {r : R}
  {next : R → Body R V O} {l : Lane R V O}

theorem Settled.over (h : Settled n s log) : Over s := by
  refine ⟨h.caller, fun l hl => ?_⟩
  obtain ⟨k, hk⟩ := List.mem_iff_getElem?.mp hl
  rcases h.lanes k l hk with ⟨hgone, _⟩ | ⟨hwaits, _⟩
  · exact Or.inl hgone
  · exact Or.inr (Or.inl hwaits)

theorem Racing.fair (h : Racing n s log) : Fair n s log := by
  refine ⟨h.length, defined_quiet h.quiet, ?_, fun k l hl => ?_, fun k l hl => ?_, fun hne => ?_⟩
  · rw [results_quiet h.quiet, completions_quiet h.quiet]
    rfl
  · obtain ⟨next, rfl⟩ := h.lanes l (List.mem_of_getElem? hl)
    exact frees_quiet h.quiet _
  · obtain ⟨next, rfl⟩ := h.lanes l (List.mem_of_getElem? hl)
    exact frees_quiet h.quiet _
  · exact absurd (completions_quiet h.quiet) hne

theorem Settled.fair (h : Settled n s log) : Fair n s log := by
  obtain ⟨r, hcompleted, hresumed⟩ := h.result
  refine ⟨h.length, h.defined, ?_, fun k l hl => ?_, fun k l hl => ?_, fun _ l hl => ?_⟩
  · rw [hcompleted, hresumed]
    rfl
  · rcases h.lanes k l hl with ⟨rfl, htask, _⟩ | ⟨⟨next, rfl⟩, htask, _⟩
    · exact htask
    · exact htask
  · rcases h.lanes k l hl with ⟨rfl, _, hwrapper⟩ | ⟨⟨next, rfl⟩, _, hwrapper⟩
    · exact hwrapper
    · exact hwrapper
  · obtain ⟨k, hk⟩ := List.mem_iff_getElem?.mp hl
    rcases h.lanes k l hk with ⟨rfl, _⟩ | ⟨⟨next, rfl⟩, _⟩
    · exact Or.inl ⟨rfl, rfl⟩
    · exact Or.inr ⟨_, next, rfl, rfl⟩

theorem resume_none (h : s.lanes[k]? = none) : resumeTask k r s = (s, []) := by
  simp only [resumeTask, h]

theorem resume_idle (h : s.lanes[k]? = some l) (hl : ¬ l.Pending) : resumeTask k r s = (s, []) := by
  simp only [resumeTask, h]
  split
  · rename_i t ht
    split
    · rename_i next hnext
      exact absurd ⟨t, next, ht, hnext⟩ hl
    · rfl
  · rfl

theorem Lane.gone_idle : ¬ (Lane.gone : Lane R V O).Pending := by
  intro h
  obtain ⟨t, next, ht, _⟩ := h
  exact nomatch ht

theorem Lane.lost_idle (b : Body R V O) : ¬ (Lane.lost b).Pending := by
  intro h
  obtain ⟨t, next, ht, hnext⟩ := h
  cases ht
  exact nomatch hnext

theorem frees_own (k : Nat) :
    [.freed (.task k), .freed (.wrapper k)].countP
        (RaceEvent.frees (V := V) (O := O) (.task k)) = 1 ∧
      [.freed (.task k), .freed (.wrapper k)].countP
        (RaceEvent.frees (V := V) (O := O) (.wrapper k)) = 1 := by
  simp [RaceEvent.frees]

theorem frees_other {j : Nat} (h : k ≠ j) :
    [.freed (.task k), .freed (.wrapper k)].countP
        (RaceEvent.frees (V := V) (O := O) (.task j)) = 0 ∧
      [.freed (.task k), .freed (.wrapper k)].countP
        (RaceEvent.frees (V := V) (O := O) (.wrapper j)) = 0 := by
  simp [RaceEvent.frees, h]

/-- What is seen up to the end of the first task, in any order behind its completion. -/
theorem delivered {q tail : List (RaceEvent V O)} {v : V} (hq : ∀ e ∈ q, e.quiet = true)
    (ht : tail.Perm
      ([.resumed k v, .freed .anyOf] ++ [.freed (.task k), .freed (.wrapper k)])) :
    .undefined ∉ q ++ .completed k v :: tail ∧
      (q ++ .completed k v :: tail).filterMap RaceEvent.completion? = [(k, v)] ∧
      (q ++ .completed k v :: tail).filterMap RaceEvent.result? = [(k, v)] ∧
      ∀ j, (q ++ .completed k v :: tail).countP (RaceEvent.frees (.task j)) =
          [.freed (.task k), .freed (.wrapper k)].countP
            (RaceEvent.frees (V := V) (O := O) (.task j)) ∧
        (q ++ .completed k v :: tail).countP (RaceEvent.frees (.wrapper j)) =
          [.freed (.task k), .freed (.wrapper k)].countP
            (RaceEvent.frees (V := V) (O := O) (.wrapper j)) := by
  have hcompletions : tail.filterMap RaceEvent.completion? = [] :=
    List.perm_nil.mp (ht.filterMap _)
  have hresults : tail.filterMap RaceEvent.result? = [(k, v)] :=
    List.perm_singleton.mp (ht.filterMap _)
  refine ⟨fun hin => ?_, ?_, ?_, fun j => ⟨?_, ?_⟩⟩
  · rcases List.mem_append.mp hin with hin | hin
    · exact defined_quiet hq hin
    · rcases List.mem_cons.mp hin with hin | hin
      · exact nomatch hin
      · have hin' := ht.mem_iff.mp hin
        simp at hin'
  · rw [List.filterMap_append, completions_quiet hq, List.nil_append]
    exact congrArg ((k, v) :: ·) hcompletions
  · rw [List.filterMap_append, results_quiet hq, List.nil_append]
    exact hresults
  · rw [List.countP_append, frees_quiet hq, Nat.zero_add]
    exact ht.countP_eq _
  · rw [List.countP_append, frees_quiet hq, Nat.zero_add]
    exact ht.countP_eq _

/-- The resumption of a task whose wrapper is canceled. -/
theorem resume_canceled (h : s.lanes[k]? = some (.suspended true next)) :
    resumeTask k r s = (s.set k .gone, [.freed (.task k), .freed (.wrapper k)]) := by
  obtain ⟨lanes, a, c⟩ := s
  obtain ⟨xs, ys, rfl, hk⟩ := exists_middle h
  rw [resume_unwinds hk, AnyOfState.set, set_middle _ _ hk]

/-- Everything that can happen after the first completion. -/
theorem Over.cases (h : Over s) (i : AnyOfInput R) :
    (∃ c, (∀ c', c = some c' → c'.point = .beyond) ∧
      anyOfMachine.step s i = ({ s with caller := c }, [])) ∨
    ∃ k next, s.lanes[k]? = some (.suspended true next) ∧
      anyOfMachine.step s i = (s.set k .gone, [.freed (.task k), .freed (.wrapper k)]) := by
  cases i with
  | destroy =>
    refine Or.inl ?_
    cases hcaller : s.caller with
    | none =>
      refine ⟨none, nofun, ?_⟩
      simp only [anyOfMachine, destroyCaller, hcaller]
      rw [← hcaller]
    | some c =>
      have hpoint := h.caller c hcaller
      refine ⟨some { c with canceled := true }, fun c' hc' => ?_, ?_⟩
      · cases hc'
        exact hpoint
      · have hlive : c.point ≠ .final := by rw [hpoint]; exact nofun
        simp only [anyOfMachine, destroyCaller, hcaller, if_neg hlive]
  | resume k r =>
    have hsame : resumeTask k r s = (s, []) → ∃ c, (∀ c', c = some c' → c'.point = .beyond) ∧
        anyOfMachine.step s (.resume k r) = ({ s with caller := c }, []) :=
      fun hstep => ⟨s.caller, h.caller, hstep⟩
    cases hlane : s.lanes[k]? with
    | none => exact Or.inl (hsame (resume_none hlane))
    | some l =>
      rcases h.lanes l (List.mem_of_getElem? hlane) with rfl | ⟨next, rfl⟩ | ⟨b, rfl⟩
      · exact Or.inl (hsame (resume_idle hlane Lane.gone_idle))
      · exact Or.inr ⟨k, next, hlane, resume_canceled hlane⟩
      · exact Or.inl (hsame (resume_idle hlane (Lane.lost_idle b)))

/-- A suspended task that is resumed after the first completion is gone. -/
theorem Over.unwound (h : Over s) (hlane : s.lanes[k]? = some l) (hpending : l.Pending) :
    (anyOfMachine.step s (.resume k r)).1.lanes[k]? = some .gone := by
  rcases h.lanes l (List.mem_of_getElem? hlane) with rfl | ⟨next, rfl⟩ | ⟨b, rfl⟩
  · exact absurd hpending Lane.gone_idle
  · have hstep : anyOfMachine.step s (.resume k r) =
        (s.set k .gone, [.freed (.task k), .freed (.wrapper k)]) := resume_canceled hlane
    rw [hstep]
    exact List.getElem?_set_self (List.getElem?_eq_some_iff.mp hlane).1
  · exact absurd hpending (Lane.lost_idle b)

theorem Over.step (h : Over s) (i : AnyOfInput R) : Over (anyOfMachine.step s i).1 := by
  rcases h.cases i with ⟨c, hc, hstep⟩ | ⟨k, next, _, hstep⟩
  · rw [hstep]
    exact ⟨hc, h.lanes⟩
  · rw [hstep]
    refine ⟨h.caller, fun l hl => ?_⟩
    rcases List.mem_or_eq_of_mem_set hl with hl | rfl
    · exact h.lanes l hl
    · exact Or.inl rfl

theorem Over.events (h : Over s) (i : AnyOfInput R) :
    ∀ e ∈ (anyOfMachine.step s i).2, ∃ f, e = .freed f := by
  intro e he
  rcases h.cases i with ⟨c, _, hstep⟩ | ⟨k, next, _, hstep⟩
  · rw [hstep] at he
    exact absurd he List.not_mem_nil
  · rw [hstep] at he
    rcases List.mem_cons.mp he with rfl | he
    · exact ⟨_, rfl⟩
    · exact ⟨_, List.mem_singleton.mp he⟩

theorem Settled.step (h : Settled n s log) (i : AnyOfInput R) :
    Settled n (anyOfMachine.step s i).1 (log ++ (anyOfMachine.step s i).2) := by
  rcases h.over.cases i with ⟨c, hc, hstep⟩ | ⟨k, next, hlane, hstep⟩
  · rw [hstep, List.append_nil]
    exact ⟨h.length, hc, h.defined, h.result, h.lanes⟩
  · obtain ⟨r, hcompleted, hresumed⟩ := h.result
    have hlt := (List.getElem?_eq_some_iff.mp hlane).1
    rw [hstep]
    refine ⟨?_, h.caller, ?_, ⟨r, ?_, ?_⟩, fun j l hl => ?_⟩
    · rw [AnyOfState.set, List.length_set]
      exact h.length
    · intro hin
      rcases List.mem_append.mp hin with hin | hin
      · exact h.defined hin
      · simp at hin
    · rw [List.filterMap_append, hcompleted]
      rfl
    · rw [List.filterMap_append, hresumed]
      rfl
    · rw [List.countP_append, List.countP_append]
      rw [AnyOfState.set, List.getElem?_set] at hl
      by_cases hjk : k = j
      · subst hjk
        rw [if_pos rfl, if_pos hlt] at hl
        cases hl
        rcases h.lanes k _ hlane with ⟨hgone, _⟩ | ⟨_, htask, hwrapper⟩
        · exact nomatch congrArg Lane.task hgone
        · rw [htask, hwrapper]
          exact Or.inl ⟨rfl, congrArg (0 + ·) (frees_own k).1, congrArg (0 + ·) (frees_own k).2⟩
      · rw [if_neg hjk] at hl
        rw [(frees_other hjk).1, (frees_other hjk).2]
        exact h.lanes j l hl

/-- Everything that can happen before the first completion. -/
theorem Racing.cases (h : Racing n s log) (i : AnyOfInput R) :
    (∃ c, (c = true ↔ i = .destroy ∨ s.caller = some ⟨true, .waiting⟩) ∧
      anyOfMachine.step s i = ({ s with caller := some ⟨c, .waiting⟩ }, [])) ∨
    (∃ k r next next' evs, i = .resume k r ∧ s.lanes[k]? = some (.suspended false next) ∧
      (∀ e ∈ evs, e.quiet = true) ∧
      anyOfMachine.step s i = (s.set k (.suspended false next'), evs)) ∨
    ∃ k r next c evs v, i = .resume k r ∧ s.lanes[k]? = some (.suspended false next) ∧
      s.caller = some ⟨c, .waiting⟩ ∧ (∀ e ∈ evs, e.quiet = true) ∧ anyOfMachine.step s i =
        (⟨(s.lanes.map .cancel).set k .gone, none, CallerFrame.after c⟩,
          evs ++ .completed k v ::
            (callerEvents c k v ++ [.freed (.task k), .freed (.wrapper k)])) := by
  obtain ⟨c, hcaller⟩ := h.caller
  cases i with
  | destroy =>
    refine Or.inl ⟨true, iff_of_true rfl (Or.inl rfl), ?_⟩
    simp only [anyOfMachine, destroyCaller, hcaller]
    rfl
  | resume k r =>
    cases hlane : s.lanes[k]? with
    | none =>
      refine Or.inl ⟨c, ⟨fun hc => Or.inr (hc ▸ hcaller), fun hor => ?_⟩, ?_⟩
      · have heq := hcaller.symm.trans (hor.resolve_left nofun)
        cases heq
        rfl
      · rw [← hcaller]
        exact resume_none hlane
    | some l =>
      obtain ⟨next, rfl⟩ := h.lanes l (List.mem_of_getElem? hlane)
      obtain ⟨lanes, a, caller⟩ := s
      obtain ⟨xs, ys, rfl, hk⟩ := exists_middle hlane
      cases hr : (next r).immediate with
      | false =>
        obtain ⟨evs, next', hquiet, hstep⟩ :=
          resume_suspends ys a caller hk hr
        refine Or.inr (Or.inl ⟨k, r, next, next', evs, rfl, hlane, hquiet, ?_⟩)
        rw [AnyOfState.set, set_middle _ _ hk]
        exact hstep
      | true =>
        obtain rfl : a = some .waiting := h.anyOf
        obtain rfl : caller = some ⟨c, .waiting⟩ := hcaller
        obtain ⟨evs, v, hquiet, hstep⟩ := resume_settles c
          (fun l hl => h.lanes l (List.mem_append_left _ hl))
          (fun l hl => h.lanes l (List.mem_append_right _ (List.mem_cons_of_mem _ hl))) hk hr
        refine Or.inr (Or.inr ⟨k, r, next, c, evs, v, rfl, hlane, rfl, hquiet, ?_⟩)
        rw [List.map_append, List.map_cons, set_middle _ _ ((List.length_map _).trans hk)]
        exact hstep

theorem Racing.step (h : Racing n s log) (i : AnyOfInput R) :
    Racing n (anyOfMachine.step s i).1 (log ++ (anyOfMachine.step s i).2) ∨
    Over (anyOfMachine.step s i).1 ∧ (i.Heeded s →
      Settled n (anyOfMachine.step s i).1 (log ++ (anyOfMachine.step s i).2)) := by
  rcases h.cases i with ⟨c, _, hstep⟩ | ⟨k, r, next, next', evs, rfl, hlane, hquiet, hstep⟩ |
    ⟨k, r, next, c, evs, v, rfl, hlane, hcaller, hquiet, hstep⟩
  · rw [hstep, List.append_nil]
    exact Or.inl ⟨h.length, h.lanes, h.anyOf, ⟨c, rfl⟩, h.quiet⟩
  · rw [hstep]
    refine Or.inl ⟨(List.length_set).trans h.length, fun l hl => ?_, h.anyOf, h.caller,
      quiet_append h.quiet hquiet⟩
    rcases List.mem_or_eq_of_mem_set hl with hl | rfl
    · exact h.lanes l hl
    · exact ⟨next', rfl⟩
  · rw [hstep]
    have hlanes : ∀ j l, ((s.lanes.map Lane.cancel).set k .gone)[j]? = some l →
        j = k ∧ l = .gone ∨ k ≠ j ∧ l.Waits true := by
      intro j l hl
      rw [List.getElem?_set] at hl
      by_cases hjk : k = j
      · rw [if_pos hjk] at hl
        split at hl
        · exact Or.inl ⟨hjk.symm, (Option.some.inj hl).symm⟩
        · exact nomatch hl
      · rw [if_neg hjk, List.getElem?_map] at hl
        obtain ⟨l', hl', rfl⟩ := Option.map_eq_some_iff.mp hl
        exact Or.inr ⟨hjk, Lane.cancel_waits (h.lanes l' (List.mem_of_getElem? hl'))⟩
    refine Or.inr ⟨⟨fun c' hc' => ?_, fun l hl => ?_⟩, fun hheeded => ?_⟩
    · cases c with
      | false =>
        cases hc'
        rfl
      | true => exact nomatch hc'
    · obtain ⟨j, hj⟩ := List.mem_iff_getElem?.mp hl
      rcases hlanes j l hj with ⟨_, hgone⟩ | ⟨_, hwaits⟩
      · exact Or.inl hgone
      · exact Or.inr (Or.inl hwaits)
    · cases c with
      | true =>
        exact absurd ⟨_, next, rfl, rfl⟩ (hheeded ⟨_, hcaller, rfl, rfl⟩ _ hlane)
      | false =>
        obtain ⟨hdefined, hcompletions, hresults, hfreed⟩ :=
          delivered (quiet_append h.quiet hquiet) (List.Perm.refl _)
        rw [← List.append_assoc]
        refine ⟨?_, fun c' hc' => ?_, hdefined, ⟨(k, v), hcompletions, hresults⟩, fun j l hl => ?_⟩
        · exact (List.length_set).trans ((List.length_map _).trans h.length)
        · cases hc'
          rfl
        · obtain ⟨htask, hwrapper⟩ := hfreed j
          rcases hlanes j l hl with ⟨rfl, hgone⟩ | ⟨hjk, hwaits⟩
          · exact Or.inl ⟨hgone, htask.trans (frees_own _).1, hwrapper.trans (frees_own _).2⟩
          · exact Or.inr
              ⟨hwaits, htask.trans (frees_other hjk).1, hwrapper.trans (frees_other hjk).2⟩

/-- The first task that completes when it is started. -/
theorem exists_immediate (tasks : List (Body R V O)) : (∀ b ∈ tasks, b.immediate = false) ∨
    ∃ pre b post, tasks = pre ++ b :: post ∧ (∀ b ∈ pre, b.immediate = false) ∧
      b.immediate = true := by
  cases hfind : tasks.find? Body.immediate with
  | none => exact Or.inl fun b hb => Bool.not_eq_true _ ▸ List.find?_eq_none.mp hfind b hb
  | some b =>
    obtain ⟨hb, pre, post, rfl, hpre⟩ := List.find?_eq_some_iff_append.mp hfind
    exact Or.inr ⟨pre, b, post, rfl, fun b hb => by simpa using hpre b hb, hb⟩

theorem start_racing {tasks : List (Body R V O)} (h : ∀ b ∈ tasks, b.immediate = false) :
    Racing tasks.length (anyOf tasks).1 (anyOf tasks).2 := by
  obtain ⟨ws, evs, hlength, hws, hquiet, hstart⟩ := anyOf_suspends h
  rw [hstart]
  exact ⟨hlength, hws, rfl, ⟨false, rfl⟩, hquiet⟩

theorem start_over {pre post : List (Body R V O)} {b : Body R V O}
    (hpre : ∀ b ∈ pre, b.immediate = false) (hb : b.immediate = true) :
    Over (anyOf (pre ++ b :: post)).1 := by
  obtain ⟨ws, evs, v, hlength, hws, hquiet, hstart⟩ := anyOf_completes post hpre hb
  rw [hstart]
  refine ⟨fun c hc => ?_, fun l hl => ?_⟩
  · cases hc
    rfl
  · rcases List.mem_append.mp hl with hl | hl
    · obtain ⟨w, hw, rfl⟩ := List.mem_map.mp hl
      exact Or.inr (Or.inl (Lane.cancel_waits (hws w hw)))
    · rcases List.mem_cons.mp hl with hl | hl
      · exact Or.inl hl
      · obtain ⟨b', _, rfl⟩ := List.mem_map.mp hl
        exact Or.inr (Or.inr ⟨b', rfl⟩)

theorem start_settled {pre : List (Body R V O)} {b : Body R V O}
    (hpre : ∀ b ∈ pre, b.immediate = false) (hb : b.immediate = true) :
    Settled (pre ++ [b]).length (anyOf (pre ++ [b])).1 (anyOf (pre ++ [b])).2 := by
  obtain ⟨ws, evs, v, hlength, hws, hquiet, hstart⟩ := anyOf_completes [] hpre hb
  have hperm : [.freed (.task pre.length), .freed (.wrapper pre.length),
      .resumed pre.length v, RaceEvent.freed (V := V) (O := O) .anyOf].Perm
      ([.resumed pre.length v, .freed .anyOf] ++
        [.freed (.task pre.length), .freed (.wrapper pre.length)]) :=
    @List.perm_append_comm (RaceEvent V O) [.freed (.task pre.length), .freed (.wrapper pre.length)]
      [.resumed pre.length v, .freed .anyOf]
  obtain ⟨hdefined, hcompletions, hresults, hfreed⟩ := delivered hquiet hperm
  rw [hstart]
  refine ⟨?_, fun c hc => ?_, hdefined, ⟨_, hcompletions, hresults⟩, fun j l hl => ?_⟩
  · rw [List.length_append, List.length_append, List.length_map, hlength]
    rfl
  · cases hc
    rfl
  · obtain ⟨htask, hwrapper⟩ := hfreed j
    have hmap : (ws.map Lane.cancel).length = pre.length := (List.length_map _).trans hlength
    by_cases hj : pre.length = j
    · have hgone : l = .gone :=
        Option.some.inj (hl.symm.trans (getElem?_middle _ (hmap.trans hj)))
      subst hj
      exact Or.inl ⟨hgone, htask.trans (frees_own _).1, hwrapper.trans (frees_own _).2⟩
    · have hin : l ∈ ws.map Lane.cancel := by
        have hlt := (List.getElem?_eq_some_iff.mp hl).1
        rw [List.length_append, hmap] at hlt
        have hlt' : j < (ws.map Lane.cancel).length :=
          hmap ▸ Nat.lt_of_le_of_ne (Nat.le_of_lt_succ hlt) (Ne.symm hj)
        rw [List.getElem?_append_left hlt'] at hl
        exact List.mem_of_getElem? hl
      obtain ⟨w, hw, rfl⟩ := List.mem_map.mp hin
      exact Or.inr ⟨Lane.cancel_waits (hws w hw), htask.trans (frees_other hj).1,
        hwrapper.trans (frees_other hj).2⟩

/-- Every state of a run. -/
theorem reached (tasks : List (Body R V O)) (is : List (AnyOfInput R)) :
    Racing tasks.length (anyOfMachine.exec (anyOf tasks).1 is)
      ((anyOf tasks).2 ++ anyOfMachine.outs (anyOf tasks).1 is) ∨
    Over (anyOfMachine.exec (anyOf tasks).1 is) := by
  refine Machine.log_invariant (P := fun s log => Racing tasks.length s log ∨ Over s)
    (fun s log i h => ?_) ?_ is
  · rcases h with h | h
    · exact (h.step i).imp_right And.left
    · exact Or.inr (h.step i)
  · rcases exists_immediate tasks with h | ⟨pre, b, post, rfl, hpre, hb⟩
    · exact Or.inl (start_racing h)
    · exact Or.inr (start_over hpre hb)

/-- Every state of a run in which all tasks are started and the caller is heeded. -/
theorem reached_settled {tasks : List (Body R V O)} {is : List (AnyOfInput R)}
    (hall : ∀ b ∈ tasks.dropLast, b.immediate = false)
    (h : anyOfMachine.Along (fun s i => i.Heeded s) (anyOf tasks).1 is) :
    Racing tasks.length (anyOfMachine.exec (anyOf tasks).1 is)
      ((anyOf tasks).2 ++ anyOfMachine.outs (anyOf tasks).1 is) ∨
    Settled tasks.length (anyOfMachine.exec (anyOf tasks).1 is)
      ((anyOf tasks).2 ++ anyOfMachine.outs (anyOf tasks).1 is) := by
  refine Machine.log_invariant_along
    (P := fun s log => Racing tasks.length s log ∨ Settled tasks.length s log)
    (fun s log i hheeded h => ?_) h ?_
  · rcases h with h | h
    · exact (h.step i).imp_right fun hover => hover.2 hheeded
    · exact Or.inr (h.step i)
  · rcases exists_immediate tasks with h | ⟨pre, b, post, rfl, hpre, hb⟩
    · exact Or.inl (start_racing h)
    · cases post with
      | nil => exact Or.inr (start_settled hpre hb)
      | cons b' post =>
        rw [List.dropLast_append_cons, List.dropLast_cons_cons] at hall
        have hb' := hall b (List.mem_append_right _ List.mem_cons_self)
        exact absurd hb (Bool.not_eq_true _ ▸ hb')

/-- Before the first completion, the flag of the caller tells whether its handle has been
    destroyed. -/
theorem canceled_iff (tasks : List (Body R V O)) (is : List (AnyOfInput R)) :
    Over (anyOfMachine.exec (anyOf tasks).1 is) ∨
    ∃ c, (anyOfMachine.exec (anyOf tasks).1 is).caller = some ⟨c, .waiting⟩ ∧
      (c = true ↔ .destroy ∈ is) := by
  induction is using List.reverseRecOn with
  | nil =>
    rcases exists_immediate tasks with h | ⟨pre, b, post, rfl, hpre, hb⟩
    · obtain ⟨ws, evs, _, _, _, hstart⟩ := anyOf_suspends h
      rw [Machine.exec_nil, hstart]
      exact Or.inr ⟨false, rfl, iff_of_false nofun List.not_mem_nil⟩
    · exact Or.inl (start_over hpre hb)
  | append_singleton is i ih =>
    rw [Machine.exec_snoc]
    rcases ih with hover | ⟨c, hcaller, hc⟩
    · exact Or.inl (hover.step i)
    · rcases reached tasks is with hracing | hover
      · have hmem : AnyOfInput.destroy ∈ is ++ [i] ↔ i = .destroy ∨ c = true := by
          rw [hc, List.mem_append, List.mem_singleton, or_comm, eq_comm]
        have hcanceled : ∀ c', some (CallerFrame.mk c .waiting) = some ⟨c', .waiting⟩ → c = c' := by
          intro c' heq
          cases heq
          rfl
        rcases hracing.cases i with ⟨c', hc', hstep⟩ | ⟨k, r, next, next', evs, rfl, _, _, hstep⟩ |
          ⟨k, r, next, c', evs, v, rfl, _, _, _, hstep⟩
        · rw [hstep, hmem]
          refine Or.inr ⟨c', rfl, hc'.trans (or_congr_right ?_)⟩
          rw [hcaller]
          exact ⟨fun heq => hcanceled true heq, fun heq => by rw [heq]⟩
        · rw [hstep, hmem]
          exact Or.inr ⟨c, hcaller, ⟨Or.inr, fun hor => hor.resolve_left nofun⟩⟩
        · refine Or.inl ?_
          rcases hracing.step (.resume k r) with hagain | hover
          · have hanyOf := hagain.anyOf
            rw [hstep] at hanyOf
            exact nomatch hanyOf
          · exact hover.1
      · exact Or.inl (hover.step i)

theorem resumed_executes (h : s.lanes[k]? = some (.suspended false next)) :
    ∃ e ∈ (anyOfMachine.step s (.resume k r)).2, e.statement = true := by
  obtain ⟨lanes, a, c⟩ := s
  obtain ⟨xs, ys, rfl, hk⟩ := exists_middle h
  exact resume_statement hk

/-- Nothing happens before the first completion when the caller is destroyed and heeded. -/
theorem racing_heeded (h : Racing n s log) (hcaller : Over s ∨ s.caller = some ⟨true, .waiting⟩)
    {i : AnyOfInput R} (hi : i.Heeded s) : (anyOfMachine.step s i).2 = [] := by
  rcases hcaller with hover | hcaller
  · obtain ⟨c, hc⟩ := h.caller
    exact nomatch hover.caller _ hc
  · have hdeserted : s.Deserted := ⟨_, hcaller, rfl, rfl⟩
    rcases h.cases i with ⟨c, _, hstep⟩ | ⟨k, r, next, next', evs, rfl, hlane, _, hstep⟩ |
      ⟨k, r, next, c, evs, v, rfl, hlane, _, _, hstep⟩
    · rw [hstep]
    · exact absurd ⟨_, next, rfl, rfl⟩ (hi hdeserted _ hlane)
    · exact absurd ⟨_, next, rfl, rfl⟩ (hi hdeserted _ hlane)

end Runs

/-- **The first result**: a run of `AnyOf` is as it ought to be exactly if no task but the last
    completes when it is started, and no suspended task is resumed between the destruction of the
    waiting caller and the first completion. -/
theorem first_result_iff (tasks : List (Body R V O)) (is : List (AnyOfInput R)) :
    FirstResult tasks is ↔ (∀ b ∈ tasks.dropLast, b.immediate = false) ∧
      anyOfMachine.Along (fun s i => i.Heeded s) (anyOf tasks).1 is := by
  constructor
  · intro h
    constructor
    · rcases exists_immediate tasks with hall | ⟨pre, b, post, rfl, hpre, hb⟩
      · exact fun b hb => hall b (List.dropLast_subset tasks hb)
      · cases post with
        | nil =>
          rw [List.dropLast_concat]
          exact hpre
        | cons b' post =>
          obtain ⟨ws, evs, v, _, _, hquiet, hstart⟩ := anyOf_completes (b' :: post) hpre hb
          have hfreed := (h.fair [] is rfl).freed
          rw [Machine.exec_nil, Machine.outs_nil, List.append_nil, hstart, List.filterMap_append,
            completions_quiet hquiet, List.nil_append] at hfreed
          have hlost : Lane.lost b' ∈ ws.map Lane.cancel ++ .gone :: (b' :: post).map Lane.lost :=
            List.mem_append_right _ (List.mem_cons_of_mem _ List.mem_cons_self)
          rcases hfreed (List.cons_ne_nil _ _) _ hlost with ⟨htask, _⟩ | hpending
          · exact nomatch htask
          · exact absurd hpending (Lane.lost_idle b')
    · refine Machine.along_of_split _ fun as i bs hsplit => ?_
      cases i with
      | destroy => trivial
      | resume k r =>
        intro hdeserted l hlane hpending
        obtain ⟨c, hcaller, hcanceled, hpoint⟩ := hdeserted
        have hnot : ¬ Over (anyOfMachine.exec (anyOf tasks).1 as) := by
          intro hover
          rw [hover.caller c hcaller] at hpoint
          exact nomatch hpoint
        have hdestroy : AnyOfInput.destroy ∈ as := by
          obtain ⟨c', hcaller', hc'⟩ := (canceled_iff tasks as).resolve_left hnot
          rw [hcaller] at hcaller'
          cases hcaller'
          exact hc'.mp hcanceled
        have hracing := (reached tasks as).resolve_right hnot
        obtain ⟨next, rfl⟩ := hracing.lanes l (List.mem_of_getElem? hlane)
        obtain ⟨e, he, hstatement⟩ := resumed_executes (r := r) hlane
        exact nomatch (h.canceled as _ bs hsplit hdestroy e he).symm.trans hstatement
  · intro h
    obtain ⟨hall, hheeded⟩ := h
    have hprefix : ∀ as bs, is = as ++ bs → Racing tasks.length
        (anyOfMachine.exec (anyOf tasks).1 as)
        ((anyOf tasks).2 ++ anyOfMachine.outs (anyOf tasks).1 as) ∨ Settled tasks.length
        (anyOfMachine.exec (anyOf tasks).1 as)
        ((anyOf tasks).2 ++ anyOfMachine.outs (anyOf tasks).1 as) := by
      intro as bs hsplit
      rw [hsplit] at hheeded
      exact reached_settled hall ((Machine.along_append _).mp hheeded).1
    refine ⟨fun as bs hsplit => ?_, fun as i bs hsplit hne => ?_,
      fun as k r bs l hsplit hne hlane hpending => ?_, fun as i bs hsplit hin e he => ?_⟩
    · rcases hprefix as bs hsplit with hracing | hsettled
      · exact hracing.fair
      · exact hsettled.fair
    · rcases hprefix as _ hsplit with hracing | hsettled
      · exact absurd (completions_quiet hracing.quiet) hne
      · exact hsettled.over.events i
    · rcases hprefix as _ hsplit with hracing | hsettled
      · exact absurd (completions_quiet hracing.quiet) hne
      · exact hsettled.over.unwound hlane hpending
    · rcases hprefix as _ hsplit with hracing | hsettled
      · rw [hsplit] at hheeded
        have hstep := ((Machine.along_append _).mp hheeded).2.1
        rw [racing_heeded hracing ((canceled_iff tasks as).imp_right fun hc => ?_) hstep] at he
        · exact absurd he List.not_mem_nil
        · obtain ⟨c, hcaller, hc⟩ := hc
          rw [hc.mpr hin] at hcaller
          exact hcaller
      · obtain ⟨f, rfl⟩ := hsettled.over.events i e he
        rfl

/-- Of two tasks, the first completes when it is started: the frame of the second stays for ever.
    And a task whose caller has been destroyed completes when it is resumed. -/
theorem first_result_fails : ¬ FirstResult (R := Unit) (O := Unit) [.ret 42, .ret 7] [] ∧
    ¬ FirstResult (R := Unit) (O := Unit) [.await fun _ => .ret 42] [.destroy, .resume 0 ()] := by
  constructor
  · intro h
    have hfreed := (h.fair [] [] rfl).freed (List.cons_ne_nil (0, 42) [])
    have hlost : (Lane.lost (.ret 7) : Lane Unit Nat Unit) ∈ [.gone, .lost (.ret 7)] :=
      List.mem_cons_of_mem _ (List.mem_singleton_self _)
    rcases hfreed _ hlost with ⟨htask, _⟩ | hpending
    · exact nomatch htask
    · exact Lane.lost_idle _ hpending
  · intro h
    have hcanceled := h.canceled [.destroy] (.resume 0 ()) [] rfl List.mem_cons_self
    exact nomatch hcanceled (.completed 0 42) List.mem_cons_self

end Veridie.Utils
