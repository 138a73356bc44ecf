/-
  File:      Veridie/Utils/Story.lean
  Subject:   What is seen of each nested task, in every run: it is called, it finishes, its parent is
             resumed with its result, it is destroyed, in this order and each at most once.

  * `story` -- what has been seen of one task;
  * `Told` -- the stories, by what has become of the tasks;
  * `Nested.isCanceled_eq`, `destroyHandles_eq`, `finish_keeps` -- what the code does to a chain;
  * `told_step`, `told_run` -- every step and every run keeps the chain and tells its stories.
-/
import Veridie.Utils.Nesting

namespace Veridie.Utils

open Veridie.Lib

variable {L V X O : Type}

/-! ## 1. Stories -/

/-- The task that an event is about. -/
def Event.about : Event V X O → Option Nat
  | .exec _ _ => none
  | .called _ c => some c
  | .finished f _ => some f
  | .resumed _ c _ => some c
  | .destroyed f => some f
  | .undefined => none

/-- What has been seen of a task. -/
def story (c : Nat) (log : List (Event V X O)) : List (Event V X O) :=
  log.filter fun e => e.about = some c

theorem story_append (c : Nat) (log evs : List (Event V X O)) :
    story c (log ++ evs) = story c log ++ story c evs := List.filter_append _ _

theorem story_silent {c : Nat} {evs : List (Event V X O)} (h : ∀ e ∈ evs, e.about ≠ some c) :
    story c evs = [] := by
  refine List.filter_eq_nil_iff.mpr fun e he habout => ?_
  exact h e he (of_decide_eq_true habout)

theorem story_same {c : Nat} {log evs : List (Event V X O)} (h : ∀ e ∈ evs, e.about ≠ some c) :
    story c (log ++ evs) = story c log := by
  rw [story_append, story_silent h, List.append_nil]

theorem story_cons_self {c : Nat} {e : Event V X O} (h : e.about = some c)
    (evs : List (Event V X O)) : story c (e :: evs) = e :: story c evs :=
  List.filter_cons_of_pos (decide_eq_true h)

theorem story_cons_other {c : Nat} {e : Event V X O} (h : e.about ≠ some c)
    (evs : List (Event V X O)) : story c (e :: evs) = story c evs :=
  List.filter_cons_of_neg fun habout => h (of_decide_eq_true habout)

/-- The handles of some tasks, each destroyed once. -/
theorem story_destroyed {gone : List Nat} (hnodup : gone.Nodup) {c : Nat} (hc : c ∈ gone) :
    story c (gone.map fun d => (Event.destroyed d : Event V X O)) = [.destroyed c] := by
  induction gone with
  | nil => exact absurd hc List.not_mem_nil
  | cons d gone ih =>
    obtain ⟨hnot, hnodup⟩ := List.nodup_cons.mp hnodup
    rw [List.map_cons]
    by_cases hd : d = c
    · subst hd
      rw [story_cons_self rfl, story_silent fun e he habout => ?_]
      obtain ⟨d', hd', rfl⟩ := List.mem_map.mp he
      cases habout
      exact hnot hd'
    · have hin : c ∈ gone := (List.mem_cons.mp hc).resolve_left fun he => hd he.symm
      rw [story_cons_other (e := .destroyed d) fun habout => hd (Option.some.inj habout)]
      exact ih hnodup hin

/-- The stories: a task in the chain has been called by the next one; one whose handle is held has
    ended, and its parent has gone on unless it is just about to; the others are destroyed. As long as
    the handle of the root exists, a parent goes on with the result of its child. -/
structure Told (t : Tasks L V X) (acts : List (Act L V X)) (log : List (Event V X O)) : Prop where
  unborn : ∀ c, t.next ≤ c → story c log = []
  called : (acts.map Prod.fst).IsChain fun c p => story c log = [.called p c]
  root : ∀ c ∈ (acts.map Prod.fst).getLast?, story c log = []
  held : ∀ a ∈ acts, ∀ c ∈ a.2.handles, Done t c → ¬ a.2.Awaits c →
    ∃ r r', (t.handle = true → r' = r) ∧
      story c log = [.called a.1 c, .finished c r, .resumed a.1 c r']
  awaited : ∀ a ∈ acts.head?, ∀ c, a.2.Awaits c →
    ∃ r, (t.frames c).bind Frame.value = some r ∧ story c log = [.called a.1 c, .finished c r]
  gone : ∀ c, 0 < c → c < t.next → t.frames c = none →
    ∃ p r r', (t.handle = true → r' = r) ∧
      story c log = [.called p c, .finished c r, .resumed p c r', .destroyed c]
  ended : acts = [] → ∃ r, story 0 log =
    .finished 0 r :: if (t.frames 0).isSome then [] else [.destroyed 0]
  defined : Event.undefined ∉ log

section Told

variable {t t' : Tasks L V X} {acts acts' ps : List (Act L V X)} {f : Nat} {fr : Frame L V X}
  {log evs : List (Event V X O)}

/-- Nothing is seen of any task. -/
theorem Told.relabel (h : Told t acts log) (hn : Nested t acts) (hn' : Nested t' acts')
    (hfst : acts'.map Prod.fst = acts.map Prod.fst)
    (hcorr : ∀ b ∈ acts', ∃ a ∈ acts, key a = key b ∧ ∀ c, Done t c → a.2.Awaits c → b.2.Awaits c)
    (hhead : ∀ b ∈ acts'.head?, ∀ c, b.2.Awaits c → ∃ a ∈ acts.head?, a.1 = b.1 ∧ a.2.Awaits c)
    (hne : acts ≠ []) (hnext : t'.next = t.next) (hhandle : t'.handle = true → t.handle = true)
    (hframes : ∀ c, c ∉ acts.map Prod.fst → t'.frames c = t.frames c)
    (hsilent : ∀ e ∈ evs, e.about = none ∧ e ≠ .undefined) : Told t' acts' (log ++ evs) := by
  have hsame : ∀ c, story c (log ++ evs) = story c log := by
    intro c
    refine story_same fun e he habout => ?_
    rw [(hsilent e he).1] at habout
    exact nomatch habout
  have hdone : ∀ c, Done t' c → Done t c := by
    intro c hc
    have hnot := hn'.notMem hc
    rw [hfst] at hnot
    obtain ⟨cf, r, hframe, hrest⟩ := hc
    rw [hframes c hnot] at hframe
    exact ⟨cf, r, hframe, hrest⟩
  refine ⟨fun c hc => ?_, ?_, fun c hc => ?_, fun b hb c hc hd hnot => ?_, fun b hb c hc => ?_,
    fun c hpos hlt hnone => ?_, fun hnil => ?_, fun hundef => ?_⟩
  · rw [hsame]
    exact h.unborn c (hnext ▸ hc)
  · rw [hfst]
    exact h.called.imp fun c p hcp => (hsame c).trans hcp
  · rw [hsame]
    exact h.root c (hfst ▸ hc)
  · obtain ⟨a, ha, hkey, hkeep⟩ := hcorr b hb
    obtain ⟨hid, hhandles⟩ := Prod.mk.inj hkey
    have hd := hdone c hd
    obtain ⟨r, r', hr, hstory⟩ := h.held a ha c (hhandles ▸ hc) hd fun haw => hnot (hkeep c hd haw)
    refine ⟨r, r', fun hh => hr (hhandle hh), ?_⟩
    rw [hsame, hstory, hid]
  · obtain ⟨a, ha, hid, haw⟩ := hhead b hb c hc
    obtain ⟨r, hvalue, hstory⟩ := h.awaited a ha c haw
    refine ⟨r, ?_, ?_⟩
    · rw [hframes c (hn.notMem ((hn.innermost a ha).2 c haw).2)]
      exact hvalue
    · rw [hsame, hstory, hid]
  · have hnot : c ∉ acts.map Prod.fst := by
      intro hmem
      rw [← hfst] at hmem
      obtain ⟨b, hb, rfl⟩ := List.mem_map.mp hmem
      exact nomatch (hn'.here b hb).symm.trans hnone
    have hold : t.frames c = none := (hframes c hnot).symm.trans hnone
    obtain ⟨p, r, r', hr, hstory⟩ := h.gone c hpos (hnext ▸ hlt) hold
    exact ⟨p, r, r', fun hh => hr (hhandle hh), (hsame c).trans hstory⟩
  · rw [hnil, List.map_nil] at hfst
    exact absurd (List.map_eq_nil_iff.mp hfst.symm) hne
  · rcases List.mem_append.mp hundef with hin | hin
    · exact h.defined hin
    · exact (hsilent _ hin).2 rfl

theorem not_awaits {l : L} (hpoint : fr.point = .running l) (c : Nat) : ¬ fr.Awaits c := by
  intro haw
  obtain ⟨next, hc | hc⟩ := haw
  · exact nomatch hpoint.symm.trans hc
  · exact nomatch hpoint.symm.trans hc

theorem awaits_inj {c d : Nat} (hc : fr.Awaits c) (hd : fr.Awaits d) : d = c := by
  obtain ⟨next, hc | hc⟩ := hc <;> obtain ⟨next', hd | hd⟩ := hd <;> cases hc.symm.trans hd <;> rfl

/-- The innermost task goes on with the result of a child. -/
theorem Told.collect {c : Nat} {l : L} {r r' : Result V X} (h : Told t ((f, fr) :: ps) log)
    (hn : Nested t ((f, fr) :: ps)) (hn' : Nested t' ((f, fr.at (.running l)) :: ps))
    (haw : fr.Awaits c) (hvalue : (t.frames c).bind Frame.value = some r)
    (hr : t.handle = true → r' = r) (hnext : t'.next = t.next) (hhandle : t'.handle = t.handle)
    (hframes : t'.frames = Function.update t.frames f (some (fr.at (.running l)))) :
    Told t' ((f, fr.at (.running l)) :: ps) (log ++ [.resumed f c r']) := by
  have hother : ∀ d, d ≠ c → story d (log ++ [.resumed f c r']) = story d log := by
    intro d hd
    refine story_same fun e he habout => ?_
    rw [List.mem_singleton.mp he] at habout
    exact hd (Option.some.inj habout).symm
  obtain ⟨hcin, hcdone⟩ := (hn.innermost _ rfl).2 c haw
  have hids : ∀ i ∈ ((f, fr) :: ps).map Prod.fst, i ≠ c := fun i hi he =>
    hn.notMem hcdone (he ▸ hi)
  have hdone : ∀ d, Done t' d → Done t d := by
    intro d hd
    have hdf := hd.ne_live hn'.head_live
    obtain ⟨df, q, hframe, hrest⟩ := hd
    rw [hframes, Function.update_of_ne hdf] at hframe
    exact ⟨df, q, hframe, hrest⟩
  obtain ⟨q, hq, hstory⟩ := h.awaited (f, fr) rfl c haw
  cases hvalue.symm.trans hq
  have hstoryc : story c (log ++ [.resumed f c r']) =
      [.called f c, .finished c r, .resumed f c r'] := by
    rw [story_append, hstory, story_cons_self rfl]
    rfl
  refine ⟨fun d hd => ?_, ?_, fun d hd => ?_, fun b hb d hd hdd hnot => ?_, fun b hb d hd => ?_,
    fun d hpos hlt hnone => ?_, fun hnil => (nomatch hnil), fun hundef => ?_⟩
  · have hdc : d ≠ c := by
      intro he
      obtain ⟨cf, _, hframe, _⟩ := hcdone
      have hlt := hn.lt_next hframe
      rw [hnext, he] at hd
      exact absurd hlt (Nat.not_lt.mpr hd)
    rw [hother d hdc]
    exact h.unborn d (hnext ▸ hd)
  · exact h.called.imp_of_mem_imp fun a b ha _ hab => (hother a (hids a ha)).trans hab
  · have hmem := List.mem_of_mem_getLast? hd
    rw [hother d (hids d hmem)]
    exact h.root d hd
  · have hdd := hdone d hdd
    by_cases hdc : d = c
    · subst hdc
      have hbf : b.1 = f := by
        rcases List.mem_cons.mp hb with rfl | hb
        · rfl
        · have hdist := hn.distinct
          rw [List.flatMap_cons] at hdist
          have happ := (List.nodup_append.mp hdist).2.2 d hcin d
            (List.mem_flatMap.mpr ⟨b, hb, hd⟩)
          exact absurd rfl happ
      rw [hbf, hhandle]
      exact ⟨r, r', hr, hstoryc⟩
    · rw [hother d hdc, hhandle]
      rcases List.mem_cons.mp hb with rfl | hb
      · refine h.held (f, fr) List.mem_cons_self d hd hdd fun hd' => hdc ?_
        exact awaits_inj haw hd'
      · exact h.held b (List.mem_cons_of_mem _ hb) d hd hdd hnot
  · cases Option.mem_some_iff.mp hb
    exact absurd hd (not_awaits rfl d)
  · have hdf : d ≠ f := by
      intro he
      rw [he, hn'.here (f, fr.at (.running l)) List.mem_cons_self] at hnone
      exact nomatch hnone
    rw [hframes, Function.update_of_ne hdf] at hnone
    have hdc : d ≠ c := by
      intro he
      obtain ⟨cf, _, hframe, _⟩ := hcdone
      rw [← he, hnone] at hframe
      exact nomatch hframe
    obtain ⟨p, q, q', hq', hstory'⟩ := h.gone d hpos (hnext ▸ hlt) hnone
    exact ⟨p, q, q', hhandle ▸ hq', (hother d hdc).trans hstory'⟩
  · rcases List.mem_append.mp hundef with hin | hin
    · exact h.defined hin
    · exact nomatch List.mem_singleton.mp hin

/-- The innermost task destroys handles, of tasks that are done. -/
theorem Told.release {gone hs : List Nat} {fr' : Frame L V X} {l : L}
    (h : Told t ((f, fr) :: ps) log) (hn : Nested t ((f, fr) :: ps))
    (hn' : Nested t' ((f, fr') :: ps)) (hhandles : fr.handles = gone ++ hs)
    (hhs : fr'.handles = hs) (hquiet : ∀ c, ¬ fr.Awaits c) (hpoint : fr'.point = .running l)
    (hframes : t'.frames = Function.update (erase t.frames gone) f (some fr'))
    (hnext : t'.next = t.next) (hhandle : t'.handle = t.handle) :
    Told t' ((f, fr') :: ps) (log ++ gone.map .destroyed) := by
  have hnodup : gone.Nodup := by
    have hdist := hn.distinct
    rw [List.flatMap_cons, hhandles, List.append_assoc] at hdist
    exact (List.nodup_append.mp hdist).1
  have hgone : ∀ c ∈ gone, Done t c := fun c hc =>
    hn.handles_done c (hhandles ▸ List.mem_append_left _ hc)
  have hother : ∀ d, d ∉ gone → story d (log ++ gone.map .destroyed) = story d log := by
    intro d hd
    refine story_same fun e he habout => ?_
    obtain ⟨c, hc, rfl⟩ := List.mem_map.mp he
    cases habout
    exact hd hc
  have hids : ∀ i ∈ ((f, fr) :: ps).map Prod.fst, i ∉ gone := fun i hi hin =>
    hn.notMem (hgone i hin) hi
  have hdone : ∀ d, Done t' d → Done t d ∧ d ∉ gone := by
    intro d hd
    have hdf := hd.ne_live hn'.head_live
    obtain ⟨df, q, hframe, hrest⟩ := hd
    rw [hframes, Function.update_of_ne hdf] at hframe
    have hnot : d ∉ gone := by
      intro hin
      rw [erase, if_pos hin] at hframe
      cases hframe
    rw [erase_of_notMem hnot] at hframe
    exact ⟨⟨df, q, hframe, hrest⟩, hnot⟩
  refine ⟨fun d hd => ?_, ?_, fun d hd => ?_, fun b hb d hd hdd hnot => ?_, fun b hb d hd => ?_,
    fun d hpos hlt hnone => ?_, fun hnil => absurd hnil (List.cons_ne_nil _ _), fun hundef => ?_⟩
  · have hnot : d ∉ gone := by
      intro hin
      obtain ⟨cf, _, hframe, _⟩ := hgone d hin
      exact absurd (hn.lt_next hframe) (Nat.not_lt.mpr (hnext ▸ hd))
    rw [hother d hnot]
    exact h.unborn d (hnext ▸ hd)
  · exact h.called.imp_of_mem_imp fun a b ha _ hab => (hother a (hids a ha)).trans hab
  · rw [hother d (hids d (List.mem_of_mem_getLast? hd))]
    exact h.root d hd
  · obtain ⟨hdd, hdg⟩ := hdone d hdd
    rw [hother d hdg, hhandle]
    rcases List.mem_cons.mp hb with rfl | hb
    · refine h.held (f, fr) List.mem_cons_self d ?_ hdd (hquiet d)
      rw [hhandles]
      exact List.mem_append_right _ (hhs ▸ hd)
    · exact h.held b (List.mem_cons_of_mem _ hb) d hd hdd hnot
  · cases Option.mem_some_iff.mp hb
    exact absurd hd (not_awaits hpoint d)
  · rw [hhandle]
    by_cases hdg : d ∈ gone
    · have hin : d ∈ fr.handles := hhandles ▸ List.mem_append_left _ hdg
      obtain ⟨q, q', hq', hstory⟩ :=
        h.held (f, fr) List.mem_cons_self d hin (hgone d hdg) (hquiet d)
      refine ⟨f, q, q', hq', ?_⟩
      rw [story_append, hstory, story_destroyed hnodup hdg]
      rfl
    · have hdf : d ≠ f := by
        intro he
        rw [he, hn'.here (f, fr') List.mem_cons_self] at hnone
        cases hnone
      rw [hframes, Function.update_of_ne hdf, erase_of_notMem hdg] at hnone
      rw [hother d hdg]
      exact h.gone d hpos (hnext ▸ hlt) hnone
  · rcases List.mem_append.mp hundef with hin | hin
    · exact h.defined hin
    · obtain ⟨c, _, hc⟩ := List.mem_map.mp hin
      cases hc

/-- The innermost task is done. -/
theorem Told.leave {p : Nat} {pf pf' fin : Frame L V X} {r : Result V X} {next : Result V X → L}
    (h : Told t ((f, fr) :: (p, pf) :: ps) log) (hn : Nested t ((f, fr) :: (p, pf) :: ps))
    (hn' : Nested t' ((p, pf') :: ps)) (hvalue : fin.value = some r)
    (hsame : pf' = pf.at pf'.point) (hpoint : pf'.point = .starting f next ∨ pf'.point = .resumed f next)
    (hframes : t'.frames = Function.update (Function.update t.frames f (some fin)) p (some pf'))
    (hnext : t'.next = t.next) (hhandle : t'.handle = t.handle) :
    Told t' ((p, pf') :: ps) (log ++ [.finished f r]) := by
  have hfp : p ≠ f := hn.ids_ne (p, pf) List.mem_cons_self
  have hawf : pf'.Awaits f := ⟨next, hpoint⟩
  have hlink := (List.isChain_cons_cons.mp hn.links).1
  have hother : ∀ d, d ≠ f → story d (log ++ [.finished f r]) = story d log := by
    intro d hd
    refine story_same fun e he habout => ?_
    rw [List.mem_singleton.mp he] at habout
    exact hd (Option.some.inj habout).symm
  have hids : ∀ i ∈ ((p, pf) :: ps).map Prod.fst, i ≠ f := by
    intro i hi
    obtain ⟨a, ha, rfl⟩ := List.mem_map.mp hi
    exact hn.ids_ne a ha
  have hdone : ∀ d, Done t' d → d ≠ f → Done t d := by
    intro d hd hdf
    have hdp := hd.ne_live hn'.head_live
    obtain ⟨df, q, hframe, hrest⟩ := hd
    rw [hframes, Function.update_of_ne hdp, Function.update_of_ne hdf] at hframe
    exact ⟨df, q, hframe, hrest⟩
  have hcalled := h.called
  rw [List.map_cons, List.map_cons] at hcalled
  obtain ⟨hstoryf, hcalled⟩ := List.isChain_cons_cons.mp hcalled
  refine ⟨fun d hd => ?_, ?_, fun d hd => ?_, fun b hb d hd hdd hnot => ?_, fun b hb d hd => ?_,
    fun d hpos hlt hnone => ?_, fun hnil => (nomatch hnil), fun hundef => ?_⟩
  · have hdf : d ≠ f := by
      intro he
      have hlt := hn.lt_next (hn.here (f, fr) List.mem_cons_self)
      exact absurd hlt (Nat.not_lt.mpr (he ▸ hnext ▸ hd))
    rw [hother d hdf]
    exact h.unborn d (hnext ▸ hd)
  · exact hcalled.imp_of_mem_imp fun a b ha _ hab => (hother a (hids a ha)).trans hab
  · rw [hother d (hids d (List.mem_of_mem_getLast? hd))]
    refine h.root d ?_
    rw [List.map_cons, List.map_cons, List.getLast?_cons_cons]
    exact hd
  · rw [hhandle]
    rcases List.mem_cons.mp hb with rfl | hb
    · have hdf : d ≠ f := fun he => hnot (he ▸ hawf)
      rw [hother d hdf]
      have hhandles : pf'.handles = pf.handles := by rw [hsame]; rfl
      refine h.held (p, pf) (List.mem_cons_of_mem _ List.mem_cons_self) d (hhandles ▸ hd)
        (hdone d hdd hdf) fun haw => ?_
      obtain ⟨_, _, next', hpf | hpf⟩ := hlink
      · obtain ⟨next'', haw | haw⟩ := haw
        · exact nomatch hpf.1.symm.trans haw
        · exact nomatch hpf.1.symm.trans haw
      · exact hdf (awaits_inj ⟨next', Or.inl hpf.1⟩ haw)
    · have hdf : d ≠ f := by
        intro he
        have hdist := hn.distinct
        rw [List.flatMap_cons, List.flatMap_cons] at hdist
        have happ := (List.nodup_append.mp hdist).2.1
        exact (List.nodup_append.mp happ).2.2 f hlink.2.1 f
          (List.mem_flatMap.mpr ⟨b, hb, he ▸ hd⟩) rfl
      rw [hother d hdf]
      exact h.held b (List.mem_cons_of_mem _ (List.mem_cons_of_mem _ hb)) d hd (hdone d hdd hdf) hnot
  · cases Option.mem_some_iff.mp hb
    cases awaits_inj hawf hd
    refine ⟨r, ?_, ?_⟩
    · rw [hframes, Function.update_of_ne hfp.symm, Function.update_self]
      exact hvalue
    · rw [story_append, hstoryf, story_cons_self rfl]
      rfl
  · have hdp : d ≠ p := by
      intro he
      rw [he, hn'.here (p, pf') List.mem_cons_self] at hnone
      exact nomatch hnone
    have hdf : d ≠ f := by
      intro he
      rw [hframes, Function.update_of_ne hdp, he, Function.update_self] at hnone
      exact nomatch hnone
    rw [hframes, Function.update_of_ne hdp, Function.update_of_ne hdf] at hnone
    rw [hhandle, hother d hdf]
    exact h.gone d hpos (hnext ▸ hlt) hnone
  · rcases List.mem_append.mp hundef with hin | hin
    · exact h.defined hin
    · exact nomatch List.mem_singleton.mp hin

/-- The root is done: its frame stays while its handle exists. -/
theorem Told.leaveRoot {r : Result V X} (h : Told t [(f, fr)] log) (hn : Nested t [(f, fr)])
    (hevs : evs = .finished f r :: if (t'.frames 0).isSome then [] else [.destroyed f])
    (hframes : ∀ d, d ≠ f → t'.frames d = t.frames d) (hnext : t'.next = t.next)
    (hhandle : t'.handle = t.handle) : Told t' [] (log ++ evs) := by
  have hf : f = 0 := hn.root (f, fr) rfl
  have hother : ∀ d, d ≠ f → story d (log ++ evs) = story d log := by
    intro d hd
    refine story_same fun e he habout => ?_
    rw [hevs] at he
    rcases List.mem_cons.mp he with rfl | he
    · exact hd (Option.some.inj habout).symm
    · split at he
      · exact absurd he List.not_mem_nil
      · rw [List.mem_singleton.mp he] at habout
        exact hd (Option.some.inj habout).symm
  refine ⟨fun d hd => ?_, List.isChain_nil, fun d hd => (nomatch hd),
    fun b hb => absurd hb List.not_mem_nil, fun b hb => (nomatch hb),
    fun d hpos hlt hnone => ?_, fun _ => ⟨r, ?_⟩, fun hundef => ?_⟩
  · have hdf : d ≠ f := by
      intro he
      have hlt := hn.lt_next (hn.here (f, fr) List.mem_cons_self)
      exact absurd hlt (Nat.not_lt.mpr (he ▸ hnext ▸ hd))
    rw [hother d hdf]
    exact h.unborn d (hnext ▸ hd)
  · have hdf : d ≠ f := fun he => Nat.lt_irrefl 0 ((he.trans hf) ▸ hpos)
    rw [hhandle, hother d hdf]
    rw [hframes d hdf] at hnone
    exact h.gone d hpos (hnext ▸ hlt) hnone
  · have hempty : story 0 log = [] := h.root 0 (by rw [List.map_cons, hf]; rfl)
    rw [story_append, hempty, List.nil_append, hevs, story_cons_self (by rw [hf]; rfl), hf]
    split
    · rfl
    · rw [story_cons_self rfl]
      rfl
  · rcases List.mem_append.mp hundef with hin | hin
    · exact h.defined hin
    · rw [hevs] at hin
      rcases List.mem_cons.mp hin with hin | hin
      · exact nomatch hin
      · split at hin
        · exact absurd hin List.not_mem_nil
        · exact nomatch List.mem_singleton.mp hin

/-- The innermost task calls another one. -/
theorem Told.call {l child : L} {next : Result V X → L} {c : Nat} {pf inner : Frame L V X}
    (h : Told t ((f, fr) :: ps) log) (hn : Nested t ((f, fr) :: ps))
    (hn' : Nested t' ((c, inner) :: (f, pf) :: ps)) (hpoint : fr.point = .running l)
    (hc : c = t.next) (hpf : pf = { fr with handles := c :: fr.handles, point := .starting c next })
    (hinner : inner.point = .initial child)
    (hframes : t'.frames = Function.update (Function.update t.frames f (some pf)) c (some inner))
    (hnext : t'.next = c + 1) (hhandle : t'.handle = t.handle) :
    Told t' ((c, inner) :: (f, pf) :: ps) (log ++ [.called f c]) := by
  have hother : ∀ d, d ≠ c → story d (log ++ [.called f c]) = story d log := by
    intro d hd
    refine story_same fun e he habout => ?_
    rw [List.mem_singleton.mp he] at habout
    exact hd (Option.some.inj habout).symm
  have hids : ∀ i ∈ ((f, fr) :: ps).map Prod.fst, i ≠ c := by
    intro i hi
    obtain ⟨a, ha, rfl⟩ := List.mem_map.mp hi
    exact Nat.ne_of_lt (hc ▸ hn.lt_next (hn.here a ha))
  have hclive : t'.live c = true := hn'.head_live
  have hflive : t'.live f = true :=
    live_eq (hn'.here (f, pf) (List.mem_cons_of_mem _ List.mem_cons_self))
      (hn'.open' (f, pf) (List.mem_cons_of_mem _ List.mem_cons_self))
  have hdone : ∀ d, Done t' d → Done t d ∧ d ≠ c := by
    intro d hd
    have hdc := hd.ne_live hclive
    have hdf := hd.ne_live hflive
    obtain ⟨df, q, hframe, hrest⟩ := hd
    rw [hframes, Function.update_of_ne hdc, Function.update_of_ne hdf] at hframe
    exact ⟨⟨df, q, hframe, hrest⟩, hdc⟩
  refine ⟨fun d hd => ?_, ?_, fun d hd => ?_, fun b hb d hd hdd hnot => ?_, fun b hb d hd => ?_,
    fun d hpos hlt hnone => ?_, fun hnil => (nomatch hnil), fun hundef => ?_⟩
  · have hcd : c < d := by
      rw [hnext] at hd
      exact hd
    rw [hother d (Nat.ne_of_gt hcd)]
    exact h.unborn d (hc ▸ Nat.le_of_lt hcd)
  · have hnew : story c (log ++ [.called f c]) = [.called f c] := by
      rw [story_append, h.unborn c (Nat.le_of_eq hc.symm), story_cons_self rfl]
      rfl
    have hold : (((f, pf) :: ps).map Prod.fst).IsChain fun d p =>
        story d (log ++ [.called f c]) = [.called p d] :=
      h.called.imp_of_mem_imp fun a b ha _ hab => (hother a (hids a ha)).trans hab
    exact List.isChain_cons_cons.mpr ⟨hnew, hold⟩
  · rw [List.map_cons, List.map_cons, List.getLast?_cons_cons] at hd
    rw [hother d (hids d (List.mem_of_mem_getLast? hd))]
    exact h.root d hd
  · obtain ⟨hdd, hdc⟩ := hdone d hdd
    rw [hhandle, hother d hdc]
    rcases List.mem_cons.mp hb with rfl | hb
    · obtain ⟨cf, _, hframe, _⟩ := hdd
      have hin := (hn'.children (c, inner) List.mem_cons_self d hd).1
      exact absurd (hn.lt_next hframe) (Nat.not_lt.mpr (hc ▸ Nat.le_of_lt hin))
    · rcases List.mem_cons.mp hb with rfl | hb
      · rw [hpf] at hd
        have hin := (List.mem_cons.mp hd).resolve_left hdc
        exact h.held (f, fr) List.mem_cons_self d hin hdd (not_awaits hpoint d)
      · exact h.held b (List.mem_cons_of_mem _ hb) d hd hdd hnot
  · cases Option.mem_some_iff.mp hb
    obtain ⟨next', hd | hd⟩ := hd
    · exact nomatch hinner.symm.trans hd
    · exact nomatch hinner.symm.trans hd
  · have hdc : d ≠ c := by
      intro he
      rw [he, hn'.here (c, inner) List.mem_cons_self] at hnone
      exact nomatch hnone
    have hdf : d ≠ f := by
      intro he
      rw [he, hn'.here (f, pf) (List.mem_cons_of_mem _ List.mem_cons_self)] at hnone
      exact nomatch hnone
    rw [hframes, Function.update_of_ne hdc, Function.update_of_ne hdf] at hnone
    rw [hnext] at hlt
    have hdlt : d < c := Nat.lt_of_le_of_ne (Nat.le_of_lt_succ hlt) hdc
    rw [hhandle, hother d hdc]
    exact h.gone d hpos (hc ▸ hdlt) hnone
  · rcases List.mem_append.mp hundef with hin | hin
    · exact h.defined hin
    · exact nomatch List.mem_singleton.mp hin

/-- The handle of the root is destroyed when the root is done. -/
theorem Told.destroyRoot (h : Told t [] log) (hroot : (t.frames 0).isSome = true)
    (hframes : t'.frames = Function.update t.frames 0 none) (hnext : t'.next = t.next)
    (hhandle : t'.handle = false) : Told t' [] (log ++ [.destroyed 0]) := by
  have hother : ∀ d, 0 < d → story d (log ++ [.destroyed 0]) = story d log := by
    intro d hd
    refine story_same fun e he habout => ?_
    rw [List.mem_singleton.mp he] at habout
    exact Nat.ne_of_lt hd (Option.some.inj habout)
  refine ⟨fun d hd => ?_, List.isChain_nil, fun d hd => (nomatch hd),
    fun b hb => absurd hb List.not_mem_nil, fun b hb => (nomatch hb),
    fun d hpos hlt hnone => ?_, fun _ => ?_, fun hundef => ?_⟩
  · by_cases hpos : 0 < d
    · rw [hother d hpos]
      exact h.unborn d (hnext ▸ hd)
    · have hzero : d = 0 := Nat.eq_zero_of_not_pos hpos
      obtain ⟨r, hstory⟩ := h.ended rfl
      have hempty := h.unborn 0 (hzero ▸ hnext ▸ hd)
      rw [hempty] at hstory
      exact nomatch hstory
  · rw [hframes, Function.update_of_ne (Nat.ne_of_gt hpos)] at hnone
    obtain ⟨p, r, r', _, hstory⟩ := h.gone d hpos (hnext ▸ hlt) hnone
    refine ⟨p, r, r', fun hh => ?_, (hother d hpos).trans hstory⟩
    rw [hhandle] at hh
    exact nomatch hh
  · obtain ⟨r, hstory⟩ := h.ended rfl
    rw [if_pos hroot] at hstory
    refine ⟨r, ?_⟩
    rw [story_append, hstory, hframes, Function.update_self, story_cons_self rfl]
    rfl
  · rcases List.mem_append.mp hundef with hin | hin
    · exact h.defined hin
    · exact nomatch List.mem_singleton.mp hin

end Told

/-! ## 2. What the code does to a chain -/

section Code

variable {t : Tasks L V X} {acts ps : List (Act L V X)} {f : Nat} {fr : Frame L V X}

/-- Every task of the chain sees the flag of the root. -/
theorem Nested.isCanceled_eq (h : Nested t acts) (ha : (f, fr) ∈ acts) :
    isCanceled t.frames fr = some !t.handle := by
  have hflags := h.flags (f, fr) ha
  unfold Flags at hflags
  unfold isCanceled
  split at hflags
  · obtain ⟨hcanceled, hparent, _⟩ := hflags
    rw [hcanceled]
    cases hhandle : t.handle with
    | true =>
      rw [Bool.not_true, if_neg Bool.false_ne_true, hparent]
    | false => rw [Bool.not_false, if_pos rfl]
  · obtain ⟨hcanceled, hparent⟩ := hflags
    obtain ⟨rf, hroot⟩ := h.root_mem (List.ne_nil_of_mem ha)
    have hrflags := h.flags (0, rf) hroot
    unfold Flags at hrflags
    rw [if_pos rfl] at hrflags
    rw [hcanceled, if_neg Bool.false_ne_true, hparent]
    show (t.frames 0).map Frame.canceled = _
    rw [h.here (0, rf) hroot, Option.map_some, hrflags.1]

theorem Nested.awaitResume_eq (h : Nested t acts) (ha : (f, fr) ∈ acts) (r : Option (Result V X)) :
    awaitResume t.frames fr r = if t.handle then r else some (.error .canceled) := by
  unfold awaitResume
  rw [h.isCanceled_eq ha]
  cases t.handle <;> rfl

theorem erase_singleton (frames : Nat → Option (Frame L V X)) (c : Nat) :
    erase frames [c] = Function.update frames c none := by
  funext i
  unfold erase
  by_cases hic : i = c
  · rw [hic, if_pos List.mem_cons_self, Function.update_self]
  · rw [if_neg (by simpa using hic), Function.update_of_ne hic]

theorem destroyHandle_eq {c : Nat} (h : Done t c) :
    destroyHandle (O := O) t.frames c = (Function.update t.frames c none, [.destroyed c]) := by
  obtain ⟨cf, _, hframe, hpoint, _⟩ := h
  unfold destroyHandle
  rw [hframe]
  dsimp only
  rw [if_pos (done_of_final hpoint)]

/-- The frames of tasks that are done are destroyed with their handles. -/
theorem destroyHandles_eq {frames : Nat → Option (Frame L V X)} {gone : List Nat}
    (hdone : ∀ c ∈ gone, ∃ cf, frames c = some cf ∧ cf.point = .final) (hnodup : gone.Nodup) :
    destroyHandles (O := O) frames gone = (erase frames gone, gone.map .destroyed) := by
  induction gone generalizing frames with
  | nil =>
    have hsame : erase frames [] = frames := funext fun i => erase_of_notMem List.not_mem_nil
    rw [hsame]
    rfl
  | cons c gone ih =>
    obtain ⟨hnot, hnodup⟩ := List.nodup_cons.mp hnodup
    obtain ⟨cf, hframe, hpoint⟩ := hdone c List.mem_cons_self
    have hstep : destroyHandle (O := O) frames c =
        (Function.update frames c none, [.destroyed c]) := by
      unfold destroyHandle
      rw [hframe]
      dsimp only
      rw [if_pos (done_of_final hpoint)]
    have hrest := @ih (Function.update frames c none) (fun d hd => ?_) hnodup
    · unfold destroyHandles
      rw [hstep]
      dsimp only
      rw [hrest]
      refine Prod.ext (funext fun i => ?_) rfl
      show erase (Function.update frames c none) gone i = erase frames (c :: gone) i
      unfold erase
      by_cases hic : i = c
      · subst hic
        rw [if_neg hnot, if_pos List.mem_cons_self, Function.update_self]
      · rw [Function.update_of_ne hic]
        simp only [List.mem_cons, hic, false_or]
    · obtain ⟨df, hd', hdpoint⟩ := hdone d (List.mem_cons_of_mem _ hd)
      have hdc : d ≠ c := fun he => hnot (he ▸ hd)
      exact ⟨df, by rw [Function.update_of_ne hdc, hd'], hdpoint⟩

theorem Nested.destroyHandles_eq (h : Nested t ((f, fr) :: ps)) :
    destroyHandles (O := O) t.frames fr.handles =
      (erase t.frames fr.handles, fr.handles.map .destroyed) := by
  refine Veridie.Utils.destroyHandles_eq (fun c hc => ?_) ?_
  · obtain ⟨cf, _, hframe, hpoint, _⟩ := h.handles_done c hc
    exact ⟨cf, hframe, hpoint⟩
  · have hdist := h.distinct
    rw [List.flatMap_cons] at hdist
    exact (List.nodup_append.mp hdist).1

/-- Below the innermost task, which is on top of the stack, are the others that are on it. -/
theorem Nested.stack_tail (h : Nested t ((f, fr) :: ps)) (hbusy : fr.busy = true)
    {rest : List Nat} (hstack : t.stack = f :: rest) :
    rest.filter t.live = (ps.filter fun a => a.2.busy).map Prod.fst := by
  have hfilter := h.stack
  rw [hstack, List.filter_cons_of_pos h.head_live, List.filter_cons_of_pos (by exact hbusy),
    List.map_cons] at hfilter
  exact (List.cons.inj hfilter).2

/-- What a step leaves behind is this chain, whose stories are told. -/
def KeepsAs (log : List (Event V X O)) (step : Tasks L V X × List (Event V X O))
    (acts : List (Act L V X)) : Prop :=
  Nested step.1 acts ∧ Told step.1 acts (log ++ step.2)

def Keeps (log : List (Event V X O)) (step : Tasks L V X × List (Event V X O)) : Prop :=
  ∃ acts, KeepsAs log step acts

/-- The innermost task when it has destroyed all its handles. -/
def Frame.emptied (fr : Frame L V X) (l : L) : Frame L V X :=
  { fr with handles := [], point := .running l }

/-- A task when it has ended. -/
def Frame.ended (fr : Frame L V X) (r : Result V X) : Frame L V X :=
  { fr with value := some r, handles := [], point := .final }

def Tasks.emptied (t : Tasks L V X) (f : Nat) (fr : Frame L V X) (l : L) : Tasks L V X :=
  { t with frames := Function.update (erase t.frames fr.handles) f (some (fr.emptied l)) }

section Finish

variable {log : List (Event V X O)} {rest : List Nat} {l : L}

theorem Nested.emptied (h : Nested t ((f, fr) :: ps)) (hbusy : fr.busy = true) :
    Nested (t.emptied f fr l) ((f, fr.emptied l) :: ps) :=
  h.release (List.append_nil _).symm rfl rfl hbusy rfl rfl rfl rfl

theorem Told.emptied (ht : Told t ((f, fr) :: ps) log) (h : Nested t ((f, fr) :: ps))
    (hbusy : fr.busy = true) (hquiet : ∀ c, ¬ fr.Awaits c) :
    Told (t.emptied f fr l) ((f, fr.emptied l) :: ps)
      (log ++ fr.handles.map .destroyed) :=
  ht.release h (h.emptied hbusy) (List.append_nil _).symm rfl hquiet rfl rfl rfl rfl

theorem update_emptied (t : Tasks L V X) (f : Nat) (fr : Frame L V X) (l : L)
    (fin : Option (Frame L V X)) :
    Function.update (erase t.frames fr.handles) f fin =
      Function.update (t.emptied f fr l).frames f fin := (Function.update_idem _ _ _).symm

/-- The end of the body of the root. -/
theorem finish_root (h : Nested t [(f, fr)]) (ht : Told t [(f, fr)] log) (hbusy : fr.busy = true)
    (hquiet : ∀ c, ¬ fr.Awaits c) (l : L) (hstack : t.stack = f :: rest) (r : Result V X) :
    KeepsAs log (t.finish f fr rest r) [] := by
  have hnested := h.emptied hbusy (l := l)
  have htold := ht.emptied h hbusy hquiet (l := l)
  have hf : f = 0 := h.root (f, fr) rfl
  have hbelow : ∀ g ∈ rest, g < t.next := fun g hg =>
    h.below g (hstack ▸ List.mem_cons_of_mem _ hg)
  have hflags := h.flags (f, fr) List.mem_cons_self
  unfold Flags at hflags
  rw [if_pos hf] at hflags
  obtain ⟨hcanceled, _, hparent⟩ := hflags
  unfold Tasks.finish
  rw [h.destroyHandles_eq]
  dsimp only
  by_cases hgone : fr.canceled = true
  · -- its handle is gone: the frame is destroyed
    have hhandle : t.handle = false := by
      rw [hcanceled, Bool.not_eq_true'] at hgone
      exact hgone
    rw [if_pos hgone, update_emptied t f fr l]
    refine ⟨nested_gone (fun i => ?_) hbelow hhandle, ?_⟩
    · show Function.update (t.emptied f fr l).frames f none i = none
      by_cases hif : i = f
      · rw [hif, Function.update_self]
      · rw [Function.update_of_ne hif, hnested.alone rfl i hif]
    · show Told _ [] (log ++ (_ ++ _))
      rw [← List.append_assoc]
      refine htold.leaveRoot hnested (r := r) ?_ (fun d hd => Function.update_of_ne hd _ _) rfl rfl
      show _ = _ :: if (Function.update (t.emptied f fr l).frames f none 0).isSome = true
        then [] else _
      rw [hf, Function.update_self]
      rfl
  · -- its handle exists: it stays suspended
    rw [if_neg hgone, hparent]
    dsimp only
    have hhandle : t.handle = true := by
      cases hh : t.handle with
      | true => rfl
      | false =>
        rw [hh] at hcanceled
        exact absurd hcanceled hgone
    rw [update_emptied t f fr l]
    refine ⟨hnested.leaveRoot rfl rfl rfl rfl rfl hhandle hbelow, ?_⟩
    show Told _ [] (log ++ (_ ++ _))
    rw [← List.append_assoc]
    refine htold.leaveRoot hnested (r := r) ?_ (fun d hd => Function.update_of_ne hd _ _) rfl rfl
    show _ = _ :: if (Function.update (t.emptied f fr l).frames f (some _) 0).isSome = true
      then [] else _
    rw [hf, Function.update_self]
    rfl

/-- The end of the body of any other task. -/
theorem finish_child {p : Nat} {pf : Frame L V X} (h : Nested t ((f, fr) :: (p, pf) :: ps))
    (ht : Told t ((f, fr) :: (p, pf) :: ps) log) (hbusy : fr.busy = true)
    (hquiet : ∀ c, ¬ fr.Awaits c) (l : L) (hstack : t.stack = f :: rest) (r : Result V X) :
    ∃ pf', KeepsAs log (t.finish f fr rest r) ((p, pf') :: ps) ∧ (pf.busy = false →
      (∃ next, pf'.point = .resumed f next) ∧
      (t.finish (O := O) f fr rest r).1.stack = p :: f :: rest) := by
  have hnested := h.emptied hbusy (l := l)
  have htold := ht.emptied h hbusy hquiet (l := l)
  have hpf : p ≠ f := h.ids_ne (p, pf) List.mem_cons_self
  have hbelow : ∀ g ∈ t.stack, g < t.next := h.below
  rw [hstack] at hbelow
  have hplive : (t.emptied f fr l).live p = true :=
    live_eq (hnested.here (p, pf) (List.mem_cons_of_mem _ List.mem_cons_self))
      (hnested.open' (p, pf) (List.mem_cons_of_mem _ List.mem_cons_self))
  have htail : rest.filter (t.emptied f fr l).live =
      (((p, pf) :: ps).filter fun a => a.2.busy).map Prod.fst := hnested.stack_tail rfl hstack
  have hnotf : f ∉ rest.filter (t.emptied f fr l).live := by
    rw [htail]
    intro hin
    obtain ⟨a, ha, he⟩ := List.mem_map.mp hin
    exact h.ids_ne a (List.mem_of_mem_filter ha) he
  obtain ⟨⟨hlt, _, next, hlink⟩, _⟩ := List.isChain_cons_cons.mp h.links
  have hflags := h.flags (f, fr) List.mem_cons_self
  unfold Flags at hflags
  rw [if_neg (Nat.ne_of_gt (Nat.zero_lt_of_lt hlt))] at hflags
  unfold Tasks.finish
  rw [h.destroyHandles_eq]
  dsimp only
  rw [hflags.1, if_neg Bool.false_ne_true]
  have hapart : (rest.filter fun g => g ≠ f && (t.emptied f fr l).live g) =
      (((p, pf) :: ps).filter fun a => a.2.busy).map Prod.fst := by
    rw [← htail]
    refine List.filter_congr fun g hg => ?_
    by_cases hgf : g = f
    · subst hgf
      have hdead : (t.emptied g fr l).live g = false := by
        by_contra hlive
        exact hnotf (List.mem_filter.mpr ⟨hg, Bool.eq_true_of_not_eq_false hlive⟩)
      rw [hdead, Bool.and_false]
    · rw [decide_eq_true hgf, Bool.true_and]
  have hvalue : ∀ fin : Option (Frame L V X),
      Function.update (t.emptied f fr l).frames f fin p = some pf := by
    intro fin
    rw [Function.update_of_ne hpf]
    exact hnested.here (p, pf) (List.mem_cons_of_mem _ List.mem_cons_self)
  rcases hlink with ⟨hpoint, hparent⟩ | ⟨hpoint, hparent⟩
  · -- the parent is suspended, and resumed from `await_suspend`
    have hidle : ¬ pf.busy = true := by
      unfold Frame.busy
      rw [hpoint]
      exact Bool.false_ne_true
    have hresume : ∀ fin : Option (Frame L V X),
        resumeParent (Function.update (t.emptied f fr l).frames f fin) p =
          some (Function.update (Function.update (t.emptied f fr l).frames f fin) p
            (some (pf.at (.resumed f next)))) := by
      intro fin
      unfold resumeParent
      rw [hvalue]
      dsimp only
      rw [hpoint]
    have hended : Frame.mk false fr.parentCanceled (some p) (some r) [] .final = fr.ended r := by
      rw [Frame.ended, hflags.1, hparent]
    rw [hparent, update_emptied t f fr l]
    dsimp only
    rw [hended, hresume]
    dsimp only
    rw [List.filter_cons_of_neg (by exact hidle)] at hapart
    have hnested' : Nested
        { t with
          frames := Function.update (Function.update (t.emptied f fr l).frames f (some (fr.ended r)))
            p (some (pf.at (.resumed f next)))
          stack := p :: f :: rest }
        ((p, pf.at (.resumed f next)) :: ps) := by
      refine hnested.leave rfl (by rfl) (by rfl) rfl (Or.inr rfl) rfl rfl rfl ?_ fun g hg => ?_
      · show (p :: f :: rest).filter _ = _
        rw [List.filter_cons, List.filter_cons, hapart, decide_eq_true hpf, hplive]
        simp
      · rcases List.mem_cons.mp hg with rfl | hg
        · exact Nat.lt_trans hlt (hbelow f List.mem_cons_self)
        · exact hbelow g hg
    refine ⟨_, ⟨hnested', ?_⟩, fun _ => ⟨⟨next, rfl⟩, rfl⟩⟩
    show Told _ _ (log ++ (_ ++ _))
    rw [← List.append_assoc]
    exact htold.leave hnested hnested' (by rfl) rfl (Or.inr rfl) rfl rfl rfl
  · -- the parent is still in `Run`
    have hbusyp : pf.busy = true := by
      unfold Frame.busy
      rw [hpoint]
    have hsame : Function.update (t.emptied f fr l).frames f (some (fr.ended r)) =
        Function.update (Function.update (t.emptied f fr l).frames f (some (fr.ended r))) p
          (some pf) := by
      rw [← hvalue (some (fr.ended r)), Function.update_eq_self]
    have hended : Frame.mk false fr.parentCanceled none (some r) [] .final = fr.ended r := by
      rw [Frame.ended, hflags.1, hparent]
    rw [hparent, update_emptied t f fr l]
    dsimp only
    rw [hended]
    rw [List.filter_cons_of_pos (by exact hbusyp)] at hapart
    have hnested' : Nested
        { t with
          frames := Function.update (t.emptied f fr l).frames f (some (fr.ended r))
          stack := rest }
        ((p, pf) :: ps) :=
      hnested.leave rfl (by rfl) (by rfl) rfl (Or.inl hpoint) hsame rfl rfl hapart
        fun g hg => hbelow g (List.mem_cons_of_mem _ hg)
    refine ⟨_, ⟨hnested', ?_⟩, fun hidle => (nomatch hbusyp.symm.trans hidle)⟩
    show Told _ _ (log ++ (_ ++ _))
    rw [← List.append_assoc]
    exact htold.leave hnested hnested' (by rfl) rfl (Or.inl hpoint) hsame rfl rfl

/-- The end of any body. -/
theorem finish_keeps (h : Nested t ((f, fr) :: ps)) (ht : Told t ((f, fr) :: ps) log)
    (hbusy : fr.busy = true) (hquiet : ∀ c, ¬ fr.Awaits c) (l : L) (hstack : t.stack = f :: rest)
    (r : Result V X) : Keeps log (t.finish f fr rest r) := by
  cases ps with
  | nil => exact ⟨[], finish_root h ht hbusy hquiet l hstack r⟩
  | cons a ps =>
    obtain ⟨pf', hkeeps, _⟩ := finish_child h ht hbusy hquiet l hstack r
    exact ⟨_, hkeeps⟩

end Finish

end Code

/-! ## 3. Steps -/

section Steps

variable {t : Tasks L V X} {acts ps : List (Act L V X)} {f : Nat} {fr : Frame L V X}
  {log : List (Event V X O)} {rest : List Nat}

/-- A coroutine on the stack that is suspended at its end, or destroyed, returns. -/
theorem pop_keeps (h : Nested t acts) (ht : Told t acts log) (hstack : t.stack = f :: rest)
    (hdead : t.live f = false) : KeepsAs log ({ t with stack := rest }, []) acts := by
  have hfilter := h.stack
  have hbelow := h.below
  rw [hstack] at hfilter hbelow
  rw [List.filter_cons_of_neg (by rw [hdead]; exact Bool.false_ne_true)] at hfilter
  refine ⟨⟨h.here, h.open', h.links, h.innermost, h.root, h.flags, h.distinct, h.children,
    h.owned, hfilter, h.fresh, fun g hg => hbelow g (List.mem_cons_of_mem _ hg), h.handled⟩, ?_⟩
  show Told _ _ (log ++ [])
  rw [List.append_nil]
  exact ⟨ht.unborn, ht.called, ht.root, ht.held, ht.awaited, ht.gone, ht.ended, ht.defined⟩

/-- What is on top of the stack is the first task of the chain that is not suspended. -/
theorem Nested.top (h : Nested t acts) (hstack : t.stack = f :: rest)
    (hframe : t.frames f = some fr) (hopen : fr.done = false) :
    ∃ lo ps, acts = lo ++ (f, fr) :: ps ∧ (∀ a ∈ lo, a.2.busy = false) ∧ fr.busy = true ∧
      rest.filter t.live = (ps.filter fun a => a.2.busy).map Prod.fst := by
  have hlive : t.live f = true := @live_eq L V X t (f, fr) hframe hopen
  have hfilter := h.stack
  rw [hstack, List.filter_cons_of_pos hlive] at hfilter
  obtain ⟨a, as, has, hid, hrest⟩ := List.map_eq_cons_iff.mp hfilter.symm
  obtain ⟨lo, ps, hacts, hlo, hbusy, hps⟩ := List.filter_eq_cons_iff.mp has
  have ha : a = (f, fr) := by
    have hmem : a ∈ acts := by
      rw [hacts]
      exact List.mem_append_right _ List.mem_cons_self
    have hhere := h.here a hmem
    rw [hid, hframe] at hhere
    exact Prod.ext hid (Option.some.inj hhere).symm
  subst ha
  refine ⟨lo, ps, hacts, fun b hb => Bool.eq_false_iff.mpr (hlo b hb), hbusy, ?_⟩
  rw [← hrest, hps]

/-- Below it in the chain there is only a child that it has just `Run`. -/
theorem Nested.below_top {lo : List (Act L V X)} (h : Nested t (lo ++ (f, fr) :: ps))
    (hbusy : fr.busy = true) (hne : lo ≠ []) : ∃ lo' c cf next, lo = lo' ++ [(c, cf)] ∧
      fr.point = .starting c next ∧ cf.parentHandle = none := by
  obtain ⟨lo', a, rfl⟩ := (lo.eq_nil_or_concat').resolve_left hne
  have hlinks := h.links
  rw [List.append_assoc, List.singleton_append] at hlinks
  obtain ⟨_, ⟨_, _, next, hlink⟩, _⟩ := List.isChain_append_cons_cons.mp hlinks
  rcases hlink with hlink | hlink
  · unfold Frame.busy at hbusy
    rw [hlink.1] at hbusy
    exact nomatch hbusy
  · exact ⟨lo', a.1, a.2, next, rfl, hlink⟩

/-- No task of the chain reads a flag that is gone. -/
theorem stuck_free (h : Nested t acts) (ha : (f, fr) ∈ acts) {r : Option (Result V X)}
    (hr : r ≠ none) : ∃ r', awaitResume t.frames fr r = some r' ∧
      (t.handle = true → r = some r') ∧ (t.handle = false → r' = .error .canceled) := by
  rw [h.awaitResume_eq ha]
  cases hhandle : t.handle with
  | true =>
    obtain ⟨q, rfl⟩ := Option.ne_none_iff_exists'.mp hr
    exact ⟨q, rfl, fun _ => rfl, fun he => (nomatch he)⟩
  | false => exact ⟨_, rfl, fun he => (nomatch he), fun _ => rfl⟩

/-- The innermost task gets on, without anything that concerns another one. -/
theorem turn_keeps {point : Point L V X} {stack : List Nat} {evs : List (Event V X O)}
    (h : Nested t ((f, fr) :: ps)) (ht : Told t ((f, fr) :: ps) log)
    (hquiet : ∀ c, ¬ fr.Awaits c) (hquiet' : ∀ c, ¬ (fr.at point).Awaits c)
    (hopen : (fr.at point).done = false) (hjoined : ∀ c next, point ≠ .joined c next)
    (hstack : stack.filter t.live =
      (((f, fr.at point) :: ps).filter fun a => a.2.busy).map Prod.fst)
    (hbelow : ∀ g ∈ stack, g < t.next) (hsilent : ∀ e ∈ evs, e.about = none ∧ e ≠ .undefined) :
    KeepsAs log ({ t.set f (fr.at point) with stack := stack }, evs)
      ((f, fr.at point) :: ps) := by
  have hnested := h.turn hopen ⟨hjoined, fun c hc => absurd hc (hquiet' c)⟩ hstack hbelow
  refine ⟨hnested, ?_⟩
  refine ht.relabel h hnested rfl (fun b hb => ?_) (fun b hb c hc => ?_) (List.cons_ne_nil _ _) rfl
    (fun hh => hh) (fun c hc => ?_) hsilent
  · rcases List.mem_cons.mp hb with rfl | hb
    · exact ⟨(f, fr), List.mem_cons_self, rfl, fun c _ hc => absurd hc (hquiet c)⟩
    · exact ⟨b, List.mem_cons_of_mem _ hb, rfl, fun c _ hc => hc⟩
  · cases Option.mem_some_iff.mp hb
    exact absurd hc (hquiet' c)
  · exact Function.update_of_ne (fun he => hc (List.mem_cons.mpr (Or.inl he))) _ _

theorem quiet_of {point : Point L V X} (hpoint : fr.point = point)
    (hstarting : ∀ c next, point ≠ .starting c next) (hresumed : ∀ c next, point ≠ .resumed c next)
    (c : Nat) : ¬ fr.Awaits c := by
  intro haw
  obtain ⟨next, hc | hc⟩ := haw
  · exact hstarting c next (hpoint.symm.trans hc)
  · exact hresumed c next (hpoint.symm.trans hc)

/-- A body that is being executed goes on being executed. -/
theorem run_keeps {l : L} {evs : List (Event V X O)} (h : Nested t ((f, fr) :: ps))
    (ht : Told t ((f, fr) :: ps) log) (hquiet : ∀ c, ¬ fr.Awaits c) (hbusy : fr.busy = true)
    (hsilent : ∀ e ∈ evs, e.about = none ∧ e ≠ .undefined) :
    Keeps log (t.set f (fr.at (.running l)), evs) := by
  refine ⟨_, turn_keeps h ht hquiet (not_awaits rfl) rfl (fun c next => nofun) ?_
    h.below hsilent⟩
  rw [h.stack, List.filter_cons_of_pos (by exact hbusy), List.filter_cons_of_pos rfl]
  rfl

/-- A parent takes the result of its child. -/
theorem collect_keeps {c : Nat} {next : Result V X → L} (h : Nested t ((f, fr) :: ps))
    (ht : Told t ((f, fr) :: ps) log)
    (hpoint : fr.point = .starting c next ∨ fr.point = .resumed c next) :
    ∃ r', KeepsAs log (t.collect f fr c next) ((f, fr.at (.running (next r'))) :: ps) ∧
      (t.handle = false → r' = .error .canceled) ∧
      (t.collect (O := O) f fr c next).2 = [.resumed f c r'] := by
  have haw : fr.Awaits c := ⟨next, hpoint⟩
  obtain ⟨r, hvalue, _⟩ := ht.awaited (f, fr) rfl c haw
  obtain ⟨r', hresume, hr, hr'⟩ := stuck_free h List.mem_cons_self (r := some r) (by simp)
  unfold Tasks.collect
  rw [hvalue, hresume]
  dsimp only
  have hbusy : fr.busy = true := by
    unfold Frame.busy
    rcases hpoint with hpoint | hpoint <;> rw [hpoint]
  have hnested : Nested (t.set f (fr.at (.running (next r')))) ((f, fr.at (.running (next r'))) :: ps) := by
    refine h.turn rfl ⟨fun d next' => nofun, fun d hd => ?_⟩ ?_ h.below
    · exact absurd hd (not_awaits rfl d)
    · rw [h.stack, List.filter_cons_of_pos (by exact hbusy), List.filter_cons_of_pos rfl]
      rfl
  refine ⟨r', ⟨hnested, ?_⟩, hr', rfl⟩
  refine ht.collect h hnested haw hvalue (fun hh => ?_) rfl rfl rfl
  exact (Option.some.inj (hr hh)).symm

/-- A body does what comes next. -/
theorem perform_keeps {l : L} (h : Nested t ((f, fr) :: ps)) (ht : Told t ((f, fr) :: ps) log)
    (hpoint : fr.point = .running l) (hstack : t.stack = f :: rest) (op : Op L V X O) :
    Keeps log (t.perform f fr rest op) := by
  have hquiet := not_awaits hpoint
  have hbusy : fr.busy = true := by
    unfold Frame.busy
    rw [hpoint]
  cases op with
  | exec o next =>
    refine run_keeps h ht hquiet hbusy fun e he => ?_
    rw [List.mem_singleton.mp he]
    exact ⟨rfl, nofun⟩
  | awaitReady r next =>
    obtain ⟨r', hresume, _⟩ := stuck_free h List.mem_cons_self (r := some r) (by simp)
    unfold Tasks.perform
    dsimp only
    rw [hresume]
    exact run_keeps h ht hquiet hbusy fun e he => absurd he List.not_mem_nil
  | await next =>
    refine ⟨_, turn_keeps h ht hquiet (quiet_of rfl (fun c next => nofun) fun c next => nofun)
      rfl (fun c next => nofun) ?_ (fun g hg => ?_) fun e he => absurd he List.not_mem_nil⟩
    · rw [h.stack_tail hbusy hstack, List.filter_cons_of_neg Bool.false_ne_true]
    · exact h.below g (hstack ▸ List.mem_cons_of_mem _ hg)
  | call child next =>
    have hnested : Nested (t.perform f fr rest (Op.call child next : Op L V X O)).1
        ((t.next, Frame.new child (some (fr.parentCanceled.getD f))) ::
          (f, { fr with handles := t.next :: fr.handles, point := .starting t.next next }) :: ps) :=
      h.call hpoint rfl rfl rfl rfl rfl (by rw [hstack]; rfl) rfl
    exact ⟨_, hnested, ht.call h hnested hpoint rfl rfl rfl rfl rfl rfl⟩
  | endScope next =>
    unfold Tasks.perform
    dsimp only
    cases hhandles : fr.handles with
    | nil => exact run_keeps h ht hquiet hbusy fun e he => absurd he List.not_mem_nil
    | cons c hs =>
      have hdone := h.handles_done c (hhandles ▸ List.mem_cons_self)
      have hframes : Function.update (Function.update t.frames c none) f
          (some { fr with handles := hs, point := .running next }) =
            Function.update (erase t.frames [c]) f
              (some { fr with handles := hs, point := .running next }) := by
        rw [erase_singleton]
      dsimp only
      rw [destroyHandle_eq hdone]
      have hnested : Nested (Tasks.set { t with frames := Function.update t.frames c none } f
            { fr with handles := hs, point := .running next })
          ((f, { fr with handles := hs, point := .running next }) :: ps) :=
        h.release hhandles rfl rfl hbusy hframes rfl rfl rfl
      exact ⟨_, hnested, ht.release h hnested hhandles rfl hquiet rfl hframes rfl rfl⟩
  | ret v => exact finish_keeps h ht hbusy hquiet l hstack (.ok v)
  | throw e => exact finish_keeps h ht hbusy hquiet l hstack (.error e)

/-- `Run` returns, and the child is suspended. -/
theorem settle_keeps {lo : List (Act L V X)} {c p : Nat} {cf pf : Frame L V X}
    {next : Result V X → L} (h : Nested t (lo ++ (c, cf) :: (p, pf) :: ps))
    (ht : Told t (lo ++ (c, cf) :: (p, pf) :: ps) log) (hpoint : pf.point = .starting c next)
    (hlo : ∀ a ∈ lo ++ [(c, cf)], a.2.busy = false)
    (hrest : rest.filter t.live = (ps.filter fun a => a.2.busy).map Prod.fst)
    (hbelow : ∀ g ∈ rest, g < t.next) :
    Keeps log ({ (t.set c { cf with parentHandle := some p }).set p (pf.at (.joined c next)) with
      stack := rest }, ([] : List (Event V X O))) := by
  have hnested : Nested _
      (lo ++ (c, { cf with parentHandle := some p }) :: (p, pf.at (.joined c next)) :: ps) :=
    h.settle hlo hrest hbelow
  have hcmem : (c, cf) ∈ lo ++ (c, cf) :: (p, pf) :: ps :=
    List.mem_append_right _ List.mem_cons_self
  have hpmem : (p, pf) ∈ lo ++ (c, cf) :: (p, pf) :: ps :=
    List.mem_append_right _ (List.mem_cons_of_mem _ List.mem_cons_self)
  refine ⟨_, hnested, ht.relabel h hnested (by simp) (fun b hb => ?_) (fun b hb d hd => ?_)
    (by simp) rfl (fun hh => hh) (fun d hd => ?_) fun e he => absurd he List.not_mem_nil⟩
  · rcases List.mem_append.mp hb with hb | hb
    · exact ⟨b, List.mem_append_left _ hb, rfl, fun d _ hd => hd⟩
    · rcases List.mem_cons.mp hb with rfl | hb
      · exact ⟨(c, cf), hcmem, rfl, fun d _ hd => hd⟩
      · rcases List.mem_cons.mp hb with rfl | hb
        · -- the parent has not waited for a child that is done
          refine ⟨(p, pf), hpmem, rfl, fun d hdone hd => ?_⟩
          have hdc : d = c := awaits_inj ⟨next, Or.inl hpoint⟩ hd
          exact absurd (List.mem_map_of_mem hcmem) (hdc ▸ h.notMem hdone)
        · refine ⟨b, List.mem_append_right _ ?_, rfl, fun d _ hd => hd⟩
          exact List.mem_cons_of_mem _ (List.mem_cons_of_mem _ hb)
  · cases lo with
    | nil =>
      cases Option.mem_some_iff.mp hb
      exact ⟨(c, cf), rfl, rfl, hd⟩
    | cons a lo =>
      cases Option.mem_some_iff.mp hb
      exact ⟨b, rfl, rfl, hd⟩
  · have hdp : d ≠ p := fun he => hd (List.mem_map.mpr ⟨_, hpmem, he.symm⟩)
    have hdc : d ≠ c := fun he => hd (List.mem_map.mpr ⟨_, hcmem, he.symm⟩)
    show Function.update (Function.update t.frames c _) p _ d = t.frames d
    rw [Function.update_of_ne hdp, Function.update_of_ne hdc]

theorem same_keeps (h : Nested t acts) (ht : Told t acts log) :
    KeepsAs log (t, ([] : List (Event V X O))) acts := by
  refine ⟨h, ?_⟩
  show Told _ _ (log ++ [])
  rwa [List.append_nil]

/-- The code goes on. -/
theorem advance_keeps (code : L → Op L V X O) (h : Nested t acts) (ht : Told t acts log) :
    Keeps log (t.advance code) := by
  unfold Tasks.advance
  cases hstack : t.stack with
  | nil => exact ⟨acts, same_keeps h ht⟩
  | cons f rest =>
    dsimp only
    cases hframe : t.frames f with
    | none =>
      refine ⟨acts, pop_keeps h ht hstack ?_⟩
      unfold Tasks.live
      rw [hframe]
    | some fr =>
      dsimp only
      cases hopen : fr.done with
      | true =>
        have hpoint : fr.point = .final := by
          unfold Frame.done at hopen
          split at hopen
          · rename_i hpoint
            exact hpoint
          · exact nomatch hopen
        rw [hpoint]
        refine ⟨acts, pop_keeps h ht hstack ?_⟩
        unfold Tasks.live
        rw [hframe]
        simp [hopen]
      | false =>
        obtain ⟨lo, ps, rfl, hlo, hbusy, hrest⟩ := h.top hstack hframe hopen
        have hinner : (∀ c next, fr.point ≠ .starting c next) → lo = [] := by
          intro hnot
          by_contra hne
          obtain ⟨_, c, _, next, _, hstarting, _⟩ := h.below_top hbusy hne
          exact hnot c next hstarting
        have hmem : (f, fr) ∈ lo ++ (f, fr) :: ps := List.mem_append_right _ List.mem_cons_self
        cases hpoint : fr.point with
        | initial l =>
          obtain rfl : lo = [] := hinner fun c next hc => (nomatch hpoint.symm.trans hc)
          have hquiet := quiet_of hpoint (fun c next => nofun) fun c next => nofun
          dsimp only
          rw [h.isCanceled_eq hmem]
          cases t.handle with
          | true => exact run_keeps h ht hquiet hbusy fun e he => absurd he List.not_mem_nil
          | false => exact finish_keeps h ht hbusy hquiet l hstack (.error .canceled)
        | running l =>
          obtain rfl : lo = [] := hinner fun c next hc => (nomatch hpoint.symm.trans hc)
          exact perform_keeps h ht hpoint hstack (code l)
        | starting c next =>
          dsimp only
          by_cases hne : lo = []
          · subst hne
            have hdone := ((h.innermost _ rfl).2 c ⟨next, Or.inl hpoint⟩).2
            obtain ⟨cf, _, hcframe, hfinal, _⟩ := hdone
            rw [hcframe]
            dsimp only
            rw [if_pos (done_of_final hfinal)]
            obtain ⟨_, hkeeps, _⟩ := collect_keeps h ht (Or.inl hpoint)
            exact ⟨_, hkeeps⟩
          · obtain ⟨lo', c', cf, next', rfl, hstarting, _⟩ := h.below_top hbusy hne
            cases hpoint.symm.trans hstarting
            rw [List.append_assoc, List.singleton_append] at h ht
            have hcmem : (c, cf) ∈ lo' ++ (c, cf) :: (f, fr) :: ps :=
              List.mem_append_right _ List.mem_cons_self
            have hcopen : ¬ cf.done = true := by
              rw [h.open' _ hcmem]
              exact Bool.false_ne_true
            rw [h.here _ hcmem]
            dsimp only
            rw [if_neg hcopen]
            refine settle_keeps h ht hpoint hlo hrest fun g hg => ?_
            exact h.below g (hstack ▸ List.mem_cons_of_mem _ hg)
        | resumed c next =>
          obtain rfl : lo = [] := hinner fun c next hc => (nomatch hpoint.symm.trans hc)
          obtain ⟨_, hkeeps, _⟩ := collect_keeps h ht (Or.inr hpoint)
          exact ⟨_, hkeeps⟩
        | awaiting next =>
          unfold Frame.busy at hbusy
          rw [hpoint] at hbusy
          exact nomatch hbusy
        | joined c next =>
          unfold Frame.busy at hbusy
          rw [hpoint] at hbusy
          exact nomatch hbusy
        | final =>
          unfold Frame.busy at hbusy
          rw [hpoint] at hbusy
          exact nomatch hbusy

/-- A coroutine that is not done is in the chain. -/
theorem Nested.mem_of_open (h : Nested t acts) (hframe : t.frames f = some fr)
    (hopen : fr.done = false) : (f, fr) ∈ acts := by
  have hlive : t.live f = true := @live_eq L V X t (f, fr) hframe hopen
  have hmem : f ∈ acts.map Prod.fst := by
    rcases h.owned f fr hframe with hin | hin | ⟨hzero, _, hdone, _⟩
    · exact hin
    · obtain ⟨a, ha, hc⟩ := List.mem_flatMap.mp hin
      refine (h.children a ha f hc).2.resolve_right fun hdone => ?_
      exact nomatch hlive.symm.trans hdone.not_live
    · rw [hzero, hdone.not_live] at hlive
      exact nomatch hlive
  obtain ⟨a, ha, rfl⟩ := List.mem_map.mp hmem
  have hhere := h.here a ha
  rw [hframe] at hhere
  cases hhere
  exact ha

/-- One that waits for an awaiter is the innermost. -/
theorem Nested.awaiting_head {next : Result V X → L} (h : Nested t acts)
    (hframe : t.frames f = some fr) (hpoint : fr.point = .awaiting next) :
    ∃ ps, acts = (f, fr) :: ps := by
  have hopen : fr.done = false := by
    unfold Frame.done
    rw [hpoint]
  obtain ⟨lo, ps, rfl⟩ := List.append_of_mem (h.mem_of_open hframe hopen)
  rcases lo.eq_nil_or_concat' with rfl | ⟨lo', a, rfl⟩
  · exact ⟨ps, rfl⟩
  · have hlinks := h.links
    rw [List.append_assoc, List.singleton_append] at hlinks
    obtain ⟨_, ⟨_, _, next', hlink⟩, _⟩ := List.isChain_append_cons_cons.mp hlinks
    rcases hlink with hlink | hlink
    · exact nomatch hpoint.symm.trans hlink.1
    · exact nomatch hpoint.symm.trans hlink.1

/-- An awaiter resumes the innermost coroutine. -/
theorem wake_keeps {next : Result V X → L} (h : Nested t ((f, fr) :: ps))
    (ht : Told t ((f, fr) :: ps) log) (hpoint : fr.point = .awaiting next) (r : Result V X) :
    ∃ r', t.resume (O := O) f r =
        ({ t.set f (fr.at (.running (next r'))) with stack := f :: t.stack }, []) ∧
      KeepsAs log (t.resume f r) ((f, fr.at (.running (next r'))) :: ps) ∧
      (t.handle = false → r' = .error .canceled) := by
  have hframe := h.here (f, fr) List.mem_cons_self
  obtain ⟨r', hresume, _, hr'⟩ := stuck_free h List.mem_cons_self (r := some r) (by simp)
  have hidle : ¬ fr.busy = true := by
    unfold Frame.busy
    rw [hpoint]
    exact Bool.false_ne_true
  have hstep : t.resume (O := O) f r =
      ({ t.set f (fr.at (.running (next r'))) with stack := f :: t.stack }, []) := by
    unfold Tasks.resume
    rw [hframe]
    dsimp only
    rw [hpoint]
    dsimp only
    rw [hresume]
  refine ⟨r', hstep, ?_, hr'⟩
  rw [hstep]
  refine turn_keeps h ht (quiet_of hpoint (fun c next => nofun) fun c next => nofun)
    (not_awaits rfl) rfl (fun c next => nofun) ?_ (fun g hg => ?_)
    fun e he => absurd he List.not_mem_nil
  · rw [List.filter_cons_of_pos h.head_live, h.stack, List.filter_cons_of_neg (by exact hidle),
      List.filter_cons_of_pos rfl]
    rfl
  · rcases List.mem_cons.mp hg with rfl | hg
    · exact h.lt_next hframe
    · exact h.below g hg

/-- No other coroutine is resumed by an awaiter. -/
theorem resume_other (hother : ∀ fr next, t.frames f = some fr → fr.point ≠ .awaiting next)
    (r : Result V X) : t.resume (O := O) f r = (t, []) := by
  unfold Tasks.resume
  split
  · rfl
  · rename_i fr hframe
    split
    · rename_i next hpoint
      exact absurd hpoint (hother fr next hframe)
    · rfl

theorem resume_keeps (h : Nested t acts) (ht : Told t acts log) (f : Nat) (r : Result V X) :
    Keeps log (t.resume (O := O) f r) := by
  by_cases hawaiting : ∃ fr next, t.frames f = some fr ∧ fr.point = .awaiting next
  · obtain ⟨fr, next, hframe, hpoint⟩ := hawaiting
    obtain ⟨ps, rfl⟩ := h.awaiting_head hframe hpoint
    obtain ⟨_, _, hkeeps, _⟩ := wake_keeps h ht hpoint r
    exact ⟨_, hkeeps⟩
  · rw [resume_other fun fr next hframe hpoint => hawaiting ⟨fr, next, hframe, hpoint⟩]
    exact ⟨acts, same_keeps h ht⟩

/-- The handle of the root is destroyed while its task is suspended: it is canceled. -/
theorem cancel_keeps (code : L → Op L V X O) {lo : List (Act L V X)} {rf : Frame L V X}
    (h : Nested t (lo ++ [(0, rf)])) (ht : Told t (lo ++ [(0, rf)]) log)
    (henabled : (t.handle && t.idle) = true) :
    (taskMachine code).step t .destroy =
      ({ t.set 0 { rf with canceled := true } with handle := false }, []) ∧
    KeepsAs log ((taskMachine code).step t .destroy) (lo ++ [(0, { rf with canceled := true })]) := by
  have hrmem : (0, rf) ∈ lo ++ [(0, rf)] := List.mem_append_right _ List.mem_cons_self
  have hdestroy : destroyHandle (O := O) t.frames 0 =
      (Function.update t.frames 0 (some { rf with canceled := true }), []) := by
    unfold destroyHandle
    rw [h.here _ hrmem]
    dsimp only
    have hopen := h.open' _ hrmem
    rw [if_neg (by rw [hopen]; exact Bool.false_ne_true)]
  have hstep : (taskMachine code).step t .destroy =
      ({ t.set 0 { rf with canceled := true } with handle := false }, []) := by
    show (if t.handle && t.idle then
      ({ t with frames := (destroyHandle t.frames 0).1, handle := false },
        (destroyHandle t.frames 0).2) else (t, [])) = _
    rw [if_pos henabled, hdestroy]
    rfl
  refine ⟨hstep, ?_⟩
  rw [hstep]
  have hnested := h.cancel
  refine ⟨hnested, ht.relabel h hnested (by simp) (fun b hb => ?_) (fun b hb d hd => ?_)
    (by simp) rfl (fun hh => (nomatch hh)) (fun d hd => ?_) fun e he => absurd he List.not_mem_nil⟩
  · rcases List.mem_append.mp hb with hb | hb
    · exact ⟨b, List.mem_append_left _ hb, rfl, fun d _ hd => hd⟩
    · rw [List.mem_singleton.mp hb]
      exact ⟨(0, rf), hrmem, rfl, fun d _ hd => hd⟩
  · cases lo with
    | nil =>
      cases Option.mem_some_iff.mp hb
      exact ⟨(0, rf), rfl, rfl, hd⟩
    | cons a lo =>
      cases Option.mem_some_iff.mp hb
      exact ⟨b, rfl, rfl, hd⟩
  · have hd0 : d ≠ 0 := fun he => hd (List.mem_map.mpr ⟨_, hrmem, he.symm⟩)
    exact Function.update_of_ne hd0 _ _

/-- The handle of the root is destroyed. -/
theorem destroy_keeps (code : L → Op L V X O) (h : Nested t acts) (ht : Told t acts log) :
    Keeps log ((taskMachine code).step t .destroy) := by
  by_cases henabled : (t.handle && t.idle) = true
  · rcases acts.eq_nil_or_concat' with rfl | ⟨lo, a, rfl⟩
    · -- it is done
      obtain ⟨hhandle, _⟩ := Bool.and_eq_true_iff.mp henabled
      have hroot := h.handled rfl hhandle
      obtain ⟨rf, hframe⟩ := Option.isSome_iff_exists.mp hroot
      have hdone : Done t 0 := by
        rcases h.owned 0 rf hframe with hin | hin | ⟨_, _, hdone, _⟩
        · exact absurd hin List.not_mem_nil
        · exact absurd hin List.not_mem_nil
        · exact hdone
      have hstep : (taskMachine code).step t .destroy =
          ({ t with frames := Function.update t.frames 0 none, handle := false },
            [.destroyed 0]) := by
        show (if t.handle && t.idle then
          ({ t with frames := (destroyHandle t.frames 0).1, handle := false },
            (destroyHandle t.frames 0).2) else (t, [])) = _
        rw [if_pos henabled, destroyHandle_eq hdone]
      rw [hstep]
      refine ⟨[], nested_gone (fun i => ?_) h.below rfl, ht.destroyRoot hroot rfl rfl rfl⟩
      show Function.update t.frames 0 none i = none
      by_cases hi : i = 0
      · rw [hi, Function.update_self]
      · rw [Function.update_of_ne hi]
        cases hframe : t.frames i with
        | none => rfl
        | some ifr =>
          rcases h.owned i ifr hframe with hin | hin | ⟨hzero, _⟩
          · exact absurd hin List.not_mem_nil
          · exact absurd hin List.not_mem_nil
          · exact absurd hzero hi
    · -- it is suspended
      obtain ⟨i, rf⟩ := a
      obtain rfl : i = 0 := h.root (i, rf) List.getLast?_concat
      exact ⟨_, (cancel_keeps code h ht henabled).2⟩
  · have hstep : (taskMachine code).step t .destroy = (t, []) := if_neg henabled
    rw [hstep]
    exact ⟨acts, same_keeps h ht⟩

/-- **Every step keeps the chain and tells its stories.** -/
theorem told_step (code : L → Op L V X O) (h : Nested t acts) (ht : Told t acts log)
    (i : TaskInput V X) : Keeps log ((taskMachine code).step t i) := by
  cases i with
  | advance => exact advance_keeps code h ht
  | resume f r => exact resume_keeps h ht f r
  | destroy => exact destroy_keeps code h ht

theorem told_start (l : L) :
    Nested (Tasks.start l : Tasks L V X) [(0, Frame.new l none)] ∧
      Told (O := O) (Tasks.start l : Tasks L V X) [(0, Frame.new l none)] [] := by
  have hframe : ∀ i, (Tasks.start l : Tasks L V X).frames i =
      if i = 0 then some (Frame.new l none) else none := fun _ => rfl
  have hquiet : ∀ c, ¬ (Frame.new l none : Frame L V X).Awaits c :=
    quiet_of rfl (fun c next => nofun) fun c next => nofun
  constructor
  · refine ⟨fun a ha => ?_, fun a ha => ?_, List.isChain_singleton _, fun a ha => ?_, fun a ha => ?_,
      fun a ha => ?_, List.nodup_nil, fun a ha c hc => ?_, fun i fr hi => ?_, ?_, fun i hi => ?_,
      fun g hg => ?_, fun hnil => (nomatch hnil)⟩
    · rw [List.mem_singleton.mp ha]
      rfl
    · rw [List.mem_singleton.mp ha]
      rfl
    · cases Option.mem_some_iff.mp ha
      exact ⟨fun c next => nofun, fun c hc => absurd hc (hquiet c)⟩
    · cases Option.mem_some_iff.mp ha
      rfl
    · rw [List.mem_singleton.mp ha]
      exact ⟨rfl, rfl, rfl⟩
    · rw [List.mem_singleton.mp ha] at hc
      exact absurd hc List.not_mem_nil
    · rw [hframe] at hi
      split at hi
      · rename_i hi0
        exact Or.inl (List.mem_singleton.mpr hi0)
      · exact nomatch hi
    · rfl
    · rw [hframe, if_neg (Nat.ne_of_gt hi)]
    · rw [List.mem_singleton.mp hg]
      exact Nat.zero_lt_one
  · refine ⟨fun c _ => rfl, List.isChain_singleton _, fun c _ => rfl, fun a ha c hc => ?_,
      fun a ha c hc => ?_, fun c hpos hlt => ?_, fun hnil => (nomatch hnil), List.not_mem_nil⟩
    · rw [List.mem_singleton.mp ha] at hc
      exact absurd hc List.not_mem_nil
    · cases Option.mem_some_iff.mp ha
      exact absurd hc (hquiet c)
    · exact absurd hlt (Nat.not_lt.mpr hpos)

/-- **Every run keeps the chain and tells its stories.** -/
theorem told_run (code : L → Op L V X O) (l : L) (is : List (TaskInput V X)) : ∃ acts,
    Nested ((taskMachine code).exec (Tasks.start l) is) acts ∧
      Told ((taskMachine code).exec (Tasks.start l) is) acts
        ((taskMachine code).outs (Tasks.start l) is) := by
  have hrun := Machine.log_invariant (M := taskMachine code) (P := fun t log =>
    ∃ acts, Nested t acts ∧ Told t acts log) (fun t log i ht => ?_)
    ⟨_, told_start (O := O) l⟩ is
  · exact hrun
  · obtain ⟨acts, hn, ht⟩ := ht
    exact told_step code hn ht i

end Steps

end Veridie.Utils
