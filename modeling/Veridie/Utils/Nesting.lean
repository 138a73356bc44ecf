/-
  File:      Veridie/Utils/Nesting.lean
  Subject:   What holds of nested tasks in every run: the tasks that are not done form one chain from
             the innermost to the root, each awaited by the next, and every other frame is that of a
             task that is done and whose handle one of the chain still holds.

  * `Link`, `Nested` -- the chain, and what it says about the frames and the stack;
  * `Nested.relabel` -- points, flags and parents change, but no frame comes or goes; `Nested.turn`,
    `Nested.settle` and `Nested.cancel` are cases of it;
  * `Nested.release`, `Nested.call`, `Nested.leave`, `Nested.leaveRoot` -- frames that come and go.
-/
import Veridie.Utils.Tasks

namespace Veridie.Utils

open Veridie.Lib

variable {L V X O : Type}

/-! ## 1. The chain -/

/-- A coroutine and its frame. -/
abbrev Act (L V X : Type) := Nat × Frame L V X

/-- Its body is being executed, or is in `Run` of a child. -/
def Frame.busy (fr : Frame L V X) : Bool :=
  match fr.point with
  | .initial _ | .running _ | .starting _ _ | .resumed _ _ => true
  | .awaiting _ | .joined _ _ | .final => false

/-- It is about to take the result of a child. -/
def Frame.Awaits (fr : Frame L V X) (c : Nat) : Prop :=
  ∃ next, fr.point = .starting c next ∨ fr.point = .resumed c next

/-- A task that has ended, and whose frame is still there. -/
def Done (t : Tasks L V X) (c : Nat) : Prop :=
  ∃ fr r, t.frames c = some fr ∧ fr.point = .final ∧ fr.value = some r

/-- The second holds the handle of the first, has called it later than itself, and is suspended until
    it is done, or still in `Run`. -/
def Link (a b : Act L V X) : Prop :=
  b.1 < a.1 ∧ a.1 ∈ b.2.handles ∧ ∃ next,
    (b.2.point = .joined a.1 next ∧ a.2.parentHandle = some b.1) ∨
    (b.2.point = .starting a.1 next ∧ a.2.parentHandle = none)

/-- The innermost task is suspended only at an awaiter; a child that it waits for is done. -/
def Innermost (t : Tasks L V X) (fr : Frame L V X) : Prop :=
  (∀ c next, fr.point ≠ .joined c next) ∧ ∀ c, fr.Awaits c → c ∈ fr.handles ∧ Done t c

/-- The root alone can be canceled, and all others know its flag. -/
def Flags (t : Tasks L V X) (a : Act L V X) : Prop :=
  if a.1 = 0 then
    a.2.canceled = !t.handle ∧ a.2.parentCanceled = none ∧ a.2.parentHandle = none
  else a.2.canceled = false ∧ a.2.parentCanceled = some 0

/-- The tasks that are not done, from the innermost to the root. -/
structure Nested (t : Tasks L V X) (acts : List (Act L V X)) : Prop where
  here : ∀ a ∈ acts, t.frames a.1 = some a.2
  open' : ∀ a ∈ acts, a.2.done = false
  links : acts.IsChain Link
  innermost : ∀ a ∈ acts.head?, Innermost t a.2
  root : ∀ a ∈ acts.getLast?, a.1 = 0
  flags : ∀ a ∈ acts, Flags t a
  distinct : (acts.flatMap fun a => a.2.handles).Nodup
  children : ∀ a ∈ acts, ∀ c ∈ a.2.handles, a.1 < c ∧ (c ∈ acts.map Prod.fst ∨ Done t c)
  owned : ∀ i fr, t.frames i = some fr → i ∈ acts.map Prod.fst ∨
    (i ∈ acts.flatMap fun a => a.2.handles) ∨
    (i = 0 ∧ acts = [] ∧ Done t 0 ∧ t.handle = true)
  stack : t.stack.filter t.live = (acts.filter fun a => a.2.busy).map Prod.fst
  fresh : ∀ i, t.next ≤ i → t.frames i = none
  below : ∀ f ∈ t.stack, f < t.next
  handled : acts = [] → t.handle = true → (t.frames 0).isSome = true

section Chain

variable {t t' : Tasks L V X} {acts ps : List (Act L V X)} {f : Nat} {fr : Frame L V X}

theorem live_eq {a : Act L V X} (hframe : t.frames a.1 = some a.2) (hopen : a.2.done = false) :
    t.live a.1 = true := by
  unfold Tasks.live
  rw [hframe]
  simp [hopen]

theorem done_of_final (h : fr.point = .final) : fr.done = true := by
  unfold Frame.done
  rw [h]

theorem Done.not_live {c : Nat} (h : Done t c) : t.live c = false := by
  obtain ⟨fr, r, hframe, hpoint, _⟩ := h
  unfold Tasks.live
  rw [hframe]
  simp [done_of_final hpoint]

/-- The numbers go down towards the root. -/
theorem Nested.decreasing (h : Nested t acts) : acts.Pairwise fun a b => b.1 < a.1 := by
  have hchain : acts.IsChain fun a b : Act L V X => b.1 < a.1 :=
    h.links.imp fun _ _ hlink => hlink.1
  have htrans : Trans (fun a b : Act L V X => b.1 < a.1) (fun a b => b.1 < a.1)
      (fun a b : Act L V X => b.1 < a.1) := ⟨fun hab hbc => Nat.lt_trans hbc hab⟩
  exact List.isChain_iff_pairwise.mp hchain

theorem Nested.lt_next (h : Nested t acts) {i : Nat} {fr : Frame L V X} (hi : t.frames i = some fr) :
    i < t.next := by
  by_contra hle
  rw [h.fresh i (Nat.le_of_not_lt hle)] at hi
  exact nomatch hi

/-- A task that is done is not in the chain. -/
theorem Nested.notMem (h : Nested t acts) {c : Nat} (hc : Done t c) : c ∉ acts.map Prod.fst := by
  intro hmem
  obtain ⟨a, ha, rfl⟩ := List.mem_map.mp hmem
  have hlive := live_eq (h.here a ha) (h.open' a ha)
  exact nomatch hlive.symm.trans hc.not_live

/-- The root is in a chain that is not empty. -/
theorem Nested.root_mem (h : Nested t acts) (hne : acts ≠ []) : ∃ fr, (0, fr) ∈ acts := by
  have hlast := h.root _ (List.getLast?_eq_some_getLast hne)
  refine ⟨(acts.getLast hne).2, ?_⟩
  rw [← hlast]
  exact List.getLast_mem hne

theorem Nested.head_live (h : Nested t ((f, fr) :: ps)) : t.live f = true :=
  live_eq (h.here (f, fr) List.mem_cons_self) (h.open' (f, fr) List.mem_cons_self)

theorem Done.ne_live {c : Nat} (hc : Done t c) (hf : t.live f = true) : c ≠ f := by
  intro he
  rw [← he, hc.not_live] at hf
  exact nomatch hf

theorem Nested.ids_ne (h : Nested t ((f, fr) :: ps)) : ∀ a ∈ ps, a.1 ≠ f := by
  intro a ha
  have hlt := (List.pairwise_cons.mp h.decreasing).1 a ha
  exact Nat.ne_of_lt hlt

/-- The innermost task holds only handles of tasks that are done. -/
theorem Nested.handles_done (h : Nested t ((f, fr) :: ps)) : ∀ c ∈ fr.handles, Done t c := by
  intro c hc
  obtain ⟨hlt, hmem | hdone⟩ := h.children (f, fr) List.mem_cons_self c hc
  · obtain ⟨a, ha, rfl⟩ := List.mem_map.mp hmem
    rcases List.mem_cons.mp ha with rfl | ha
    · exact absurd hlt (Nat.lt_irrefl _)
    · have hle := (List.pairwise_cons.mp h.decreasing).1 a ha
      exact absurd hlt (Nat.lt_asymm hle)
  · exact hdone

/-! ## 2. What steps do to the chain -/

/-- The part of a chain that names the frames and their owners. -/
def key (a : Act L V X) : Nat × List Nat := (a.1, a.2.handles)

theorem map_fst_of_key {acts acts' : List (Act L V X)} (h : acts'.map key = acts.map key) :
    acts'.map Prod.fst = acts.map Prod.fst := by
  have hfst := congrArg (List.map Prod.fst) h
  rwa [List.map_map, List.map_map] at hfst

theorem handles_of_key {acts acts' : List (Act L V X)} (h : acts'.map key = acts.map key) :
    (acts'.flatMap fun a => a.2.handles) = acts.flatMap fun a => a.2.handles := by
  have hsnd := congrArg (fun l => (l.map Prod.snd).flatten) h
  simp only [List.map_map] at hsnd
  exact hsnd

/-- Points, flags and parents change, but no frame comes or goes. -/
theorem Nested.relabel {acts' : List (Act L V X)} (h : Nested t acts)
    (hkey : acts'.map key = acts.map key) (hnext : t'.next = t.next) (hne : acts ≠ [])
    (hothers : ∀ i, i ∉ acts.map Prod.fst → t'.frames i = t.frames i)
    (here : ∀ a ∈ acts', t'.frames a.1 = some a.2) (hopen : ∀ a ∈ acts', a.2.done = false)
    (links : acts'.IsChain Link) (innermost : ∀ a ∈ acts'.head?, Innermost t' a.2)
    (flags : ∀ a ∈ acts', Flags t' a)
    (stack : t'.stack.filter t'.live = (acts'.filter fun a => a.2.busy).map Prod.fst)
    (below : ∀ f ∈ t'.stack, f < t'.next) : Nested t' acts' := by
  have hfst := map_fst_of_key hkey
  have hhandles := handles_of_key hkey
  have hdone : ∀ c, Done t c → Done t' c := by
    intro c hc
    have hnot := h.notMem hc
    obtain ⟨fr, r, hframe, hrest⟩ := hc
    rw [← hothers c hnot] at hframe
    exact ⟨fr, r, hframe, hrest⟩
  refine ⟨here, hopen, links, innermost, fun a ha => ?_, flags, hhandles ▸ h.distinct,
    fun a ha c hc => ?_, fun i fr hi => ?_, stack, fun i hi => ?_, below, fun hnil => ?_⟩
  · have hlast : (acts'.map Prod.fst).getLast? = some a.1 := by
      rw [List.getLast?_map, Option.mem_def.mp ha]
      rfl
    rw [hfst, List.getLast?_map] at hlast
    obtain ⟨b, hb, he⟩ := Option.map_eq_some_iff.mp hlast
    rw [← he]
    exact h.root b hb
  · have hmem : key a ∈ acts.map key := hkey ▸ List.mem_map_of_mem ha
    obtain ⟨b, hb, he⟩ := List.mem_map.mp hmem
    obtain ⟨hid, hhs⟩ := Prod.mk.inj he
    obtain ⟨hlt, hchild⟩ := h.children b hb c (hhs ▸ hc)
    rw [hid] at hlt
    rw [hfst]
    exact ⟨hlt, hchild.imp_right (hdone c)⟩
  · rw [hfst, hhandles]
    by_cases hmem : i ∈ acts.map Prod.fst
    · exact Or.inl hmem
    · rw [hothers i hmem] at hi
      rcases h.owned i fr hi with hin | hin | ⟨_, hnil, _⟩
      · exact Or.inl hin
      · exact Or.inr (Or.inl hin)
      · exact absurd hnil hne
  · rw [hnext] at hi
    have hfree := h.fresh i hi
    by_cases hmem : i ∈ acts.map Prod.fst
    · obtain ⟨a, ha, rfl⟩ := List.mem_map.mp hmem
      rw [h.here a ha] at hfree
      exact nomatch hfree
    · rw [hothers i hmem, hfree]
  · rw [hnil, List.map_nil] at hfst
    exact absurd (List.map_eq_nil_iff.mp hfst.symm) hne

/-- A frame that is not done stands in for one that is not done. -/
theorem live_update {fr' : Frame L V X} (hlive : t.live f = true) (hopen : fr'.done = false)
    (hframes : t'.frames = Function.update t.frames f (some fr')) (i : Nat) :
    t'.live i = t.live i := by
  by_cases hi : i = f
  · subst hi
    rw [hlive]
    have hframe : t'.frames i = some fr' := by rw [hframes, Function.update_self]
    exact @live_eq L V X t' (i, fr') hframe hopen
  · unfold Tasks.live
    rw [hframes, Function.update_of_ne hi]

theorem done_update {fr' : Option (Frame L V X)} {c : Nat} (hc : Done t c) (hne : c ≠ f)
    (hframes : t'.frames = Function.update t.frames f fr') : Done t' c := by
  obtain ⟨cf, r, hframe, hrest⟩ := hc
  refine ⟨cf, r, ?_, hrest⟩
  rw [hframes, Function.update_of_ne hne, hframe]

/-- The innermost task gets on. -/
theorem Nested.turn (h : Nested t ((f, fr) :: ps)) {point : Point L V X} {stack : List Nat}
    (hopen : (fr.at point).done = false) (hinner : Innermost t (fr.at point))
    (hstack : stack.filter t.live =
      (((f, fr.at point) :: ps).filter fun a => a.2.busy).map Prod.fst)
    (hbelow : ∀ g ∈ stack, g < t.next) :
    Nested { t.set f (fr.at point) with stack := stack } ((f, fr.at point) :: ps) := by
  have hne := h.ids_ne
  have hlive := h.head_live
  refine h.relabel rfl rfl (List.cons_ne_nil _ _) (fun i hi => ?_) (fun a ha => ?_)
    (fun a ha => ?_) ?_ (fun a ha => ?_) (fun a ha => ?_) ?_ hbelow
  · exact Function.update_of_ne (fun he => hi (List.mem_cons.mpr (Or.inl he))) _ _
  · rcases List.mem_cons.mp ha with rfl | ha
    · exact Function.update_self _ _ _
    · rw [← h.here a (List.mem_cons_of_mem _ ha)]
      exact Function.update_of_ne (hne a ha) _ _
  · rcases List.mem_cons.mp ha with rfl | ha
    · exact hopen
    · exact h.open' a (List.mem_cons_of_mem _ ha)
  · obtain ⟨hfirst, hrest⟩ := List.isChain_cons.mp h.links
    exact List.isChain_cons.mpr ⟨hfirst, hrest⟩
  · cases Option.mem_some_iff.mp ha
    refine ⟨hinner.1, fun c hc => ?_⟩
    obtain ⟨hmem, hdone⟩ := hinner.2 c hc
    exact ⟨hmem, done_update hdone (hdone.ne_live hlive) rfl⟩
  · rcases List.mem_cons.mp ha with rfl | ha
    · exact h.flags (f, fr) List.mem_cons_self
    · exact h.flags a (List.mem_cons_of_mem _ ha)
  · rw [← hstack]
    exact List.filter_congr fun i _ => live_update hlive hopen rfl i

/-- `Run` returns, and the child is not done: the parent is suspended as well. -/
theorem Nested.settle {lo : List (Act L V X)} {c p : Nat} {cf pf : Frame L V X}
    {next : Result V X → L} {rest : List Nat} (h : Nested t (lo ++ (c, cf) :: (p, pf) :: ps))
    (hlo : ∀ a ∈ lo ++ [(c, cf)], a.2.busy = false)
    (hrest : rest.filter t.live = (ps.filter fun a => a.2.busy).map Prod.fst)
    (hbelow : ∀ g ∈ rest, g < t.next) :
    Nested { (t.set c { cf with parentHandle := some p }).set p (pf.at (.joined c next)) with
        stack := rest }
      (lo ++ (c, { cf with parentHandle := some p }) :: (p, pf.at (.joined c next)) :: ps) := by
  obtain ⟨_, hdec, hover⟩ := List.pairwise_append.mp h.decreasing
  obtain ⟨hc, hdec⟩ := List.pairwise_cons.mp hdec
  obtain ⟨hp, _⟩ := List.pairwise_cons.mp hdec
  have hpc : p < c := hc (p, pf) List.mem_cons_self
  have hcmem : (c, cf) ∈ lo ++ (c, cf) :: (p, pf) :: ps :=
    List.mem_append_right _ List.mem_cons_self
  have hpmem : (p, pf) ∈ lo ++ (c, cf) :: (p, pf) :: ps :=
    List.mem_append_right _ (List.mem_cons_of_mem _ List.mem_cons_self)
  have hclive : t.live c = true := live_eq (h.here _ hcmem) (h.open' _ hcmem)
  have hplive : t.live p = true := live_eq (h.here _ hpmem) (h.open' _ hpmem)
  have hcopen : Frame.done { cf with parentHandle := some p } = false := h.open' _ hcmem
  obtain ⟨hfirst, hlink, hlast⟩ := List.isChain_append_cons_cons.mp h.links
  -- every other frame is what it was
  have hrestframes : ∀ i, i ≠ c → i ≠ p →
      Function.update (Function.update t.frames c (some { cf with parentHandle := some p })) p
        (some (pf.at (.joined c next))) i = t.frames i := by
    intro i hic hip
    rw [Function.update_of_ne hip, Function.update_of_ne hic]
  have hlivesame : ∀ i, Tasks.live { (t.set c { cf with parentHandle := some p }).set p
      (pf.at (.joined c next)) with stack := rest } i = t.live i := by
    intro i
    have hfirstset : ∀ j, (t.set c { cf with parentHandle := some p }).live j = t.live j :=
      live_update hclive hcopen rfl
    rw [← hfirstset i]
    exact live_update ((hfirstset p).trans hplive) rfl rfl i
  have hmem : ∀ a, a ∈ lo ++ (c, { cf with parentHandle := some p }) ::
      (p, pf.at (.joined c next)) :: ps → (a ∈ lo ∨ a ∈ ps) ∨
        a = (c, { cf with parentHandle := some p }) ∨ a = (p, pf.at (.joined c next)) := by
    intro a ha
    simp only [List.mem_append, List.mem_cons] at ha
    tauto
  have hold : ∀ a, a ∈ lo ∨ a ∈ ps → a ∈ lo ++ (c, cf) :: (p, pf) :: ps := by
    intro a ha
    simp only [List.mem_append, List.mem_cons]
    tauto
  have hids : ∀ a, a ∈ lo ∨ a ∈ ps → a.1 ≠ c ∧ a.1 ≠ p := by
    intro a ha
    rcases ha with ha | ha
    · have hac := hover a ha (c, cf) List.mem_cons_self
      have hap := hover a ha (p, pf) (List.mem_cons_of_mem _ List.mem_cons_self)
      exact ⟨Nat.ne_of_gt hac, Nat.ne_of_gt hap⟩
    · have hac := hc a (List.mem_cons_of_mem _ ha)
      exact ⟨Nat.ne_of_lt hac, Nat.ne_of_lt (hp a ha)⟩
  refine h.relabel (by simp [key, Frame.at]) rfl (by simp) (fun i hi => ?_) (fun a ha => ?_)
    (fun a ha => ?_) ?_ (fun a ha => ?_) (fun a ha => ?_) ?_ hbelow
  · refine hrestframes i (fun he => hi ?_) (fun he => hi ?_)
    · exact List.mem_map.mpr ⟨_, hcmem, he.symm⟩
    · exact List.mem_map.mpr ⟨_, hpmem, he.symm⟩
  · rcases hmem a ha with ha | rfl | rfl
    · obtain ⟨hac, hap⟩ := hids a ha
      rw [← h.here a (hold a ha)]
      exact hrestframes a.1 hac hap
    · show Function.update _ _ _ _ = _
      rw [Function.update_of_ne (Nat.ne_of_gt hpc)]
      exact Function.update_self _ _ _
    · exact Function.update_self _ _ _
  · rcases hmem a ha with ha | rfl | rfl
    · exact h.open' a (hold a ha)
    · exact h.open' (c, cf) hcmem
    · rfl
  · refine List.isChain_append_cons_cons.mpr ⟨?_, ?_, ?_⟩
    · obtain ⟨hlo', _, hjoin⟩ := List.isChain_append.mp hfirst
      refine List.isChain_append.mpr ⟨hlo', List.isChain_singleton _, fun x hx y hy => ?_⟩
      cases Option.mem_some_iff.mp hy
      exact hjoin x hx (c, cf) rfl
    · exact ⟨hlink.1, hlink.2.1, next, Or.inl ⟨rfl, rfl⟩⟩
    · obtain ⟨hlast, hrest'⟩ := List.isChain_cons.mp hlast
      exact List.isChain_cons.mpr ⟨hlast, hrest'⟩
  · -- the innermost task is suspended at an awaiter
    have hsuspended : ∃ b ∈ (lo ++ (c, cf) :: (p, pf) :: ps).head?,
        b.2.point = a.2.point ∧ b.2.busy = false := by
      cases lo with
      | nil =>
        cases Option.mem_some_iff.mp ha
        exact ⟨(c, cf), rfl, rfl, hlo _ List.mem_cons_self⟩
      | cons b lo =>
        cases Option.mem_some_iff.mp ha
        exact ⟨a, rfl, rfl, hlo _ List.mem_cons_self⟩
    obtain ⟨b, hb, hpoint, hbusy⟩ := hsuspended
    refine ⟨fun c' next' hjoined => ?_, fun c' hawaits => ?_⟩
    · exact (h.innermost b hb).1 c' next' (hpoint.trans hjoined)
    · obtain ⟨next', hstarting | hresumed⟩ := hawaits
      · unfold Frame.busy at hbusy
        rw [hpoint, hstarting] at hbusy
        exact nomatch hbusy
      · unfold Frame.busy at hbusy
        rw [hpoint, hresumed] at hbusy
        exact nomatch hbusy
  · rcases hmem a ha with ha | rfl | rfl
    · exact h.flags a (hold a ha)
    · have hflags := h.flags (c, cf) hcmem
      unfold Flags at hflags ⊢
      have hne : (c, { cf with parentHandle := some p }).1 ≠ 0 := Nat.ne_of_gt (Nat.zero_lt_of_lt hpc)
      rw [if_neg hne]
      rw [if_neg (show (c, cf).1 ≠ 0 from hne)] at hflags
      exact hflags
    · exact h.flags (p, pf) hpmem
  · rw [List.filter_congr fun i _ => hlivesame i]
    show rest.filter t.live = _
    have hcbusy : cf.busy = false := hlo (c, cf) (List.mem_append_right _ List.mem_cons_self)
    have hlobusy : (lo.filter fun a => a.2.busy) = [] :=
      List.filter_eq_nil_iff.mpr fun a ha hbusy =>
        nomatch (hlo a (List.mem_append_left _ ha)).symm.trans hbusy
    rw [hrest, List.filter_append, hlobusy, List.nil_append,
      List.filter_cons_of_neg (by exact Bool.eq_false_iff.mp hcbusy),
      List.filter_cons_of_neg Bool.false_ne_true]

/-- The handle of the root is destroyed while it is suspended. -/
theorem Nested.cancel {lo : List (Act L V X)} {rf : Frame L V X} (h : Nested t (lo ++ [(0, rf)])) :
    Nested { t.set 0 { rf with canceled := true } with handle := false }
      (lo ++ [(0, { rf with canceled := true })]) := by
  have hrmem : (0, rf) ∈ lo ++ [(0, rf)] := List.mem_append_right _ List.mem_cons_self
  have hlive : t.live 0 = true := live_eq (h.here _ hrmem) (h.open' _ hrmem)
  have hopen : Frame.done { rf with canceled := true } = false := h.open' _ hrmem
  obtain ⟨_, _, hover⟩ := List.pairwise_append.mp h.decreasing
  have hids : ∀ a ∈ lo, a.1 ≠ 0 := by
    intro a ha
    have hlt := hover a ha (0, rf) List.mem_cons_self
    exact Nat.ne_of_gt hlt
  have hmem : ∀ a, a ∈ lo ++ [(0, { rf with canceled := true })] →
      a ∈ lo ∨ a = (0, { rf with canceled := true }) := by
    intro a ha
    simpa using ha
  refine h.relabel (by simp [key]) rfl (by simp) (fun i hi => ?_) (fun a ha => ?_)
    (fun a ha => ?_) ?_ (fun a ha => ?_) (fun a ha => ?_) ?_ h.below
  · have hi0 : i ≠ 0 := fun he => hi (List.mem_map.mpr ⟨_, hrmem, he.symm⟩)
    exact Function.update_of_ne hi0 _ _
  · rcases hmem a ha with ha | rfl
    · rw [← h.here a (List.mem_append_left _ ha)]
      exact Function.update_of_ne (hids a ha) _ _
    · show Function.update t.frames 0 _ 0 = _
      exact Function.update_self _ _ _
  · rcases hmem a ha with ha | rfl
    · exact h.open' a (List.mem_append_left _ ha)
    · exact hopen
  · obtain ⟨hlo, _, hjoin⟩ := List.isChain_append.mp h.links
    refine List.isChain_append.mpr ⟨hlo, List.isChain_singleton _, fun x hx y hy => ?_⟩
    cases Option.mem_some_iff.mp hy
    exact hjoin x hx (0, rf) rfl
  · have hsame : ∃ b ∈ (lo ++ [(0, rf)]).head?,
        b.2.point = a.2.point ∧ b.2.handles = a.2.handles := by
      cases lo with
      | nil =>
        cases Option.mem_some_iff.mp ha
        exact ⟨(0, rf), rfl, rfl, rfl⟩
      | cons b lo =>
        cases Option.mem_some_iff.mp ha
        exact ⟨a, rfl, rfl, rfl⟩
    obtain ⟨b, hb, hpoint, hhandles⟩ := hsame
    obtain ⟨hjoined, hawaits⟩ := h.innermost b hb
    refine ⟨fun c next hc => hjoined c next (hpoint.trans hc), fun c hc => ?_⟩
    obtain ⟨next, hc⟩ := hc
    obtain ⟨hin, hdone⟩ := hawaits c ⟨next, by rwa [hpoint]⟩
    exact ⟨hhandles ▸ hin, done_update hdone (hdone.ne_live hlive) rfl⟩
  · rcases hmem a ha with ha | rfl
    · have hflags := h.flags a (List.mem_append_left _ ha)
      unfold Flags at hflags ⊢
      rw [if_neg (hids a ha)] at hflags ⊢
      exact hflags
    · have hflags := h.flags (0, rf) hrmem
      unfold Flags at hflags ⊢
      rw [if_pos rfl] at hflags ⊢
      exact ⟨rfl, hflags.2⟩
  · have hsame : ∀ i, Tasks.live
        { t.set 0 { rf with canceled := true } with handle := false } i = t.live i :=
      live_update hlive hopen rfl
    rw [List.filter_congr fun i _ => hsame i]
    show t.stack.filter t.live = _
    have hbusy : Frame.busy { rf with canceled := true } = rf.busy := rfl
    rw [h.stack, List.filter_append, List.filter_append, List.map_append, List.map_append]
    congr 1
    cases hb : rf.busy <;> simp [hbusy, hb]

/-! ### Frames that come and go -/

/-- Without some frames. -/
def erase (frames : Nat → Option (Frame L V X)) (gone : List Nat) : Nat → Option (Frame L V X) :=
  fun i => if i ∈ gone then none else frames i

theorem erase_of_notMem {frames : Nat → Option (Frame L V X)} {gone : List Nat} {i : Nat}
    (h : i ∉ gone) : erase frames gone i = frames i := if_neg h

/-- The innermost task destroys handles, of tasks that are done. -/
theorem Nested.release {gone hs : List Nat} (h : Nested t ((f, fr) :: ps))
    (hhandles : fr.handles = gone ++ hs) {fr' : Frame L V X}
    (hsame : fr' = { fr with handles := hs, point := fr'.point }) {l : L}
    (hpoint : fr'.point = .running l) (hbusy : fr.busy = true)
    (hframes : t'.frames = Function.update (erase t.frames gone) f (some fr'))
    (hnext : t'.next = t.next) (hstack : t'.stack = t.stack) (hhandle : t'.handle = t.handle) :
    Nested t' ((f, fr') :: ps) := by
  have hne := h.ids_ne
  have hdone := h.handles_done
  have hgone : ∀ c ∈ gone, Done t c := fun c hc =>
    hdone c (hhandles ▸ List.mem_append_left _ hc)
  have hflive := h.head_live
  have hopen : fr'.done = false := by
    unfold Frame.done
    rw [hpoint]
  have hother : ∀ i, i ≠ f → i ∉ gone → t'.frames i = t.frames i := by
    intro i hi hnot
    rw [hframes, Function.update_of_ne hi, erase_of_notMem hnot]
  have hself : t'.frames f = some fr' := by rw [hframes, Function.update_self]
  have hpsgone : ∀ a ∈ ps, a.1 ∉ gone := by
    intro a ha hin
    have hlive := live_eq (h.here a (List.mem_cons_of_mem _ ha))
      (h.open' a (List.mem_cons_of_mem _ ha))
    exact nomatch hlive.symm.trans (hgone _ hin).not_live
  have hdistinct : (gone ++ (hs ++ ps.flatMap fun a => a.2.handles)).Nodup := by
    have hdist := h.distinct
    rw [List.flatMap_cons, hhandles, List.append_assoc] at hdist
    exact hdist
  obtain ⟨_, hkept, hapart⟩ := List.nodup_append.mp hdistinct
  have hdone' : ∀ c, Done t c → c ∉ gone → Done t' c := by
    intro c hc hnot
    have hcf := hc.ne_live hflive
    obtain ⟨cf, r, hframe, hrest⟩ := hc
    exact ⟨cf, r, (hother c hcf hnot).trans hframe, hrest⟩
  have hhs : fr'.handles = hs := by rw [hsame]
  have hlivesame : ∀ i, t'.live i = t.live i := by
    intro i
    by_cases hi : i = f
    · subst hi
      rw [hflive]
      exact @live_eq L V X t' (i, fr') hself hopen
    · by_cases hin : i ∈ gone
      · rw [(hgone i hin).not_live]
        unfold Tasks.live
        rw [hframes, Function.update_of_ne hi, erase, if_pos hin]
      · unfold Tasks.live
        rw [hother i hi hin]
  refine ⟨fun a ha => ?_, fun a ha => ?_, ?_, fun a ha => ?_, fun a ha => ?_, fun a ha => ?_, ?_,
    fun a ha c hc => ?_, fun i ifr hi => ?_, ?_, fun i hi => ?_, fun g hg => ?_,
    fun hnil => (nomatch hnil)⟩
  · rcases List.mem_cons.mp ha with rfl | ha
    · exact hself
    · rw [← h.here a (List.mem_cons_of_mem _ ha)]
      exact hother a.1 (hne a ha) (hpsgone a ha)
  · rcases List.mem_cons.mp ha with rfl | ha
    · exact hopen
    · exact h.open' a (List.mem_cons_of_mem _ ha)
  · obtain ⟨hfirst, hrest⟩ := List.isChain_cons.mp h.links
    refine List.isChain_cons.mpr ⟨fun y hy => ?_, hrest⟩
    rw [hsame]
    exact hfirst y hy
  · cases Option.mem_some_iff.mp ha
    refine ⟨fun c next hc => (nomatch hpoint.symm.trans hc), fun c hc => ?_⟩
    obtain ⟨next, hc | hc⟩ := hc
    · exact nomatch hpoint.symm.trans hc
    · exact nomatch hpoint.symm.trans hc
  · cases ps with
    | nil =>
      cases Option.mem_some_iff.mp ha
      exact h.root (f, fr) rfl
    | cons b ps =>
      rw [List.getLast?_cons_cons] at ha
      refine h.root a ?_
      rw [List.getLast?_cons_cons]
      exact ha
  · have hflags : ∀ b ∈ (f, fr) :: ps, Flags t' b := by
      intro b hb
      have hb := h.flags b hb
      unfold Flags at hb ⊢
      rwa [hhandle]
    rcases List.mem_cons.mp ha with rfl | ha
    · rw [hsame]
      exact hflags (f, fr) List.mem_cons_self
    · exact hflags a (List.mem_cons_of_mem _ ha)
  · rw [List.flatMap_cons, hhs]
    exact hkept
  · rcases List.mem_cons.mp ha with rfl | ha
    · have hc : c ∈ hs := hhs ▸ hc
      have hin : c ∈ fr.handles := hhandles ▸ List.mem_append_right _ hc
      obtain ⟨hlt, _⟩ := h.children (f, fr) List.mem_cons_self c hin
      refine ⟨hlt, Or.inr (hdone' c (hdone c hin) fun hg => ?_)⟩
      exact hapart c hg c (List.mem_append_left _ hc) rfl
    · obtain ⟨hlt, hchild⟩ := h.children a (List.mem_cons_of_mem _ ha) c hc
      refine ⟨hlt, hchild.imp_right fun hd => hdone' c hd fun hg => ?_⟩
      exact hapart c hg c (List.mem_append_right _ (List.mem_flatMap.mpr ⟨a, ha, hc⟩)) rfl
  · by_cases hif : i = f
    · exact Or.inl (List.mem_cons.mpr (Or.inl hif))
    · have hnot : i ∉ gone := by
        intro hin
        rw [hframes, Function.update_of_ne hif, erase, if_pos hin] at hi
        exact nomatch hi
      rw [hother i hif hnot] at hi
      rcases h.owned i ifr hi with hin | hin | ⟨_, hnil, _⟩
      · exact Or.inl hin
      · rw [List.flatMap_cons, hhandles, List.append_assoc] at hin
        rw [List.flatMap_cons, hhs]
        exact Or.inr (Or.inl ((List.mem_append.mp hin).resolve_left hnot))
      · exact nomatch hnil
  · have hbusy' : fr'.busy = true := by
      unfold Frame.busy
      rw [hpoint]
    rw [hstack, List.filter_congr fun i _ => hlivesame i, h.stack,
      List.filter_cons_of_pos (by exact hbusy), List.filter_cons_of_pos (by exact hbusy')]
    rfl
  · rw [hnext] at hi
    have hif : i ≠ f := by
      intro he
      have hfree := h.fresh i hi
      rw [he, h.here (f, fr) List.mem_cons_self] at hfree
      exact nomatch hfree
    rw [hframes, Function.update_of_ne hif, erase]
    split
    · rfl
    · exact h.fresh i hi
  · rw [hnext]
    exact h.below g (hstack ▸ hg)

/-- The innermost task is done, and the one that has called it takes its result. -/
theorem Nested.leave {p : Nat} {pf pf' fin : Frame L V X} {r : Result V X} {next : Result V X → L}
    (h : Nested t ((f, fr) :: (p, pf) :: ps)) (hhandles : fr.handles = [])
    (hfinal : fin.point = .final) (hvalue : fin.value = some r)
    (hsame : pf' = pf.at pf'.point) (hpoint : pf'.point = .starting f next ∨ pf'.point = .resumed f next)
    (hframes : t'.frames = Function.update (Function.update t.frames f (some fin)) p (some pf'))
    (hnext : t'.next = t.next) (hhandle : t'.handle = t.handle)
    (hstack : (t'.stack.filter fun g => g ≠ f && t.live g) =
      p :: (ps.filter fun a => a.2.busy).map Prod.fst)
    (hbelow : ∀ g ∈ t'.stack, g < t.next) : Nested t' ((p, pf') :: ps) := by
  have hne := h.ids_ne
  have hdec := h.decreasing
  have hfp : p ≠ f := hne (p, pf) List.mem_cons_self
  have hpmem : (p, pf) ∈ (f, fr) :: (p, pf) :: ps := List.mem_cons_of_mem _ List.mem_cons_self
  have hps : ∀ a ∈ ps, a.1 ≠ p ∧ a.1 ≠ f := by
    intro a ha
    have hap := (List.pairwise_cons.mp (List.pairwise_cons.mp hdec).2).1 a ha
    exact ⟨Nat.ne_of_lt hap, hne a (List.mem_cons_of_mem _ ha)⟩
  obtain ⟨hlink, hrestlinks⟩ := List.isChain_cons_cons.mp h.links
  have hopen : pf'.done = false := by
    unfold Frame.done
    rcases hpoint with hpoint | hpoint <;> rw [hpoint]
  have hself : t'.frames p = some pf' := by rw [hframes, Function.update_self]
  have hfin : t'.frames f = some fin := by
    rw [hframes, Function.update_of_ne hfp.symm, Function.update_self]
  have hother : ∀ i, i ≠ f → i ≠ p → t'.frames i = t.frames i := by
    intro i hif hip
    rw [hframes, Function.update_of_ne hip, Function.update_of_ne hif]
  have hdonef : Done t' f := ⟨fin, r, hfin, hfinal, hvalue⟩
  have hdone' : ∀ c, Done t c → Done t' c := by
    intro c hc
    have hcf := hc.ne_live h.head_live
    have hcp := hc.ne_live (live_eq (h.here _ hpmem) (h.open' _ hpmem))
    obtain ⟨cf, r, hframe, hrest⟩ := hc
    exact ⟨cf, r, (hother c hcf hcp).trans hframe, hrest⟩
  have hpf' : pf'.handles = pf.handles := by rw [hsame]; rfl
  have hlivesame : ∀ i, t'.live i = (decide (i ≠ f) && t.live i) := by
    intro i
    by_cases hif : i = f
    · subst hif
      rw [hdonef.not_live]
      simp
    · rw [decide_eq_true hif, Bool.true_and]
      by_cases hip : i = p
      · subst hip
        have hlive : t.live i = true := live_eq (h.here _ hpmem) (h.open' _ hpmem)
        rw [hlive]
        exact @live_eq L V X t' (i, pf') hself hopen
      · unfold Tasks.live
        rw [hother i hif hip]
  refine ⟨fun a ha => ?_, fun a ha => ?_, ?_, fun a ha => ?_, fun a ha => ?_, fun a ha => ?_, ?_,
    fun a ha c hc => ?_, fun i ifr hi => ?_, ?_, fun i hi => ?_, fun g hg => ?_,
    fun hnil => (nomatch hnil)⟩
  · rcases List.mem_cons.mp ha with rfl | ha
    · exact hself
    · obtain ⟨hap, haf⟩ := hps a ha
      rw [← h.here a (List.mem_cons_of_mem _ (List.mem_cons_of_mem _ ha))]
      exact hother a.1 haf hap
  · rcases List.mem_cons.mp ha with rfl | ha
    · exact hopen
    · exact h.open' a (List.mem_cons_of_mem _ (List.mem_cons_of_mem _ ha))
  · obtain ⟨hfirst, hrest⟩ := List.isChain_cons.mp hrestlinks
    refine List.isChain_cons.mpr ⟨fun y hy => ?_, hrest⟩
    rw [hsame]
    exact hfirst y hy
  · cases Option.mem_some_iff.mp ha
    constructor
    · intro c next' hc
      rcases hpoint with hpoint | hpoint
      · exact nomatch hpoint.symm.trans hc
      · exact nomatch hpoint.symm.trans hc
    · intro c hc
      have hcf : c = f := by
        obtain ⟨next', hc | hc⟩ := hc
        · rcases hpoint with hpoint | hpoint
          · cases hpoint.symm.trans hc
            rfl
          · exact nomatch hpoint.symm.trans hc
        · rcases hpoint with hpoint | hpoint
          · exact nomatch hpoint.symm.trans hc
          · cases hpoint.symm.trans hc
            rfl
      rw [hcf, hpf']
      exact ⟨hlink.2.1, hdonef⟩
  · have hlast : ∀ b ∈ ((p, pf) :: ps).getLast?, b.1 = 0 := by
      intro b hb
      refine h.root b ?_
      rw [List.getLast?_cons_cons]
      exact hb
    cases ps with
    | nil =>
      cases Option.mem_some_iff.mp ha
      exact hlast (p, pf) rfl
    | cons b ps =>
      rw [List.getLast?_cons_cons] at ha
      refine hlast a ?_
      rw [List.getLast?_cons_cons]
      exact ha
  · have hflags : ∀ b ∈ (f, fr) :: (p, pf) :: ps, Flags t' b := by
      intro b hb
      have hb := h.flags b hb
      unfold Flags at hb ⊢
      rwa [hhandle]
    rcases List.mem_cons.mp ha with rfl | ha
    · rw [hsame]
      exact hflags (p, pf) hpmem
    · exact hflags a (List.mem_cons_of_mem _ (List.mem_cons_of_mem _ ha))
  · have hdist := h.distinct
    rw [List.flatMap_cons, hhandles, List.nil_append, List.flatMap_cons] at hdist
    rw [List.flatMap_cons, hpf']
    exact hdist
  · have hold : ∃ b ∈ (f, fr) :: (p, pf) :: ps, b.1 = a.1 ∧ c ∈ b.2.handles := by
      rcases List.mem_cons.mp ha with rfl | ha
      · exact ⟨(p, pf), hpmem, rfl, hpf' ▸ hc⟩
      · exact ⟨a, List.mem_cons_of_mem _ (List.mem_cons_of_mem _ ha), rfl, hc⟩
    obtain ⟨b, hb, hid, hcb⟩ := hold
    obtain ⟨hlt, hchild⟩ := h.children b hb c hcb
    rw [hid] at hlt
    refine ⟨hlt, ?_⟩
    rcases hchild with hin | hd
    · rcases List.mem_cons.mp hin with rfl | hin
      · exact Or.inr hdonef
      · exact Or.inl hin
    · exact Or.inr (hdone' c hd)
  · by_cases hif : i = f
    · subst hif
      refine Or.inr (Or.inl (List.mem_flatMap.mpr ⟨(p, pf'), List.mem_cons_self, ?_⟩))
      rw [hpf']
      exact hlink.2.1
    · by_cases hip : i = p
      · exact Or.inl (List.mem_cons.mpr (Or.inl hip))
      · rw [hother i hif hip] at hi
        rcases h.owned i ifr hi with hin | hin | ⟨_, hnil, _⟩
        · exact Or.inl ((List.mem_cons.mp hin).resolve_left hif)
        · rw [List.flatMap_cons, hhandles, List.nil_append, List.flatMap_cons] at hin
          rw [List.flatMap_cons, hpf']
          exact Or.inr (Or.inl hin)
        · exact nomatch hnil
  · have hbusy : pf'.busy = true := by
      unfold Frame.busy
      rcases hpoint with hpoint | hpoint <;> rw [hpoint]
    rw [List.filter_congr fun i _ => hlivesame i, hstack, List.filter_cons_of_pos (by exact hbusy)]
    rfl
  · rw [hnext] at hi
    have hif : i ≠ f := by
      intro he
      have hfree := h.fresh i hi
      rw [he, h.here (f, fr) List.mem_cons_self] at hfree
      exact nomatch hfree
    have hip : i ≠ p := by
      intro he
      have hfree := h.fresh i hi
      rw [he, h.here (p, pf) hpmem] at hfree
      exact nomatch hfree
    rw [hother i hif hip]
    exact h.fresh i hi
  · rw [hnext]
    exact hbelow g hg

/-- The chain is empty when there is no frame but that of the root, which is done. -/
theorem nested_empty (howned : ∀ i fr, t.frames i = some fr → i = 0 ∧ Done t 0 ∧ t.handle = true)
    (hstack : ∀ g ∈ t.stack, t.live g = false) (hfresh : ∀ i, t.next ≤ i → t.frames i = none)
    (hbelow : ∀ g ∈ t.stack, g < t.next)
    (hhandled : t.handle = true → (t.frames 0).isSome = true) : Nested t [] where
  here := fun _ ha => absurd ha List.not_mem_nil
  open' := fun _ ha => absurd ha List.not_mem_nil
  links := List.isChain_nil
  innermost := fun _ ha => nomatch ha
  root := fun _ ha => nomatch ha
  flags := fun _ ha => absurd ha List.not_mem_nil
  distinct := List.nodup_nil
  children := fun _ ha => absurd ha List.not_mem_nil
  owned := by
    intro i fr hi
    obtain ⟨hi, hdone, hhandle⟩ := howned i fr hi
    exact Or.inr (Or.inr ⟨hi, rfl, hdone, hhandle⟩)
  stack := List.filter_eq_nil_iff.mpr fun g hg hlive => nomatch (hstack g hg).symm.trans hlive
  fresh := hfresh
  below := hbelow
  handled := fun _ => hhandled

/-- No frame is left. -/
theorem nested_gone (hframes : ∀ i, t.frames i = none) (hbelow : ∀ g ∈ t.stack, g < t.next)
    (hhandle : t.handle = false) : Nested t [] := by
  refine nested_empty (fun i fr hi => ?_) (fun g _ => ?_) (fun i _ => hframes i) hbelow
    fun hh => (nomatch hhandle.symm.trans hh)
  · rw [hframes i] at hi
    exact nomatch hi
  · unfold Tasks.live
    rw [hframes g]

/-- Without handles, the innermost task is alone when it is the root. -/
theorem Nested.alone (h : Nested t [(f, fr)]) (hhandles : fr.handles = []) :
    ∀ i, i ≠ f → t.frames i = none := by
  intro i hif
  cases hi : t.frames i with
  | none => rfl
  | some ifr =>
    rcases h.owned i ifr hi with hin | hin | ⟨_, hnil, _⟩
    · exact absurd (List.mem_singleton.mp hin) hif
    · rw [List.flatMap_cons, hhandles] at hin
      exact absurd hin List.not_mem_nil
    · exact nomatch hnil

/-- The root is done, and its handle exists. -/
theorem Nested.leaveRoot {fin : Frame L V X} {r : Result V X} (h : Nested t [(f, fr)])
    (hhandles : fr.handles = []) (hfinal : fin.point = .final) (hvalue : fin.value = some r)
    (hframes : t'.frames = Function.update t.frames f (some fin)) (hnext : t'.next = t.next)
    (hhandle : t'.handle = true) (hbelow : ∀ g ∈ t'.stack, g < t.next) : Nested t' [] := by
  have hf : f = 0 := h.root (f, fr) rfl
  have halone := h.alone hhandles
  have hother : ∀ i, i ≠ f → t'.frames i = none := by
    intro i hif
    rw [hframes, Function.update_of_ne hif, halone i hif]
  have hdone : Done t' f := ⟨fin, r, by rw [hframes, Function.update_self], hfinal, hvalue⟩
  refine nested_empty (fun i ifr hi => ?_) (fun g _ => ?_) (fun i hi => ?_) (hnext ▸ hbelow)
    fun _ => ?_
  · have hif : i = f := by
      by_contra hne
      rw [hother i hne] at hi
      exact nomatch hi
    exact ⟨hif.trans hf, hf ▸ hdone, hhandle⟩
  · by_cases hgf : g = f
    · rw [hgf]
      exact hdone.not_live
    · unfold Tasks.live
      rw [hother g hgf]
  · have hlt := h.lt_next (h.here (f, fr) List.mem_cons_self)
    exact hother i (fun he => absurd hlt (he ▸ hnext ▸ Nat.not_lt.mpr hi))
  · rw [← hf, hframes, Function.update_self]
    rfl

/-- A task whose frame is there has a number that has been given out. -/
theorem Nested.handle_lt (h : Nested t acts) {a : Act L V X} (ha : a ∈ acts) {c : Nat}
    (hc : c ∈ a.2.handles) : c < t.next := by
  obtain ⟨_, hmem | hdone⟩ := h.children a ha c hc
  · obtain ⟨b, hb, rfl⟩ := List.mem_map.mp hmem
    exact h.lt_next (h.here b hb)
  · obtain ⟨cf, _, hframe, _⟩ := hdone
    exact h.lt_next hframe

/-- The innermost task calls another one. -/
theorem Nested.call {l child : L} {next : Result V X → L} {c : Nat} {pf inner : Frame L V X}
    (h : Nested t ((f, fr) :: ps)) (hpoint : fr.point = .running l) (hc : c = t.next)
    (hpf : pf = { fr with handles := c :: fr.handles, point := .starting c next })
    (hinner : inner = Frame.new child (some (fr.parentCanceled.getD f)))
    (hframes : t'.frames = Function.update (Function.update t.frames f (some pf)) c (some inner))
    (hnext : t'.next = c + 1) (hstack : t'.stack = c :: t.stack) (hhandle : t'.handle = t.handle) :
    Nested t' ((c, inner) :: (f, pf) :: ps) := by
  have hne := h.ids_ne
  have hfmem : (f, fr) ∈ (f, fr) :: ps := List.mem_cons_self
  have hlt : ∀ a ∈ (f, fr) :: ps, a.1 < c := fun a ha => hc ▸ h.lt_next (h.here a ha)
  have hf : f < c := hlt _ hfmem
  have hhandles : ∀ a ∈ (f, fr) :: ps, c ∉ a.2.handles := fun a ha hin =>
    Nat.lt_irrefl _ (hc ▸ h.handle_lt ha hin)
  have hbusy : fr.busy = true := by
    unfold Frame.busy
    rw [hpoint]
  have hroot : fr.parentCanceled.getD f = 0 := by
    have hflags := h.flags _ hfmem
    unfold Flags at hflags
    split at hflags
    · rename_i hf0
      rw [hflags.2.1]
      exact hf0
    · rw [hflags.2]
      rfl
  have hinnerself : t'.frames c = some inner := by rw [hframes, Function.update_self]
  have hself : t'.frames f = some pf := by
    rw [hframes, Function.update_of_ne (Nat.ne_of_lt hf), Function.update_self]
  have hother : ∀ i, i ≠ f → i ≠ c → t'.frames i = t.frames i := by
    intro i hif hic
    rw [hframes, Function.update_of_ne hic, Function.update_of_ne hif]
  have hdone' : ∀ d, Done t d → Done t' d := by
    intro d hd
    have hdf := hd.ne_live h.head_live
    obtain ⟨df, r, hframe, hrest⟩ := hd
    have hdc : d ≠ c := fun he => Nat.lt_irrefl _ (hc ▸ he ▸ h.lt_next hframe)
    exact ⟨df, r, (hother d hdf hdc).trans hframe, hrest⟩
  have hlivec : t'.live c = true := by
    refine @live_eq L V X t' (c, inner) hinnerself ?_
    rw [hinner]
    rfl
  have hlivesame : ∀ i, i < c → t'.live i = t.live i := by
    intro i hi
    by_cases hif : i = f
    · subst hif
      rw [h.head_live]
      refine @live_eq L V X t' (i, pf) hself ?_
      rw [hpf]
      rfl
    · unfold Tasks.live
      rw [hother i hif (Nat.ne_of_lt hi)]
  refine ⟨fun a ha => ?_, fun a ha => ?_, ?_, fun a ha => ?_, fun a ha => ?_, fun a ha => ?_, ?_,
    fun a ha d hd => ?_, fun i ifr hi => ?_, ?_, fun i hi => ?_, fun g hg => ?_,
    fun hnil => (nomatch hnil)⟩
  · rcases List.mem_cons.mp ha with rfl | ha
    · exact hinnerself
    · rcases List.mem_cons.mp ha with rfl | ha
      · exact hself
      · have hmem := List.mem_cons_of_mem (f, fr) ha
        rw [← h.here a hmem]
        exact hother a.1 (hne a ha) (Nat.ne_of_lt (hlt a hmem))
  · rcases List.mem_cons.mp ha with rfl | ha
    · rw [hinner]
      rfl
    · rcases List.mem_cons.mp ha with rfl | ha
      · rw [hpf]
        rfl
      · exact h.open' a (List.mem_cons_of_mem _ ha)
  · obtain ⟨hfirst, hrest⟩ := List.isChain_cons.mp h.links
    refine List.isChain_cons_cons.mpr ⟨?_, List.isChain_cons.mpr ⟨fun y hy => ?_, hrest⟩⟩
    · rw [hpf, hinner]
      exact ⟨hf, List.mem_cons_self, next, Or.inr ⟨rfl, rfl⟩⟩
    · rw [hpf]
      exact hfirst y hy
  · cases Option.mem_some_iff.mp ha
    rw [hinner]
    refine ⟨fun d next' hd => (nomatch hd), fun d hd => ?_⟩
    obtain ⟨next', hd | hd⟩ := hd
    · exact nomatch hd
    · exact nomatch hd
  · rw [List.getLast?_cons_cons] at ha
    cases ps with
    | nil =>
      cases Option.mem_some_iff.mp ha
      exact h.root (f, fr) rfl
    | cons b ps =>
      rw [List.getLast?_cons_cons] at ha
      refine h.root a ?_
      rw [List.getLast?_cons_cons]
      exact ha
  · have hflags : ∀ b ∈ (f, fr) :: ps, Flags t' b := by
      intro b hb
      have hb := h.flags b hb
      unfold Flags at hb ⊢
      rwa [hhandle]
    rcases List.mem_cons.mp ha with rfl | ha
    · unfold Flags
      rw [if_neg (Nat.ne_of_gt (Nat.zero_lt_of_lt hf)), hinner, hroot]
      exact ⟨rfl, rfl⟩
    · rcases List.mem_cons.mp ha with rfl | ha
      · rw [hpf]
        exact hflags (f, fr) hfmem
      · exact hflags a (List.mem_cons_of_mem _ ha)
  · have hnew : c ∉ (((f, fr) :: ps).flatMap fun a => a.2.handles) := by
      intro hin
      obtain ⟨a, ha, hin⟩ := List.mem_flatMap.mp hin
      exact hhandles a ha hin
    have hcons : (((c, inner) :: (f, pf) :: ps).flatMap fun a => a.2.handles) =
        c :: (((f, fr) :: ps).flatMap fun a => a.2.handles) := by
      rw [hpf, hinner]
      rfl
    rw [hcons]
    exact List.nodup_cons.mpr ⟨hnew, h.distinct⟩
  · have hids : (((c, inner) :: (f, pf) :: ps).map Prod.fst) =
        c :: (((f, fr) :: ps).map Prod.fst) := rfl
    have hold : ∀ a ∈ (f, fr) :: ps, d ∈ a.2.handles → a.1 < d ∧
        (d ∈ c :: (((f, fr) :: ps).map Prod.fst) ∨ Done t' d) := by
      intro a ha hd
      obtain ⟨hlt, hchild⟩ := h.children a ha d hd
      exact ⟨hlt, hchild.imp (List.mem_cons_of_mem _) (hdone' d)⟩
    rw [hids]
    rcases List.mem_cons.mp ha with rfl | ha
    · rw [hinner] at hd
      exact absurd hd List.not_mem_nil
    · rcases List.mem_cons.mp ha with rfl | ha
      · rw [hpf] at hd
        rcases List.mem_cons.mp hd with rfl | hd
        · exact ⟨hf, Or.inl List.mem_cons_self⟩
        · exact hold (f, fr) hfmem hd
      · exact hold a (List.mem_cons_of_mem _ ha) hd
  · by_cases hic : i = c
    · exact Or.inl (List.mem_cons.mpr (Or.inl hic))
    · by_cases hif : i = f
      · exact Or.inl (List.mem_cons_of_mem _ (List.mem_cons.mpr (Or.inl hif)))
      · rw [hother i hif hic] at hi
        rcases h.owned i ifr hi with hin | hin | ⟨_, hnil, _⟩
        · exact Or.inl (List.mem_cons_of_mem _ hin)
        · obtain ⟨a, ha, hin⟩ := List.mem_flatMap.mp hin
          refine Or.inr (Or.inl (List.mem_flatMap.mpr ?_))
          rcases List.mem_cons.mp ha with rfl | ha
          · refine ⟨(f, pf), List.mem_cons_of_mem _ List.mem_cons_self, ?_⟩
            rw [hpf]
            exact List.mem_cons_of_mem _ hin
          · exact ⟨a, List.mem_cons_of_mem _ (List.mem_cons_of_mem _ ha), hin⟩
        · exact nomatch hnil
  · have hbusyc : inner.busy = true := by
      rw [hinner]
      rfl
    have hbusyf : pf.busy = true := by
      rw [hpf]
      rfl
    have hrest : t.stack.filter t'.live = t.stack.filter t.live :=
      List.filter_congr fun g hg => hlivesame g (hc ▸ h.below g hg)
    rw [hstack, List.filter_cons_of_pos hlivec, hrest, h.stack,
      List.filter_cons_of_pos (by exact hbusy), List.filter_cons_of_pos (by exact hbusyc),
      List.filter_cons_of_pos (by exact hbusyf)]
    rfl
  · rw [hnext] at hi
    have hci : c < i := hi
    rw [hother i (Nat.ne_of_gt (Nat.lt_trans hf hci)) (Nat.ne_of_gt hci)]
    exact h.fresh i (hc ▸ Nat.le_of_lt hci)
  · rw [hnext]
    rw [hstack] at hg
    rcases List.mem_cons.mp hg with rfl | hg
    · exact Nat.lt_succ_self _
    · exact Nat.lt_succ_of_lt (hc ▸ h.below g hg)

end Chain

end Veridie.Utils
