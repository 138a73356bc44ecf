/-
  File:      Veridie/Xml/Safety.lean
  Subject:   Exactly when parsing stays inside the language's rules. The passes and the tree builder
             never go wrong by themselves; what goes wrong is a token list that ends too early, and
             a tag whose attribute lacks its `=` or the character behind it.

  * `TagSafe` -- every attribute key of a tag has an `=` and a character behind it;
  * `behindComments` -- the tokens that are left behind the leading comments;
  * `LoopSafe`, `RootSafe`, `ParseSafe` -- the tags the builder reaches are safe, the tokens behind
    the leading comments are not used up, the text is not empty;
  * `buildLoop_defined`, `parseString_defined` -- undefined behaviour is exactly the opposite.
-/
import Veridie.Xml.Attributes

namespace Veridie.Xml

open Veridie.Lib

/-! ## 1. Conditions on the text -/

/-- The attribute scan stays inside the tag. -/
def TagSafe (tag : Str) : Prop := attrsOf tag ≠ none

instance (tag : Str) : Decidable (TagSafe tag) :=
  match h : attrsOf tag with
  | none => isFalse fun hs => hs h
  | some _ => isTrue fun hn => by rw [h] at hn; cases hn

/-- The tokens behind the leading comments. -/
def behindComments (s : Str) : List Nat → List Nat
  | l :: r :: rest =>
    if determineToken s l r = .ok .comment then behindComments s (r :: rest) else l :: r :: rest
  | ts => ts

/-- The tags reached with `depth` elements open are safe. -/
def LoopSafe (s : Str) : Nat → List Nat → Prop
  | 0, _ => True
  | depth + 1, l :: r :: rest =>
    match determineToken s l r with
    | .ok .opening => TagSafe (slice s l r) ∧ LoopSafe s (depth + 2) (r :: rest)
    | .ok .openClose => TagSafe (slice s l r) ∧ LoopSafe s (depth + 1) (r :: rest)
    | .ok .closing => LoopSafe s depth (r :: rest)
    | .ok .error => True
    | _ => LoopSafe s (depth + 1) (r :: rest)
  | _ + 1, _ => True

/-- There is a root, and it and every tag reached from it are safe. -/
def RootSafe (s : Str) : List Nat → Prop
  | l :: r :: rest => TagSafe (slice s l r) ∧ LoopSafe s 1 (r :: rest)
  | _ => False

/-- The declaration is safe, and there is a root behind it and its comments; a text that starts
    with no `<` is refused first. -/
def DocumentSafe (s : Str) : List Nat → Prop
  | first :: second :: rest =>
    s[first]? = some '<' →
      if s[first + 1]? = some '?' then
        TagSafe (slice s first second) ∧ RootSafe s (behindComments s (second :: rest))
      else RootSafe s (first :: second :: rest)
  | _ => False

/-- The text is not empty, and behind its leading comments stands a safe document. -/
def ParseSafe (s : Str) : Prop :=
  s ≠ [] ∧ ∀ ts, passes s = .ok ts → DocumentSafe s (behindComments s ts)

/-! ## 2. Leading comments -/

theorem behindComments_suffix (s : Str) : ∀ ts : List Nat, (behindComments s ts).Sublist ts
  | [] => List.Sublist.refl _
  | [_] => List.Sublist.refl _
  | l :: r :: rest => by
      unfold behindComments
      split
      · exact (behindComments_suffix s (r :: rest)).cons l
      · exact List.Sublist.refl _

/-- `RemoveLeadingComments` goes wrong where it leaves no token. -/
theorem removeLeadingComments_eq {s : Str} : ∀ {ts : List Nat}, Pointers s ts →
    removeLeadingComments s ts =
      match behindComments s ts with
      | l :: r :: rest => .ok (l :: r :: rest)
      | _ => undefined .listEnd
  | [], _ => rfl
  | [_], _ => rfl
  | l :: r :: rest, h => by
      obtain ⟨what, hw⟩ := determineToken_ok h.lt h.second_le
      unfold removeLeadingComments behindComments
      rw [hw, ok_bind]
      by_cases hc : what = .comment
      · rw [if_pos hc, if_pos (by rw [hc])]
        exact removeLeadingComments_eq h.tail
      · rw [if_neg hc, if_neg (fun e => hc (Except.ok.inj e))]

/-! ## 3. The builder -/

section Build

variable {s : Str} {replaceEr : Bool}

theorem newFrame_cases {b e : Nat} (hbe : b < e) (he : e ≤ s.length) :
    (∃ f, newFrame s b e = .ok f ∧ TagSafe (slice s b e)) ∨
    (∃ u, newFrame s b e = .error (.ub u) ∧ ¬ TagSafe (slice s b e)) := by
  unfold newFrame TagSafe
  rw [extractName_eq hbe he, ok_bind]
  cases ha : attrsOf (slice s b e) with
  | some a =>
    rw [extractAttributes_some (Nat.le_of_lt hbe) he ha]
    exact Or.inl ⟨_, rfl, fun h => nomatch h⟩
  | none =>
    obtain ⟨u, hu⟩ := extractAttributes_none (Nat.le_of_lt hbe) he ha
    rw [hu]
    exact Or.inr ⟨u, rfl, fun h => h rfl⟩

/-- What follows a new element is reached exactly when its tag is safe. -/
theorem newFrame_bind_defined {α : Type} {b e : Nat} {f : Frame → Eval α} {p : Prop} (hbe : b < e)
    (he : e ≤ s.length) (hf : ∀ frame, Defined (f frame) ↔ p) :
    Defined (newFrame s b e >>= f) ↔ TagSafe (slice s b e) ∧ p := by
  rcases newFrame_cases hbe he with ⟨frame, hn, ht⟩ | ⟨u, hn, ht⟩
  · rw [hn, ok_bind, hf, and_iff_right ht]
  · rw [hn, error_bind]
    exact ⟨fun h => absurd rfl (h u), fun h => absurd h.1 ht⟩

/-- **The builder's loop goes wrong exactly at an unsafe tag**; its stack is never empty when it is
    read. -/
theorem buildLoop_defined : ∀ {ts : List Nat} {t : Tree}, Pointers s ts →
    (Defined (buildLoop s replaceEr t ts) ↔ LoopSafe s t.stack.length ts)
  | [], ⟨[], _⟩, _ => ⟨fun _ => True.intro, fun _ => defined_ok _⟩
  | [], ⟨_ :: _, _⟩, _ => ⟨fun _ => True.intro, fun _ => defined_ok _⟩
  | [_], ⟨[], _⟩, _ => ⟨fun _ => True.intro, fun _ => defined_ok _⟩
  | [_], ⟨_ :: _, _⟩, _ => ⟨fun _ => True.intro, fun _ => defined_ok _⟩
  | l :: r :: rest, ⟨[], root⟩, _ => by
      unfold buildLoop
      exact ⟨fun _ => True.intro, fun _ => defined_ok _⟩
  | l :: r :: rest, ⟨top :: below, root⟩, h => by
      have ih : ∀ t : Tree, Defined (buildLoop s replaceEr t (r :: rest)) ↔
          LoopSafe s t.stack.length (r :: rest) := fun t => buildLoop_defined h.tail
      obtain ⟨what, hw⟩ := determineToken_ok h.lt h.second_le
      unfold buildLoop buildStep LoopSafe
      simp only [List.isEmpty_cons, List.length_cons, hw, ok_bind]
      cases what with
      | opening =>
        simp only [bind_assoc]
        exact newFrame_bind_defined h.lt h.second_le fun f => ih ⟨f :: top :: below, root⟩
      | openClose =>
        simp only [bind_assoc]
        exact newFrame_bind_defined h.lt h.second_le fun f => ih ⟨top.add f.close :: below, root⟩
      | closing =>
        cases below with
        | nil => exact ih ⟨[], some top.close⟩
        | cons parent below => exact ih ⟨parent.add top.close :: below, root⟩
      | content => exact ih ⟨_ :: below, root⟩
      | comment => exact ih ⟨top :: below, root⟩
      | error => exact ⟨fun _ => True.intro, fun _ => defined_ok _⟩

theorem documentOf_defined {decl : Attrs} {ts : List Nat} (h : Pointers s ts) :
    Defined (documentOf s replaceEr decl ts) ↔ RootSafe s ts := by
  have htree : Defined (documentOf s replaceEr decl ts) ↔
      Defined (buildElementTree s replaceEr ts) := by
    unfold documentOf
    rw [defined_bind]
    refine ⟨fun h => h.1, fun h => ⟨h, fun root _ => ?_⟩⟩
    cases root with
    | some root => exact defined_ok _
    | none => exact defined_throwExn _
  rw [htree]
  rcases ts with _ | ⟨l, _ | ⟨r, rest⟩⟩
  · exact ⟨fun h => absurd h (not_defined_undefined _), fun h => h.elim⟩
  · exact ⟨fun h => absurd h (not_defined_undefined _), fun h => h.elim⟩
  · rw [buildElementTree]
    refine newFrame_bind_defined h.lt h.second_le fun f => ?_
    rw [defined_bind]
    refine ⟨fun hd => (buildLoop_defined h.tail).mp hd.1, fun hl => ⟨?_, fun _ _ => defined_ok _⟩⟩
    exact (buildLoop_defined (t := ⟨[f], none⟩) h.tail).mpr hl

/-- A read inside the text compares like the list lookup, for a character that is not NUL. -/
theorem charAt_getElem? {p : Nat} {c : Char} (hp : p ≤ s.length) (hc : c ≠ nul) :
    ∃ d, charAt s p = .ok d ∧ (d = c ↔ s[p]? = some c) := by
  rcases Nat.lt_or_eq_of_le hp with hlt | rfl
  · refine ⟨s[p], charAt_of_lt hlt, ?_⟩
    rw [List.getElem?_eq_getElem hlt, Option.some_inj]
  · refine ⟨nul, charAt_length s, fun e => absurd e.symm hc, fun h => ?_⟩
    rw [List.getElem?_eq_none (Nat.le_refl _)] at h
    cases h

theorem documentOfTokens_defined {first second : Nat} {rest : List Nat}
    (h : Pointers s (first :: second :: rest)) :
    Defined (documentOfTokens s replaceEr (first :: second :: rest)) ↔
      DocumentSafe s (first :: second :: rest) := by
  have hlt := h.lt
  have hle := h.second_le
  obtain ⟨c, hc, hcs⟩ := charAt_getElem? (s := s) (p := first) (c := '<') (by omega) (by decide)
  obtain ⟨d, hd, hds⟩ := charAt_getElem? (s := s) (p := first + 1) (c := '?') (by omega) (by decide)
  rw [documentOfTokens, hc, ok_bind]
  simp only [DocumentSafe]
  rw [← hcs]
  by_cases hc' : c = '<'
  · rw [if_neg (not_not.mpr hc'), hd, ok_bind]
    simp only [hc', true_implies]
    by_cases hq : d = '?'
    · rw [if_pos hq, if_pos (hds.mp hq)]
      have hrest : ∀ decl, Defined (removeLeadingComments s (second :: rest) >>= fun tokens =>
          documentOf s replaceEr decl tokens) ↔
          RootSafe s (behindComments s (second :: rest)) := by
        intro decl
        have hptr := h.tail.sublist (behindComments_suffix s (second :: rest))
        rw [removeLeadingComments_eq h.tail]
        split
        · rename_i heq
          rw [heq] at hptr ⊢
          exact documentOf_defined hptr
        · rename_i hne
          refine ⟨fun hd => absurd rfl (hd _), fun hr => ?_⟩
          rcases hm : behindComments s (second :: rest) with _ | ⟨l, _ | ⟨r, more⟩⟩
          · rw [hm] at hr
            exact hr.elim
          · rw [hm] at hr
            exact hr.elim
          · exact absurd hm (hne l r more)
      unfold TagSafe
      cases ha : attrsOf (slice s first second) with
      | some a =>
        rw [extractAttributes_some (Nat.le_of_lt hlt) hle ha, ok_bind, hrest]
        exact ⟨fun hr => ⟨Option.some_ne_none a, hr⟩, fun hr => hr.2⟩
      | none =>
        obtain ⟨u, hu⟩ := extractAttributes_none (Nat.le_of_lt hlt) hle ha
        rw [hu, error_bind]
        exact ⟨fun hd => absurd rfl (hd u), fun hr => absurd rfl hr.1⟩
    · rw [if_neg hq, if_neg (fun e => hq (hds.mpr e))]
      exact documentOf_defined h
  · rw [if_pos hc']
    exact ⟨fun _ e => absurd e hc', fun _ => defined_throwExn _⟩

end Build

/-! ## 4. The whole parse -/

/-- **Parsing is defined exactly on the safe texts.** -/
theorem parseString_defined (s : Str) (replaceEr : Bool) :
    Defined (parseString s replaceEr) ↔ ParseSafe s := by
  by_cases hs : s = []
  · subst hs
    exact ⟨fun h => absurd rfl (h .read), fun h => absurd rfl h.1⟩
  · obtain ⟨ts, hp, hptr, _⟩ := passes_spec hs
    have hsafe : ParseSafe s ↔ DocumentSafe s (behindComments s ts) :=
      ⟨fun h => h.2 ts hp, fun h => ⟨hs, fun ts' h' => by rw [hp] at h'; cases h'; exact h⟩⟩
    have hptr' := hptr.sublist (behindComments_suffix s ts)
    rw [hsafe]
    unfold parseString
    rw [hp, ok_bind, removeLeadingComments_eq hptr]
    split
    · rename_i heq
      rw [heq] at hptr' ⊢
      exact documentOfTokens_defined hptr'
    · rename_i hne
      refine ⟨fun hd => absurd rfl (hd _), fun hr => ?_⟩
      match hm : behindComments s ts with
      | [] => rw [hm] at hr; exact hr.elim
      | [_] => rw [hm] at hr; exact hr.elim
      | l :: r :: more => exact absurd hm (hne l r more)

end Veridie.Xml
