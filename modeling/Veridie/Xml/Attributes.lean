/-
  File:      Veridie/Xml/Attributes.lean
  Subject:   What `ExtractName` and `ExtractAttributes` compute, in terms of the text of the token
             alone.

  * `nameOf`, `attrsOf` -- name and attributes of a token text; `attrsOf` answers `none` where the
    scan runs out of the token;
  * `extractName_eq`, `extractAttributes_some`, `extractAttributes_none` -- the pointer loops compute
    exactly that, and `none` is undefined behaviour;
  * `nameOf_tag`, `attrsOf_tag` -- a printed tag gives back its name and its attributes.
-/
import Veridie.Xml.Passes

namespace Veridie.Xml

open Veridie.Lib

/-! ## 1. Slices -/

theorem take_findIdx (f : Char → Bool) (t : Str) :
    t.take (t.findIdx f) = t.takeWhile (fun c => !f c) := by
  rw [List.takeWhile_eq_take_findIdx_not]
  simp only [Bool.not_not]

theorem drop_findIdx (f : Char → Bool) (t : Str) :
    t.drop (t.findIdx f) = t.dropWhile (fun c => !f c) := by
  rw [List.dropWhile_eq_drop_findIdx_not]
  simp only [Bool.not_not]

theorem slice_add (s : Str) (p e i : Nat) : slice s (p + i) e = (slice s p e).drop i := by
  unfold slice
  rw [List.drop_take, List.drop_drop, Nat.sub_sub]

theorem slice_to_add {s : Str} {p e i : Nat} (h : p + i ≤ e) :
    slice s p (p + i) = (slice s p e).take i := by
  unfold slice
  rw [List.take_take, Nat.add_sub_cancel_left, Nat.min_eq_left (by omega)]

/-- Where a search in a token stops, the token splits. -/
theorem slice_findIdx {s : Str} {p e : Nat} (f : Char → Bool) (hp : p ≤ e) (he : e ≤ s.length) :
    p + (slice s p e).findIdx f ≤ e ∧
    slice s p (p + (slice s p e).findIdx f) = (slice s p e).takeWhile (fun c => !f c) ∧
    slice s (p + (slice s p e).findIdx f) e = (slice s p e).dropWhile (fun c => !f c) := by
  have hle : (slice s p e).findIdx f ≤ e - p := by
    have h1 := (List.findIdx_le_length : List.findIdx f (slice s p e) ≤ _)
    rw [length_slice he] at h1
    exact h1
  refine ⟨by omega, ?_, ?_⟩
  · rw [slice_to_add (e := e) (by omega), take_findIdx]
  · rw [slice_add, drop_findIdx]

theorem slice_eq_nil {s : Str} {p e : Nat} (hp : p ≤ e) (he : e ≤ s.length) :
    slice s p e = [] ↔ p = e := by
  rw [← List.length_eq_zero_iff, length_slice he]
  omega

/-! ## 2. Names -/

/-- The element name in a token text. -/
def nameOf (t : Str) : Str := (t.drop 1).takeWhile fun c => !endsName c

theorem extractName_eq {s : Str} {b e : Nat} (hbe : b < e) (he : e ≤ s.length) :
    extractName s b e = .ok (nameOf (slice s b e)) := by
  obtain ⟨_, htake, _⟩ := slice_findIdx endsName (show b + 1 ≤ e from hbe) he
  unfold extractName nameOf
  rw [findIf_eq hbe he, ok_bind, htake, slice_add]

/-! ## 3. Attributes -/

/-- The attribute loop on the rest of a token text: a key from the next letter to the next `=`, then
    the quote, then the value up to the same quote. `none` where the token holds no `=` behind a key
    or ends with it. -/
def attrScan : Nat → Str → Attrs → Option Attrs
  | 0, _, attrs => some attrs
  | n + 1, t, attrs =>
    match t.dropWhile (fun c => !isAlpha c) with
    | [] => some attrs
    | k :: ks =>
      match (k :: ks).dropWhile (fun c => !(c = '=' : Bool)) with
      | _ :: quote :: val =>
        attrScan n (val.dropWhile fun c => !(c = quote : Bool))
          (attrs.insert ((k :: ks).takeWhile (fun c => !(c = '=' : Bool)),
            val.takeWhile fun c => !(c = quote : Bool)))
      | _ => none

/-- The attributes of a token text. -/
def attrsOf (t : Str) : Option Attrs :=
  attrScan (t.dropWhile fun c => !endsTagName c).length (t.dropWhile fun c => !endsTagName c)
    KeySet.empty

/-- What the pointer loop does at a key that starts at `keybegin`. -/
def attrRound (s : Str) (n keybegin e : Nat) (attrs : Attrs) : Eval Attrs := do
  let keyend ← findIf (· = '=') s keybegin e
  let quote ← charAt s (keyend + 1)
  let valend ← findIf (· = quote) s (keyend + 2) e
  attrLoop s n valend e (attrs.insert (slice s keybegin keyend, slice s (keyend + 2) valend))

/-- **The length of the text bounds the number of rounds**: every round leaves a shorter text. -/
theorem attrScan_rounds : ∀ {n m : Nat} {t : Str} {attrs : Attrs}, t.length ≤ n → t.length ≤ m →
    attrScan n t attrs = attrScan m t attrs
  | 0, 0, _, _, _, _ => rfl
  | 0, m + 1, t, attrs, hn, _ => by
      rw [List.length_eq_zero_iff.mp (Nat.le_zero.mp hn)]
      rfl
  | n + 1, 0, t, attrs, _, hm => by
      rw [List.length_eq_zero_iff.mp (Nat.le_zero.mp hm)]
      rfl
  | n + 1, m + 1, t, attrs, hn, hm => by
      unfold attrScan
      split
      · rfl
      · rename_i k ks hd
        have h1 := List.length_dropWhile_le (fun c => !isAlpha c) t
        rw [hd] at h1
        split
        · rename_i c quote val he
          have h2 := List.length_dropWhile_le (fun c => !(c = '=' : Bool)) (k :: ks)
          have h3 := List.length_dropWhile_le (fun c => !(c = quote : Bool)) val
          rw [he] at h2
          simp only [List.length_cons] at h1 h2
          exact attrScan_rounds (by omega) (by omega)
        · rfl

theorem attrLoop_step {s : Str} {n p e : Nat} {attrs : Attrs} (hp : p ≤ e) (he : e ≤ s.length) :
    attrLoop s (n + 1) p e attrs =
      if (slice s p e).dropWhile (fun c => !isAlpha c) = [] then .ok attrs
      else attrRound s n (p + (slice s p e).findIdx isAlpha) e attrs := by
  obtain ⟨hle, _, hdrop⟩ := slice_findIdx isAlpha hp he
  conv_lhs => unfold attrLoop
  by_cases hpe : p < e
  · rw [if_pos hpe, findIf_eq hp he, ok_bind]
    by_cases hk : p + (slice s p e).findIdx isAlpha = e
    · rw [if_pos hk, if_pos]
      rw [hk, slice_self] at hdrop
      exact hdrop.symm
    · rw [if_neg hk, if_neg]
      · rfl
      · rw [← hdrop]
        exact fun h => hk ((slice_eq_nil hle he).mp h)
  · rw [if_neg hpe, show p = e by omega, slice_self]
    rfl

/-- **The pointer loop computes the scan of the token text**, and leaves the token exactly where the
    scan answers `none`. -/
theorem attrLoop_scan {s : Str} : ∀ {n p e : Nat} (attrs : Attrs), p ≤ e → e ≤ s.length →
    (∀ a, attrScan n (slice s p e) attrs = some a → attrLoop s n p e attrs = .ok a) ∧
    (attrScan n (slice s p e) attrs = none → ∃ u, attrLoop s n p e attrs = .error (.ub u))
  | 0, p, e, attrs, _, _ => by
      refine ⟨fun a h => ?_, fun h => ?_⟩
      · cases h
        rfl
      · cases h
  | n + 1, p, e, attrs, hp, he => by
      rw [attrLoop_step hp he]
      obtain ⟨hle, _, hdrop⟩ := slice_findIdx isAlpha hp he
      unfold attrScan
      cases hd : (slice s p e).dropWhile (fun c => !isAlpha c) with
      | nil =>
          rw [if_pos rfl]
          refine ⟨fun a h => ?_, fun h => ?_⟩
          · cases h
            rfl
          · cases h
      | cons k ks =>
          rw [if_neg (List.cons_ne_nil k ks)]
          unfold attrRound
          rw [hd] at hdrop
          generalize p + (slice s p e).findIdx isAlpha = kb at hle hdrop ⊢
          obtain ⟨hle', htake', hdrop'⟩ := slice_findIdx (· = '=') hle he
          rw [findIf_eq hle he, ok_bind]
          rw [hdrop] at hle' htake' hdrop'
          rw [hdrop]
          generalize kb + (k :: ks).findIdx (· = '=') = ke at hle' htake' hdrop' ⊢
          have hlen := length_slice (p := ke) he
          rw [hdrop'] at hlen
          match hm : (k :: ks).dropWhile (fun c => !(c = '=' : Bool)) with
          | [] =>
              rw [hm] at hlen
              have hke : ke = e := by
                simp only [List.length_nil] at hlen
                omega
              simp only [hm, reduceCtorEq, false_implies, implies_true, true_and, forall_const]
              rw [hke]
              by_cases hlt : e + 1 ≤ s.length
              · rw [charAt_eq hlt, ok_bind]
                unfold findIf
                rw [if_pos (by omega)]
                exact ⟨_, rfl⟩
              · rw [charAt_of_gt (by omega)]
                exact ⟨_, rfl⟩
          | [c] =>
              rw [hm] at hlen
              have hke : ke + 1 = e := by
                simp only [List.length_cons, List.length_nil] at hlen
                omega
              simp only [hm, reduceCtorEq, false_implies, implies_true, true_and, forall_const]
              rw [charAt_eq (by omega), ok_bind]
              unfold findIf
              rw [if_pos (by omega)]
              exact ⟨_, rfl⟩
          | c :: quote :: val =>
              rw [hm] at hlen hdrop'
              have hke : ke + 2 ≤ e := by
                simp only [List.length_cons] at hlen
                omega
              have hquote : charAt s (ke + 1) = .ok quote := by
                have h1 : slice s (ke + 1) e = quote :: val := by
                  rw [slice_add, hdrop']
                  rfl
                rw [slice_cons (by omega) he] at h1
                rw [charAt_of_lt (by omega), (List.cons.inj h1).1]
              have hval : slice s (ke + 2) e = val := by
                rw [slice_add, hdrop']
                rfl
              obtain ⟨hle2, htake2, hdrop2⟩ := slice_findIdx (· = quote) hke he
              rw [hquote, ok_bind, findIf_eq hke he, ok_bind, htake', htake2, hval]
              rw [hval] at hdrop2 hle2
              have ih := attrLoop_scan (n := n)
                (attrs.insert ((k :: ks).takeWhile (fun c => !(c = '=' : Bool)),
                  val.takeWhile fun c => !(c = quote : Bool))) hle2 he
              rw [hdrop2] at ih
              simp only [hm]
              exact ih

theorem extractAttributes_step {s : Str} {b e : Nat} (hbe : b ≤ e) (he : e ≤ s.length) :
    ∃ p, p ≤ e ∧ slice s p e = (slice s b e).dropWhile (fun c => !endsTagName c) ∧
      extractAttributes s b e = attrLoop s (e - p) p e KeySet.empty := by
  obtain ⟨hle, _, hdrop⟩ := slice_findIdx endsTagName hbe he
  refine ⟨_, hle, hdrop, ?_⟩
  unfold extractAttributes
  rw [findIf_eq hbe he, ok_bind]

theorem extractAttributes_some {s : Str} {b e : Nat} {a : Attrs} (hbe : b ≤ e) (he : e ≤ s.length)
    (h : attrsOf (slice s b e) = some a) : extractAttributes s b e = .ok a := by
  obtain ⟨p, hp, hs, heq⟩ := extractAttributes_step hbe he
  rw [heq]
  unfold attrsOf at h
  rw [← hs, length_slice he] at h
  exact (attrLoop_scan _ hp he).1 a h

theorem extractAttributes_none {s : Str} {b e : Nat} (hbe : b ≤ e) (he : e ≤ s.length)
    (h : attrsOf (slice s b e) = none) : ∃ u, extractAttributes s b e = .error (.ub u) := by
  obtain ⟨p, hp, hs, heq⟩ := extractAttributes_step hbe he
  rw [heq]
  unfold attrsOf at h
  rw [← hs, length_slice he] at h
  exact (attrLoop_scan _ hp he).2 h

/-! ## 4. Printed tags -/

/-- An attribute that a printed tag gives back: the key starts with a letter and holds no `=`, the
    value holds no quote. -/
structure CleanAttr (a : Str × Str) : Prop where
  head : ∃ k ks, a.1 = k :: ks ∧ isAlpha k = true
  key : '=' ∉ a.1
  value : '"' ∉ a.2

/-- What is read back of the attributes written in this order. -/
def readAttrs (l : List (Str × Str)) : Attrs := l.foldl KeySet.insert KeySet.empty

theorem dropWhile_append_head {f : Char → Bool} {w rest : Str} {c : Char}
    (hw : ∀ x ∈ w, f x = true) (hc : f c = false) :
    (w ++ c :: rest).dropWhile f = c :: rest := by
  rw [List.dropWhile_append_of_pos hw, List.dropWhile_cons_of_neg (by rw [hc]; decide)]

theorem takeWhile_append_head {f : Char → Bool} {w rest : Str} {c : Char}
    (hw : ∀ x ∈ w, f x = true) (hc : f c = false) : (w ++ c :: rest).takeWhile f = w := by
  rw [List.takeWhile_append_of_pos hw, List.takeWhile_cons_of_neg (by rw [hc]; decide),
    List.append_nil]

theorem ne_of_notMem {w : Str} {d : Char} (h : d ∉ w) : ∀ x ∈ w, (!(x = d : Bool)) = true := by
  intro x hx
  have : x ≠ d := fun e => h (e ▸ hx)
  simp [this]

/-- One attribute behind characters that are no letters. -/
theorem attrScan_attrText {n : Nat} {junk rest : Str} {acc : Attrs} {a : Str × Str}
    (hj : ∀ c ∈ junk, isAlpha c = false) (ha : CleanAttr a) :
    attrScan (n + 1) (junk ++ (attrText a ++ rest)) acc =
      attrScan n ('"' :: rest) (acc.insert a) := by
  obtain ⟨key, value⟩ := a
  obtain ⟨⟨k, ks, rfl, hk⟩, heq, hq⟩ := ha
  have htext : junk ++ (attrText (k :: ks, value) ++ rest) =
      (junk ++ [' ']) ++ k :: (ks ++ '=' :: '"' :: (value ++ '"' :: rest)) := by
    simp [attrText]
  have hjunk : ∀ c ∈ junk ++ [' '], (!isAlpha c) = true := by
    intro c hc
    rcases List.mem_append.mp hc with hc | hc
    · rw [hj c hc]
      rfl
    · rw [List.mem_singleton.mp hc]
      decide
  have hkey : k :: (ks ++ '=' :: '"' :: (value ++ '"' :: rest)) =
      (k :: ks) ++ '=' :: '"' :: (value ++ '"' :: rest) := rfl
  rw [htext]
  conv_lhs => unfold attrScan
  rw [dropWhile_append_head hjunk (by rw [hk]; rfl)]
  simp only [hkey, dropWhile_append_head (ne_of_notMem heq) (by decide : (!('=' = '=' : Bool)) = false),
    takeWhile_append_head (ne_of_notMem heq) (by decide : (!('=' = '=' : Bool)) = false),
    dropWhile_append_head (ne_of_notMem hq) (by decide : (!('"' = '"' : Bool)) = false),
    takeWhile_append_head (ne_of_notMem hq) (by decide : (!('"' = '"' : Bool)) = false)]

theorem attrScan_nil {n : Nat} {junk : Str} {acc : Attrs} (hj : ∀ c ∈ junk, isAlpha c = false) :
    attrScan n junk acc = some acc := by
  cases n with
  | zero => rfl
  | succ n =>
    have : junk.dropWhile (fun c => !isAlpha c) = [] :=
      List.dropWhile_eq_nil_iff.mpr fun c hc => by rw [hj c hc]; rfl
    unfold attrScan
    rw [this]

theorem attrScan_printed {tail : Str} (ht : ∀ c ∈ tail, isAlpha c = false) :
    ∀ {l : List (Str × Str)} {n : Nat} (junk : Str) {acc : Attrs},
      (∀ c ∈ junk, isAlpha c = false) → (∀ a ∈ l, CleanAttr a) → l.length ≤ n →
      attrScan n (junk ++ (l.flatMap attrText ++ tail)) acc = some (l.foldl KeySet.insert acc)
  | [], n, junk, acc, hj, _, _ => by
      refine attrScan_nil fun c hc => ?_
      rcases List.mem_append.mp hc with hc | hc
      · exact hj c hc
      · exact ht c hc
  | a :: l, n + 1, junk, acc, hj, hl, hn => by
      rw [List.flatMap_cons, List.append_assoc, attrScan_attrText hj (hl a List.mem_cons_self)]
      exact attrScan_printed ht ['"'] (fun c hc => by rw [List.mem_singleton.mp hc]; rfl)
        (fun b hb => hl b (List.mem_cons_of_mem a hb)) (Nat.le_of_succ_le_succ hn)

theorem length_attrText_pos (a : Str × Str) : 0 < (attrText a).length := by
  simp [attrText]

theorem length_le_flatMap_attrText : ∀ l : List (Str × Str),
    l.length ≤ (l.flatMap attrText).length
  | [] => Nat.le_refl _
  | a :: l => by
      have h := length_le_flatMap_attrText l
      have hp := length_attrText_pos a
      rw [List.flatMap_cons, List.length_append, List.length_cons]
      omega

/-- A name that a printed tag gives back. -/
def CleanName (name : Str) : Prop := ∀ c ∈ name, endsName c = false

instance (name : Str) : Decidable (CleanName name) := List.decidableBAll _ name

/-- The attributes of a tag, and what closes it, start with a character that ends the name. -/
theorem attrs_head {l : List (Str × Str)} {tail : Str} (ht : ∃ rest, tail = ">".toList ++ rest ∨
    tail = ' ' :: rest) : ∃ c rest, l.flatMap attrText ++ tail = c :: rest ∧ endsName c = true ∧
      endsTagName c = true := by
  cases l with
  | nil =>
    obtain ⟨rest, rfl | rfl⟩ := ht
    · exact ⟨'>', rest, rfl, by decide, by decide⟩
    · exact ⟨' ', rest, rfl, by decide, by decide⟩
  | cons a l => exact ⟨' ', _, rfl, by decide, by decide⟩

/-- **The name of a printed tag is read back.** -/
theorem nameOf_tag {name tail : Str} {l : List (Str × Str)} (hn : CleanName name)
    (ht : ∃ rest, tail = ">".toList ++ rest ∨ tail = ' ' :: rest) :
    nameOf ('<' :: (name ++ (l.flatMap attrText ++ tail))) = name := by
  obtain ⟨c, rest, hc, he, _⟩ := attrs_head (l := l) ht
  unfold nameOf
  rw [hc, List.drop_one, List.tail_cons]
  exact takeWhile_append_head (fun x hx => by rw [hn x hx]; rfl) (by rw [he]; rfl)

/-- **The attributes of a printed tag are read back**, in the order they were written. -/
theorem attrsOf_tag {name tail : Str} {l : List (Str × Str)} (hn : CleanName name)
    (hl : ∀ a ∈ l, CleanAttr a) (ht : ∃ rest, tail = ">".toList ++ rest ∨ tail = ' ' :: rest)
    (htail : ∀ c ∈ tail, isAlpha c = false) :
    attrsOf ('<' :: (name ++ (l.flatMap attrText ++ tail))) = some (readAttrs l) := by
  have hdrop : ('<' :: (name ++ (l.flatMap attrText ++ tail))).dropWhile
      (fun c => !endsTagName c) = l.flatMap attrText ++ tail := by
    obtain ⟨c, rest, hc, _, he⟩ := attrs_head (l := l) ht
    rw [hc, ← List.cons_append]
    refine dropWhile_append_head (fun x hx => ?_) (by rw [he]; rfl)
    rcases List.mem_cons.mp hx with rfl | hx
    · decide
    · have hx := hn x hx
      simp only [endsName, endsTagName, Bool.or_eq_false_iff] at hx ⊢
      rw [hx.1.1, hx.1.2]
      rfl
  unfold attrsOf
  rw [hdrop]
  refine attrScan_printed htail [] (fun c hc => absurd hc (List.not_mem_nil)) hl ?_
  have := length_le_flatMap_attrText l
  rw [List.length_append]
  omega

end Veridie.Xml
