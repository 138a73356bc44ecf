/-
  File:      Veridie/Dice/Safety.lean
  Subject:   Decoding arbitrary bytes: `Deserialize` gives a value or an exception exactly on the
             texts the parser is safe on. Everything behind the parser is defined on every tree.
-/
import Veridie.Dice.Serializer
import Veridie.Xml.Safety

namespace Veridie.Dice

open Veridie.Lib Veridie.Xml

/-! ## 1. Behind the parser -/

theorem getAttributeValue_defined (e : Element) (key : Str) : Defined (e.getAttributeValue key) := by
  unfold Element.getAttributeValue
  split
  · exact defined_ok _
  · exact defined_throwExn _

theorem getChildAt_defined (e : Element) (i : Nat) : Defined (e.getChildAt i) := by
  unfold Element.getChildAt
  split
  · exact defined_ok _
  · exact defined_throwExn _

theorem getChild_defined (e : Element) (name : Str) : Defined (e.getChild name) := by
  unfold Element.getChild
  split
  · exact defined_ok _
  · exact defined_throwExn _

theorem catchXml_defined {α : Type} {x : Eval α} (h : Defined x) : Defined (catchXml x) := by
  unfold catchXml
  split
  · exact defined_ok _
  · exact defined_ok _
  · rename_i e _
    intro u hu
    cases hu
    exact h u rfl

/-- Two parts that are always defined make a whole that is. -/
theorem Defined.bind {α β : Type} {x : Eval α} {f : α → Eval β} (hx : Defined x)
    (hf : ∀ a, Defined (f a)) : Defined (x >>= f) := defined_bind.mpr ⟨hx, fun a _ => hf a⟩

theorem Defined.map {α β : Type} {x : Eval α} (f : α → β) (hx : Defined x) : Defined (f <$> x) := by
  cases x with
  | ok a => exact defined_ok _
  | error e =>
    intro u hu
    cases hu
    exact hx u rfl

theorem readValues_defined (root : Element) : ∀ n i, Defined (readValues root n i)
  | 0, _ => defined_ok _
  | n + 1, i => by
      unfold readValues
      exact Defined.bind (getChildAt_defined root i) fun _ =>
        Defined.bind (stoul_defined _) fun _ =>
          Defined.bind (readValues_defined root n (i + 1)) fun _ => defined_ok _

theorem optionalNumber_defined (root : Element) (key : Str) :
    Defined (catchXml (root.getAttributeValue key >>= stoul)) :=
  catchXml_defined (Defined.bind (getAttributeValue_defined root key) fun _ => stoul_defined _)

theorem parseRequest_defined (root : Element) : Defined (parseRequest root) :=
  Defined.bind (getAttributeValue_defined _ _) fun _ =>
    Defined.bind (getAttributeValue_defined _ _) fun _ =>
      Defined.bind (stoul_defined _) fun _ =>
        Defined.bind (optionalNumber_defined _ _) fun _ =>
          Defined.bind (makeCast_defined _ _) fun _ => defined_ok _

theorem parseResponse_defined (root : Element) : Defined (parseResponse root) :=
  Defined.bind (getAttributeValue_defined _ _) fun _ =>
    Defined.bind (getAttributeValue_defined _ _) fun _ =>
      Defined.bind (stoul_defined _) fun _ =>
        Defined.bind (makeCast_defined _ _) fun _ =>
          Defined.bind (readValues_defined _ _ _) fun _ =>
            Defined.bind (optionalNumber_defined _ _) fun _ => defined_ok _

theorem parseHello_defined (root : Element) : Defined (parseHello root) :=
  Defined.bind (getChild_defined _ _) fun _ => defined_ok _

theorem parseOffer_defined (root : Element) : Defined (parseOffer root) :=
  Defined.bind (getChild_defined _ _) fun _ =>
    Defined.bind (getAttributeValue_defined _ _) fun _ =>
      Defined.bind (stoi_defined _) fun _ => defined_ok _

/-! ## 2. Main result -/

/-- **Decoding is safe exactly on the texts the parser is safe on.** -/
theorem deserialize_defined_iff (message : Str) :
    Defined (deserialize message) ↔ ParseSafe message := by
  rw [← parseString_defined message false]
  unfold deserialize
  rw [defined_bind]
  refine ⟨fun h => h.1, fun h => ⟨h, fun doc _ => ?_⟩⟩
  dsimp only
  split
  · exact Defined.map _ (parseRequest_defined _)
  split
  · exact Defined.map _ (parseResponse_defined _)
  split
  · exact Defined.map _ (parseHello_defined _)
  split
  · exact Defined.map _ (parseOffer_defined _)
  · exact defined_throwExn _

/-- Nothing, whitespace only, and an attribute without a value: the three ways out of the rules. -/
theorem deserialize_undefined : ¬ Defined (deserialize "".toList) ∧
    ¬ Defined (deserialize " ".toList) ∧ ¬ Defined (deserialize "<Request size>".toList) := by
  refine ⟨by decide, by decide, by decide⟩

end Veridie.Dice
