/-
  File:      Veridie/Dice/Serializer.lean
  Subject:   `XmlSerializer` (dice/serializer.cpp): the four messages written as XML documents and
             read back.

  * `serializeRequest`, `serializeResponse`, `serializeHello`, `serializeOffer` -- through the
    element API, as the code builds the documents;
  * `deserialize` -- `Deserialize`, by the name of the root;
  * `ISerializer` -- the interface the states use; `xmlSerializer` is this one, and the texts it
    writes are those of the four functions (`serialize_eq`).
-/
import Veridie.Dice.Cast
import Veridie.Dice.Numbers
import Veridie.Xml.Parser

namespace Veridie.Dice

open Veridie.Lib Veridie.Xml

/-! ## 1. `Serialize` -/

/-- `RequestToXml`. -/
def requestToXml (type : Str) (cast : Cast) : Document :=
  let doc := newDocument "Request".toList
  let root := (doc.root.addAttribute "type".toList type).addAttribute "size".toList
    (toString cast.values.length)
  { doc with root := root }

/-- `Serialize(const Request &)`. -/
def serializeRequest (ord : AttrOrder) (request : Request) : Str :=
  let doc := requestToXml (typeToString request.cast.die) request.cast
  match request.threshold with
  | some threshold =>
    let root := doc.root.addAttribute "successFrom".toList (toString threshold.toNat)
    { doc with root := root }.toString ord
  | none => doc.toString ord

/-- The loop over the values of a response. -/
def addValues : List UInt32 → Element → Eval Element
  | [], root => .ok root
  | val :: values, root => do
    let child ← (Element.new "Val".toList).setContent (toString val.toNat)
    let root ← root.addChild child
    addValues values root

/-- `ResponseToXml`. -/
def responseToXml (type : Str) (cast : Cast) : Eval Document := do
  let doc := newDocument "Response".toList
  let root ← addValues cast.values ((doc.root.addAttribute "type".toList type).addAttribute
    "size".toList (toString cast.values.length))
  .ok { doc with root := root }

/-- `Serialize(const Response &)`. -/
def serializeResponse (ord : AttrOrder) (response : Response) : Eval Str := do
  let doc ← responseToXml (typeToString response.cast.die) response.cast
  match response.successCount with
  | some count =>
    let root := doc.root.addAttribute "successCount".toList (toString count.toNat)
    .ok ({ doc with root := root }.toString ord)
  | none => .ok (doc.toString ord)

/-- `Serialize(const Hello &)`. -/
def serializeHello (ord : AttrOrder) (hello : Hello) : Eval Str := do
  let doc := newDocument "Hello".toList
  let child ← (Element.new "Mac".toList).setContent hello.mac
  let root ← doc.root.addChild child
  .ok ({ doc with root := root }.toString ord)

/-- `Serialize(const Offer &)`. -/
def serializeOffer (ord : AttrOrder) (offer : Offer) : Eval Str := do
  let doc := newDocument "Offer".toList
  let child ← (Element.new "Mac".toList).setContent offer.mac
  let root ← (doc.root.addAttribute "round".toList (toString offer.round.toNat)).addChild child
  .ok ({ doc with root := root }.toString ord)

/-! ## 2. `Deserialize` -/

/-- `try { ... } catch (const xml::Exception &) {}` around an assignment to an empty optional. -/
def catchXml {α : Type} (x : Eval α) : Eval (Option α) :=
  match x with
  | .ok a => .ok (some a)
  | .error (.exn (.xml _)) => .ok none
  | .error e => .error e

/-- `ParseRequest`. -/
def parseRequest (root : Element) : Eval Request := do
  let type ← root.getAttributeValue "type".toList
  let sizeText ← root.getAttributeValue "size".toList
  let size ← stoul sizeText
  let successFrom ← catchXml (root.getAttributeValue "successFrom".toList >>= stoul)
  let cast ← makeCast type size.toNat
  .ok ⟨cast, successFrom.map UInt64.toUInt32⟩

/-- The loop over the children of a response, `n` of them from the `i`-th on. -/
def readValues (root : Element) : Nat → Nat → Eval (List UInt32)
  | 0, _ => .ok []
  | n + 1, i => do
    let child ← root.getChildAt i
    let value ← stoul child.content
    let values ← readValues root n (i + 1)
    .ok (value.toUInt32 :: values)

/-- `FillValues`. -/
def fillValues (values : List UInt32) (cast : Cast) : Cast :=
  ⟨cast.die, cast.values.mapIdx fun i old => values.getD i old, by
    rw [List.length_mapIdx]
    exact cast.size_le⟩

/-- `ParseResponse`. -/
def parseResponse (root : Element) : Eval Response := do
  let type ← root.getAttributeValue "type".toList
  let sizeText ← root.getAttributeValue "size".toList
  let size ← stoul sizeText
  let cast ← makeCast type size.toNat
  let values ← readValues root size.toNat 0
  let successCount ← catchXml (root.getAttributeValue "successCount".toList >>= stoul)
  .ok ⟨fillValues values cast, successCount⟩

/-- `ParseHello`. -/
def parseHello (root : Element) : Eval Hello := do
  let mac ← root.getChild "Mac".toList
  .ok ⟨mac.content⟩

/-- `ParseOffer`; the number goes through a signed `int`. -/
def parseOffer (root : Element) : Eval Offer := do
  let mac ← root.getChild "Mac".toList
  let roundText ← root.getAttributeValue "round".toList
  let round ← stoi roundText
  .ok ⟨mac.content, UInt32.ofNat (round % 2 ^ 32).toNat⟩

/-- `Deserialize`. -/
def deserialize (message : Str) : Eval Message := do
  let doc ← parseString message false
  let name := doc.root.name
  if name = "Request".toList then .request <$> parseRequest doc.root
  else if name = "Response".toList then .response <$> parseResponse doc.root
  else if name = "Hello".toList then .hello <$> parseHello doc.root
  else if name = "Offer".toList then .offer <$> parseOffer doc.root
  else throwExn (.invalidArgument ("Deserialize(): Unknown message type: ".toList ++ name))

/-! ## 3. The documents written -/

/-- A child with a content. -/
def leaf (name content : Str) : Element := .mk name content KeySet.empty []

theorem leaf_eq (name content : Str) :
    (Element.new name).setContent content = .ok (leaf name content) := rfl

theorem addValues_eq : ∀ (values : List UInt32) (name : Str) (attrs : Attrs) (children : List Element),
    addValues values (.mk name [] attrs children) =
      .ok (.mk name [] attrs (children ++ values.map fun v => leaf "Val".toList (toString v.toNat)))
  | [], name, attrs, children => by simp [addValues]
  | v :: values, name, attrs, children => by
      have hadd : (Element.mk name [] attrs children).addChild
          (leaf "Val".toList (toString v.toNat)) =
          .ok (.mk name [] attrs (children ++ [leaf "Val".toList (toString v.toNat)])) := rfl
      unfold addValues
      rw [leaf_eq, ok_bind, hadd, ok_bind, addValues_eq values]
      simp

/-- A root with the type and the size of a cast. -/
def castRoot (name : Str) (cast : Cast) : Element :=
  ((Element.new name).addAttribute "type".toList (typeToString cast.die)).addAttribute
    "size".toList (toString cast.values.length)

/-- One more attribute, where there is a number for it. -/
def addOptional (root : Element) (key : Str) (number : Option Nat) : Element :=
  match number with
  | some n => root.addAttribute key (toString n)
  | none => root

/-- The root of a request. -/
def requestRoot (request : Request) : Element :=
  addOptional (castRoot "Request".toList request.cast) "successFrom".toList
    (request.threshold.map UInt32.toNat)

/-- The root of a response. -/
def responseRoot (response : Response) : Element :=
  let root := addOptional (castRoot "Response".toList response.cast) "successCount".toList
    (response.successCount.map UInt64.toNat)
  .mk root.name root.content root.attrs
    (response.cast.values.map fun v => leaf "Val".toList (toString v.toNat))

/-- The root of a hello. -/
def helloRoot (hello : Hello) : Element :=
  .mk "Hello".toList [] KeySet.empty [leaf "Mac".toList hello.mac]

/-- The root of an offer. -/
def offerRoot (offer : Offer) : Element :=
  .mk "Offer".toList []
    ((Element.new "Offer".toList).addAttribute "round".toList (toString offer.round.toNat)).attrs
    [leaf "Mac".toList offer.mac]

theorem serializeRequest_eq (ord : AttrOrder) (request : Request) :
    serializeRequest ord request = (requestRoot request).toText ord := by
  unfold serializeRequest requestRoot
  cases request.threshold <;> rfl

theorem serializeResponse_eq (ord : AttrOrder) (response : Response) :
    serializeResponse ord response = .ok ((responseRoot response).toText ord) := by
  unfold serializeResponse responseToXml
  simp only [newDocument, Element.new, Element.addAttribute, Element.name, Element.content,
    Element.attrs, Element.children, addValues_eq, ok_bind, List.nil_append]
  unfold responseRoot
  cases response.successCount <;> rfl

theorem serializeHello_eq (ord : AttrOrder) (hello : Hello) :
    serializeHello ord hello = .ok ((helloRoot hello).toText ord) := rfl

theorem serializeOffer_eq (ord : AttrOrder) (offer : Offer) :
    serializeOffer ord offer = .ok ((offerRoot offer).toText ord) := rfl

/-! ## 4. The interface -/

/-- `ISerializer`: what the states know of the codec. -/
structure ISerializer where
  serializeRequest : Request → Str
  serializeResponse : Response → Str
  serializeHello : Hello → Str
  serializeOffer : Offer → Str
  deserialize : Str → Eval Message

/-- `CreateXmlSerializer`: none of its `Serialize` functions ever throws. -/
def xmlSerializer (ord : AttrOrder) : ISerializer where
  serializeRequest := fun request => (requestRoot request).toText ord
  serializeResponse := fun response => (responseRoot response).toText ord
  serializeHello := fun hello => (helloRoot hello).toText ord
  serializeOffer := fun offer => (offerRoot offer).toText ord
  deserialize := deserialize

/-- **The interface carries the texts the four functions write.** -/
theorem serialize_eq (ord : AttrOrder) :
    (∀ r, serializeRequest ord r = (xmlSerializer ord).serializeRequest r) ∧
    (∀ r, serializeResponse ord r = .ok ((xmlSerializer ord).serializeResponse r)) ∧
    (∀ h, serializeHello ord h = .ok ((xmlSerializer ord).serializeHello h)) ∧
    (∀ o, serializeOffer ord o = .ok ((xmlSerializer ord).serializeOffer o)) :=
  ⟨serializeRequest_eq ord, serializeResponse_eq ord, serializeHello_eq ord, serializeOffer_eq ord⟩

end Veridie.Dice
