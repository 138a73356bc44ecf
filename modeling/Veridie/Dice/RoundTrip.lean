/-
  File:      Veridie/Dice/RoundTrip.lean
  Subject:   What `Deserialize` makes of what `Serialize` wrote.

  * `deserialize_root` -- reading a printed clean root back is parsing that root: no attribute, no
    content and no child has changed;
  * `deserialize_request`, `deserialize_response`, `deserialize_hello` -- the round trips;
  * `deserialize_offer`, `deserialize_offer_overflow` -- the round trip of an offer, and its limit:
    the round is read through a signed `int`.
-/
import Veridie.Dice.Serializer
import Veridie.Xml.RoundTrip

namespace Veridie.Dice

open Veridie.Lib Veridie.Xml

/-! ## 1. Clean attributes -/

/-- An attribute value that survives printing. -/
def CleanValue (value : Str) : Prop := '"' ∉ value ∧ Unmarked value

/-- Every attribute survives printing. -/
def AttrsClean (attrs : Attrs) : Prop :=
  ∀ a ∈ attrs.elems, CleanAttr a ∧ Unmarked a.1 ∧ Unmarked a.2

/-- The keys the serializer uses. -/
def CleanKey (key : Str) : Prop := (∃ k ks, key = k :: ks ∧ isAlpha k = true) ∧ '=' ∉ key ∧ Unmarked key

theorem attrsClean_empty : AttrsClean KeySet.empty := fun _ ha => absurd ha List.not_mem_nil

theorem elems_addAttribute (e : Element) (name value : Str) :
    (e.addAttribute name value).attrs.elems = (name, value) :: (e.attrs.erase name).elems :=
  KeySet.elems_insert_of_notMem fun hk => (KeySet.mem_keys_erase.mp hk).2 rfl

theorem mem_addAttribute {e : Element} {name value : Str} {a : Str × Str}
    (h : a ∈ (e.addAttribute name value).attrs.elems) : a = (name, value) ∨ a ∈ e.attrs.elems := by
  rw [elems_addAttribute] at h
  rcases List.mem_cons.mp h with h | h
  · exact Or.inl h
  · exact Or.inr (KeySet.mem_elems_erase.mp h).1

theorem AttrsClean.add {e : Element} {name value : Str} (h : AttrsClean e.attrs)
    (hk : CleanKey name) (hv : CleanValue value) :
    AttrsClean (e.addAttribute name value).attrs := by
  intro a ha
  rcases mem_addAttribute ha with rfl | ha
  · exact ⟨⟨hk.1, hk.2.1, hv.1⟩, hk.2.2, hv.2⟩
  · exact h a ha

theorem find?_addAttribute (e : Element) (name value key : Str) :
    (e.addAttribute name value).attrs.find? key =
      if key = name then some (name, value) else e.attrs.find? key := by
  have helems := elems_addAttribute e name value
  by_cases hkey : key = name
  · rw [if_pos hkey, KeySet.find?_some, helems]
    exact ⟨List.mem_cons_self, hkey.symm⟩
  · rw [if_neg hkey]
    apply Option.ext
    intro a
    rw [KeySet.find?_some, KeySet.find?_some, helems, List.mem_cons, KeySet.mem_elems_erase]
    constructor
    · rintro ⟨rfl | ⟨ha, _⟩, hk⟩
      · exact absurd hk.symm hkey
      · exact ⟨ha, hk⟩
    · rintro ⟨ha, hk⟩
      exact ⟨Or.inr ⟨ha, fun e => hkey (hk.symm.trans e)⟩, hk⟩

theorem digit_ne {c d : Char} (h : c.isDigit = true) (hd : d.isDigit = false) : c ≠ d := by
  rintro rfl
  rw [h] at hd
  exact absurd hd (by decide)

theorem unmarked_toString (n : Nat) : Unmarked (toString n) := fun _ hc =>
  ⟨digit_ne (isDigit_toString hc) (by decide), digit_ne (isDigit_toString hc) (by decide),
    digit_ne (isDigit_toString hc) (by decide)⟩

theorem cleanValue_toString (n : Nat) : CleanValue (toString n) :=
  ⟨fun h => digit_ne (isDigit_toString h) (by decide) rfl, unmarked_toString n⟩

theorem cleanValue_typeToString (die : Die) : CleanValue (typeToString die) := by
  cases die <;> exact ⟨by decide, unmarked_of_notMem (by decide) (by decide) (by decide)⟩

theorem cleanKey_type : CleanKey "type".toList :=
  ⟨⟨'t', _, rfl, by decide⟩, by decide, unmarked_of_notMem (by decide) (by decide) (by decide)⟩

theorem cleanKey_size : CleanKey "size".toList :=
  ⟨⟨'s', _, rfl, by decide⟩, by decide, unmarked_of_notMem (by decide) (by decide) (by decide)⟩

theorem cleanKey_successFrom : CleanKey "successFrom".toList :=
  ⟨⟨'s', _, rfl, by decide⟩, by decide, unmarked_of_notMem (by decide) (by decide) (by decide)⟩

theorem cleanKey_successCount : CleanKey "successCount".toList :=
  ⟨⟨'s', _, rfl, by decide⟩, by decide, unmarked_of_notMem (by decide) (by decide) (by decide)⟩

theorem cleanKey_round : CleanKey "round".toList :=
  ⟨⟨'r', _, rfl, by decide⟩, by decide, unmarked_of_notMem (by decide) (by decide) (by decide)⟩

/-! ## 2. Clean roots -/

/-- The names the serializer uses. -/
structure MessageName (name : Str) : Prop where
  ne_nil : name ≠ []
  head : name.head? ≠ some '!' ∧ name.head? ≠ some '?'
  ends : CleanName name
  unmarked : Unmarked name

theorem messageName {name : Str} (h : name ∈ ["Request".toList, "Response".toList, "Hello".toList,
    "Offer".toList, "Val".toList, "Mac".toList]) : MessageName name := by
  simp only [List.mem_cons, List.not_mem_nil, or_false] at h
  rcases h with rfl | rfl | rfl | rfl | rfl | rfl <;>
    exact ⟨by decide, by decide, by decide,
      unmarked_of_notMem (by decide) (by decide) (by decide)⟩

theorem MessageName.cleanTag {name : Str} {attrs : Attrs} (h : MessageName name)
    (ha : AttrsClean attrs) : CleanTag name attrs.elems :=
  ⟨h.ne_nil, h.head.1, h.ends, h.unmarked, ha⟩

theorem childrenClean_iff {cs : List Element} : ChildrenClean cs ↔ ∀ c ∈ cs, c.Clean := by
  induction cs with
  | nil => simp [ChildrenClean]
  | cons c cs ih => rw [ChildrenClean, ih, List.forall_mem_cons]

theorem leaf_clean {name content : Str} (hn : MessageName name) (hc : CleanContent content) :
    (leaf name content).Clean := ⟨hn.cleanTag attrsClean_empty, hc, True.intro⟩

/-- A root without a content of its own. -/
theorem root_clean {name : Str} {attrs : Attrs} {children : List Element} (hn : MessageName name)
    (ha : AttrsClean attrs) (hcs : ∀ c ∈ children, c.Clean) :
    (Element.mk name [] attrs children).Clean :=
  ⟨hn.cleanTag ha, ⟨List.not_mem_nil, Or.inl rfl⟩, childrenClean_iff.mpr hcs⟩

theorem clean_of_parts {e : Element} {name : Str} (hname : e.name = name) (hcontent : e.content = [])
    (hn : MessageName name) (ha : AttrsClean e.attrs) (hcs : ∀ c ∈ e.children, c.Clean) :
    e.Clean := by
  obtain ⟨_, _, attrs, children⟩ := e
  cases hname
  cases hcontent
  exact root_clean hn ha hcs

/-! ## 3. What is read back of a root -/

theorem readChildren_eq (ord : AttrOrder) (replaceEr : Bool) (cs : List Element) :
    readChildren ord replaceEr cs = cs.map fun c => c.readBack ord replaceEr := by
  induction cs with
  | nil => rfl
  | cons c cs ih => rw [readChildren, ih, List.map_cons]

@[simp] theorem readBack_name (ord : AttrOrder) (e : Element) :
    (e.readBack ord false).name = e.name := by
  cases e
  rfl

theorem readBack_getAttributeValue (ord : AttrOrder) (e : Element) (key : Str) :
    (e.readBack ord false).getAttributeValue key = e.getAttributeValue key := by
  cases e
  unfold Element.getAttributeValue
  rw [show ((Element.mk _ _ _ _).readBack ord false).attrs = readAttrs _ from rfl,
    find?_readAttrs]
  rfl

theorem readBack_children (ord : AttrOrder) (e : Element) :
    (e.readBack ord false).children = e.children.map fun c => c.readBack ord false := by
  cases e
  exact readChildren_eq ord false _

theorem readBack_leaf_content (ord : AttrOrder) (name : Str) {content : Str} (h : Plain content) :
    ((leaf name content).readBack ord false).content = content := insertEntityRef_plain h

/-- The parse functions by the name of the root. -/
def parseRoot (root : Element) : Eval Message :=
  if root.name = "Request".toList then .request <$> parseRequest root
  else if root.name = "Response".toList then .response <$> parseResponse root
  else if root.name = "Hello".toList then .hello <$> parseHello root
  else if root.name = "Offer".toList then .offer <$> parseOffer root
  else throwExn (.invalidArgument ("Deserialize(): Unknown message type: ".toList ++ root.name))

/-- **Reading a printed root is parsing what is read back of it.** -/
theorem deserialize_root (ord : AttrOrder) {root : Element} (h : root.Clean)
    (hhead : root.name.head? ≠ some '?') :
    deserialize (root.toText ord) = parseRoot (root.readBack ord false) := by
  unfold deserialize
  rw [parseString_toText ord false h hhead, ok_bind]
  rfl

/-! ## 4. Requests -/

theorem toUInt32_ofNat (v : UInt32) : (UInt64.ofNat v.toNat).toUInt32 = v := by
  apply UInt32.toNat_inj.mp
  rw [UInt64.toNat_toUInt32, UInt64.toNat_ofNat_of_lt']
  · exact Nat.mod_eq_of_lt v.toNat_lt
  · show _ < 2 ^ 64
    have := v.toNat_lt
    omega

theorem stoul_toString_uint32 (v : UInt32) : stoul (toString v.toNat) = .ok (UInt64.ofNat v.toNat) :=
  stoul_toString (by have := v.toNat_lt; omega)

theorem size_lt (cast : Cast) : cast.values.length < 2 ^ 64 := by
  have h1 := cast.size_le
  have h2 : maxSize < 2 ^ 64 := by decide
  omega

theorem toNat_size (cast : Cast) : (UInt64.ofNat cast.values.length).toNat = cast.values.length :=
  UInt64.toNat_ofNat_of_lt' (size_lt cast)

theorem getAttributeValue_some {e : Element} {key value : Str}
    (h : e.attrs.find? key = some (key, value)) : e.getAttributeValue key = .ok value := by
  unfold Element.getAttributeValue
  rw [h]

theorem getAttributeValue_none {e : Element} {key : Str} (h : e.attrs.find? key = none) :
    e.getAttributeValue key =
      throwExn (.xml ("Attribute ".toList ++ key ++ " not found".toList)) := by
  unfold Element.getAttributeValue
  rw [h]

theorem castRoot_clean {name key : Str} {number : Option Nat} (cast : Cast) (hk : CleanKey key) :
    AttrsClean (addOptional (castRoot name cast) key number).attrs := by
  have ha : AttrsClean (castRoot name cast).attrs :=
    (attrsClean_empty.add (e := Element.new name) cleanKey_type
      (cleanValue_typeToString _)).add cleanKey_size (cleanValue_toString _)
  cases number with
  | none => exact ha
  | some n => exact ha.add hk (cleanValue_toString n)

/-- The attributes of a message with a cast. -/
theorem castRoot_attrs (name key : Str) (number : Option Nat) (cast : Cast)
    (hk : key ≠ "type".toList ∧ key ≠ "size".toList) (hn : ∀ n ∈ number, n < 2 ^ 64) :
    (addOptional (castRoot name cast) key number).getAttributeValue "type".toList =
      .ok (typeToString cast.die) ∧
    (addOptional (castRoot name cast) key number).getAttributeValue "size".toList =
      .ok (toString cast.values.length) ∧
    catchXml ((addOptional (castRoot name cast) key number).getAttributeValue key >>= stoul) =
      .ok (number.map UInt64.ofNat) := by
  have htype : (castRoot name cast).attrs.find? "type".toList =
      some ("type".toList, typeToString cast.die) := by
    rw [castRoot, find?_addAttribute, if_neg (by decide), find?_addAttribute, if_pos rfl]
  have hsize : (castRoot name cast).attrs.find? "size".toList =
      some ("size".toList, toString cast.values.length) := by
    rw [castRoot, find?_addAttribute, if_pos rfl]
  have hkey : (castRoot name cast).attrs.find? key = none := by
    rw [castRoot, find?_addAttribute, if_neg hk.2, find?_addAttribute, if_neg hk.1]
    rfl
  cases number with
  | none =>
    refine ⟨getAttributeValue_some htype, getAttributeValue_some hsize, ?_⟩
    rw [addOptional, getAttributeValue_none hkey]
    rfl
  | some n =>
    refine ⟨getAttributeValue_some ?_, getAttributeValue_some ?_, ?_⟩
    · rw [addOptional, find?_addAttribute, if_neg hk.1.symm, htype]
    · rw [addOptional, find?_addAttribute, if_neg hk.2.symm, hsize]
    · rw [addOptional, getAttributeValue_some (by rw [find?_addAttribute, if_pos rfl]), ok_bind,
        stoul_toString (hn n rfl)]
      rfl

/-- **A request with unrolled dice is read back as it was.** -/
theorem deserialize_request (ord : AttrOrder) (request : Request) (h : request.cast.Unrolled) :
    deserialize (serializeRequest ord request) = .ok (.request request) := by
  obtain ⟨htype, hsize, hfrom⟩ := castRoot_attrs "Request".toList
    "successFrom".toList (request.threshold.map UInt32.toNat) request.cast
    (by decide) (by
      intro n h
      obtain ⟨v, _, rfl⟩ := Option.mem_map.mp h
      have := v.toNat_lt
      omega)
  have hname : (requestRoot request).name = "Request".toList := by
    unfold requestRoot
    cases request.threshold <;> rfl
  have hchildren : (requestRoot request).content = [] ∧ (requestRoot request).children = [] := by
    unfold requestRoot
    cases request.threshold <;> exact ⟨rfl, rfl⟩
  have hclean : (requestRoot request).Clean :=
    clean_of_parts hname hchildren.1 (messageName (by decide))
      (castRoot_clean request.cast cleanKey_successFrom)
      fun c hc => absurd (hchildren.2 ▸ hc) List.not_mem_nil
  rw [serializeRequest_eq, deserialize_root ord hclean (by rw [hname]; decide)]
  unfold parseRoot
  rw [readBack_name, hname, if_pos rfl]
  unfold parseRequest requestRoot
  rw [readBack_getAttributeValue, readBack_getAttributeValue, readBack_getAttributeValue, htype,
    ok_bind, hsize, ok_bind, stoul_toString (size_lt _), ok_bind, hfrom, ok_bind, toNat_size,
    makeCast_typeToString, newDice_unrolled h, ok_bind, Option.map_map, Option.map_map,
    show (UInt64.toUInt32 ∘ UInt64.ofNat) ∘ UInt32.toNat = id from funext toUInt32_ofNat,
    Option.map_id]
  rfl

/-! ## 5. Responses -/

theorem cleanContent_toString (n : Nat) : CleanContent (toString n) := by
  refine ⟨fun h => digit_ne (isDigit_toString h) (by decide) rfl, Or.inr ?_⟩
  obtain ⟨c, hc⟩ := List.exists_mem_of_ne_nil _ (toString_ne_nil n)
  exact ⟨c, hc, digit_not_space (isDigit_toString hc)⟩

theorem plain_toString (n : Nat) : Plain (toString n) := fun _ hc =>
  have h := isDigit_toString hc
  ⟨digit_ne h (by decide), digit_ne h (by decide), digit_ne h (by decide), digit_ne h (by decide),
    digit_ne h (by decide)⟩

/-- The loop reads every value of a root whose children hold their numerals. -/
theorem readValues_eq {root : Element} : ∀ {values : List UInt32} (done : List UInt32),
    root.children.map Element.content = (done ++ values).map (fun v => toString v.toNat) →
    readValues root values.length done.length = .ok values
  | [], _, _ => rfl
  | v :: values, done, h => by
      have hlen : done.length < root.children.length := by
        have := congrArg List.length h
        simp only [List.length_map, List.length_append, List.length_cons] at this
        omega
      have hget : (root.children[done.length]).content = toString v.toNat := by
        have h1 := congrArg (fun l => l[done.length]?) h
        simp only [List.getElem?_map, List.getElem?_eq_getElem hlen] at h1
        simpa using h1
      have hchild : root.getChildAt done.length = .ok root.children[done.length] := by
        unfold Element.getChildAt
        rw [List.getElem?_eq_getElem hlen]
      have ih : readValues root values.length (done ++ [v]).length = .ok values :=
        readValues_eq (done ++ [v]) (by rw [h]; simp)
      rw [List.length_append, List.length_singleton] at ih
      rw [List.length_cons, readValues, hchild, ok_bind, hget, stoul_toString_uint32, ok_bind, ih,
        ok_bind, toUInt32_ofNat]

theorem fillValues_eq {values : List UInt32} {cast : Cast} {die : Die}
    (hd : cast.die = die) (hlen : cast.values.length = values.length)
    (hsize : values.length ≤ maxSize) : fillValues values cast = ⟨die, values, hsize⟩ := by
  refine Cast.ext_values hd (List.ext_getElem ?_ fun i h1 h2 => ?_)
  · simpa [fillValues] using hlen
  · simp [fillValues, List.getElem?_eq_getElem h2]

/-- **A response is read back as it was.** -/
theorem deserialize_response (ord : AttrOrder) (response : Response) :
    (serializeResponse ord response >>= deserialize) = .ok (.response response) := by
  obtain ⟨htype, hsize, hcount⟩ := castRoot_attrs "Response".toList
    "successCount".toList (response.successCount.map UInt64.toNat) response.cast
    (by decide) (by
      intro n h
      obtain ⟨v, _, rfl⟩ := Option.mem_map.mp h
      exact v.toNat_lt)
  have hname : (responseRoot response).name = "Response".toList := by
    unfold responseRoot
    cases response.successCount <;> rfl
  have hcontent : (responseRoot response).content = [] := by
    unfold responseRoot
    cases response.successCount <;> rfl
  have hclean : (responseRoot response).Clean := by
    refine clean_of_parts hname hcontent (messageName (by decide))
      (castRoot_clean response.cast cleanKey_successCount) fun c hc => ?_
    have hc : c ∈ response.cast.values.map fun v => leaf "Val".toList (toString v.toNat) := hc
    obtain ⟨v, _, rfl⟩ := List.mem_map.mp hc
    exact leaf_clean (messageName (by decide)) (cleanContent_toString v.toNat)
  have hchildren : ((responseRoot response).readBack ord false).children.map Element.content =
      ([] ++ response.cast.values).map (fun v : UInt32 => toString v.toNat) := by
    rw [readBack_children, List.map_map, responseRoot, Element.children, List.map_map,
      List.nil_append]
    exact List.map_congr_left fun (v : UInt32) _ =>
      readBack_leaf_content ord "Val".toList (plain_toString v.toNat)
  obtain ⟨cast, hcast, hdie, hlen⟩ : ∃ cast, newDice response.cast.die response.cast.values.length =
      .ok cast ∧ cast.die = response.cast.die ∧
      cast.values.length = response.cast.values.length := by
    unfold newDice
    rw [dif_pos response.cast.size_le]
    exact ⟨_, rfl, rfl, List.length_replicate⟩
  rw [serializeResponse_eq, ok_bind, deserialize_root ord hclean (by rw [hname]; decide)]
  unfold parseRoot
  rw [readBack_name, hname, if_neg (by decide), if_pos rfl]
  unfold parseResponse
  rw [readBack_getAttributeValue, readBack_getAttributeValue, readBack_getAttributeValue,
    show (responseRoot response).getAttributeValue "type".toList = _ from htype,
    show (responseRoot response).getAttributeValue "size".toList = _ from hsize,
    show catchXml ((responseRoot response).getAttributeValue "successCount".toList >>= stoul) = _
      from hcount,
    ok_bind, ok_bind, stoul_toString (size_lt _), ok_bind, toNat_size,
    makeCast_typeToString, hcast, ok_bind,
    show readValues _ response.cast.values.length 0 = _ from readValues_eq [] hchildren,
    ok_bind, ok_bind, fillValues_eq hdie hlen response.cast.size_le, Option.map_map,
    show UInt64.ofNat ∘ UInt64.toNat = id from funext fun _ => UInt64.ofNat_toNat, Option.map_id]
  rfl

/-! ## 6. Hello and offer -/

/-- A MAC text that survives printing: no NUL, no special character, and not whitespace only. -/
structure MacText (mac : Str) : Prop where
  plain : Plain mac
  clean : CleanContent mac

theorem macLeaf_clean {mac : Str} (h : MacText mac) :
    ∀ c ∈ [leaf "Mac".toList mac], c.Clean := by
  intro c hc
  rw [List.mem_singleton.mp hc]
  exact leaf_clean (messageName (by decide)) h.clean

theorem getChild_mac (ord : AttrOrder) (root : Element) {mac : Str} (h : MacText mac)
    (hc : root.children = [leaf "Mac".toList mac]) :
    ∃ child, (root.readBack ord false).getChild "Mac".toList = .ok child ∧ child.content = mac := by
  refine ⟨(leaf "Mac".toList mac).readBack ord false, ?_, readBack_leaf_content ord _ h.plain⟩
  unfold Element.getChild
  rw [readBack_children, hc]
  rfl

/-- **A hello is read back as it was.** -/
theorem deserialize_hello (ord : AttrOrder) {mac : Str} (h : MacText mac) :
    (serializeHello ord ⟨mac⟩ >>= deserialize) = .ok (.hello ⟨mac⟩) := by
  have hclean : (helloRoot ⟨mac⟩).Clean :=
    root_clean (messageName (by decide)) attrsClean_empty (macLeaf_clean h)
  obtain ⟨child, hchild, hmac⟩ := getChild_mac ord (helloRoot ⟨mac⟩) h rfl
  rw [serializeHello_eq, ok_bind, deserialize_root ord hclean
    (show ("Hello".toList).head? ≠ some '?' by decide)]
  unfold parseRoot
  rw [readBack_name, show (helloRoot ⟨mac⟩).name = "Hello".toList from rfl, if_neg (by decide),
    if_neg (by decide), if_pos rfl]
  unfold parseHello
  rw [hchild, ok_bind, hmac]
  rfl

/-- What reading a printed offer comes down to: the number its round is read as. -/
theorem deserialize_offer_eq (ord : AttrOrder) {mac : Str} (h : MacText mac) (round : UInt32) :
    (serializeOffer ord ⟨mac, round⟩ >>= deserialize) = (do
      let n ← stoi (toString round.toNat)
      .ok (.offer ⟨mac, UInt32.ofNat (n % 2 ^ 32).toNat⟩)) := by
  have hclean : (offerRoot ⟨mac, round⟩).Clean :=
    root_clean (messageName (by decide))
      (attrsClean_empty.add (e := Element.new "Offer".toList) cleanKey_round
        (cleanValue_toString _)) (macLeaf_clean h)
  obtain ⟨child, hchild, hmac⟩ := getChild_mac ord (offerRoot ⟨mac, round⟩) h rfl
  have hround : (offerRoot ⟨mac, round⟩).getAttributeValue "round".toList =
      .ok (toString round.toNat) := by
    refine getAttributeValue_some ?_
    show (Element.addAttribute _ _ _).attrs.find? _ = _
    rw [find?_addAttribute, if_pos rfl]
  rw [serializeOffer_eq, ok_bind, deserialize_root ord hclean
    (show ("Offer".toList).head? ≠ some '?' by decide)]
  unfold parseRoot
  rw [readBack_name, show (offerRoot ⟨mac, round⟩).name = "Offer".toList from rfl,
    if_neg (by decide), if_neg (by decide), if_neg (by decide), if_pos rfl]
  unfold parseOffer
  rw [hchild, ok_bind, readBack_getAttributeValue, hround, ok_bind, hmac]
  cases stoi (toString round.toNat) <;> rfl

/-- An offer is read back as it was while its round fits a signed `int`. -/
theorem deserialize_offer (ord : AttrOrder) {mac : Str} (h : MacText mac) {round : UInt32}
    (hr : round.toNat < 2 ^ 31) :
    (serializeOffer ord ⟨mac, round⟩ >>= deserialize) = .ok (.offer ⟨mac, round⟩) := by
  have hmod : ((round.toNat : Int) % 2 ^ 32).toNat = round.toNat := by omega
  rw [deserialize_offer_eq ord h, stoi_toString hr, ok_bind, hmod, UInt32.ofNat_toNat]

/-- Beyond that the decoder throws. -/
theorem deserialize_offer_overflow (ord : AttrOrder) {mac : Str} (h : MacText mac) {round : UInt32}
    (hr : 2 ^ 31 ≤ round.toNat) :
    (serializeOffer ord ⟨mac, round⟩ >>= deserialize) = throwExn (.outOfRange "stoi".toList) := by
  rw [deserialize_offer_eq ord h, stoi_toString_overflow hr]
  rfl

/-- The same through the interface the states use. -/
theorem xmlSerializer_hello (ord : AttrOrder) {mac : Str} (h : MacText mac) :
    (xmlSerializer ord).deserialize ((xmlSerializer ord).serializeHello ⟨mac⟩) =
      .ok (.hello ⟨mac⟩) := deserialize_hello ord h

theorem xmlSerializer_offer (ord : AttrOrder) {mac : Str} (h : MacText mac) {round : UInt32}
    (hr : round.toNat < 2 ^ 31) :
    (xmlSerializer ord).deserialize ((xmlSerializer ord).serializeOffer ⟨mac, round⟩) =
      .ok (.offer ⟨mac, round⟩) := deserialize_offer ord h hr

/-- Of a request only the kind, the number and the threshold are written: whatever its dice were, it
    is read back with none of them rolled. -/
theorem xmlSerializer_request (ord : AttrOrder) (request : Request) :
    ∃ unrolled, (xmlSerializer ord).deserialize ((xmlSerializer ord).serializeRequest request) =
      .ok (.request unrolled) := by
  have hlength := List.length_replicate (n := request.cast.values.length) (a := (0 : UInt32))
  let unrolled : Request := ⟨⟨request.cast.die, List.replicate request.cast.values.length 0, by
    rw [hlength]
    exact request.cast.size_le⟩, request.threshold⟩
  have hroot : requestRoot request = requestRoot unrolled := by
    unfold requestRoot castRoot
    rw [hlength]
  have hread := deserialize_request ord unrolled (by unfold Cast.Unrolled; rw [hlength])
  rw [serializeRequest_eq, ← hroot] at hread
  exact ⟨unrolled, hread⟩

theorem xmlSerializer_response (ord : AttrOrder) (response : Response) :
    (xmlSerializer ord).deserialize ((xmlSerializer ord).serializeResponse response) =
      .ok (.response response) := by
  have hread := deserialize_response ord response
  rw [serializeResponse_eq, ok_bind] at hread
  exact hread

/-! ## 7. Main results -/

/-- **The codec of requests and responses.** Both are read back as they were, and the answer the
    generator computes from the decoded request matches the pending request once decoded. -/
theorem request_response_roundTrip (ord ord' : AttrOrder) :
    (∀ request : Request, request.cast.Unrolled →
      deserialize (serializeRequest ord request) = .ok (.request request)) ∧
    (∀ response : Response,
      (serializeResponse ord response >>= deserialize) = .ok (.response response)) ∧
    (∀ (request : Request) (roll : Roll), request.cast.Unrolled →
      ∃ decoded answer, deserialize (serializeRequest ord request) = .ok (.request decoded) ∧
        (serializeResponse ord' (generateResponse roll decoded) >>= deserialize) =
          .ok (.response answer) ∧ matchesRequest answer (some request) = true) := by
  refine ⟨deserialize_request ord, deserialize_response ord, fun request roll h => ?_⟩
  refine ⟨request, generateResponse roll request, deserialize_request ord request h,
    deserialize_response ord' _, ?_⟩
  exact matchesRequest_generateResponse roll rfl rfl rfl

/-- Attributes walked in the order they were last inserted. -/
def walkAsIs : AttrOrder := ⟨id, fun l => List.Perm.refl l⟩

/-- Two four-sided dice, successes from three. -/
theorem request_response_roundTrip_d4 :
    ∃ decoded answer, deserialize (serializeRequest walkAsIs ⟨⟨.d4, [0, 0], by decide⟩, some 3⟩) =
        .ok (.request decoded) ∧
      (serializeResponse walkAsIs (generateResponse id decoded) >>= deserialize) =
        .ok (.response answer) ∧
      matchesRequest answer (some ⟨⟨.d4, [0, 0], by decide⟩, some 3⟩) = true :=
  (request_response_roundTrip walkAsIs walkAsIs).2.2 ⟨⟨.d4, [0, 0], by decide⟩, some 3⟩ id rfl

/-- **The codec of hellos and offers.** Both are read back as they were exactly when the round fits
    a signed `int`. -/
theorem hello_offer_roundTrip_iff (ord : AttrOrder) {mac : Str} (h : MacText mac)
    (round : UInt32) :
    ((serializeHello ord ⟨mac⟩ >>= deserialize) = .ok (.hello ⟨mac⟩) ∧
      (serializeOffer ord ⟨mac, round⟩ >>= deserialize) = .ok (.offer ⟨mac, round⟩)) ↔
    round.toNat < 2 ^ 31 := by
  constructor
  · rintro ⟨_, ho⟩
    refine Nat.lt_of_not_le fun hle => ?_
    rw [deserialize_offer_overflow ord h hle] at ho
    cases ho
  · exact fun hr => ⟨deserialize_hello ord h, deserialize_offer ord h hr⟩

theorem macText_a : MacText "A".toList :=
  ⟨by decide, by decide, Or.inr ⟨'A', by decide, by decide⟩⟩

theorem hello_offer_roundTrip_three :
    (serializeOffer walkAsIs ⟨"A".toList, 3⟩ >>= deserialize) = .ok (.offer ⟨"A".toList, 3⟩) :=
  ((hello_offer_roundTrip_iff walkAsIs macText_a 3).mpr (by decide)).2

/-- A round that only fits an unsigned number is not understood. -/
theorem hello_offer_roundTrip_fails : ¬ (∀ (ord : AttrOrder) (mac : Str) (round : UInt32),
    MacText mac → (serializeHello ord ⟨mac⟩ >>= deserialize) = .ok (.hello ⟨mac⟩) ∧
      (serializeOffer ord ⟨mac, round⟩ >>= deserialize) = .ok (.offer ⟨mac, round⟩)) := by
  intro h
  have ho := (h walkAsIs "A".toList 2147483648 macText_a).2
  rw [deserialize_offer_overflow walkAsIs macText_a (by decide)] at ho
  cases ho

end Veridie.Dice
