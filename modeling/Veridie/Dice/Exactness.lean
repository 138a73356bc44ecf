/-
  File:      Veridie/Dice/Exactness.lean
  Subject:   Whether the numbers of a message are those that its texts denote.

  `std::stoul` and `std::stoi` skip white space, take a sign and stop behind the last digit; a
  negative number is wrapped around, and what is too large for its field is cut off.

  * `denoted` -- the number of a text that is a decimal numeral from end to end;
  * `Unaltered` -- each number of a message is the one its text denotes;
  * `numberTexts` -- the texts read as numbers, each with the bits of its field;
  * `numbers_unaltered_iff` -- the numbers are unaltered exactly when these texts are digits only,
    and not too large.
-/
import Veridie.Dice.RoundTrip

namespace Veridie.Dice

open Veridie.Lib Veridie.Xml

/-! ## 1. Texts and numbers -/

/-- The value of a text of digits. -/
def digitsValue (text : Str) : Nat := Nat.ofDigitChars 10 text 0

/-- The number a text denotes as a whole. -/
def denoted (text : Str) : Option Nat :=
  if text ≠ [] ∧ ∀ c ∈ text, c.isDigit = true then some (digitsValue text) else none

/-- A field of so many bits holds what the text denotes; without a text there is no number. -/
def Reads (bits : Nat) (text : Option Str) (value : Option Nat) : Prop :=
  match text with
  | some text => ∃ n, denoted text = some n ∧ n < 2 ^ bits ∧ value = some n
  | none => value = none

/-- Digits from the first character to the last, and not too large for the field. -/
def FitsField (bits : Nat) (text : Str) : Prop :=
  (∀ c ∈ text, c.isDigit = true) ∧ digitsValue text < 2 ^ bits

/-- A text that is read as what its digits say, if it is digits only. -/
theorem reads_iff {bits value : Nat} {text : Str} (hne : text ≠ [])
    (h : FitsField bits text → value = digitsValue text) :
    Reads bits (some text) (some value) ↔ FitsField bits text := by
  show (∃ n, denoted text = some n ∧ n < 2 ^ bits ∧ some value = some n) ↔ _
  unfold denoted
  constructor
  · rintro ⟨n, hn, hlt, _⟩
    split at hn
    · rename_i hdigits
      cases hn
      exact ⟨hdigits.2, hlt⟩
    · exact nomatch hn
  · intro hfits
    rw [if_pos ⟨hne, hfits.1⟩]
    exact ⟨_, rfl, hfits.2, congrArg some (h hfits)⟩

/-- What `stoul` reads is not empty. -/
theorem stoul_ne_nil {text : Str} {v : UInt64} (h : stoul text = .ok v) : text ≠ [] := by
  rintro rfl
  exact nomatch h

/-- What `stoul` throws is no exception of the parser. -/
theorem stoul_cases (text : Str) : (∃ v, stoul text = .ok v) ∨
    stoul text = throwExn (.invalidArgument "stoul".toList) ∨
    stoul text = throwExn (.outOfRange "stoul".toList) := by
  unfold stoul
  dsimp only
  split
  · exact Or.inr (Or.inl rfl)
  · split
    · exact Or.inr (Or.inr rfl)
    · exact Or.inl ⟨_, rfl⟩

theorem stoul_digits {text : Str} {v : UInt64} (h : stoul text = .ok v)
    (hdigits : ∀ c ∈ text, c.isDigit = true) : v.toNat = digitsValue text := by
  have hscan := scanNumeral_digits (stoul_ne_nil h) hdigits
  unfold stoul at h
  rw [hscan] at h
  dsimp only at h
  split at h
  · exact nomatch h
  · split at h
    · exact nomatch h
    · rename_i hlt
      rw [if_neg Bool.false_ne_true] at h
      cases h
      exact UInt64.toNat_ofNat_of_lt' (Nat.not_le.mp hlt)

/-- A number of 64 bits. -/
theorem reads_stoul {text : Str} {v : UInt64} (h : stoul text = .ok v) :
    Reads 64 (some text) (some v.toNat) ↔ FitsField 64 text :=
  reads_iff (stoul_ne_nil h) fun hfits => stoul_digits h hfits.1

/-- A number that is cut off behind 32 bits. -/
theorem reads_stoul_uint32 {text : Str} {v : UInt64} (h : stoul text = .ok v) :
    Reads 32 (some text) (some v.toUInt32.toNat) ↔ FitsField 32 text :=
  reads_iff (stoul_ne_nil h) fun hfits => by
    rw [UInt64.toNat_toUInt32, stoul_digits h hfits.1]
    exact Nat.mod_eq_of_lt hfits.2

/-- A number that goes through a signed `int`. -/
theorem reads_stoi {text : Str} {k : Int} (h : stoi text = .ok k) :
    Reads 32 (some text) (some (UInt32.ofNat (k % 2 ^ 32).toNat).toNat) ↔ FitsField 32 text := by
  have hne : text ≠ [] := by
    rintro rfl
    exact nomatch h
  refine reads_iff hne fun hfits => ?_
  have hvalue : (Numeral.mk false text).value = (digitsValue text : Int) := rfl
  unfold stoi at h
  rw [scanNumeral_digits hne hfits.1] at h
  dsimp only at h
  rw [hvalue, if_neg hne] at h
  split at h
  · exact nomatch h
  · cases h
    have hlt := hfits.2
    have hmod : ((digitsValue text : Int) % 2 ^ 32).toNat = digitsValue text := by omega
    rw [hmod]
    exact UInt32.toNat_ofNat_of_lt' hlt

/-! ## 2. The numbers of a message -/

/-- The text of an attribute. -/
def attributeText (root : Element) (key : Str) : Option Str := (root.attrs.find? key).map Prod.snd

/-- Each number of a message is the one its text under the root denotes: the size of the cast, each
    value, the threshold or the number of successes, and the round. -/
def Carries (root : Element) : Message → Prop
  | .request r =>
    Reads 64 (attributeText root "size".toList) (some r.cast.values.length) ∧
    Reads 32 (attributeText root "successFrom".toList) (r.threshold.map UInt32.toNat)
  | .response r =>
    Reads 64 (attributeText root "size".toList) (some r.cast.values.length) ∧
    (∀ i, i < r.cast.values.length →
      Reads 32 (root.children[i]?.map Element.content) (r.cast.values[i]?.map UInt32.toNat)) ∧
    Reads 64 (attributeText root "successCount".toList) (r.successCount.map UInt64.toNat)
  | .offer o => Reads 32 (attributeText root "round".toList) (some o.round.toNat)
  | .hello _ => True

/-- The numbers of a message that was read from a text are those that the text denotes. -/
def Unaltered (message : Str) (m : Message) : Prop :=
  ∃ doc, parseString message false = .ok doc ∧ Carries doc.root m

/-- An attribute that is read as a number. -/
def attributeNumber (root : Element) (key : Str) (bits : Nat) : List (Str × Nat) :=
  (attributeText root key).toList.map fun text => (text, bits)

/-- How many values of a response are read. -/
def readSize (root : Element) : Nat :=
  match root.getAttributeValue "size".toList >>= stoul with
  | .ok size => size.toNat
  | .error _ => 0

/-- The texts under a root that are read as numbers, each with the bits of its field. -/
def rootNumbers (root : Element) : List (Str × Nat) :=
  if root.name = "Request".toList then
    attributeNumber root "size".toList 64 ++ attributeNumber root "successFrom".toList 32
  else if root.name = "Response".toList then
    attributeNumber root "size".toList 64 ++
      (root.children.take (readSize root)).map (fun child => (child.content, 32)) ++
      attributeNumber root "successCount".toList 64
  else if root.name = "Offer".toList then attributeNumber root "round".toList 32
  else []

/-- The texts of a message that are read as numbers. -/
def numberTexts (message : Str) : List (Str × Nat) :=
  match parseString message false with
  | .ok doc => rootNumbers doc.root
  | .error _ => []

section Numbers

variable {root : Element} {key : Str} {bits : Nat}

theorem bind_eq_ok {α β : Type} {x : Eval α} {f : α → Eval β} {b : β} (h : (x >>= f) = .ok b) :
    ∃ a, x = .ok a ∧ f a = .ok b := by
  cases x with
  | ok a => exact ⟨a, rfl, h⟩
  | error e => exact nomatch h

theorem map_eq_ok {α β : Type} {x : Eval α} {f : α → β} {b : β} (h : (f <$> x) = .ok b) :
    ∃ a, x = .ok a ∧ f a = b := by
  cases x with
  | ok a => exact ⟨a, rfl, Except.ok.inj h⟩
  | error e => exact nomatch h

theorem getAttributeValue_ok {text : Str} (h : root.getAttributeValue key = .ok text) :
    attributeText root key = some text := by
  unfold Element.getAttributeValue at h
  unfold attributeText
  split at h
  · rename_i a ha
    cases h
    rw [ha]
    rfl
  · exact nomatch h

/-- An attribute that must be there. -/
theorem attribute_fits_iff {text : Str} (h : root.getAttributeValue key = .ok text) :
    (∀ p ∈ attributeNumber root key bits, FitsField p.2 p.1) ↔ FitsField bits text := by
  unfold attributeNumber
  rw [getAttributeValue_ok h]
  simp

/-- An attribute that may be missing, and is read inside the `try` block. -/
theorem optional_cases {value : Option UInt64}
    (h : catchXml (root.getAttributeValue key >>= stoul) = .ok value) :
    (attributeText root key = none ∧ value = none) ∨
    ∃ text v, attributeText root key = some text ∧ stoul text = .ok v ∧ value = some v := by
  unfold attributeText
  unfold Element.getAttributeValue at h
  split at h
  · rename_i a ha
    rw [ok_bind] at h
    rcases stoul_cases a.2 with ⟨v, hv⟩ | hv | hv <;> rw [hv] at h <;> cases h
    exact Or.inr ⟨a.2, v, by rw [ha]; rfl, hv, rfl⟩
  · rename_i hnone
    rw [hnone]
    cases h
    exact Or.inl ⟨rfl, rfl⟩

theorem optional_fits_iff {value : Option UInt64} (field : UInt64 → Nat)
    (hfield : ∀ {text v}, stoul text = .ok v →
      (Reads bits (some text) (some (field v)) ↔ FitsField bits text))
    (h : catchXml (root.getAttributeValue key >>= stoul) = .ok value) :
    Reads bits (attributeText root key) (value.map field) ↔
      ∀ p ∈ attributeNumber root key bits, FitsField p.2 p.1 := by
  unfold attributeNumber
  rcases optional_cases h with ⟨htext, rfl⟩ | ⟨text, v, htext, hv, rfl⟩
  · rw [htext]
    exact iff_of_true rfl fun p hp => absurd hp List.not_mem_nil
  · rw [htext]
    exact (hfield hv).trans (by simp)

theorem makeCast_length {type : Str} {size : Nat} {cast : Cast}
    (h : makeCast type size = .ok cast) : cast.values.length = size := by
  have hnew : ∀ {die : Die}, newDice die size = .ok cast → cast.values.length = size := fun hd => by
    unfold newDice at hd
    split at hd
    · cases hd
      exact List.length_replicate
    · cases hd
  unfold makeCast at h
  iterate 8 (split at h; · exact hnew h)
  cases h

/-- The size of a cast. -/
theorem size_fits_iff {text type : Str} {size : UInt64} {cast : Cast}
    (htext : root.getAttributeValue "size".toList = .ok text) (hsize : stoul text = .ok size)
    (hcast : makeCast type size.toNat = .ok cast) :
    Reads 64 (attributeText root "size".toList) (some cast.values.length) ↔
      ∀ p ∈ attributeNumber root "size".toList 64, FitsField p.2 p.1 := by
  rw [getAttributeValue_ok htext, makeCast_length hcast, reads_stoul hsize,
    attribute_fits_iff htext]

/-- The values that the loop reads. -/
theorem readValues_ok : ∀ {n i : Nat} {values : List UInt32}, readValues root n i = .ok values →
    values.length = n ∧ ∀ j, j < n → ∃ child v, root.children[i + j]? = some child ∧
      stoul child.content = .ok v ∧ values[j]? = some v.toUInt32
  | 0, i, values, h => by
      cases h
      exact ⟨rfl, fun j hj => absurd hj (Nat.not_lt_zero j)⟩
  | n + 1, i, values, h => by
      unfold readValues at h
      obtain ⟨child, hchild, h⟩ := bind_eq_ok h
      obtain ⟨v, hv, h⟩ := bind_eq_ok h
      obtain ⟨rest, hrest, h⟩ := bind_eq_ok h
      cases h
      obtain ⟨hlen, hread⟩ := readValues_ok hrest
      refine ⟨congrArg (· + 1) hlen, fun j hj => ?_⟩
      cases j with
      | zero =>
        refine ⟨child, v, ?_, hv, rfl⟩
        unfold Element.getChildAt at hchild
        split at hchild
        · rename_i c hc
          cases hchild
          exact hc
        · cases hchild
      | succ j =>
        obtain ⟨child', v', hchild', hv', hj'⟩ := hread j (Nat.lt_of_succ_lt_succ hj)
        refine ⟨child', v', ?_, hv', hj'⟩
        rw [← hchild', Nat.add_assoc, Nat.add_comm 1 j]

/-- The values of a cast. -/
theorem values_fit_iff {n : Nat} {values : List UInt32} (h : readValues root n 0 = .ok values) :
    (∀ i, i < values.length →
      Reads 32 (root.children[i]?.map Element.content) (values[i]?.map UInt32.toNat)) ↔
    ∀ p ∈ (root.children.take n).map (fun child => (child.content, 32)), FitsField p.2 p.1 := by
  obtain ⟨hlen, hread⟩ := readValues_ok h
  have hvalue : ∀ i, i < n → ∃ child, root.children[i]? = some child ∧
      (Reads 32 (root.children[i]?.map Element.content) (values[i]?.map UInt32.toNat) ↔
        FitsField 32 child.content) := fun i hi => by
    obtain ⟨child, v, hchild, hv, hi'⟩ := hread i hi
    rw [Nat.zero_add] at hchild
    refine ⟨child, hchild, ?_⟩
    rw [hchild, hi']
    exact reads_stoul_uint32 hv
  rw [hlen]
  constructor
  · intro hall p hp
    obtain ⟨child, hchild, rfl⟩ := List.mem_map.mp hp
    obtain ⟨i, hi⟩ := List.mem_iff_getElem?.mp hchild
    rw [List.getElem?_take] at hi
    split at hi
    · rename_i hlt
      obtain ⟨child', hchild', hiff⟩ := hvalue i hlt
      cases hi.symm.trans hchild'
      exact hiff.mp (hall i hlt)
    · exact nomatch hi
  · intro hall i hi
    obtain ⟨child, hchild, hiff⟩ := hvalue i hi
    refine hiff.mpr (hall (child.content, 32) (List.mem_map.mpr ⟨child, ?_, rfl⟩))
    refine List.mem_iff_getElem?.mpr ⟨i, ?_⟩
    rw [List.getElem?_take, if_pos hi, hchild]

/-! ## 3. The four messages -/

theorem parseRequest_fits_iff {request : Request} (hname : root.name = "Request".toList)
    (h : parseRequest root = .ok request) :
    Carries root (.request request) ↔ ∀ p ∈ rootNumbers root, FitsField p.2 p.1 := by
  unfold parseRequest at h
  obtain ⟨type, htype, h⟩ := bind_eq_ok h
  obtain ⟨sizeText, hsizeText, h⟩ := bind_eq_ok h
  obtain ⟨size, hsize, h⟩ := bind_eq_ok h
  obtain ⟨successFrom, hsuccess, h⟩ := bind_eq_ok h
  obtain ⟨cast, hcast, h⟩ := bind_eq_ok h
  cases h
  unfold rootNumbers
  rw [if_pos hname, List.forall_mem_append]
  show Reads 64 _ (some cast.values.length) ∧ Reads 32 _ ((successFrom.map _).map _) ↔ _
  rw [Option.map_map]
  exact and_congr (size_fits_iff hsizeText hsize hcast)
    (optional_fits_iff (fun v => v.toUInt32.toNat) reads_stoul_uint32 hsuccess)

theorem parseResponse_fits_iff {response : Response} (hname : root.name = "Response".toList)
    (h : parseResponse root = .ok response) :
    Carries root (.response response) ↔ ∀ p ∈ rootNumbers root, FitsField p.2 p.1 := by
  unfold parseResponse at h
  obtain ⟨type, htype, h⟩ := bind_eq_ok h
  obtain ⟨sizeText, hsizeText, h⟩ := bind_eq_ok h
  obtain ⟨size, hsize, h⟩ := bind_eq_ok h
  obtain ⟨cast, hcast, h⟩ := bind_eq_ok h
  obtain ⟨values, hvalues, h⟩ := bind_eq_ok h
  obtain ⟨successCount, hsuccess, h⟩ := bind_eq_ok h
  cases h
  have hreadSize : readSize root = size.toNat := by
    unfold readSize
    rw [hsizeText, ok_bind, hsize]
  have hlen := (readValues_ok hvalues).1
  have hsame := makeCast_length hcast
  have hfill : (fillValues values cast).values = values := by
    have hle : values.length ≤ maxSize := by
      rw [hlen, ← hsame]
      exact cast.size_le
    rw [@fillValues_eq values cast cast.die rfl (hsame.trans hlen.symm) hle]
  have hcastLen : values.length = cast.values.length := hlen.trans hsame.symm
  unfold rootNumbers
  rw [if_neg (by rw [hname]; decide), if_pos hname, hreadSize, List.forall_mem_append,
    List.forall_mem_append, and_assoc]
  show Reads 64 _ (some (fillValues values cast).values.length) ∧ _ ↔ _
  rw [hfill, hcastLen]
  refine and_congr (size_fits_iff hsizeText hsize hcast) (and_congr ?_ ?_)
  · rw [← hcastLen]
    exact values_fit_iff hvalues
  · exact optional_fits_iff UInt64.toNat reads_stoul hsuccess

theorem parseOffer_fits_iff {offer : Offer} (hname : root.name = "Offer".toList)
    (h : parseOffer root = .ok offer) :
    Carries root (.offer offer) ↔ ∀ p ∈ rootNumbers root, FitsField p.2 p.1 := by
  unfold parseOffer at h
  obtain ⟨mac, hmac, h⟩ := bind_eq_ok h
  obtain ⟨roundText, hroundText, h⟩ := bind_eq_ok h
  obtain ⟨round, hround, h⟩ := bind_eq_ok h
  cases h
  unfold rootNumbers
  rw [if_neg (by rw [hname]; decide), if_neg (by rw [hname]; decide), if_pos hname,
    attribute_fits_iff hroundText]
  show Reads 32 (attributeText root "round".toList) _ ↔ _
  rw [getAttributeValue_ok hroundText]
  exact reads_stoi hround

/-- **The numbers of an accepted message are unaltered** exactly when every text read as a number is
    digits only and fits its field. -/
theorem numbers_unaltered_iff {message : Str} {m : Message} (h : deserialize message = .ok m) :
    Unaltered message m ↔ ∀ p ∈ numberTexts message, FitsField p.2 p.1 := by
  unfold deserialize at h
  obtain ⟨doc, hdoc, h⟩ := bind_eq_ok h
  have hunaltered : Unaltered message m ↔ Carries doc.root m := by
    refine ⟨fun ⟨doc', hdoc', hcarries⟩ => ?_, fun hcarries => ⟨doc, hdoc, hcarries⟩⟩
    cases hdoc.symm.trans hdoc'
    exact hcarries
  rw [hunaltered, numberTexts, hdoc]
  dsimp only at h ⊢
  split at h
  · rename_i hname
    obtain ⟨request, hrequest, rfl⟩ := map_eq_ok h
    exact parseRequest_fits_iff hname hrequest
  split at h
  · rename_i hname
    obtain ⟨response, hresponse, rfl⟩ := map_eq_ok h
    exact parseResponse_fits_iff hname hresponse
  split at h
  · rename_i hrequest hresponse hname
    obtain ⟨hello, _, rfl⟩ := map_eq_ok h
    unfold rootNumbers
    rw [if_neg hrequest, if_neg hresponse, if_neg (by rw [hname]; decide)]
    exact iff_of_true trivial fun p hp => absurd hp List.not_mem_nil
  split at h
  · rename_i hname
    obtain ⟨offer, hoffer, rfl⟩ := map_eq_ok h
    exact parseOffer_fits_iff hname hoffer
  · exact nomatch h

/-- A request for two dice that succeed from 3 on. -/
theorem numbers_unaltered_d4 :
    Unaltered "<Request type=\"D4\" size=\"2\" successFrom=\"3\"></Request>".toList
      (.request ⟨⟨.d4, [0, 0], by decide⟩, some 3⟩) := by
  refine (numbers_unaltered_iff rfl).mpr ?_
  rw [show numberTexts "<Request type=\"D4\" size=\"2\" successFrom=\"3\"></Request>".toList =
    [("2".toList, 64), ("3".toList, 32)] from rfl]
  intro p hp
  rcases List.mem_pair.mp hp with rfl | rfl
  · exact ⟨List.all_eq_true.mp (show "2".toList.all Char.isDigit = true by decide), by decide⟩
  · exact ⟨List.all_eq_true.mp (show "3".toList.all Char.isDigit = true by decide), by decide⟩

/-- **The round "-1"** is the last one there is. -/
theorem numbers_unaltered_fails : ¬ ∀ message m, deserialize message = .ok m →
    Unaltered message m := by
  intro h
  obtain ⟨doc, hdoc, hcarries⟩ := h "<Offer round=\"-1\"><Mac>A</Mac></Offer>".toList
    (.offer ⟨"A".toList, 4294967295⟩) rfl
  have htext : (fun doc => attributeText doc.root "round".toList) <$>
      parseString "<Offer round=\"-1\"><Mac>A</Mac></Offer>".toList false =
      .ok (some "-1".toList) := rfl
  rw [hdoc] at htext
  have hreads : Reads 32 (attributeText doc.root "round".toList) (some 4294967295) := hcarries
  rw [show attributeText doc.root "round".toList = some "-1".toList from
    Except.ok.inj htext] at hreads
  obtain ⟨n, hn, _⟩ := hreads
  have hnone : denoted "-1".toList = none :=
    if_neg fun hdigits => absurd (hdigits.2 '-' List.mem_cons_self) (by decide)
  exact nomatch hnone.symm.trans hn

end Numbers

end Veridie.Dice
