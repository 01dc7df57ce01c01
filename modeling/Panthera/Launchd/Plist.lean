/-
  Panthera.Launchd.Plist — launchd's property-list parser
  (`panthera_boot.c`: `extract_text`, `parse_plist_array`,
  `parse_plist_dict`, `parse_plist_value`).

  A text is the list of its bytes, with the end of the list for the terminating NUL, and
  a cursor is what is left of it. The three parsers call each other and move one cursor;
  they are given a bound on their calls, two for each byte of the text and two more.
  Containers are those of liblaunch, which is not part of this tree: an array grows at its
  end, and a dictionary keeps its entries in the order of their insertion, where `sameKey`
  tells which key `launch_data_dict_insert` replaces. Main result: `parsePlistDict_printed`.
-/

import Mathlib.Data.List.TakeWhile
import Panthera.Lib.Scan

namespace Panthera.Launchd.Plist

open Lib.Scan

abbrev Text := List UInt8

def ascii (s : String) : Text := s.toList.map fun c => UInt8.ofNat c.toNat

/-! ## Scanning -/

def isWs (c : UInt8) : Bool := c == 32 || c == 9 || c == 10 || c == 13

def skipWs (p : Text) : Text := p.dropWhile isWs

def findTagEnd : Text → Text
  | [] => []
  | c :: p => if c = 62 then p else findTagEnd p

/-- The entities `&amp;`, `&lt;` and `&gt;`; an `&` of any other kind stays. -/
def unescape : Text → Text
  | 38 :: 97 :: 109 :: 112 :: 59 :: r => 38 :: unescape r
  | 38 :: 108 :: 116 :: 59 :: r => 60 :: unescape r
  | 38 :: 103 :: 116 :: 59 :: r => 62 :: unescape r
  | c :: r => c :: unescape r
  | [] => []

def extractText (body : Text) (bufsz : Nat) : Text := unescape (body.take (bufsz - 1))

/-! ## `strtoll` -/

def isSpace (c : UInt8) : Bool := c == 32 || (9 ≤ c && c ≤ 13)

def isDigit (c : UInt8) : Bool := 48 ≤ c && c ≤ 57

def digitsValue (digits : Text) : Nat := digits.foldl (fun n c => n * 10 + (c.toNat - 48)) 0

def clamp (i : Int) : Int64 := Int64.ofInt (max (-2 ^ 63) (min (2 ^ 63 - 1) i))

def strtoll (text : Text) : Int64 :=
  match text.dropWhile isSpace with
  | 45 :: digits => clamp (-(digitsValue (digits.takeWhile isDigit) : Int))
  | 43 :: digits => clamp (digitsValue (digits.takeWhile isDigit))
  | digits => clamp (digitsValue (digits.takeWhile isDigit))

/-! ## The parsers -/

inductive Value where
  | string (s : Text)
  | bool (b : Bool)
  | integer (i : Int64)
  | array (items : List Value)
  | dict (entries : List (Text × Value))

section Parse

variable (sameKey : Text → Text → Bool)

/-- `launch_data_dict_insert`. -/
def dictInsert : List (Text × Value) → Text → Value → List (Text × Value)
  | [], key, val => [(key, val)]
  | e :: es, key, val => if sameKey key e.1 then (key, val) :: es else e :: dictInsert es key val

mutual

/-- The value and the cursor behind it; the value is `NULL` for what the parser skips. -/
def parsePlistValue : Nat → Text → Option (Option Value × Text)
  | 0, _ => none
  | n + 1, pp =>
    let p := skipWs pp
    match after (ascii "<string>") p with
    | some p =>
      match upTo (ascii "</string>") p with
      | none => some (none, p)
      | some (body, rest) => some (some (.string (extractText body 4096)), rest)
    | none =>
    match after (ascii "<true/>") p with
    | some rest => some (some (.bool true), rest)
    | none =>
    match after (ascii "<false/>") p with
    | some rest => some (some (.bool false), rest)
    | none =>
    match after (ascii "<integer>") p with
    | some p =>
      match upTo (ascii "</integer>") p with
      | none => some (none, p)
      | some (body, rest) => some (some (.integer (strtoll (extractText body 64))), rest)
    | none =>
    match after (ascii "<array>") p with
    | some p => (parsePlistArray n [] p).map fun r => (some (.array r.1), r.2)
    | none =>
    match after (ascii "<array/>") p with
    | some rest => some (some (.array []), rest)
    | none =>
    match after (ascii "<dict>") p with
    | some p => (parsePlistDictLoop n [] p).map fun r => (some (.dict r.1), r.2)
    | none =>
    match after (ascii "<dict/>") p with
    | some rest => some (some (.dict []), rest)
    | none => some (none, findTagEnd p)

/-- The loop of `parse_plist_array`, with what the array holds so far. -/
def parsePlistArray : Nat → List Value → Text → Option (List Value × Text)
  | 0, _, _ => none
  | n + 1, arr, p =>
    if p = [] then some (arr, p)
    else
      let p := skipWs p
      match after (ascii "</array>") p with
      | some rest => some (arr, rest)
      | none =>
        match parsePlistValue n p with
        | none => none
        | some (val, p) => parsePlistArray n (arr ++ val.toList) p

/-- The loop of `parse_plist_dict`, with what the dictionary holds so far. -/
def parsePlistDictLoop : Nat → List (Text × Value) → Text → Option (List (Text × Value) × Text)
  | 0, _, _ => none
  | n + 1, dict, p =>
    if p = [] then some (dict, p)
    else
      let p := skipWs p
      match after (ascii "</dict>") p with
      | some rest => some (dict, rest)
      | none =>
        match after (ascii "<key>") p with
        | none => parsePlistDictLoop n dict (findTagEnd p)
        | some p =>
          match upTo (ascii "</key>") p with
          | none => some (dict, p)
          | some (key, p) =>
            match parsePlistValue n (skipWs p) with
            | none => none
            | some (none, p) => parsePlistDictLoop n dict p
            | some (some val, p) => parsePlistDictLoop n (dictInsert sameKey dict (extractText key 256) val) p

end

def parsePlistDict (text : Text) : Option (List (Text × Value) × Text) :=
  parsePlistDictLoop sameKey (2 * text.length + 2) [] text

end Parse

/-! ## Tags -/

def openingTags : List Text :=
  [ascii "<string>", ascii "<true/>", ascii "<false/>", ascii "<integer>", ascii "<array>", ascii "<array/>",
   ascii "<dict>", ascii "<dict/>"]

/-- The tags that the two loops look for. -/
def loopTags : List Text := [ascii "</array>", ascii "</dict>", ascii "<key>"]

theorem tags_head : ∀ tag ∈ openingTags ++ loopTags, tag.head? = some 60 := by decide

variable {tag ws text : Text} {c : UInt8} {n : Nat} {v : Value}

theorem tag_ne_nil (h : tag ∈ openingTags ++ loopTags) : tag ≠ [] := by
  rintro rfl
  cases tags_head [] h

theorem tags_apart : openingTags.Pairwise Apart ∧ (∀ tag ∈ openingTags, Apart (ascii "</array>") tag) ∧
    Apart (ascii "</dict>") (ascii "<key>") := by decide

/-! ## One call of `parse_plist_value` -/

section Branches

variable (sameKey : Text → Text → Bool) (n : Nat)

def stringBranch (p : Text) : Option (Option Value × Text) :=
  match upTo (ascii "</string>") p with
  | none => some (none, p)
  | some (body, rest) => some (some (.string (extractText body 4096)), rest)

def integerBranch (p : Text) : Option (Option Value × Text) :=
  match upTo (ascii "</integer>") p with
  | none => some (none, p)
  | some (body, rest) => some (some (.integer (strtoll (extractText body 64))), rest)

def valueBranches : List (Text × (Text → Option (Option Value × Text))) :=
  [(ascii "<string>", stringBranch),
   (ascii "<true/>", fun rest => some (some (.bool true), rest)),
   (ascii "<false/>", fun rest => some (some (.bool false), rest)),
   (ascii "<integer>", integerBranch),
   (ascii "<array>", fun p => (parsePlistArray sameKey n [] p).map fun r => (some (.array r.1), r.2)),
   (ascii "<array/>", fun rest => some (some (.array []), rest)),
   (ascii "<dict>", fun p => (parsePlistDictLoop sameKey n [] p).map fun r => (some (.dict r.1), r.2)),
   (ascii "<dict/>", fun rest => some (some (.dict []), rest))]

theorem parsePlistValue_succ (pp : Text) : parsePlistValue sameKey (n + 1) pp =
    dispatch (fun p => some (none, findTagEnd p)) (valueBranches sameKey n) (skipWs pp) := by
  rw [parsePlistValue]
  generalize skipWs pp = q
  simp only [valueBranches, dispatch]
  rcases after (ascii "<string>") q with _ | _
  case some => rfl
  rcases after (ascii "<true/>") q with _ | _
  case some => rfl
  rcases after (ascii "<false/>") q with _ | _
  case some => rfl
  rcases after (ascii "<integer>") q with _ | _
  case some => rfl
  rcases after (ascii "<array>") q with _ | _
  case some => rfl
  rcases after (ascii "<array/>") q with _ | _
  case some => rfl
  rcases after (ascii "<dict>") q with _ | _
  case some => rfl
  rcases after (ascii "<dict/>") q with _ | _ <;> rfl

variable {sameKey n}

/-- Where the tag of a branch stands, none of those before it is found. -/
theorem parsePlistValue_tag {b : Text × (Text → Option (Option Value × Text))}
    (hmem : b ∈ valueBranches sameKey n) (hskip : skipWs (ws ++ (b.1 ++ text)) = b.1 ++ text) :
    parsePlistValue sameKey (n + 1) (ws ++ (b.1 ++ text)) = b.2 text := by
  rw [parsePlistValue_succ, hskip]
  exact dispatch_tag tags_apart.1 hmem text

end Branches

theorem closingTags_eq : ascii "</key>" = 60 :: ascii "/key>" ∧ ascii "</string>" = 60 :: ascii "/string>" ∧
    ascii "</integer>" = 60 :: ascii "/integer>" := by decide

/-! ## Printed property lists -/

def escapeByte (c : UInt8) : Text :=
  if c = 38 then ascii "&amp;" else if c = 60 then ascii "&lt;" else if c = 62 then ascii "&gt;" else [c]

def escape (s : Text) : Text := s.flatMap escapeByte

/-- Decimal digits, the most significant first. -/
def decimalNat (n : Nat) : Text := if n = 0 then [48] else (Nat.digits 10 n).reverse.map fun d => UInt8.ofNat (48 + d)

def decimal (i : Int64) : Text :=
  if i.toInt < 0 then 45 :: decimalNat i.toInt.natAbs else decimalNat i.toInt.natAbs

def Ws (ws : Text) : Prop := ∀ c ∈ ws, isWs c = true

instance (ws : Text) : Decidable (Ws ws) := inferInstanceAs (Decidable (∀ c ∈ ws, isWs c = true))

mutual

/-- `text` is one of the ways to print a value. -/
inductive Prints : Value → Text → Prop
  | string (s : Text) : (escape s).length ≤ 4095 →
      Prints (.string s) (ascii "<string>" ++ (escape s ++ ascii "</string>"))
  | true : Prints (.bool true) (ascii "<true/>")
  | false : Prints (.bool false) (ascii "<false/>")
  | integer (i : Int64) : Prints (.integer i) (ascii "<integer>" ++ (decimal i ++ ascii "</integer>"))
  | noItems : Prints (.array []) (ascii "<array/>")
  | array {items : List Value} {text : Text} : PrintsItems items text →
      Prints (.array items) (ascii "<array>" ++ (text ++ ascii "</array>"))
  | noEntries : Prints (.dict []) (ascii "<dict/>")
  | dict {entries : List (Text × Value)} {text : Text} : PrintsEntries entries text →
      Prints (.dict entries) (ascii "<dict>" ++ (text ++ ascii "</dict>"))

/-- What stands between `<array>` and its end tag. -/
inductive PrintsItems : List Value → Text → Prop
  | nil {ws : Text} : Ws ws → PrintsItems [] ws
  | cons {ws text rest : Text} {v : Value} {items : List Value} : Ws ws → Prints v text → PrintsItems items rest →
      PrintsItems (v :: items) (ws ++ (text ++ rest))

/-- What stands between `<dict>` and its end tag. -/
inductive PrintsEntries : List (Text × Value) → Text → Prop
  | nil {ws : Text} : Ws ws → PrintsEntries [] ws
  | cons {ws ws' text rest key : Text} {v : Value} {entries : List (Text × Value)} : Ws ws → (escape key).length ≤ 255 →
      Ws ws' → Prints v text → PrintsEntries entries rest →
      PrintsEntries ((key, v) :: entries) (ws ++ (ascii "<key>" ++ (escape key ++ (ascii "</key>" ++ (ws' ++ (text ++ rest))))))

end

section Distinct

variable (sameKey : Text → Text → Bool)

/-- No key is taken for an earlier one. -/
def DistinctKeys (entries : List (Text × Value)) : Prop :=
  entries.Pairwise fun e e' => sameKey e'.1 e.1 = false

mutual

def Value.Distinct : Value → Prop
  | .array items => DistinctItems items
  | .dict entries => DistinctKeys sameKey entries ∧ DistinctEntries entries
  | _ => True

def DistinctItems : List Value → Prop
  | [] => True
  | v :: items => v.Distinct ∧ DistinctItems items

def DistinctEntries : List (Text × Value) → Prop
  | [] => True
  | (_, v) :: entries => v.Distinct ∧ DistinctEntries entries

end

end Distinct

/-! ## Text between tags -/

theorem skipWs_append (hws : Ws ws) (hc : isWs c = false) (rest : Text) : skipWs (ws ++ c :: rest) = c :: rest := by
  induction ws with
  | nil => simp [skipWs, hc]
  | cons w ws ih =>
    have hw : isWs w = true := hws w List.mem_cons_self
    have := ih fun c h => hws c (List.mem_cons_of_mem _ h)
    simpa [skipWs, List.dropWhile_cons, hw] using this

theorem entities_eq : ascii "&amp;" = [38, 97, 109, 112, 59] ∧ ascii "&lt;" = [38, 108, 116, 59] ∧
    ascii "&gt;" = [38, 103, 116, 59] := by decide

theorem lt_not_mem_escape (s : Text) : (60 : UInt8) ∉ escape s := by
  intro h
  obtain ⟨c, -, hc⟩ := List.mem_flatMap.mp h
  obtain ⟨hamp, hlt, hgt⟩ := entities_eq
  rw [escapeByte, hamp, hlt, hgt] at hc
  split_ifs at hc with h1 h2 h3
  · exact absurd hc (by decide)
  · exact absurd hc (by decide)
  · exact absurd hc (by decide)
  · exact h2 (List.mem_singleton.mp hc).symm

theorem unescape_escape (s : Text) : unescape (escape s) = s := by
  induction s with
  | nil => rfl
  | cons c s ih =>
    obtain ⟨hamp, hlt, hgt⟩ := entities_eq
    rw [escape, List.flatMap_cons, ← escape, escapeByte]
    split_ifs with h1 h2 h3
    · subst h1; rw [hamp]; simp [unescape, ih]
    · subst h2; rw [hlt]; simp [unescape, ih]
    · subst h3; rw [hgt]; simp [unescape, ih]
    · simp [unescape, ih, h1]

theorem extractText_escape {s : Text} (h : (escape s).length ≤ n) : extractText (escape s) (n + 1) = s := by
  rw [extractText, Nat.add_sub_cancel, List.take_of_length_le h, unescape_escape]

/-! ## Integers -/

theorem decimalNat_digits (h : c ∈ decimalNat n) : 48 ≤ c.toNat ∧ c.toNat ≤ 57 := by
  unfold decimalNat at h
  split_ifs at h
  · rw [List.mem_singleton.mp h]
    decide
  · obtain ⟨d, hd, rfl⟩ := List.mem_map.mp h
    have hlt : d < 10 := Nat.digits_lt_base (by decide) (List.mem_reverse.mp hd)
    rw [UInt8.toNat_ofNat']
    omega

theorem digitsValue_decimalNat (n : Nat) : digitsValue (decimalNat n) = n := by
  unfold decimalNat
  split_ifs with hn
  · rw [hn]
    rfl
  · have hfold : ∀ ds : List Nat, (∀ d ∈ ds, d < 10) →
        digitsValue (ds.reverse.map fun d => UInt8.ofNat (48 + d)) = Nat.ofDigits 10 ds := by
      intro ds hds
      unfold digitsValue
      rw [List.foldl_map, List.foldl_reverse]
      induction ds with
      | nil => rfl
      | cons d ds ih =>
        have hd := hds d List.mem_cons_self
        rw [List.foldr_cons, ih fun d h => hds d (List.mem_cons_of_mem _ h), Nat.ofDigits_cons, UInt8.toNat_ofNat']
        omega
    rw [hfold _ fun d hd => Nat.digits_lt_base (by decide) hd, Nat.ofDigits_digits]

theorem decimalNat_length (h : n ≤ 2 ^ 63) : (decimalNat n).length ≤ 20 := by
  unfold decimalNat
  split_ifs with hn
  · decide
  · rw [List.length_map, List.length_reverse, Nat.digits_length_le_iff (by decide)]
    omega

theorem isDigit_of_mem (h : c ∈ decimalNat n) : isDigit c = true := by
  have := decimalNat_digits h
  simp only [isDigit, Bool.and_eq_true, decide_eq_true_eq, UInt8.le_iff_toNat_le]
  exact this

theorem takeWhile_decimalNat (n : Nat) : (decimalNat n).takeWhile isDigit = decimalNat n :=
  List.takeWhile_eq_self_iff.mpr fun _ h => isDigit_of_mem h

variable (i : Int64)

theorem clamp_toInt : clamp i.toInt = i := by
  have hlow := i.le_toInt
  have hhigh := i.toInt_lt
  rw [clamp, min_eq_right (by omega), max_eq_right hlow, Int64.ofInt_toInt]

/-- Digits are neither white space nor a sign. -/
theorem strtoll_decimalNat (n : Nat) : strtoll (decimalNat n) = clamp n := by
  have hvalue := digitsValue_decimalNat n
  have htake := takeWhile_decimalNat n
  have hdigits : ∀ c ∈ decimalNat n, 48 ≤ c.toNat ∧ c.toNat ≤ 57 := fun _ => decimalNat_digits
  generalize decimalNat n = text at hvalue htake hdigits
  unfold strtoll
  cases text with
  | nil => rw [← hvalue]; rfl
  | cons c text =>
    obtain ⟨hlow, hhigh⟩ := hdigits c List.mem_cons_self
    have hspace : isSpace c = false := by
      rw [Bool.eq_false_iff]
      simp only [isSpace, ne_eq, Bool.or_eq_true, beq_iff_eq, Bool.and_eq_true, decide_eq_true_eq, UInt8.le_iff_toNat_le]
      rintro (rfl | h)
      · exact absurd hlow (by decide)
      · have h13 : (13 : UInt8).toNat = 13 := rfl
        omega
    rw [List.dropWhile_cons_of_neg (by simp [hspace])]
    split
    · rename_i heq
      cases heq
      exact absurd hlow (by decide)
    · rename_i heq
      cases heq
      exact absurd hlow (by decide)
    · rw [htake, hvalue]

theorem strtoll_decimal : strtoll (decimal i) = i := by
  have habs : i.toInt < 0 ∨ 0 ≤ i.toInt := by omega
  unfold decimal
  rcases habs with hneg | hpos
  · rw [if_pos hneg]
    have hvalue := digitsValue_decimalNat i.toInt.natAbs
    have htake := takeWhile_decimalNat i.toInt.natAbs
    have hskip : (45 :: decimalNat i.toInt.natAbs).dropWhile isSpace = 45 :: decimalNat i.toInt.natAbs :=
      List.dropWhile_cons_of_neg (by decide)
    have hi : -(i.toInt.natAbs : Int) = i.toInt := by omega
    rw [strtoll, hskip]
    simp only [htake, hvalue, hi]
    exact clamp_toInt i
  · rw [if_neg (by omega), strtoll_decimalNat, show (i.toInt.natAbs : Int) = i.toInt by omega]
    exact clamp_toInt i

/-- A text without `&` is taken as it is. -/
theorem unescape_plain {s : Text} (h : (38 : UInt8) ∉ s) : unescape s = s := by
  induction s with
  | nil => rfl
  | cons c s ih =>
    obtain ⟨hc, hs⟩ : (38 : UInt8) ≠ c ∧ (38 : UInt8) ∉ s := by simpa using h
    have hc' : c ≠ 38 := fun e => hc e.symm
    simp [unescape, hc', ih hs]

/-- Digits and a sign hold neither an entity nor a tag. -/
theorem not_mem_decimal {i : Int64} (hc : c.toNat < 45 ∨ 57 < c.toNat) : c ∉ decimal i := by
  have hnat : ∀ n, c ∉ decimalNat n := fun n h => by
    have := decimalNat_digits h
    omega
  unfold decimal
  split_ifs
  · rw [List.mem_cons, not_or]
    refine ⟨?_, hnat _⟩
    rintro rfl
    exact absurd hc (by decide)
  · exact hnat _

theorem extractText_decimal : extractText (decimal i) 64 = decimal i := by
  have hlow := i.le_toInt
  have hhigh := i.toInt_lt
  have hlen : (decimal i).length ≤ 63 := by
    have := decimalNat_length (n := i.toInt.natAbs) (by omega)
    unfold decimal
    split_ifs
    · rw [List.length_cons]; omega
    · omega
  rw [extractText, List.take_of_length_le hlen, unescape_plain (not_mem_decimal (by decide))]

/-! ## Reading a printed list back -/

theorem Prints.opens (h : Prints v text) : ∃ tag ∈ openingTags, ∃ body, text = tag ++ body := by
  cases h with
  | string s _ => exact ⟨ascii "<string>", by simp [openingTags], _, rfl⟩
  | true => exact ⟨ascii "<true/>", by simp [openingTags], [], by rw [List.append_nil]⟩
  | false => exact ⟨ascii "<false/>", by simp [openingTags], [], by rw [List.append_nil]⟩
  | integer i => exact ⟨ascii "<integer>", by simp [openingTags], _, rfl⟩
  | noItems => exact ⟨ascii "<array/>", by simp [openingTags], [], by rw [List.append_nil]⟩
  | array _ => exact ⟨ascii "<array>", by simp [openingTags], _, rfl⟩
  | noEntries => exact ⟨ascii "<dict/>", by simp [openingTags], [], by rw [List.append_nil]⟩
  | dict _ => exact ⟨ascii "<dict>", by simp [openingTags], _, rfl⟩

theorem skipWs_tag (hws : Ws ws) (htag : tag.head? = some 60) (rest : Text) : skipWs (ws ++ (tag ++ rest)) = tag ++ rest := by
  cases tag with
  | nil => cases htag
  | cons c tag =>
    cases htag
    exact skipWs_append hws (by decide) _

theorem Prints.skipWs (h : Prints v text) (hws : Ws ws) (rest : Text) : skipWs (ws ++ (text ++ rest)) = text ++ rest := by
  obtain ⟨tag, htag, body, rfl⟩ := h.opens
  rw [List.append_assoc]
  exact skipWs_tag hws (tags_head tag (List.mem_append_left _ htag)) _

theorem Prints.not_end (h : Prints v text) (rest : Text) : after (ascii "</array>") (text ++ rest) = none := by
  obtain ⟨tag, htag, body, rfl⟩ := h.opens
  rw [List.append_assoc]
  exact after_apart (tags_apart.2.1 tag htag) _

theorem Prints.ne_nil (h : Prints v text) : 0 < text.length := by
  obtain ⟨tag, htag, body, rfl⟩ := h.opens
  have := List.length_pos_iff.mpr (tag_ne_nil (List.mem_append_left loopTags htag))
  rw [List.length_append]
  omega

theorem dictInsert_fresh {sameKey : Text → Text → Bool} {key : Text} : ∀ {dict : List (Text × Value)},
    (∀ e ∈ dict, sameKey key e.1 = false) → dictInsert sameKey dict key v = dict ++ [(key, v)] := by
  intro dict
  induction dict with
  | nil => intro _; rfl
  | cons e es ih =>
    intro h
    have he := h e List.mem_cons_self
    rw [dictInsert, if_neg (by simp [he]), ih fun e' h' => h e' (List.mem_cons_of_mem _ h'), List.cons_append]

section Printed

variable {sameKey : Text → Text → Bool}

/-- With as many calls left as `text` has bytes, the value is read back wherever it
    stands. -/
def ReadsValue (sameKey : Text → Text → Bool) (v : Value) (text : Text) : Prop :=
  ∀ n, text.length ≤ n → ∀ ws rest, Ws ws → parsePlistValue sameKey n (ws ++ (text ++ rest)) = some (some v, rest)

def ReadsItems (sameKey : Text → Text → Bool) (items : List Value) (text : Text) : Prop :=
  ∀ n, text.length < n → ∀ arr rest,
    parsePlistArray sameKey n arr (text ++ (ascii "</array>" ++ rest)) = some (arr ++ items, rest)

def ReadsEntries (sameKey : Text → Text → Bool) (entries : List (Text × Value)) (text : Text) : Prop :=
  ∀ n, text.length < n → ∀ dict rest, DistinctKeys sameKey (dict ++ entries) →
    parsePlistDictLoop sameKey n dict (text ++ (ascii "</dict>" ++ rest)) = some (dict ++ entries, rest)

theorem readsItems_nil (hws : Ws ws) : ReadsItems sameKey [] ws := by
  intro n hn arr rest
  obtain ⟨n, rfl⟩ : ∃ k, n = k + 1 := ⟨n - 1, by omega⟩
  have hne : ws ++ (ascii "</array>" ++ rest) ≠ [] := by
    simp [show ascii "</array>" ≠ [] by decide]
  rw [parsePlistArray, if_neg hne]
  simp only
  rw [skipWs_tag hws (tags_head _ (by simp [loopTags])), after_append, List.append_nil]

theorem readsItems_cons {rest : Text} {items : List Value} (hws : Ws ws) (hp : Prints v text)
    (hv : ReadsValue sameKey v text) (hi : ReadsItems sameKey items rest) :
    ReadsItems sameKey (v :: items) (ws ++ (text ++ rest)) := by
  intro n hn arr tail
  have hpos := hp.ne_nil
  simp only [List.length_append] at hn
  obtain ⟨n, rfl⟩ : ∃ k, n = k + 1 := ⟨n - 1, by omega⟩
  have hne : ws ++ (text ++ rest) ++ (ascii "</array>" ++ tail) ≠ [] := by
    intro h
    have := congrArg List.length h
    simp only [List.length_append, List.length_nil] at this
    omega
  rw [parsePlistArray, if_neg hne]
  simp only [List.append_assoc]
  have hvalue := hv n (by omega) [] (rest ++ (ascii "</array>" ++ tail)) (fun _ h => by cases h)
  rw [List.nil_append] at hvalue
  rw [hp.skipWs hws, hp.not_end]
  simp only [hvalue]
  rw [hi n (by omega), Option.toList_some, List.append_assoc, List.singleton_append]

theorem readsEntries_nil (hws : Ws ws) : ReadsEntries sameKey [] ws := by
  intro n hn dict rest _
  obtain ⟨n, rfl⟩ : ∃ k, n = k + 1 := ⟨n - 1, by omega⟩
  have hne : ws ++ (ascii "</dict>" ++ rest) ≠ [] := by
    simp [show ascii "</dict>" ≠ [] by decide]
  rw [parsePlistDictLoop, if_neg hne]
  simp only
  rw [skipWs_tag hws (tags_head _ (by simp [loopTags])), after_append, List.append_nil]

variable {entries : List (Text × Value)}

theorem readsEntries_cons {ws' rest key : Text} (hws : Ws ws)
    (hkey : (escape key).length ≤ 255) (hws' : Ws ws') (hp : Prints v text) (hv : ReadsValue sameKey v text)
    (he : ReadsEntries sameKey entries rest) :
    ReadsEntries sameKey ((key, v) :: entries)
      (ws ++ (ascii "<key>" ++ (escape key ++ (ascii "</key>" ++ (ws' ++ (text ++ rest)))))) := by
  intro n hn dict tail hdistinct
  have hpos := hp.ne_nil
  simp only [List.length_append] at hn
  obtain ⟨n, rfl⟩ : ∃ k, n = k + 1 := ⟨n - 1, by omega⟩
  simp only [List.append_assoc]
  have hne : ws ++ (ascii "<key>" ++ (escape key ++ (ascii "</key>" ++ (ws' ++ (text ++ (rest ++
      (ascii "</dict>" ++ tail))))))) ≠ [] := by
    simp [show ascii "<key>" ≠ [] by decide]
  -- the key ends at the first `<`, which its end tag has
  have hbody : upTo (ascii "</key>") (escape key ++ (ascii "</key>" ++ (ws' ++ (text ++ (rest ++
      (ascii "</dict>" ++ tail)))))) = some (escape key, ws' ++ (text ++ (rest ++ (ascii "</dict>" ++ tail)))) := by
    rw [closingTags_eq.1]
    exact upTo_append (lt_not_mem_escape key) _
  have hvalue := hv n (by omega) [] (rest ++ (ascii "</dict>" ++ tail)) (fun _ h => by cases h)
  rw [List.nil_append] at hvalue
  have hfresh : ∀ e ∈ dict, sameKey key e.1 = false := by
    intro e hmem
    exact (List.pairwise_append.mp hdistinct).2.2 e hmem (key, v) List.mem_cons_self
  rw [parsePlistDictLoop, if_neg hne]
  simp only
  rw [skipWs_tag hws (tags_head _ (by simp [loopTags])), after_apart tags_apart.2.2, after_append]
  simp only [hbody]
  rw [hp.skipWs hws']
  simp only [hvalue]
  rw [extractText_escape hkey, dictInsert_fresh hfresh, he n (by omega) _ _ (by simpa using hdistinct)]
  simp

/-! The cases of `parse_plist_value`: the tests before a value's own tag fail. -/

theorem readsValue_of (hp : Prints v text)
    (h : ∀ n, text.length ≤ n + 1 → ∀ ws rest, skipWs (ws ++ (text ++ rest)) = text ++ rest →
      parsePlistValue sameKey (n + 1) (ws ++ (text ++ rest)) = some (some v, rest)) : ReadsValue sameKey v text := by
  intro n hn ws rest hws
  have hpos := hp.ne_nil
  obtain ⟨n, rfl⟩ : ∃ k, n = k + 1 := ⟨n - 1, by omega⟩
  exact h n hn ws rest (hp.skipWs hws rest)

theorem readsValue_string {s : Text} (h : (escape s).length ≤ 4095) :
    ReadsValue sameKey (.string s) (ascii "<string>" ++ (escape s ++ ascii "</string>")) := by
  refine readsValue_of (.string s h) fun n _ ws rest hskip => ?_
  have hbody : upTo (ascii "</string>") (escape s ++ (ascii "</string>" ++ rest)) = some (escape s, rest) := by
    rw [closingTags_eq.2.1]
    exact upTo_append (lt_not_mem_escape s) rest
  simp only [List.append_assoc] at hskip ⊢
  rw [parsePlistValue_tag (b := (ascii "<string>", stringBranch)) (by simp [valueBranches]) hskip]
  simp only [stringBranch, hbody, extractText_escape h]

theorem readsValue_integer : ReadsValue sameKey (.integer i) (ascii "<integer>" ++ (decimal i ++ ascii "</integer>")) := by
  refine readsValue_of (.integer i) fun n _ ws rest hskip => ?_
  have hbody : upTo (ascii "</integer>") (decimal i ++ (ascii "</integer>" ++ rest)) = some (decimal i, rest) := by
    rw [closingTags_eq.2.2]
    exact upTo_append (not_mem_decimal (by decide)) rest
  simp only [List.append_assoc] at hskip ⊢
  rw [parsePlistValue_tag (b := (ascii "<integer>", integerBranch)) (by simp [valueBranches]) hskip]
  simp only [integerBranch, hbody, extractText_decimal, strtoll_decimal]

/-- The values that are a tag alone. -/
theorem readsValue_tag (hp : Prints v tag)
    (h : ∀ n, (tag, fun rest => some (some v, rest)) ∈ valueBranches sameKey n) : ReadsValue sameKey v tag :=
  readsValue_of hp fun n _ _ _ hskip => parsePlistValue_tag (h n) hskip

theorem readsValue_array {items : List Value} (hp : PrintsItems items text) (hi : ReadsItems sameKey items text) :
    ReadsValue sameKey (.array items) (ascii "<array>" ++ (text ++ ascii "</array>")) := by
  refine readsValue_of (.array hp) fun n hn ws rest hskip => ?_
  have hopen : 0 < (ascii "<array>").length := by decide
  have hclose : 0 < (ascii "</array>").length := by decide
  simp only [List.length_append] at hn
  simp only [List.append_assoc] at hskip ⊢
  rw [parsePlistValue_tag (b := (ascii "<array>", _)) (List.mem_of_getElem? (i := 4) rfl) hskip]
  simp only [hi n (by omega), Option.map_some, List.nil_append]

theorem readsValue_dict (hp : PrintsEntries entries text)
    (hk : DistinctKeys sameKey entries) (he : ReadsEntries sameKey entries text) :
    ReadsValue sameKey (.dict entries) (ascii "<dict>" ++ (text ++ ascii "</dict>")) := by
  refine readsValue_of (.dict hp) fun n hn ws rest hskip => ?_
  have hopen : 0 < (ascii "<dict>").length := by decide
  have hclose : 0 < (ascii "</dict>").length := by decide
  simp only [List.length_append] at hn
  simp only [List.append_assoc] at hskip ⊢
  rw [parsePlistValue_tag (b := (ascii "<dict>", _)) (List.mem_of_getElem? (i := 6) rfl) hskip]
  simp only [he n (by omega) [] _ hk, Option.map_some, List.nil_append]

/-! By induction on how the tree was printed. -/

mutual

theorem Prints.reads {v : Value} {text : Text} : Prints v text → v.Distinct sameKey → ReadsValue sameKey v text
  | .string _ h, _ => readsValue_string h
  | .true, _ => readsValue_tag .true fun _ => by simp [valueBranches]
  | .false, _ => readsValue_tag .false fun _ => by simp [valueBranches]
  | .integer i, _ => readsValue_integer i
  | .noItems, _ => readsValue_tag .noItems fun _ => by simp [valueBranches]
  | .array hp, hd => readsValue_array hp (hp.reads (by simpa [Value.Distinct] using hd))
  | .noEntries, _ => readsValue_tag .noEntries fun _ => by simp [valueBranches]
  | .dict hp, hd => by
    rw [Value.Distinct] at hd
    exact readsValue_dict hp hd.1 (hp.reads hd.2)

theorem PrintsItems.reads {items : List Value} {text : Text} : PrintsItems items text → DistinctItems sameKey items →
    ReadsItems sameKey items text
  | .nil hws, _ => readsItems_nil hws
  | .cons hws hv hi, hd => by
    rw [DistinctItems] at hd
    exact readsItems_cons hws hv (hv.reads hd.1) (hi.reads hd.2)

theorem PrintsEntries.reads {entries : List (Text × Value)} {text : Text} : PrintsEntries entries text →
    DistinctEntries sameKey entries → ReadsEntries sameKey entries text
  | .nil hws, _ => readsEntries_nil hws
  | .cons hws hkey hws' hv he, hd => by
    rw [DistinctEntries] at hd
    exact readsEntries_cons hws hkey hws' hv (hv.reads hd.1) (he.reads hd.2)

end

end Printed

/-- A printed dictionary of distinct keys is read back from behind its opening tag, and
    the cursor is left behind its end tag. -/
theorem parsePlistDict_printed (sameKey : Text → Text → Bool) (entries : List (Text × Value)) (text rest : Text)
    (hp : PrintsEntries entries text) (hd : (Value.dict entries).Distinct sameKey) :
    parsePlistDict sameKey (text ++ (ascii "</dict>" ++ rest)) = some (entries, rest) := by
  rw [Value.Distinct] at hd
  have hread := hp.reads hd.2 (2 * (text ++ (ascii "</dict>" ++ rest)).length + 2)
    (by simp only [List.length_append]; omega) [] rest hd.1
  rw [List.nil_append] at hread
  exact hread

/-- A job with a label and a list of one integer, printed over two lines. -/
def job : List (Text × Value) :=
  [(ascii "Label", .string (ascii "a<b")), (ascii "Args", .array [.integer (-5)])]

theorem parsePlistDict_printed_job :
    ∃ text, PrintsEntries job text ∧ (Value.dict job).Distinct (· == ·) ∧
      parsePlistDict (· == ·) (text ++ (ascii "</dict>" ++ ascii "</plist>")) = some (job, ascii "</plist>") := by
  have hitems : PrintsItems [.integer (-5)] ([32] ++ (_ ++ [])) :=
    .cons (by simp [Ws, isWs]) (.integer (-5)) (.nil (by simp [Ws]))
  have hprinted : PrintsEntries job _ :=
    .cons (by simp [Ws, isWs] : Ws [10]) (by decide) (by simp [Ws] : Ws []) (.string (ascii "a<b") (by decide))
      (.cons (by simp [Ws, isWs] : Ws [10, 9]) (by decide) (by simp [Ws, isWs] : Ws [32]) (.array hitems) (.nil (by simp [Ws, isWs] : Ws [10])))
  have hdistinct : (Value.dict job).Distinct (· == ·) := by
    have hne : ascii "Args" ≠ ascii "Label" := by decide
    simp [Value.Distinct, DistinctKeys, DistinctEntries, DistinctItems, job, hne]
  exact ⟨_, hprinted, hdistinct, parsePlistDict_printed _ _ _ _ hprinted hdistinct⟩

end Panthera.Launchd.Plist
