import Mathlib.Algebra.Order.Ring.Rat
import Modary.Lib.JsonNumber
import Modary.Lib.JsonValue
import Modary.Lib.Lexing

/-! # JSON texts

A JSON text as `encoding/json` reads it: its tokens, the document they spell, and the value of that
document. A string keeps its spelling, since readers differ in which escapes they take, and may
hold stray bytes. `compact` rewrites the spelling of a document; it changes neither its value nor
which readers take it. -/

namespace Modary.Lib.JsonText

open Modary.Lib.GoText Modary.Lib.JsonNumber Modary.Lib.JsonValue Modary.Lib.Lexing

/-- A rune of a Go string, or a stray byte of it. -/
abbrev Rune := Char ⊕ UInt8

/-- The runes and stray bytes of a Go string. -/
def runesOf : GoString → List Rune
  | .utf8 s => s.toList.map .inl
  | .raw units => units

/-- The number of bytes of a rune, or of a stray byte. -/
def runeSize : Rune → ℕ
  | .inl c => c.utf8Size
  | .inr _ => 1

/-- The number of bytes of a text. -/
def byteSize (text : List Rune) : ℕ := (text.map runeSize).sum

/-! ### Strings -/

/-- One item of a string: as it is, behind a backslash, or by its number. -/
inductive Item
  | plain (rune : Rune)
  | short (letter : Char)
  | hex (digits : List Char)
  deriving DecidableEq, Repr

/-- A hexadecimal digit of either case. -/
def hexValue (c : Char) : Option ℕ :=
  if '0' ≤ c ∧ c ≤ '9' then some (c.toNat - '0'.toNat)
  else if 'a' ≤ c ∧ c ≤ 'f' then some (c.toNat - 'a'.toNat + 10)
  else if 'A' ≤ c ∧ c ≤ 'F' then some (c.toNat - 'A'.toNat + 10)
  else none

/-- The number of an escape. -/
def hexNumber (digits : List Char) : ℕ :=
  digits.foldl (fun n c => n * 16 + (hexValue c).getD 0) 0

/-- The rest of a string behind its opening quote: its items and what follows the closing one. -/
def readString : List Rune → Option (List Item × List Rune)
  | [] => none
  | .inr b :: rest => (readString rest).map fun read => (.plain (.inr b) :: read.1, read.2)
  | .inl '"' :: rest => some ([], rest)
  | .inl '\\' :: .inl 'u' :: .inl a :: .inl b :: .inl c :: .inl d :: rest =>
    if [a, b, c, d].all fun x => (hexValue x).isSome then
      (readString rest).map fun read => (.hex [a, b, c, d] :: read.1, read.2)
    else none
  | .inl '\\' :: .inl e :: rest =>
    if e ∈ ['"', '\\', '/', 'b', 'f', 'n', 'r', 't'] then
      (readString rest).map fun read => (.short e :: read.1, read.2)
    else none
  | .inl '\\' :: _ => none
  | .inl c :: rest =>
    if c.toNat < 0x20 then none
    else (readString rest).map fun read => (.plain (.inl c) :: read.1, read.2)

/-- The character of a short escape. -/
def shortChar (letter : Char) : Char :=
  if letter = 'b' then Char.ofNat 8
  else if letter = 'f' then Char.ofNat 12
  else if letter = 'n' then '\n'
  else if letter = 'r' then '\r'
  else if letter = 't' then '\t'
  else letter

/-- The replacement character. -/
def replacement : Char := Char.ofNat 0xfffd

/-- The first half of a pair. -/
def highSurrogate (n : ℕ) : Bool := 0xd800 ≤ n && n ≤ 0xdbff

/-- The second half of a pair. -/
def lowSurrogate (n : ℕ) : Bool := 0xdc00 ≤ n && n ≤ 0xdfff

/-- The character of a pair. -/
def pairChar (high low : ℕ) : Char :=
  Char.ofNat (0x10000 + (high - 0xd800) * 0x400 + (low - 0xdc00))

/-- The character of an escape that is no half of a pair. -/
def hexChar (n : ℕ) : Char :=
  if highSurrogate n || lowSurrogate n then replacement else Char.ofNat n

/-- The content of a string: what is not text becomes the replacement character. -/
def content : List Item → List Char
  | [] => []
  | .plain (.inl c) :: items => c :: content items
  | .plain (.inr _) :: items => replacement :: content items
  | .short letter :: items => shortChar letter :: content items
  | .hex digits :: .hex others :: items =>
    if highSurrogate (hexNumber digits) && lowSurrogate (hexNumber others) then
      pairChar (hexNumber digits) (hexNumber others) :: content items
    else hexChar (hexNumber digits) :: content (.hex others :: items)
  | .hex digits :: items => hexChar (hexNumber digits) :: content items

/-! ### Tokens -/

/-- A token of a JSON text. -/
inductive Token
  | punct (c : Char)
  | null
  | bool (value : Bool)
  | number (value : Number)
  | string (items : List Item)
  | blank

/-- The digits at the front. -/
def takeDigits : List Rune → List Char × List Rune
  | .inl c :: rest =>
    if isDigit c then (c :: (takeDigits rest).1, (takeDigits rest).2) else ([], .inl c :: rest)
  | rest => ([], rest)

/-- The fraction at the front. -/
def takeFraction : List Rune → Option (List Char) × List Rune
  | .inl '.' :: rest => (some (takeDigits rest).1, (takeDigits rest).2)
  | rest => (none, rest)

/-- The sign of an exponent. -/
def takeSign : List Rune → Option Bool × List Rune
  | .inl '-' :: rest => (some true, rest)
  | .inl '+' :: rest => (some false, rest)
  | rest => (none, rest)

/-- The exponent at the front. -/
def takeExponent : List Rune → Option Exponent × List Rune
  | .inl c :: rest =>
    if c = 'e' ∨ c = 'E' then
      let signed := takeSign rest
      let digits := takeDigits signed.2
      (some ⟨c = 'E', signed.1, digits.1⟩, digits.2)
    else (none, .inl c :: rest)
  | rest => (none, rest)

/-- A number that starts with its whole part. -/
def readNumber (negative : Bool) (text : List Rune) : Option (Number × List Rune) :=
  let whole := takeDigits text
  let fraction := takeFraction whole.2
  let exponent := takeExponent fraction.2
  if hwhole : wholeNumber whole.1 = true then
    if hfraction : fraction.1.all (fun digits => digits ≠ [] && digits.all isDigit) = true then
      if hexponent : exponent.1.all (fun e => e.digits ≠ [] && e.digits.all isDigit) = true then
        some (⟨negative, whole.1, fraction.1, exponent.1, hwhole, hfraction, hexponent⟩, exponent.2)
      else none
    else none
  else none

/-- What stands behind a word at the front. -/
def afterWord (word : String) (text : List Rune) : Option (List Rune) :=
  let runes := word.toList.map Sum.inl
  if runes <+: text then some (text.drop runes.length) else none

/-- `isSpace` of the scanner. -/
def isBlank (c : Char) : Bool := c = ' ' || c = '\t' || c = '\r' || c = '\n'

/-- The token that starts with a rune. -/
def nextToken : Rune → List Rune → Option (Token × List Rune)
  | .inr _, _ => none
  | .inl c, rest =>
    if isBlank c then some (.blank, rest)
    else if c ∈ ['\x7b', '\x7d', '[', ']', ',', ':'] then some (.punct c, rest)
    else if c = '"' then (readString rest).map fun read => (.string read.1, read.2)
    else if c = '-' then (readNumber true rest).map fun read => (.number read.1, read.2)
    else if isDigit c then
      (readNumber false (.inl c :: rest)).map fun read => (.number read.1, read.2)
    else if c = 'n' then (afterWord "ull" rest).map fun rest => (.null, rest)
    else if c = 't' then (afterWord "rue" rest).map fun rest => (.bool true, rest)
    else if c = 'f' then (afterWord "alse" rest).map fun rest => (.bool false, rest)
    else none

/-! ### What a token takes -/

/-- The text of an item. -/
def Item.text : Item → List Rune
  | .plain rune => [rune]
  | .short letter => [.inl '\\', .inl letter]
  | .hex digits => .inl '\\' :: .inl 'u' :: digits.map .inl

/-- An item as it stands in a text. -/
def Item.spelled : Item → Bool
  | .plain (.inr _) => true
  | .plain (.inl c) => c ≠ '"' && c ≠ '\\' && 0x20 ≤ c.toNat
  | .short letter => letter ∈ ['"', '\\', '/', 'b', 'f', 'n', 'r', 't']
  | .hex digits => digits.length = 4 && digits.all fun c => (hexValue c).isSome

/-- What is read of a string is spelled, and the text is its items. -/
theorem text_of_readString {text : List Rune} {read : List Item × List Rune}
    (h : readString text = some read) :
    read.1.all Item.spelled = true ∧ text = read.1.flatMap Item.text ++ .inl '"' :: read.2 := by
  have hcons : ∀ {item : Item} {rest : List Rune} {inner : List Item × List Rune},
      item.spelled = true →
        inner.1.all Item.spelled = true ∧ rest = inner.1.flatMap Item.text ++ .inl '"' :: inner.2 →
          (item :: inner.1).all Item.spelled = true ∧
            item.text ++ rest = (item :: inner.1).flatMap Item.text ++ .inl '"' :: inner.2 := by
    rintro item _ inner hitem ⟨hall, rfl⟩
    rw [List.all_cons, hitem, hall, List.flatMap_cons, List.append_assoc]
    exact ⟨rfl, rfl⟩
  induction text using readString.induct generalizing read with
  | case1 => cases h
  | case2 b text ih =>
    simp only [readString, Option.map_eq_some_iff] at h
    obtain ⟨inner, hinner, rfl⟩ := h
    exact @hcons (.plain (.inr b)) _ _ rfl (ih hinner)
  | case3 text =>
    simp only [readString, Option.some.injEq] at h
    subst h
    exact ⟨rfl, rfl⟩
  | case4 a b c d text hall ih =>
    simp only [readString, if_pos hall, Option.map_eq_some_iff] at h
    obtain ⟨inner, hinner, rfl⟩ := h
    exact @hcons (.hex [a, b, c, d]) _ _ (by rw [Item.spelled, hall]; rfl) (ih hinner)
  | case5 a b c d text hall =>
    simp only [readString, if_neg hall] at h
    cases h
  | case6 e text hnot hmem ih =>
    rw [readString.eq_5 _ _ hnot, if_pos hmem, Option.map_eq_some_iff] at h
    obtain ⟨inner, hinner, rfl⟩ := h
    exact @hcons (.short e) _ _ (decide_eq_true hmem) (ih hinner)
  | case7 e text hnot hmem =>
    rw [readString.eq_5 _ _ hnot, if_neg hmem] at h
    cases h
  | case8 text hnot hnone =>
    rw [readString.eq_6 _ hnot hnone] at h
    cases h
  | case9 c text hquote hescape hshort hback hcontrol =>
    rw [readString.eq_7 _ _ hquote hescape hshort hback, if_pos hcontrol] at h
    cases h
  | case10 c text hquote hescape hshort hback hcontrol ih =>
    rw [readString.eq_7 _ _ hquote hescape hshort hback, if_neg hcontrol,
      Option.map_eq_some_iff] at h
    obtain ⟨inner, hinner, rfl⟩ := h
    have hspelled : Item.spelled (.plain (.inl c)) = true := by
      simp only [Item.spelled, Bool.and_eq_true, decide_eq_true_eq]
      exact ⟨⟨hquote, hback⟩, by omega⟩
    exact hcons hspelled (ih hinner)

theorem readString_shorter {text : List Rune} {read : List Item × List Rune}
    (h : readString text = some read) : read.2.length < text.length := by
  rw [(text_of_readString h).2, List.length_append, List.length_cons]
  omega

theorem takeDigits_le (text : List Rune) : (takeDigits text).2.length ≤ text.length := by
  induction text with
  | nil => simp [takeDigits]
  | cons rune text ih =>
    cases rune with
    | inr b => simp [takeDigits]
    | inl c =>
      unfold takeDigits
      split_ifs
      · simp only [List.length_cons]
        omega
      · simp

theorem takeFraction_le (text : List Rune) : (takeFraction text).2.length ≤ text.length := by
  unfold takeFraction
  split
  · next rest =>
    have hle := takeDigits_le rest
    simp only [List.length_cons]
    omega
  · simp

theorem takeSign_le (text : List Rune) : (takeSign text).2.length ≤ text.length := by
  unfold takeSign
  split <;> simp

theorem takeExponent_le (text : List Rune) : (takeExponent text).2.length ≤ text.length := by
  unfold takeExponent
  split
  · next c rest =>
    have hsign := takeSign_le rest
    have hdigits := takeDigits_le (takeSign rest).2
    split_ifs
    · simp only [List.length_cons]
      omega
    · simp
  · simp

/-- A number takes at least the first digit of its whole part. -/
theorem readNumber_shorter {negative : Bool} {text : List Rune} {read : Number × List Rune}
    (h : readNumber negative text = some read) : read.2.length < text.length := by
  unfold readNumber at h
  simp only at h
  split at h
  · next hwhole =>
    split at h
    · split at h
      · have heq : (takeExponent (takeFraction (takeDigits text).2).2).2 = read.2 :=
          congrArg Prod.snd (Option.some.inj h)
        have hexponent := takeExponent_le (takeFraction (takeDigits text).2).2
        have hfraction := takeFraction_le (takeDigits text).2
        have hdigits : (takeDigits text).2.length < text.length := by
          cases text with
          | nil => simp [takeDigits, wholeNumber] at hwhole
          | cons rune rest =>
            cases rune with
            | inr b => simp [takeDigits, wholeNumber] at hwhole
            | inl c =>
              have hrest := takeDigits_le rest
              by_cases hc : isDigit c = true
              · simp only [takeDigits, if_pos hc, List.length_cons]
                omega
              · simp [takeDigits, hc, wholeNumber] at hwhole
        rw [← heq]
        omega
      · cases h
    · cases h
  · cases h

theorem afterWord_le {word : String} {text rest : List Rune} (h : afterWord word text = some rest) :
    rest.length ≤ text.length := by
  unfold afterWord at h
  simp only at h
  split_ifs at h with hp
  have heq : List.drop _ text = rest := Option.some.inj h
  rw [← heq, List.length_drop]
  omega

theorem nextToken_shorter {rune : Rune} {text : List Rune} {read : Token × List Rune}
    (h : nextToken rune text = some read) : read.2.length ≤ text.length := by
  cases rune with
  | inr b => simp [nextToken] at h
  | inl c =>
    simp only [nextToken] at h
    split_ifs at h
    · cases h
      exact le_rfl
    · cases h
      exact le_rfl
    · obtain ⟨inner, hinner, rfl⟩ := Option.map_eq_some_iff.mp h
      exact (readString_shorter hinner).le
    · obtain ⟨inner, hinner, rfl⟩ := Option.map_eq_some_iff.mp h
      exact (readNumber_shorter hinner).le
    · obtain ⟨inner, hinner, rfl⟩ := Option.map_eq_some_iff.mp h
      have hlt := readNumber_shorter hinner
      exact Nat.le_of_lt_succ hlt
    · obtain ⟨inner, hinner, rfl⟩ := Option.map_eq_some_iff.mp h
      exact afterWord_le hinner
    · obtain ⟨inner, hinner, rfl⟩ := Option.map_eq_some_iff.mp h
      exact afterWord_le hinner
    · obtain ⟨inner, hinner, rfl⟩ := Option.map_eq_some_iff.mp h
      exact afterWord_le hinner

/-- The scanner of JSON texts. -/
def scanner : Lexer Unit Rune Token where
  next _ rune text := (nextToken rune text).map fun read => (read.1, (), read.2)
  shorter h := by
    obtain ⟨read, hread, heq⟩ := Option.map_eq_some_iff.mp h
    cases heq
    exact nextToken_shorter hread

/-! ### Documents -/

/-- A document with its strings and numbers as they are spelled. -/
inductive Doc
  | null
  | bool (value : Bool)
  | num (value : Number)
  | str (items : List Item)
  | arr (docs : List Doc)
  | obj (members : List (List Item × Doc))

/-- What surrounds the value that is read: the items of an array, the members of an object, or those
and the name of the member whose value it is. -/
inductive Frame
  | items (done : List Doc)
  | members (done : List (List Item × Doc))
  | member (done : List (List Item × Doc)) (name : List Item)

/-- What is to come: a value, an item or the end of the array, a name or the end of the object, a
name, a colon, or what follows a value. -/
inductive Mode
  | value
  | item
  | member
  | name
  | colon
  | after (doc : Doc)

/-- `maxNestingDepth` of `encoding/json`. -/
def maxNestingDepth : ℕ := 10000

/-- A container is opened. -/
def opened (mode : Mode) (frame : Frame) (stack : List Frame) : Option (Mode × List Frame) :=
  if stack.length < maxNestingDepth then some (mode, frame :: stack) else none

/-- The token that a value starts with. -/
def startValue (stack : List Frame) : Token → Option (Mode × List Frame)
  | .null => some (.after .null, stack)
  | .bool value => some (.after (.bool value), stack)
  | .number value => some (.after (.num value), stack)
  | .string items => some (.after (.str items), stack)
  | .punct '[' => opened .item (.items []) stack
  | .punct '{' => opened .member (.members []) stack
  | _ => none

/-- One token. -/
def readToken : Mode × List Frame → Token → Option (Mode × List Frame)
  | state, .blank => some state
  | (.value, stack), token => startValue stack token
  | (.item, .items [] :: stack), .punct ']' => some (.after (.arr []), stack)
  | (.item, stack), token => startValue stack token
  | (.member, .members [] :: stack), .punct '}' => some (.after (.obj []), stack)
  | (.member, .members done :: stack), .string name => some (.colon, .member done name :: stack)
  | (.name, .members done :: stack), .string name => some (.colon, .member done name :: stack)
  | (.colon, stack), .punct ':' => some (.value, stack)
  | (.after doc, .items done :: stack), .punct ',' => some (.value, .items (done ++ [doc]) :: stack)
  | (.after doc, .items done :: stack), .punct ']' => some (.after (.arr (done ++ [doc])), stack)
  | (.after doc, .member done name :: stack), .punct ',' =>
    some (.name, .members (done ++ [(name, doc)]) :: stack)
  | (.after doc, .member done name :: stack), .punct '}' =>
    some (.after (.obj (done ++ [(name, doc)])), stack)
  | _, _ => none

/-- The document of a text; `json.Valid` says whether there is one. -/
def parseRunes (text : List Rune) : Option Doc := do
  let tokens ← scanner.lex () text
  match ← tokens.foldlM readToken (.value, []) with
  | (.after doc, []) => some doc
  | _ => none

/-- The document of a Go string. -/
def parse (text : GoString) : Option Doc := parseRunes (runesOf text)

mutual

/-- The number of containers around the deepest value. -/
def Doc.depth : Doc → ℕ
  | .arr docs => 1 + depthOfDocs docs
  | .obj members => 1 + depthOfNamed members
  | _ => 0

def depthOfDocs : List Doc → ℕ
  | [] => 0
  | doc :: docs => max doc.depth (depthOfDocs docs)

def depthOfNamed : List (List Item × Doc) → ℕ
  | [] => 0
  | (_, doc) :: members => max doc.depth (depthOfNamed members)

end

/-! ### Values -/

/-- The number that digits spell. -/
def digitsNumber (digits : List Char) : ℕ := Nat.ofDigitChars 10 digits 0

/-- The power of ten of an exponent. -/
def exponentValue (e : Exponent) : ℤ :=
  if e.sign = some true then -(digitsNumber e.digits : ℤ) else digitsNumber e.digits

/-- The number of a token. -/
def numberValue (n : Number) : ℚ :=
  let fraction := n.fraction.getD []
  let magnitude : ℚ := digitsNumber (n.whole ++ fraction)
  let exponent := (n.exponent.map exponentValue).getD 0 - fraction.length
  (if n.negative then -magnitude else magnitude) * 10 ^ exponent

/-- The last of the members of one name. -/
def lastMembers {ν : Type} : List (String × ν) → List (String × ν)
  | [] => []
  | member :: members =>
    if member.1 ∈ members.map Prod.fst then lastMembers members else member :: lastMembers members

/-- The text of a string. -/
def textOf (items : List Item) : String := String.ofList (content items)

mutual

/-- The value of a document: of the members of one name the last one counts. -/
def meaning : Doc → Json ℚ
  | .null => .null
  | .bool value => .bool value
  | .num value => .num (numberValue value)
  | .str items => .str (textOf items)
  | .arr docs => .arr (meanings docs)
  | .obj members => .obj (lastMembers (memberMeanings members))

def meanings : List Doc → List (Json ℚ)
  | [] => []
  | doc :: docs => meaning doc :: meanings docs

def memberMeanings : List (List Item × Doc) → List (String × Json ℚ)
  | [] => []
  | (name, doc) :: members => (textOf name, meaning doc) :: memberMeanings members

end

/-! ### Readers with a narrower grammar -/

/-- Every first half of a pair has its second half behind it, and no second half stands alone;
`pending` says that a first half has just been read. -/
def paired (pending : Bool) : List Item → Bool
  | [] => !pending
  | .hex digits :: items =>
    if pending then lowSurrogate (hexNumber digits) && paired false items
    else if highSurrogate (hexNumber digits) then paired true items
    else !lowSurrogate (hexNumber digits) && paired false items
  | _ :: items => !pending && paired false items

/-- An item that is text other than the null character. -/
def plainText : Item → Bool
  | .plain (.inr _) => false
  | .hex digits => hexNumber digits ≠ 0
  | _ => true

/-- A string that is text without null characters. -/
def storableString (items : List Item) : Bool := items.all plainText && paired false items

section Storable

variable (inRange : Number → Bool)

mutual

/-- A document whose strings are text without null characters and whose numbers are in range. -/
def storable : Doc → Bool
  | .num value => inRange value
  | .str items => storableString items
  | .arr docs => storableDocs docs
  | .obj members => storableMembers members
  | _ => true

def storableDocs : List Doc → Bool
  | [] => true
  | doc :: docs => storable doc && storableDocs docs

def storableMembers : List (List Item × Doc) → Bool
  | [] => true
  | (name, doc) :: members => storableString name && storable doc && storableMembers members

end

end Storable

/-! ### Compact texts -/

/-- The hexadecimal digit of a number below sixteen. -/
def hexDigit (n : ℕ) : Char := Char.ofNat (if n < 10 then '0'.toNat + n else 'a'.toNat + (n - 10))

/-- The four digits of an escape. -/
def hexDigits (n : ℕ) : List Char :=
  [hexDigit (n / 4096), hexDigit (n / 256 % 16), hexDigit (n / 16 % 16), hexDigit (n % 16)]

/-- What `encoding/json` escapes for the sake of HTML and of JavaScript. -/
def htmlRune (c : Char) : Bool :=
  c = '<' || c = '>' || c = '&' || c = Char.ofNat 0x2028 || c = Char.ofNat 0x2029

/-- `appendCompact` on one item. -/
def compactItem : Item → Item
  | .plain (.inl c) => if htmlRune c then .hex (hexDigits c.toNat) else .plain (.inl c)
  | item => item

mutual

/-- `appendCompact`: the document of the text that it writes. -/
def compact : Doc → Doc
  | .str items => .str (items.map compactItem)
  | .arr docs => .arr (compactDocs docs)
  | .obj members => .obj (compactMembers members)
  | doc => doc

def compactDocs : List Doc → List Doc
  | [] => []
  | doc :: docs => compact doc :: compactDocs docs

def compactMembers : List (List Item × Doc) → List (List Item × Doc)
  | [] => []
  | (name, doc) :: members => (name.map compactItem, compact doc) :: compactMembers members

end

/-- `appendString` on one rune. -/
def encodeRune : Rune → Item
  | .inr _ => .hex (hexDigits replacement.toNat)
  | .inl c =>
    if c = '"' ∨ c = '\\' then .short c
    else if c = Char.ofNat 8 then .short 'b'
    else if c = Char.ofNat 12 then .short 'f'
    else if c = '\n' then .short 'n'
    else if c = '\r' then .short 'r'
    else if c = '\t' then .short 't'
    else if c.toNat < 0x20 ∨ htmlRune c = true then .hex (hexDigits c.toNat)
    else .plain (.inl c)

/-- `appendString`: the items of a string that is written. -/
def encodeText (text : GoString) : List Item := (runesOf text).map encodeRune

theorem hexValue_hexDigit {n : ℕ} (h : n < 16) : hexValue (hexDigit n) = some n := by
  have hall : ∀ n < 16, hexValue (hexDigit n) = some n := by decide
  exact hall n h

/-- The digits of a number spell it. -/
theorem hexNumber_hexDigits {n : ℕ} (h : n < 65536) : hexNumber (hexDigits n) = n := by
  have h1 : hexValue (hexDigit (n / 4096)) = some (n / 4096) := hexValue_hexDigit (by omega)
  have h2 : hexValue (hexDigit (n / 256 % 16)) = some (n / 256 % 16) :=
    hexValue_hexDigit (by omega)
  have h3 : hexValue (hexDigit (n / 16 % 16)) = some (n / 16 % 16) := hexValue_hexDigit (by omega)
  have h4 : hexValue (hexDigit (n % 16)) = some (n % 16) := hexValue_hexDigit (by omega)
  simp only [hexNumber, hexDigits, List.foldl_cons, List.foldl_nil, h1, h2, h3, h4,
    Option.getD_some]
  omega

/-- An escape that is no first half of a pair stands for itself. -/
theorem content_hex {digits : List Char} (h : highSurrogate (hexNumber digits) = false)
    (items : List Item) :
    content (.hex digits :: items) = hexChar (hexNumber digits) :: content items := by
  cases items with
  | nil => rfl
  | cons item items =>
    cases item with
    | plain rune => rfl
    | short letter => rfl
    | hex others =>
      rw [content, h, Bool.false_and]
      rfl

/-- An escape before one that is no second half of a pair stands for itself. -/
theorem content_hex_hex {digits others : List Char} (h : lowSurrogate (hexNumber others) = false)
    (items : List Item) :
    content (.hex digits :: .hex others :: items) =
      hexChar (hexNumber digits) :: content (.hex others :: items) := by
  rw [content, h, Bool.and_false]
  rfl

theorem htmlRune_bounds {c : Char} (h : htmlRune c = true) :
    0 < c.toNat ∧ c.toNat < 0x202a := by
  simp only [htmlRune, Bool.or_eq_true, decide_eq_true_eq] at h
  rcases h with (((rfl | rfl) | rfl) | rfl) | rfl <;> decide

theorem highSurrogate_of_lt {n : ℕ} (h : n < 0xd800) : highSurrogate n = false := by
  simp only [highSurrogate, Bool.and_eq_false_iff, decide_eq_false_iff_not]
  omega

theorem lowSurrogate_of_lt {n : ℕ} (h : n < 0xd800) : lowSurrogate n = false := by
  simp only [lowSurrogate, Bool.and_eq_false_iff, decide_eq_false_iff_not]
  omega

/-- The escape of a character below the surrogates is that character. -/
theorem hexChar_hexDigits {c : Char} (h : c.toNat < 0xd800) :
    hexChar (hexNumber (hexDigits c.toNat)) = c := by
  rw [hexNumber_hexDigits (by omega), hexChar, highSurrogate_of_lt h, lowSurrogate_of_lt h]
  exact Char.ofNat_toNat c

theorem highSurrogate_hexDigits {n : ℕ} (h : n < 0xd800) :
    highSurrogate (hexNumber (hexDigits n)) = false := by
  rw [hexNumber_hexDigits (by omega)]
  exact highSurrogate_of_lt h

theorem lowSurrogate_hexDigits {n : ℕ} (h : n < 0xd800) :
    lowSurrogate (hexNumber (hexDigits n)) = false := by
  rw [hexNumber_hexDigits (by omega)]
  exact lowSurrogate_of_lt h

theorem content_cons_compactItem (rune : Rune) (items : List Item) :
    content (compactItem (.plain rune) :: items) = content (.plain rune :: items) := by
  cases rune with
  | inr b => rfl
  | inl c =>
    by_cases hc : htmlRune c = true
    · have hlt : c.toNat < 0xd800 := by
        have hbounds := htmlRune_bounds hc
        omega
      rw [compactItem, if_pos hc, content_hex (highSurrogate_hexDigits hlt), hexChar_hexDigits hlt,
        content]
    · rw [compactItem, if_neg hc]

/-- A first half of a pair pairs with nothing that `compact` writes. -/
theorem content_hex_compactItem (digits : List Char) (rune : Rune) (items : List Item) :
    content (.hex digits :: compactItem (.plain rune) :: items) =
      hexChar (hexNumber digits) :: content (compactItem (.plain rune) :: items) := by
  cases rune with
  | inr b => rfl
  | inl c =>
    by_cases hc : htmlRune c = true
    · have hlt : c.toNat < 0xd800 := by
        have hbounds := htmlRune_bounds hc
        omega
      rw [compactItem, if_pos hc]
      exact content_hex_hex (lowSurrogate_hexDigits hlt) items
    · rw [compactItem, if_neg hc]
      rfl

/-- **A compact string has the same content.** -/
theorem content_map_compactItem (items : List Item) :
    content (items.map compactItem) = content items := by
  induction items using content.induct with
  | case1 => rfl
  | case2 c items ih =>
    rw [List.map_cons, content_cons_compactItem, content, content, ih]
  | case3 b items ih =>
    rw [List.map_cons, content_cons_compactItem, content, content, ih]
  | case4 letter items ih =>
    rw [List.map_cons, compactItem, content, content, ih]
    all_goals simp
  | case5 digits others items hpair ih =>
    rw [List.map_cons, List.map_cons, compactItem, compactItem, content, content, if_pos hpair,
      if_pos hpair, ih]
    all_goals simp
  | case6 digits others items hpair ih =>
    rw [List.map_cons, List.map_cons, compactItem, compactItem, content, content, if_neg hpair,
      if_neg hpair]
    · rw [List.map_cons, compactItem] at ih
      · rw [ih]
      · simp
    all_goals simp
  | case7 digits items hnot ih =>
    rw [content.eq_6 _ _ hnot, ← ih, List.map_cons, compactItem]
    · cases items with
      | nil => rfl
      | cons item items =>
        cases item with
        | plain rune => exact content_hex_compactItem digits rune _
        | short letter => rfl
        | hex others => exact absurd rfl (hnot others items)
    · simp

theorem paired_map_compactItem (items : List Item) (pending : Bool) :
    paired pending (items.map compactItem) = paired pending items := by
  induction items generalizing pending with
  | nil => rfl
  | cons item items ih =>
    rw [List.map_cons]
    cases item with
    | short letter => simp only [compactItem, paired, ih]
    | hex digits => simp only [compactItem, paired, ih]
    | plain rune =>
      cases rune with
      | inr b => simp only [compactItem, paired, ih]
      | inl c =>
        by_cases hc : htmlRune c = true
        · have hlt : c.toNat < 0xd800 := by
            have hbounds := htmlRune_bounds hc
            omega
          rw [compactItem, if_pos hc, paired, paired, ih, lowSurrogate_hexDigits hlt,
            highSurrogate_hexDigits hlt]
          · cases pending <;> simp
          · simp
        · simp only [compactItem, if_neg hc, paired, ih]

theorem plainText_compactItem (item : Item) : plainText (compactItem item) = plainText item := by
  cases item with
  | short letter => rfl
  | hex digits => rfl
  | plain rune =>
    cases rune with
    | inr b => rfl
    | inl c =>
      by_cases hc : htmlRune c = true
      · have hbounds := htmlRune_bounds hc
        rw [compactItem, if_pos hc, plainText, hexNumber_hexDigits (by omega)]
        simp only [plainText, decide_eq_true_eq]
        omega
      · rw [compactItem, if_neg hc]

theorem storableString_map_compactItem (items : List Item) :
    storableString (items.map compactItem) = storableString items := by
  unfold storableString
  rw [paired_map_compactItem, List.all_map]
  congr 1
  have heq : plainText ∘ compactItem = plainText := funext plainText_compactItem
  rw [heq]

theorem textOf_map_compactItem (items : List Item) :
    textOf (items.map compactItem) = textOf items := by
  rw [textOf, content_map_compactItem, textOf]

mutual

/-- **A compact text has the same value.** -/
theorem meaning_compact : ∀ doc : Doc, meaning (compact doc) = meaning doc
  | .null => rfl
  | .bool _ => rfl
  | .num _ => rfl
  | .str items => by rw [compact, meaning, meaning, textOf_map_compactItem]
  | .arr docs => by rw [compact, meaning, meaning, meanings_compactDocs docs]
  | .obj members => by rw [compact, meaning, meaning, memberMeanings_compactMembers members]

theorem meanings_compactDocs : ∀ docs : List Doc, meanings (compactDocs docs) = meanings docs
  | [] => rfl
  | doc :: docs => by
    rw [compactDocs, meanings, meanings, meaning_compact doc, meanings_compactDocs docs]

theorem memberMeanings_compactMembers : ∀ members : List (List Item × Doc),
    memberMeanings (compactMembers members) = memberMeanings members
  | [] => rfl
  | (name, doc) :: members => by
    rw [compactMembers, memberMeanings, memberMeanings, textOf_map_compactItem,
      meaning_compact doc, memberMeanings_compactMembers members]

end

section Storable

variable (inRange : Number → Bool)

mutual

/-- **A compact text is taken by the same readers.** -/
theorem storable_compact : ∀ doc : Doc, storable inRange (compact doc) = storable inRange doc
  | .null => rfl
  | .bool _ => rfl
  | .num _ => rfl
  | .str items => by rw [compact, storable, storable, storableString_map_compactItem]
  | .arr docs => by rw [compact, storable, storable, storableDocs_compactDocs docs]
  | .obj members => by rw [compact, storable, storable, storableMembers_compactMembers members]

theorem storableDocs_compactDocs : ∀ docs : List Doc,
    storableDocs inRange (compactDocs docs) = storableDocs inRange docs
  | [] => rfl
  | doc :: docs => by
    rw [compactDocs, storableDocs, storableDocs, storable_compact doc,
      storableDocs_compactDocs docs]

theorem storableMembers_compactMembers : ∀ members : List (List Item × Doc),
    storableMembers inRange (compactMembers members) = storableMembers inRange members
  | [] => rfl
  | (name, doc) :: members => by
    rw [compactMembers, storableMembers, storableMembers, storableString_map_compactItem,
      storable_compact doc, storableMembers_compactMembers members]

end

end Storable

/-! ### Written strings -/

theorem encodeRune_cases (c : Char) :
    (encodeRune (.inl c) = .plain (.inl c)) ∨
      (∃ letter, encodeRune (.inl c) = .short letter ∧ shortChar letter = c) ∨
      (encodeRune (.inl c) = .hex (hexDigits c.toNat) ∧ c.toNat < 0xd800) := by
  rw [encodeRune]
  split_ifs with hquote hb hf hn hr ht hhex
  · right; left
    rcases hquote with rfl | rfl
    · exact ⟨_, rfl, by decide⟩
    · exact ⟨_, rfl, by decide⟩
  · exact .inr (.inl ⟨_, rfl, by rw [hb]; decide⟩)
  · exact .inr (.inl ⟨_, rfl, by rw [hf]; decide⟩)
  · exact .inr (.inl ⟨_, rfl, by rw [hn]; decide⟩)
  · exact .inr (.inl ⟨_, rfl, by rw [hr]; decide⟩)
  · exact .inr (.inl ⟨_, rfl, by rw [ht]; decide⟩)
  · right; right
    refine ⟨rfl, ?_⟩
    rcases hhex with hlt | hhtml
    · omega
    · have hbounds := htmlRune_bounds hhtml
      omega
  · exact .inl rfl

/-- A text is the content of what is written for it. -/
theorem content_encodeText (s : String) : content (encodeText s) = s.toList := by
  have hlist : ∀ l : List Char, content ((l.map Sum.inl).map encodeRune) = l := by
    intro l
    induction l with
    | nil => rfl
    | cons c l ih =>
      rw [List.map_cons, List.map_cons]
      rcases encodeRune_cases c with heq | ⟨letter, heq, hchar⟩ | ⟨heq, hlt⟩
      · rw [heq, content, ih]
      · rw [heq, content, ih, hchar]
      · rw [heq, content_hex (highSurrogate_hexDigits hlt), hexChar_hexDigits hlt, ih]
  exact hlist s.toList

theorem textOf_encodeText (s : String) : textOf (encodeText s) = s := by
  rw [textOf, content_encodeText, String.ofList_toList]

/-- A text without null characters is stored. -/
theorem storableString_encodeText {s : String} (h : ∀ c ∈ s.toList, c.toNat ≠ 0) :
    storableString (encodeText s) = true := by
  have hlist : ∀ l : List Char, (∀ c ∈ l, c.toNat ≠ 0) →
      storableString ((l.map Sum.inl).map encodeRune) = true := by
    intro l hl
    induction l with
    | nil => rfl
    | cons c l ih =>
      have hc : c.toNat ≠ 0 := hl c List.mem_cons_self
      have ih := ih fun d hd => hl d (List.mem_cons_of_mem _ hd)
      rw [storableString, Bool.and_eq_true] at ih
      rw [List.map_cons, List.map_cons, storableString, List.all_cons]
      rcases encodeRune_cases c with heq | ⟨letter, heq, hchar⟩ | ⟨heq, hlt⟩
      · rw [heq, plainText, paired, ih.1, ih.2]
        · rfl
        all_goals simp
      · rw [heq, plainText, paired, ih.1, ih.2]
        · rfl
        all_goals simp
      · rw [heq, plainText, paired, ih.1, ih.2, lowSurrogate_hexDigits hlt,
          highSurrogate_hexDigits hlt, hexNumber_hexDigits (by omega)]
        simpa using hc
  exact hlist s.toList h

/-! ### Members -/

section Members

variable {ν : Type}

theorem mem_names_lastMembers {members : List (String × ν)} {name : String} :
    name ∈ (lastMembers members).map Prod.fst ↔ name ∈ members.map Prod.fst := by
  induction members with
  | nil => rfl
  | cons member members ih =>
    unfold lastMembers
    split_ifs with hmem
    · rw [ih, List.map_cons, List.mem_cons]
      constructor
      · exact Or.inr
      · rintro (rfl | h)
        · exact hmem
        · exact h
    · rw [List.map_cons, List.mem_cons, ih, List.map_cons, List.mem_cons]

/-- The member that counts is the last of its name. -/
theorem lookup_lastMembers (members : List (String × ν)) (name : String) :
    (lastMembers members).lookup name =
      ((members.filter fun member => member.1 = name).map Prod.snd).getLast? := by
  induction members with
  | nil => rfl
  | cons member members ih =>
    obtain ⟨key, value⟩ := member
    have hempty : key ∉ members.map Prod.fst →
        members.filter (fun member => member.1 = key) = [] := by
      intro h
      rw [List.filter_eq_nil_iff]
      intro other hother heq
      have hkey : other.1 = key := of_decide_eq_true heq
      exact h (hkey ▸ List.mem_map_of_mem hother)
    have hsome : key ∈ members.map Prod.fst →
        ((members.filter fun member => member.1 = key).map Prod.snd) ≠ [] := by
      intro h hnil
      obtain ⟨other, hother, hkey⟩ := List.mem_map.mp h
      have hmem : other ∈ members.filter fun member => member.1 = key :=
        List.mem_filter.mpr ⟨hother, by simpa using hkey⟩
      rw [List.map_eq_nil_iff.mp hnil] at hmem
      cases hmem
    unfold lastMembers
    by_cases hname : key = name
    · subst hname
      rw [List.filter_cons_of_pos (by simp), List.map_cons]
      split_ifs with hmem
      · rw [ih, List.getLast?_cons_of_ne_nil (hsome hmem)]
      · rw [List.lookup_cons_self, hempty hmem]
        rfl
    · rw [List.filter_cons_of_neg (by simpa using hname)]
      split_ifs with hmem
      · exact ih
      · have hne : (name == key) = false := by simpa using Ne.symm hname
        rw [List.lookup_cons, hne]
        exact ih

theorem memberMeanings_eq_map (members : List (List Item × Doc)) :
    memberMeanings members = members.map fun member => (textOf member.1, meaning member.2) := by
  induction members with
  | nil => rfl
  | cons member members ih => rw [memberMeanings, ih, List.map_cons]

/-- The value of a member is that of the last document of its name. -/
theorem lookup_meaning (members : List (List Item × Doc)) (name : String) :
    (lastMembers (memberMeanings members)).lookup name =
      ((members.filter fun member => textOf member.1 = name).map Prod.snd).getLast?.map meaning := by
  rw [lookup_lastMembers, memberMeanings_eq_map, List.filter_map, List.map_map, ← List.getLast?_map,
    List.map_map]
  rfl

theorem lastMembers_sublist (members : List (String × ν)) :
    (lastMembers members).Sublist members := by
  induction members with
  | nil => exact .slnil
  | cons member members ih =>
    unfold lastMembers
    split_ifs
    · exact .cons _ ih
    · exact .cons_cons _ ih

theorem nodup_lastMembers (members : List (String × ν)) :
    ((lastMembers members).map Prod.fst).Nodup := by
  induction members with
  | nil => exact List.nodup_nil
  | cons member members ih =>
    unfold lastMembers
    split_ifs with hmem
    · exact ih
    · rw [List.map_cons, List.nodup_cons]
      exact ⟨fun h => hmem (mem_names_lastMembers.mp h), ih⟩

mutual

/-- The objects of a value have distinct names. -/
theorem distinct_meaning : ∀ doc : Doc, distinct (meaning doc) = true
  | .null => rfl
  | .bool _ => rfl
  | .num _ => rfl
  | .str _ => rfl
  | .arr docs => by
    rw [meaning, distinct]
    exact distinctItems_meanings docs
  | .obj members => by
    have hall := distinctMembers_iff.mp (distinctMembers_memberMeanings members)
    rw [meaning, distinct, Bool.and_eq_true, decide_eq_true_eq]
    refine ⟨nodup_lastMembers _, distinctMembers_iff.mpr ?_⟩
    intro member hmember
    exact hall member ((lastMembers_sublist _).subset hmember)

theorem distinctItems_meanings : ∀ docs : List Doc, distinctItems (meanings docs) = true
  | [] => rfl
  | doc :: docs => by
    rw [meanings, distinctItems, distinct_meaning doc, distinctItems_meanings docs]
    rfl

theorem distinctMembers_memberMeanings : ∀ members : List (List Item × Doc),
    distinctMembers (memberMeanings members) = true
  | [] => rfl
  | (name, doc) :: members => by
    rw [memberMeanings, distinctMembers, distinct_meaning doc,
      distinctMembers_memberMeanings members]
    rfl

end

/-- A document has the value of itself. -/
theorem alike_meaning_self (doc : Doc) : alike (meaning doc) (meaning doc) = true :=
  alike_self _ (distinct_meaning doc)

end Members

end Modary.Lib.JsonText
