import Modary.Lib.Codec
import Modary.Lib.JsonNumber
import Modary.Lib.JsonPointer

/-! # The schema profile

The limits on a schema document, and the checks of `internal/jsonschema` on the members of one
schema object that look at no other schema. -/

namespace Modary.Schema.Profile

open Modary.Lib.GoText Modary.Lib.JsonValue Modary.Lib.JsonNumber Modary.Lib.JsonPointer
open Modary.Lib.Codec (encodeString)

/-- A JSON document whose numbers are kept as their tokens. -/
abbrev Value := Json Number

/-- The members of an object. -/
abbrev Members := List (String × Value)

/-! ### Limits -/

def maxFrozenValueNodes : ℕ := 262144

def maxFrozenContainerDepth : ℕ := 1024

def maxSchemaNestingDepth : ℕ := 512

def canonicalDraft7URI : String := "http://json-schema.org/draft-07/schema#"

/-- `CompileLimits`. -/
structure CompileLimits where
  maxSchemaNodes : ℕ
  maxSchemaCollectionEntries : ℕ
  maxSchemaEnumValues : ℕ
  maxSchemaLiteralBytes : ℕ
  maxSchemaPatternBytes : ℕ
  maxSameInstanceSchemaVisits : ℕ
  maxNumericCompileWorkUnits : ℕ

/-- `DefaultCompileLimits`. -/
def defaultCompileLimits : CompileLimits where
  maxSchemaNodes := 2048
  maxSchemaCollectionEntries := 512
  maxSchemaEnumValues := 256
  maxSchemaLiteralBytes := 16 * 1024
  maxSchemaPatternBytes := 4 * 1024
  maxSameInstanceSchemaVisits := 1024
  maxNumericCompileWorkUnits := 64 * 1024 * 1024

/-- `CompileLimits.validate`. -/
def CompileLimits.valid (limits : CompileLimits) : Bool :=
  0 < limits.maxSchemaNodes && 0 < limits.maxSchemaCollectionEntries &&
    0 < limits.maxSchemaEnumValues && 0 < limits.maxSchemaLiteralBytes &&
    0 < limits.maxSchemaPatternBytes && 0 < limits.maxSameInstanceSchemaVisits &&
    0 < limits.maxNumericCompileWorkUnits

/-- The texts that an error of the vendored engine may have: which one it is depends on the order in
which Go goes through its maps. -/
structure Texts where
  first : String
  others : List String
  deriving DecidableEq, Repr

/-- The error has one text in every order. -/
def Texts.Settled (texts : Texts) : Prop := ∀ other ∈ texts.others, other = texts.first

/-- Why a document is refused, or that the check panics. -/
inductive Refusal
  | message (text : String)
  | quoted (text value : String)
  | limit (name : String) (bound : ℕ)
  | reference (target : String) (err : PointerError)
  | located (path : Bytes) (reason : Refusal)
  | engine (start : String) (texts : Texts)
  | panics
  deriving DecidableEq, Repr

/-- `schemaLimitError`, when a limit is exceeded. -/
def requireLimit (name : String) (amount bound : ℕ) : Except Refusal Unit :=
  refuseIf (bound < amount) (.limit name bound)

/-- `cloneJSON`: of a document that is a tree the clone is the document itself. -/
def cloneJSON (value : Value) : Except Refusal Value :=
  if maxFrozenValueNodes < nodes value then .error (.limit "value node" maxFrozenValueNodes)
  else if maxFrozenContainerDepth < depth value then
    .error (.limit "internal container depth" maxFrozenContainerDepth)
  else .ok value

/-- `isSchemaValue`. -/
def isSchemaValue : Value → Bool
  | .bool _ => true
  | .obj _ => true
  | _ => false

/-- `strings.TrimSuffix(value, "#")`. -/
def trimHash (value : String) : String :=
  if value.toList.getLast? = some '#' then String.ofList value.toList.dropLast else value

/-- `isDraft7URI`. -/
def isDraft7URI (value : String) : Bool :=
  trimHash value = "http://json-schema.org/draft-07/schema" ||
    trimHash value = "https://json-schema.org/draft-07/schema"

/-! ### Work on numbers -/

def maxUint64 : ℕ := 2 ^ 64 - 1

def saturatingAdd (left right : ℕ) : ℕ := min (left + right) maxUint64

def saturatingMultiply (left right : ℕ) : ℕ := min (left * right) maxUint64

/-- The number that digits spell. -/
def digitsValue (digits : List Char) : ℕ := Nat.ofDigitChars 10 digits 0

/-- `numericCompileWork`. -/
def numericCompileWork (token : Number) : ℕ :=
  let tokenBytes := token.text.length
  let work := saturatingAdd 1 (saturatingMultiply tokenBytes tokenBytes)
  match token.exponent with
  | none => work
  | some exponent =>
    let magnitude := digitsValue exponent.digits
    if maxUint64 < magnitude then maxUint64
    else saturatingAdd work (saturatingMultiply magnitude magnitude)

mutual

/-- `addLiteralNumericWork`. -/
def addLiteralNumericWork (work : ℕ) : Value → ℕ
  | .num token => saturatingAdd work (numericCompileWork token)
  | .arr items => addItemsNumericWork work items
  | .obj members => addMembersNumericWork work members
  | _ => work

def addItemsNumericWork (work : ℕ) : List Value → ℕ
  | [] => work
  | item :: items => addItemsNumericWork (addLiteralNumericWork work item) items

def addMembersNumericWork (work : ℕ) : Members → ℕ
  | [] => work
  | (_, value) :: members => addMembersNumericWork (addLiteralNumericWork work value) members

end

/-! ### Literals -/

/-- The bytes of a string literal of `json.Marshal`. -/
def stringSize (s : String) : ℕ := byteLength (encodeString s)

mutual

/-- `encodedJSONSize`: the length of what `json.Marshal` writes. -/
def encodedJSONSize : Value → ℕ
  | .null => 4
  | .bool true => 4
  | .bool false => 5
  | .num token => token.text.length
  | .str s => stringSize s
  | .arr items => 2 + (items.length - 1) + itemsSize items
  | .obj members => 2 + (members.length - 1) + membersSize members

def itemsSize : List Value → ℕ
  | [] => 0
  | item :: items => encodedJSONSize item + itemsSize items

def membersSize : Members → ℕ
  | [] => 0
  | (name, value) :: members => stringSize name + 1 + encodedJSONSize value + membersSize members

end

/-- `positiveNumber`. -/
def positiveNumber (token : Number) : Bool :=
  !token.negative && (token.whole ++ token.fraction.getD []).any fun c => '1' ≤ c && c ≤ '9'

/-- `onlyZeroDigits`. -/
def onlyZeroDigits (digits : List Char) : Bool :=
  digits ≠ [] && digits.all fun c => c = '0' || c = '.'

/-- The exponent as an integer. -/
def exponentValue (exponent : Exponent) : ℤ :=
  if exponent.sign = some true then -(digitsValue exponent.digits : ℤ)
  else digitsValue exponent.digits

/-- What an `int64` keeps of an integer. -/
def int64 (n : ℤ) : ℤ := n.bmod (2 ^ 64)

/-- `nonNegativeInteger`; `none` is a panic, of a slice that starts outside its string. -/
def nonNegativeInteger (token : Number) : Option Bool :=
  let fraction := token.fraction.getD []
  let digits := token.whole ++ fraction
  let zero := onlyZeroDigits digits
  let exponent := (token.exponent.map exponentValue).getD 0
  if exponent < -2 ^ 63 ∨ 2 ^ 63 ≤ exponent then
    if token.negative && !zero then some false else some (0 < exponent)
  else if token.negative && !zero then some false
  else if zero ∨ int64 fraction.length ≤ exponent then some true
  else
    let unshifted := int64 (int64 fraction.length - exponent)
    if int64 digits.length < unshifted then some false
    else
      let low := int64 (int64 digits.length - unshifted)
      if low < 0 ∨ digits.length < low then none
      else some (onlyZeroDigits (digits.drop low.toNat))

/-! ### Keywords -/

/-- `requireUniqueStrings`, after some strings are seen. -/
def requireUniqueStrings (keyword : String) : List String → List Value → Except Refusal Unit
  | _, [] => .ok ()
  | seen, .str text :: values =>
    if text ∈ seen then .error (.message (keyword ++ " must contain unique strings"))
    else requireUniqueStrings keyword (text :: seen) values
  | _, _ :: _ => .error (.message (keyword ++ " must contain only strings"))

/-- A JSON type name. -/
def validTypeName (name : String) : Bool :=
  name ∈ ["array", "boolean", "integer", "null", "number", "object", "string"]

/-- `validateTypeKeyword`. -/
def validateTypeKeyword (limit : ℕ) : Value → Except Refusal Unit
  | .str name =>
    refuseIf (validTypeName name = false) (.quoted "type contains unsupported JSON type" name)
  | .arr names => do
    refuseIf (names = [])
      (.message "type must be a JSON type name or non-empty array of unique type names")
    requireLimit "type entries" names.length limit
    requireUniqueStrings "type" [] names
    names.forM fun value =>
      match value with
      | .str name =>
        refuseIf (validTypeName name = false) (.quoted "type contains unsupported JSON type" name)
      | _ => .ok ()
  | _ => .error (.message "type must be a JSON type name or non-empty array of unique type names")

/-- What the vendored validator says of some values under one budget: an answer, which no order
changes, or the limit that it stops at. -/
inductive Verdict
  | valid
  | invalid
  | stopped (texts : Texts)
  deriving DecidableEq, Repr

/-- What the profile leaves to other packages: `regexp.Compile`, and the vendored validator with
the pinned metaschema. -/
structure Setting where
  compiles : String → Bool
  metaschema : List Value → Verdict

/-- `validatePattern`. -/
def validatePattern (setting : Setting) (limit : ℕ) (pattern : String) : Except Refusal Unit := do
  requireLimit "pattern bytes" pattern.utf8ByteSize limit
  refuseIf (setting.compiles pattern = false)
    (.message "pattern is not a valid regular expression")

/-- A check of the member of a name, if there is one. -/
def whenPresent (members : Members) (keyword : String) (check : Value → Except Refusal Unit) :
    Except Refusal Unit :=
  match members.lookup keyword with
  | none => .ok ()
  | some value => check value

/-- The same with the numeric work so far. -/
def workOf (members : Members) (keyword : String) (check : Value → Except Refusal ℕ) (work : ℕ) :
    Except Refusal ℕ :=
  match members.lookup keyword with
  | none => .ok work
  | some value => check value

def isBool : Value → Bool
  | .bool _ => true
  | _ => false

def isText : Value → Bool
  | .str _ => true
  | _ => false

/-- `requireCollectionLimit`. -/
def requireCollectionLimit (limits : CompileLimits) (name : String) (length : ℕ) :
    Except Refusal Unit :=
  requireLimit (name ++ " entries") length limits.maxSchemaCollectionEntries

def inspectEnum (limits : CompileLimits) (work : ℕ) : Value → Except Refusal ℕ
  | .arr values => do
    refuseIf (values = []) (.message "enum must be a non-empty array")
    requireLimit "enum values" values.length limits.maxSchemaEnumValues
    requireLimit "enum literal bytes" (encodedJSONSize (.arr values)) limits.maxSchemaLiteralBytes
    .ok (addLiteralNumericWork work (.arr values))
  | _ => .error (.message "enum must be a non-empty array")

def inspectConst (limits : CompileLimits) (work : ℕ) (value : Value) : Except Refusal ℕ := do
  requireLimit "const literal bytes" (encodedJSONSize value) limits.maxSchemaLiteralBytes
  .ok (addLiteralNumericWork work value)

def inspectBound (work : ℕ) (keyword : String) : Value → Except Refusal ℕ
  | .num token => do
    refuseIf (keyword = "multipleOf" ∧ positiveNumber token = false)
      (.message "multipleOf must be greater than zero")
    .ok (saturatingAdd work (numericCompileWork token))
  | _ => .error (.message (keyword ++ " must be a number"))

def inspectCount (work : ℕ) (keyword : String) : Value → Except Refusal ℕ
  | .num token =>
    match nonNegativeInteger token with
    | none => .error .panics
    | some valid => do
      refuseIf (valid = false) (.message (keyword ++ " must be a non-negative integer"))
      .ok (saturatingAdd work (numericCompileWork token))
  | _ => .error (.message (keyword ++ " must be a non-negative integer"))

def inspectRequired (limits : CompileLimits) : Value → Except Refusal Unit
  | .arr names => do
    requireCollectionLimit limits "required" names.length
    requireUniqueStrings "required" [] names
  | _ => .error (.message "required must be an array of unique strings")

def inspectPattern (setting : Setting) (limits : CompileLimits) : Value → Except Refusal Unit
  | .str pattern => validatePattern setting limits.maxSchemaPatternBytes pattern
  | _ => .error (.message "pattern must be a string")

def inspectPatternNames (setting : Setting) (limits : CompileLimits) :
    Value → Except Refusal Unit
  | .obj patterns =>
    patterns.forM fun member => validatePattern setting limits.maxSchemaPatternBytes member.1
  | _ => .ok ()

/-- `inspectCollectionsAndLiterals`: the numeric work after the members of an object. -/
def inspectCollectionsAndLiterals (setting : Setting) (limits : CompileLimits) (members : Members)
    (work : ℕ) : Except Refusal ℕ := do
  let work ← workOf members "enum" (inspectEnum limits work) work
  let work ← workOf members "const" (inspectConst limits work) work
  let work ← ["exclusiveMaximum", "exclusiveMinimum", "maximum", "minimum", "multipleOf"].foldlM
    (fun work keyword => workOf members keyword (inspectBound work keyword) work) work
  let work ← ["maxItems", "maxLength", "maxProperties", "minItems", "minLength",
    "minProperties"].foldlM
    (fun work keyword => workOf members keyword (inspectCount work keyword) work) work
  ["uniqueItems", "readOnly"].forM fun keyword => whenPresent members keyword fun value =>
    refuseIf (isBool value = false) (.message (keyword ++ " must be a boolean"))
  ["$comment", "contentEncoding", "contentMediaType", "description", "format", "title"].forM
    fun keyword => whenPresent members keyword fun value =>
      refuseIf (isText value = false) (.message (keyword ++ " must be a string"))
  whenPresent members "examples" fun value =>
    match value with
    | .arr _ => .ok ()
    | _ => .error (.message "examples must be an array")
  whenPresent members "required" (inspectRequired limits)
  whenPresent members "type" (validateTypeKeyword limits.maxSchemaCollectionEntries)
  whenPresent members "pattern" (inspectPattern setting limits)
  whenPresent members "patternProperties" (inspectPatternNames setting limits)
  .ok work

end Modary.Schema.Profile
