import Modary.Validation.Keywords

/-! # What the keywords take

For every keyword, the judgement that it takes when the judgements of the other schemas are given. No
order of a map is in it. -/

namespace Modary.Validation

open Modary.Lib.JsonNumber Modary.Lib.JsonValue
open Modary.Lib.GoText (byteLength)
open Judgement (units requiring mismatch)

variable {ρ α : Type}

/-! ### Judgements -/

/-- The work of `consumeKey`. -/
def keyWork (key : String) : ℕ := saturatingAdd 1 (byteLength key.toList)

/-- What is tried up to the first that is valid. -/
def tried (take : α → Judgement) : List α → Judgement
  | [] => 0
  | x :: l => (take x).quiet + if (take x).invalid = true then tried take l else 0

theorem invalid_tried (take : α → Judgement) : ∀ l : List α, (tried take l).invalid = false
  | [] => rfl
  | x :: l => by
    rw [tried, Judgement.invalid_add, Judgement.invalid_quiet, Bool.false_or]
    split_ifs
    · exact invalid_tried take l
    · rfl

section Judge

variable (lib : Library) (child : ρ → Json Number → Judgement)

section Combinations

variable (node : Json Number)

/-- The schema is valid for the node. -/
def passes (schema : ρ) : Bool := !(child schema node).invalid

def judgeAnyOf (schemas : List ρ) : Judgement :=
  if schemas.length = 0 then 0
  else units schemas.length + tried (child · node) schemas +
    requiring (schemas.any (passes child node))

def judgeOneOf (schemas : List ρ) : Judgement :=
  if schemas.length = 0 then 0
  else (schemas.map fun schema => units 1 + (child schema node).quiet).sum +
    requiring (schemas.countP (passes child node) = 1)

def judgeAllOf (schemas : List ρ) : Judgement :=
  if schemas.length = 0 then 0
  else (schemas.map fun schema => units 1 + child schema node).sum +
    requiring (schemas.countP (passes child node) = schemas.length)

def judgeNot : Option ρ → Judgement
  | none => 0
  | some schema => (child schema node).quiet + requiring (!passes child node schema)

def judgeDependency (object : List (String × Json Number)) (entry : String × Dependency ρ) :
    Judgement :=
  units (keyWork entry.1) +
    if (object.lookup entry.1).isNone then 0
    else
      match entry.2 with
      | .names names => (names.map fun name =>
          units (keyWork name) + requiring (object.lookup name).isSome).sum
      | .schema schema => child schema node

/-- On a number that cannot be read dependencies panic. -/
def judgeDependencies (dependencies : List (String × Dependency ρ)) : Judgement :=
  if dependencies.length = 0 then 0
  else
    match node with
    | .num number => if (lib.setString number).isNone then .panic else 0
    | .obj object => (dependencies.map (judgeDependency child node object)).sum
    | _ => 0

def judgeBranch (schema : Option ρ) (applies : Bool) : Judgement :=
  match schema with
  | none => 0
  | some schema =>
    if applies then (child schema node).quiet + requiring (passes child node schema) else 0

def judgeCondition (schema : SubSchema ρ) : Judgement :=
  match schema.if with
  | none => 0
  | some condition => (child condition node).quiet +
      (judgeBranch child node schema.then (passes child node condition) +
        judgeBranch child node schema.else (!passes child node condition))

def judgeSchema (schema : SubSchema ρ) : Judgement :=
  judgeAnyOf child node schema.anyOf + (judgeOneOf child node schema.oneOf +
    (judgeAllOf child node schema.allOf + (judgeNot child node schema.not +
      (judgeDependencies lib child node schema.dependencies + judgeCondition child node schema))))

end Combinations

def judgeConst (value : Json Number) : Option (List Char) → Judgement
  | none => 0
  | some const => units (marshalWork value) +
      (units (byteLength (canonicalText value) + byteLength const) +
        requiring (canonicalText value = const))

def judgeEnum (value : Json Number) (enum : List (List Char)) : Judgement :=
  if enum.length = 0 then 0
  else units (marshalWork value) + (units enum.length +
    ((enum.map fun candidate =>
      units (byteLength (canonicalText value) + byteLength candidate)).sum +
        requiring (isStringInSlice enum (canonicalText value))))

def judgeCommon (value : Json Number) (schema : SubSchema ρ) : Judgement :=
  judgeConst value schema.const + judgeEnum value schema.enum

def judgeItem (schema : ρ) (item : Json Number) : Judgement := units 1 + child schema item

def judgeAdditionalItems (additional : Option (Additional ρ)) (items : List (Json Number)) :
    Judgement :=
  match additional with
  | none => 0
  | some (.flag allowed) => requiring allowed
  | some (.schema schema) => (items.map (judgeItem child schema)).sum

def judgeItems (schema : SubSchema ρ) (value : List (Json Number)) : Judgement :=
  if schema.itemsChildrenIsSingleSchema then
    match schema.itemsChildren with
    | [] => (value.map fun _ => units 1 + Judgement.panic).sum
    | only :: _ => (value.map (judgeItem child only)).sum
  else if schema.itemsChildren.length = 0 then 0
  else ((schema.itemsChildren.zip value).map fun pair => judgeItem child pair.1 pair.2).sum +
    if schema.itemsChildren.length < value.length then
      judgeAdditionalItems child schema.additionalItems (value.drop schema.itemsChildren.length)
    else 0

def judgeCount (minimum maximum : Option ℤ) (count : ℤ) : Judgement :=
  requiring (minimum.all fun minimum => minimum ≤ count) +
    requiring (maximum.all fun maximum => count ≤ maximum)

/-- The items are compared with the texts `seen` before. -/
def judgeUniqueItems : List (List Char) → List (Json Number) → Judgement
  | _, [] => 0
  | seen, item :: items => units 1 + (units (marshalWork item) +
      (requiring (!isStringInSlice seen (canonicalText item)) +
        judgeUniqueItems (canonicalText item :: seen) items))

def judgeContains (schema : Option ρ) (value : List (Json Number)) : Judgement :=
  match schema with
  | none => 0
  | some schema => tried (judgeItem child schema) value +
      requiring (value.any fun item => passes child item schema)

def judgeArray (schema : SubSchema ρ) (value : List (Json Number)) : Judgement :=
  judgeItems child schema value + (judgeCount schema.minItems schema.maxItems value.length +
    ((if schema.uniqueItems then judgeUniqueItems [] value else 0) +
      judgeContains child schema.contains value))

/-- A pattern of `patternProperties` is for the key. -/
def matched (schema : SubSchema ρ) (key : String) : Bool :=
  schema.patternProperties.any fun entry => lib.matchString entry.1 key

def judgePatternProperty (schema : SubSchema ρ) (key : String) (value : Json Number) :
    Judgement :=
  (schema.patternProperties.map fun entry =>
    units (regexpWork (byteLength entry.1.toList) (byteLength key.toList)) +
      if lib.matchString entry.1 key then child entry.2 value else 0).sum

def judgeAdditionalProperty (additional : Option (Additional ρ)) (value : Json Number) :
    Judgement :=
  match additional with
  | none => 0
  | some (.flag allowed) => requiring allowed
  | some (.schema schema) => child schema value

def judgeProperty (schema : SubSchema ρ) (property : String × Json Number) : Judgement :=
  units 1 + (units (keyWork property.1) +
    (judgePatternProperty lib child schema property.1 property.2 +
      if (!(schema.properties.lookup property.1).isSome && !matched lib schema property.1) = true
      then judgeAdditionalProperty child schema.additionalProperties property.2
      else 0))

def judgeRequired (required : List String) (value : List (String × Json Number)) : Judgement :=
  (required.map fun name => units (keyWork name) + requiring (value.lookup name).isSome).sum

def judgePropertyNames (schema : Option ρ) (value : List (String × Json Number)) : Judgement :=
  match schema with
  | none => 0
  | some schema => (value.map fun property =>
      units 1 + ((child schema (.str property.1)).quiet +
        requiring (passes child (.str property.1) schema))).sum

def judgeObject (schema : SubSchema ρ) (value : List (String × Json Number)) : Judgement :=
  judgeCount schema.minProperties schema.maxProperties value.length +
    (judgeRequired schema.required value +
      ((value.map (judgeProperty lib child schema)).sum +
        judgePropertyNames child schema.propertyNames value))

def judgeProperties (properties : List (String × ρ)) (value : List (String × Json Number)) :
    Judgement :=
  (properties.map fun entry => units (keyWork entry.1) +
    ((value.lookup entry.1).map (child entry.2)).getD 0).sum

def judgeString (schema : SubSchema ρ) (value : Json Number) : Judgement :=
  match value with
  | .str value =>
    (if schema.minLength.isSome || schema.maxLength.isSome then
      units (byteLength value.toList) + judgeCount schema.minLength schema.maxLength value.length
    else 0) +
    ((match schema.pattern with
      | none => 0
      | some pattern => units (regexpWork (byteLength pattern.toList) (byteLength value.toList)) +
        requiring (lib.matchString pattern value)) +
    (if schema.format = "" then 0
    else units (byteLength value.toList) + requiring (lib.isFormat schema.format value)))
  | _ => 0

def judgeLimit {κ : Type} (number : Option ℚ) (limit : Option κ) (work : ℕ)
    (test : ℚ → κ → Bool) : Judgement :=
  match limit with
  | none => 0
  | some limit => units work +
      match number with
      | none => .panic
      | some number => requiring (test number limit)

def judgeNumber (schema : SubSchema ρ) (value : Json Number) : Judgement :=
  match value with
  | .num number =>
    judgeLimit (lib.setString number) schema.multipleOf schema.multipleOfWork
        (fun number limit => (number / limit.1).den = 1) +
      (judgeLimit (lib.setString number) schema.maximum schema.maximumWork
        (fun number limit => number ≤ limit) +
      (judgeLimit (lib.setString number) schema.exclusiveMaximum schema.exclusiveMaxWork
        (fun number limit => number < limit) +
      (judgeLimit (lib.setString number) schema.minimum schema.minimumWork
        (fun number limit => limit ≤ number) +
      judgeLimit (lib.setString number) schema.exclusiveMinimum schema.exclusiveMinWork
        (fun number limit => limit < number))))
  | _ => 0

/-- The value has none of the types. -/
def mistyped (schema : SubSchema ρ) (validType : Bool) : Prop :=
  schema.types.length ≠ 0 ∧ validType = false

instance (schema : SubSchema ρ) (validType : Bool) : Decidable (mistyped schema validType) :=
  inferInstanceAs (Decidable (_ ∧ _))

def judgeScalar (schema : SubSchema ρ) (node : Json Number) : Judgement :=
  judgeSchema lib child node schema + (judgeNumber lib schema node +
    (judgeCommon node schema + judgeString lib schema node))

def judgeKeywords (schema : SubSchema ρ) (node : Json Number) : Judgement :=
  match node with
  | .null =>
    if mistyped schema (JsonType.null ∈ schema.types) then mismatch
    else judgeSchema lib child node schema + judgeCommon node schema
  | .num number => units (numberWork number) +
    if mistyped schema (JsonType.number ∈ schema.types ∨
        checkJSONInteger number = true ∧ JsonType.integer ∈ schema.types) then mismatch
    else judgeScalar lib child schema node
  | .arr value =>
    if mistyped schema (JsonType.array ∈ schema.types) then mismatch
    else judgeSchema lib child node schema + (judgeArray child schema value + judgeCommon node schema)
  | .obj value =>
    if mistyped schema (JsonType.object ∈ schema.types) then mismatch
    else judgeSchema lib child node schema + (judgeObject lib child schema value +
      (judgeCommon node schema + judgeProperties child schema.properties value))
  | .bool _ =>
    if mistyped schema (JsonType.boolean ∈ schema.types) then mismatch
    else judgeScalar lib child schema node
  | .str _ =>
    if mistyped schema (JsonType.string ∈ schema.types) then mismatch
    else judgeScalar lib child schema node

/-- The body of `validateRecursive`. -/
def judgeBody (schemas : ρ → SubSchema ρ) (current : ρ) (node : Json Number) : Judgement :=
  units 1 +
    match (schemas current).pass with
    | some pass => requiring pass
    | none =>
      match (schemas current).refSchema with
      | some refSchema => child refSchema node
      | none => judgeKeywords lib child (schemas current) node

end Judge

/-- `validateRecursive`, in so many frames. -/
def judge (lib : Library) (schemas : ρ → SubSchema ρ) : ℕ → ρ → Json Number → Judgement
  | 0, _, _ => ⟨0, 0, 1, false, true⟩
  | fuel + 1, current, node => (judgeBody lib (judge lib schemas fuel) schemas current node).nested

end Modary.Validation
