import Modary.Validation.Integers

/-! # Keywords

`subSchema` and what `validateRecursive` does with it, from
`internal/jsonschema/engine/validation.go`. A schema has pointers `ρ` to other schemas. -/

namespace Modary.Validation

open Modary.Lib.JsonNumber Modary.Lib.JsonValue
open Modary.Lib.GoText (byteLength)

variable {ρ : Type}

/-! ### Schemas -/

/-- `JSON_TYPES`. -/
inductive JsonType
  | array
  | boolean
  | integer
  | number
  | null
  | object
  | string
  deriving DecidableEq, Repr

/-- `additionalProperties` and `additionalItems`. -/
inductive Additional (ρ : Type)
  | flag (allowed : Bool)
  | schema (schema : ρ)

/-- An entry of `dependencies`. -/
inductive Dependency (ρ : Type)
  | names (names : List String)
  | schema (schema : ρ)

/-- The fields of `subSchema` that an evaluation reads. -/
structure SubSchema (ρ : Type) where
  pass : Option Bool := none
  types : List JsonType := []
  refSchema : Option ρ := none
  itemsChildren : List ρ := []
  itemsChildrenIsSingleSchema : Bool := false
  properties : List (String × ρ) := []
  /-- A number greater than zero. -/
  multipleOf : Option {limit : ℚ // 0 < limit} := none
  multipleOfWork : ℕ := 0
  maximum : Option ℚ := none
  maximumWork : ℕ := 0
  exclusiveMaximum : Option ℚ := none
  exclusiveMaxWork : ℕ := 0
  minimum : Option ℚ := none
  minimumWork : ℕ := 0
  exclusiveMinimum : Option ℚ := none
  exclusiveMinWork : ℕ := 0
  minLength : Option ℤ := none
  maxLength : Option ℤ := none
  pattern : Option String := none
  format : String := ""
  minProperties : Option ℤ := none
  maxProperties : Option ℤ := none
  required : List String := []
  dependencies : List (String × Dependency ρ) := []
  additionalProperties : Option (Additional ρ) := none
  patternProperties : List (String × ρ) := []
  propertyNames : Option ρ := none
  minItems : Option ℤ := none
  maxItems : Option ℤ := none
  uniqueItems : Bool := false
  contains : Option ρ := none
  additionalItems : Option (Additional ρ) := none
  const : Option (List Char) := none
  enum : List (List Char) := []
  oneOf : List ρ := []
  anyOf : List ρ := []
  allOf : List ρ := []
  not : Option ρ := none
  «if» : Option ρ := none
  «then» : Option ρ := none
  «else» : Option ρ := none

/-- What is in other packages: regular expressions, formats, and `(*big.Rat).SetString`. -/
structure Library where
  matchString : String → String → Bool
  isFormat : String → String → Bool
  setString : Number → Option ℚ

/-- `(*Result).consumeBytes`. -/
def consumeBytes (bytes : ℕ) : Body ρ Unit := consumeWork bytes

/-- `(*Result).consumeKey`. -/
def consumeKey (key : String) : Body ρ Unit := consumeWork (saturatingAdd 1 (byteLength key.toList))

/-- `isStringInSlice`. -/
def isStringInSlice (s : List (List Char)) (what : List Char) : Bool := s.contains what

/-- Reports a mismatch where the test fails. -/
def require (test : Bool) (result : Result) : Body ρ Result :=
  if test then pure result else addInternalError result

/-! ### `validateSchema` -/

section Combinations

variable (node : Json Number)

/-- `bestValidationResult`. -/
def better (best : Option Result) (result : Result) : Option Result :=
  if best.all fun best => best.score < result.score then some result else best

/-- What the loop over `anyOf` keeps. -/
structure AnyOf where
  validated : Bool
  best : Option Result

def anyOfStep (state : AnyOf) (schema : ρ) : Body ρ AnyOf := do
  consumeWork 1
  if state.validated then pure state
  else do
    let validationResult ← subValidateWithContext schema node
    if validationResult.valid then pure { state with validated := true }
    else pure { state with best := better state.best validationResult }

def validateAnyOf (schemas : List ρ) (result : Result) : Body ρ Result :=
  if schemas.length = 0 then pure result
  else do
    let state ← schemas.foldlM (anyOfStep node) ⟨false, none⟩
    if state.validated then pure result
    else do
      let result ← addInternalError result
      pure (result.mergeErrors state.best)

/-- What the loop over `oneOf` keeps. -/
structure OneOf where
  nbValidated : ℕ
  best : Option Result

def oneOfStep (state : OneOf) (schema : ρ) : Body ρ OneOf := do
  consumeWork 1
  let validationResult ← subValidateWithContext schema node
  if validationResult.valid then pure { state with nbValidated := state.nbValidated + 1 }
  else if state.nbValidated = 0 then
    pure { state with best := better state.best validationResult }
  else pure state

def validateOneOf (schemas : List ρ) (result : Result) : Body ρ Result :=
  if schemas.length = 0 then pure result
  else do
    let state ← schemas.foldlM (oneOfStep node) ⟨0, none⟩
    if state.nbValidated = 1 then pure result
    else do
      let result ← addInternalError result
      pure (if state.nbValidated = 0 then result.mergeErrors state.best else result)

/-- What the loop over `allOf` keeps. -/
structure AllOf where
  nbValidated : ℕ
  result : Result

def allOfStep (state : AllOf) (schema : ρ) : Body ρ AllOf := do
  consumeWork 1
  let validationResult ← subValidateWithContext schema node
  let nbValidated := if validationResult.valid then state.nbValidated + 1 else state.nbValidated
  pure ⟨nbValidated, state.result.mergeErrors (some validationResult)⟩

def validateAllOf (schemas : List ρ) (result : Result) : Body ρ Result :=
  if schemas.length = 0 then pure result
  else do
    let state ← schemas.foldlM (allOfStep node) ⟨0, result⟩
    require (state.nbValidated = schemas.length) state.result

def validateNot (schema : Option ρ) (result : Result) : Body ρ Result :=
  match schema with
  | none => pure result
  | some schema => do
    let validationResult ← subValidateWithContext schema node
    require (!validationResult.valid) result

/-- One entry of `dependencies`, on an object. -/
def validateDependency (object : List (String × Json Number)) (result : Result)
    (entry : String × Dependency ρ) : Body ρ Result := do
  consumeKey entry.1
  if (object.lookup entry.1).isNone then pure result
  else
    match entry.2 with
    | .names names => names.foldlM (fun result dependOnKey => do
        consumeKey dependOnKey
        require (object.lookup dependOnKey).isSome result) result
    | .schema schema => validateRecursive schema node result

/-- The entries are for objects. What is no object is asked for its kind with `isKind`, which for a
number reads through the pointer that `SetString` gives, nil where that fails. -/
def validateDependencies (lib : Library) (dependencies : List (String × Dependency ρ))
    (result : Result) : Body ρ Result :=
  if dependencies.length = 0 then pure result
  else
    match node with
    | .num number => if (lib.setString number).isNone then crash else pure result
    | .obj object => do
      let entries ← ranged dependencies
      entries.foldlM (validateDependency node object) result
    | _ => pure result

/-- `then` or `else`, where it applies. -/
def validateBranch (schema : Option ρ) (applies : Bool) (result : Result) : Body ρ Result :=
  match schema with
  | none => pure result
  | some schema =>
    if applies then do
      let validationResult ← subValidateWithContext schema node
      if validationResult.valid then pure result
      else do
        let result ← addInternalError result
        pure (result.mergeErrors (some validationResult))
    else pure result

def validateCondition (schema : SubSchema ρ) (result : Result) : Body ρ Result :=
  match schema.if with
  | none => pure result
  | some condition => do
    let validationResultIf ← subValidateWithContext condition node
    let result ← validateBranch node schema.then validationResultIf.valid result
    validateBranch node schema.else (!validationResultIf.valid) result

/-- `validateSchema`. -/
def validateSchema (lib : Library) (schema : SubSchema ρ) (result : Result) : Body ρ Result := do
  let result ← validateAnyOf node schema.anyOf result
  let result ← validateOneOf node schema.oneOf result
  let result ← validateAllOf node schema.allOf result
  let result ← validateNot node schema.not result
  let result ← validateDependencies node lib schema.dependencies result
  let result ← validateCondition node schema result
  pure result.incrementScore

end Combinations

/-! ### `validateCommon` -/

def validateConst (value : Json Number) (const : Option (List Char)) (result : Result) :
    Body ρ Result :=
  match const with
  | none => pure result
  | some const => do
    let vString ← marshalWithoutNumberBudget value
    consumeBytes (byteLength vString + byteLength const)
    require (vString = const) result

def validateEnum (value : Json Number) (enum : List (List Char)) (result : Result) :
    Body ρ Result :=
  if enum.length = 0 then pure result
  else do
    let vString ← marshalWithoutNumberBudget value
    consumeWork enum.length
    let result ← enum.foldlM (fun result candidate => do
      consumeBytes (byteLength vString + byteLength candidate)
      pure result) result
    require (isStringInSlice enum vString) result

/-- `validateCommon`. -/
def validateCommon (value : Json Number) (schema : SubSchema ρ) (result : Result) :
    Body ρ Result := do
  let result ← validateConst value schema.const result
  let result ← validateEnum value schema.enum result
  pure result.incrementScore

/-! ### `validateArray` -/

/-- An item, whose errors are merged. -/
def validateItem (schema : ρ) (result : Result) (item : Json Number) : Body ρ Result := do
  consumeWork 1
  let validationResult ← subValidateWithContext schema item
  pure (result.mergeErrors (some validationResult))

/-- The items that no schema of `items` is for. -/
def validateAdditionalItems (additional : Option (Additional ρ)) (items : List (Json Number))
    (result : Result) : Body ρ Result :=
  match additional with
  | none => pure result
  | some (.flag allowed) => require allowed result
  | some (.schema schema) => items.foldlM (validateItem schema) result

def validateItems (schema : SubSchema ρ) (value : List (Json Number)) (result : Result) :
    Body ρ Result :=
  if schema.itemsChildrenIsSingleSchema then
    value.foldlM (fun result item =>
      match schema.itemsChildren with
      | [] => do
        consumeWork 1
        crash
      | child :: _ => validateItem child result item) result
  else if schema.itemsChildren.length = 0 then pure result
  else do
    let result ← (schema.itemsChildren.zip value).foldlM
      (fun result pair => validateItem pair.1 result pair.2) result
    if schema.itemsChildren.length < value.length then
      validateAdditionalItems schema.additionalItems (value.drop schema.itemsChildren.length) result
    else pure result

/-- `minItems`, `maxItems` and their like. -/
def validateCount (minimum maximum : Option ℤ) (count : ℤ) (result : Result) : Body ρ Result := do
  let result ← require (minimum.all fun minimum => minimum ≤ count) result
  require (maximum.all fun maximum => count ≤ maximum) result

/-- What the loop of `uniqueItems` keeps. -/
structure UniqueItems where
  stringifiedItems : List (List Char)
  result : Result

def uniqueItemsStep (state : UniqueItems) (item : Json Number) : Body ρ UniqueItems := do
  consumeWork 1
  let vString ← marshalWithoutNumberBudget item
  let result ← require (!isStringInSlice state.stringifiedItems vString) state.result
  pure ⟨vString :: state.stringifiedItems, result⟩

def validateUniqueItems (uniqueItems : Bool) (value : List (Json Number)) (result : Result) :
    Body ρ Result :=
  if uniqueItems then do
    let state ← value.foldlM uniqueItemsStep ⟨[], result⟩
    pure state.result
  else pure result

/-- The loop over the items for `contains`, up to the first that is valid. -/
def containsLoop (schema : ρ) : List (Json Number) → Option Result →
    Body ρ (Bool × Option Result)
  | [], best => pure (false, best)
  | item :: items, best => do
    consumeWork 1
    let validationResult ← subValidateWithContext schema item
    if validationResult.valid then pure (true, best)
    else containsLoop schema items (better best validationResult)

def validateContains (schema : Option ρ) (value : List (Json Number)) (result : Result) :
    Body ρ Result :=
  match schema with
  | none => pure result
  | some schema => do
    let found ← containsLoop schema value none
    if found.1 then pure result
    else do
      let result ← addInternalError result
      pure (result.mergeErrors found.2)

/-- `validateArray`. -/
def validateArray (schema : SubSchema ρ) (value : List (Json Number)) (result : Result) :
    Body ρ Result := do
  let result ← validateItems schema value result
  let result ← validateCount schema.minItems schema.maxItems value.length result
  let result ← validateUniqueItems schema.uniqueItems value result
  let result ← validateContains schema.contains value result
  pure result.incrementScore

/-! ### `validateObject` -/

section Objects

variable (lib : Library)

/-- What the loop over `patternProperties` keeps. -/
structure PatternProperty where
  validated : Bool
  result : Result

def patternPropertyStep (key : String) (value : Json Number) (state : PatternProperty)
    (entry : String × ρ) : Body ρ PatternProperty := do
  consumeWork (regexpWork (byteLength entry.1.toList) (byteLength key.toList))
  if lib.matchString entry.1 key then do
    let validationResult ← subValidateWithContext entry.2 value
    pure ⟨true, state.result.mergeErrors (some validationResult)⟩
  else pure state

/-- The loop over `patternProperties`. -/
def validatePatterns (schema : SubSchema ρ) (key : String) (value : Json Number)
    (result : Result) : Body ρ PatternProperty := do
  let entries ← ranged schema.patternProperties
  entries.foldlM (patternPropertyStep lib key value) ⟨false, result⟩

/-- `validatePatternProperty`: whether a pattern is for the key, and the result. -/
def validatePatternProperty (schema : SubSchema ρ) (key : String) (value : Json Number)
    (result : Result) : Body ρ PatternProperty := do
  let state ← validatePatterns lib schema key value result
  pure (if state.validated then ⟨true, state.result.incrementScore⟩ else state)

/-- A property that neither `properties` nor `patternProperties` is for. -/
def validateAdditionalProperty (additional : Option (Additional ρ)) (value : Json Number)
    (result : Result) : Body ρ Result :=
  match additional with
  | none => pure result
  | some (.flag allowed) => require allowed result
  | some (.schema schema) => do
    let validationResult ← subValidateWithContext schema value
    pure (result.mergeErrors (some validationResult))

/-- One property of the value. -/
def validateProperty (schema : SubSchema ρ) (result : Result)
    (property : String × Json Number) : Body ρ Result := do
  consumeWork 1
  consumeKey property.1
  let found := (schema.properties.lookup property.1).isSome
  let ppMatch ← validatePatternProperty lib schema property.1 property.2 result
  if !found && !ppMatch.validated then
    validateAdditionalProperty schema.additionalProperties property.2 ppMatch.result
  else pure ppMatch.result

def validateRequired (required : List String) (value : List (String × Json Number))
    (result : Result) : Body ρ Result :=
  required.foldlM (fun result requiredProperty => do
    consumeKey requiredProperty
    if (value.lookup requiredProperty).isSome then pure result.incrementScore
    else addInternalError result) result

def validatePropertyName (schema : ρ) (result : Result) (property : String × Json Number) :
    Body ρ Result := do
  consumeWork 1
  let validationResult ← subValidateWithContext schema (.str property.1)
  if validationResult.valid then pure result
  else do
    let result ← addInternalError result
    pure (result.mergeErrors (some validationResult))

def validatePropertyNames (schema : Option ρ) (value : List (String × Json Number))
    (result : Result) : Body ρ Result :=
  match schema with
  | none => pure result
  | some schema => do
    let properties ← ranged value
    properties.foldlM (validatePropertyName schema) result

/-- The loop over the properties of the value. -/
def validateAllProperties (schema : SubSchema ρ) (value : List (String × Json Number))
    (result : Result) : Body ρ Result := do
  let properties ← ranged value
  properties.foldlM (validateProperty lib schema) result

/-- `validateObject`. -/
def validateObject (schema : SubSchema ρ) (value : List (String × Json Number))
    (result : Result) : Body ρ Result := do
  let result ← validateCount schema.minProperties schema.maxProperties value.length result
  let result ← validateRequired schema.required value result
  let result ← validateAllProperties lib schema value result
  let result ← validatePropertyNames schema.propertyNames value result
  pure result.incrementScore

/-- The loop of `validateRecursive` over `properties`. -/
def validateProperties (properties : List (String × ρ)) (value : List (String × Json Number))
    (result : Result) : Body ρ Result := do
  let entries ← ranged properties
  entries.foldlM (fun result entry => do
    consumeKey entry.1
    match value.lookup entry.1 with
    | none => pure result
    | some nextNode => validateRecursive entry.2 nextNode result) result

end Objects

/-! ### `validateString` and `validateNumber` -/

section Scalars

variable (lib : Library)

def validateLength (schema : SubSchema ρ) (value : String) (result : Result) : Body ρ Result :=
  if schema.minLength.isSome || schema.maxLength.isSome then do
    consumeBytes (byteLength value.toList)
    validateCount schema.minLength schema.maxLength value.length result
  else pure result

def validatePattern (pattern : Option String) (value : String) (result : Result) :
    Body ρ Result :=
  match pattern with
  | none => pure result
  | some pattern => do
    consumeWork (regexpWork (byteLength pattern.toList) (byteLength value.toList))
    require (lib.matchString pattern value) result

def validateFormat (format : String) (value : String) (result : Result) : Body ρ Result :=
  if format = "" then pure result
  else do
    consumeBytes (byteLength value.toList)
    require (lib.isFormat format value) result

/-- `validateString`. -/
def validateString (schema : SubSchema ρ) (value : Json Number) (result : Result) :
    Body ρ Result :=
  match value with
  | .str value => do
    let result ← validateLength schema value result
    let result ← validatePattern lib schema.pattern value result
    let result ← validateFormat lib schema.format value result
    pure result.incrementScore
  | _ => pure result

/-- A keyword that compares the number with a limit. -/
def validateLimit {κ : Type} (number : Option ℚ) (limit : Option κ) (work : ℕ)
    (test : ℚ → κ → Bool) (result : Result) : Body ρ Result :=
  match limit with
  | none => pure result
  | some limit => do
    consumeWork work
    match number with
    | none => crash
    | some number => require (test number limit) result

/-- `validateNumber`. -/
def validateNumber (schema : SubSchema ρ) (value : Json Number) (result : Result) :
    Body ρ Result :=
  match value with
  | .num number => do
    let number := lib.setString number
    let result ← validateLimit number schema.multipleOf schema.multipleOfWork
      (fun number limit => (number / limit.1).den = 1) result
    let result ← validateLimit number schema.maximum schema.maximumWork
      (fun number limit => number ≤ limit) result
    let result ← validateLimit number schema.exclusiveMaximum schema.exclusiveMaxWork
      (fun number limit => number < limit) result
    let result ← validateLimit number schema.minimum schema.minimumWork
      (fun number limit => limit ≤ number) result
    let result ← validateLimit number schema.exclusiveMinimum schema.exclusiveMinWork
      (fun number limit => limit < number) result
    pure result.incrementScore
  | _ => pure result

end Scalars

/-! ### `validateRecursive` -/

/-- The check of `type` before the keywords of a value of one of the types. -/
def typed (schema : SubSchema ρ) (validType : Bool) (keywords : Result → Body ρ Result)
    (result : Result) : Body ρ Result :=
  if schema.types.length ≠ 0 ∧ validType = false then addInternalError result
  else do
    let result ← keywords result
    pure result.incrementScore

/-- The keywords of a schema that is neither a boolean nor a reference. -/
def validateKeywords (lib : Library) (schema : SubSchema ρ) (node : Json Number)
    (result : Result) : Body ρ Result :=
  match node with
  | .null => typed schema (JsonType.null ∈ schema.types) (fun result => do
      let result ← validateSchema node lib schema result
      validateCommon node schema result) result
  | .num number => do
    consumeWork (numberWork number)
    let isInt := checkJSONInteger number
    let validType := JsonType.number ∈ schema.types ∨ isInt = true ∧ JsonType.integer ∈ schema.types
    typed schema validType (fun result => do
      let result ← validateSchema node lib schema result
      let result ← validateNumber lib schema node result
      let result ← validateCommon node schema result
      validateString lib schema node result) result
  | .arr value => typed schema (JsonType.array ∈ schema.types) (fun result => do
      let result ← validateSchema node lib schema result
      let result ← validateArray schema value result
      validateCommon node schema result) result
  | .obj value => typed schema (JsonType.object ∈ schema.types) (fun result => do
      let result ← validateSchema node lib schema result
      let result ← validateObject lib schema value result
      let result ← validateCommon node schema result
      validateProperties schema.properties value result) result
  | .bool _ => typed schema (JsonType.boolean ∈ schema.types) (fun result => do
      let result ← validateSchema node lib schema result
      let result ← validateNumber lib schema node result
      let result ← validateCommon node schema result
      validateString lib schema node result) result
  | .str _ => typed schema (JsonType.string ∈ schema.types) (fun result => do
      let result ← validateSchema node lib schema result
      let result ← validateNumber lib schema node result
      let result ← validateCommon node schema result
      validateString lib schema node result) result

/-- The body of `validateRecursive`, inside its frame. -/
def evaluate (lib : Library) (schemas : ρ → SubSchema ρ) (current : ρ) (node : Json Number)
    (result : Result) : Body ρ Result := do
  consumeWork 1
  match (schemas current).pass with
  | some pass => require pass result
  | none =>
    match (schemas current).refSchema with
    | some refSchema => validateRecursive refSchema node result
    | none => validateKeywords lib (schemas current) node result

end Modary.Validation
