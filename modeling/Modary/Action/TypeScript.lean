import Modary.Lib.Codec
import Modary.Lib.Draft7

/-! # TypeScript contracts

The type that `schemaNodeTypeScript` derives from a schema, the values of that type, and when every
value of the schema is one of them. The generator looks at `const`, `enum`, `oneOf` and `type` also
where a reference makes Draft 7 ignore them. -/

namespace Modary.Action.TypeScript

open Modary.Lib.GoText Modary.Lib.JsonValue Modary.Lib.Draft7

/-! ### Types -/

/-- The types that the generator writes. -/
inductive TypeExpr
  | unknown
  | never
  | string
  | number
  | boolean
  /-- the type that a JSON text is -/
  | literal (value : Json ℚ)
  | union (choices : List TypeExpr)
  | array (item : TypeExpr)
  /-- `Record<string, T>` -/
  | record (value : TypeExpr)
  /-- an object type: each property with whether it is required, and whether there is an index
  signature -/
  | object (properties : List (String × Bool × TypeExpr)) (index : Bool)

/-- `typescriptIdentifier`. -/
def typescriptIdentifier (name : String) : Bool :=
  let head := fun c => isUpper c || isLower c || c == '_' || c == '$'
  match name.toList with
  | [] => false
  | c :: cs => head c && cs.all fun c => head c || isDigit c

/-- `typescriptStringLiteral`. -/
def typescriptStringLiteral (value : String) : String :=
  String.ofList (Lib.Codec.encodeString value)

/-- `typescriptNumberLiteral` on a value: `normalized` is what `normalizeJSONNumber` makes of its
token, `float` the value that is left of it when `strconv.ParseFloat` reads that text and
`strconv.FormatFloat` writes it again. The errors quote the text for the token. -/
def typescriptNumberLiteral (normalized : ℚ → Except String String) (float : ℚ → Option ℚ)
    (value : ℚ) : Except String String := do
  let text ← normalized value
  let literal := "JSON numeric literal \"" ++ text ++ "\" "
  refuseIf (9007199254740991 < value ∨ value < -9007199254740991)
    (literal ++ "is outside JavaScript's safe integer range")
  match float value with
  | none => .error (literal ++ "is not a finite JavaScript number")
  | some read =>
    refuseIf (read ≠ value)
      (literal ++ "cannot be represented exactly by a JavaScript number literal")
    return text

section Text

variable (numberLiteral : ℚ → Except String String)

mutual

/-- The JSON text of a literal; the members of an object are sorted. -/
def literalText : Json ℚ → String
  | .null => "null"
  | .bool value => toString value
  | .num value => (numberLiteral value).toOption.getD ""
  | .str value => typescriptStringLiteral value
  | .arr items => "[" ++ ",".intercalate (literalTexts items) ++ "]"
  | .obj members =>
    let sorted := (literalMembers members).mergeSort fun a b => a.1 ≤ b.1
    "\x7b" ++ ",".intercalate
      (sorted.map fun member => typescriptStringLiteral member.1 ++ ":" ++ member.2) ++ "\x7d"

def literalTexts : List (Json ℚ) → List String
  | [] => []
  | item :: items => literalText item :: literalTexts items

def literalMembers : List (String × Json ℚ) → List (String × String)
  | [] => []
  | (name, value) :: members => (name, literalText value) :: literalMembers members

end

mutual

/-- The text of a type. -/
def TypeExpr.text : TypeExpr → String
  | .unknown => "unknown"
  | .never => "never"
  | .string => "string"
  | .number => "number"
  | .boolean => "boolean"
  | .literal value => literalText numberLiteral value
  | .union choices => " | ".intercalate (texts choices)
  | .array item =>
    let item := item.text
    "Array<" ++ (if 1 < (item.splitOn " | ").length then "(" ++ item ++ ")" else item) ++ ">"
  | .record value => "Record<string, " ++ value.text ++ ">"
  | .object properties index =>
    let parts := propertyTexts properties ++ if index then ["[key: string]: unknown"] else []
    "\x7b " ++ "; ".intercalate parts ++ " \x7d"

def texts : List TypeExpr → List String
  | [] => []
  | choice :: choices => choice.text :: texts choices

def propertyTexts : List (String × Bool × TypeExpr) → List String
  | [] => []
  | (name, required, type) :: properties =>
    let propertyName := if typescriptIdentifier name then name else typescriptStringLiteral name
    (propertyName ++ (if required then "" else "?") ++ ": " ++ type.text) ::
      propertyTexts properties

end

end Text

mutual

/-- The values of a type. An object type without an index signature is read as exact: it has no
other properties. -/
def TypeExpr.inhabits : TypeExpr → Json ℚ → Bool
  | .unknown, _ => true
  | .never, _ => false
  | .string, .str _ => true
  | .number, .num _ => true
  | .boolean, .bool _ => true
  | .literal constant, value => alike constant value
  | .union choices, value => inhabitsAny choices value
  | .array item, .arr items => items.all fun value => item.inhabits value
  | .record type, .obj members => members.all fun member => type.inhabits member.2
  | .object properties index, .obj members =>
    inhabitsProperties properties members &&
      (index || members.all fun member => member.1 ∈ properties.map Prod.fst)
  | _, _ => false

def inhabitsAny : List TypeExpr → Json ℚ → Bool
  | [], _ => false
  | choice :: choices, value => choice.inhabits value || inhabitsAny choices value

def inhabitsProperties : List (String × Bool × TypeExpr) → List (String × Json ℚ) → Bool
  | [], _ => true
  | (name, required, type) :: properties, members =>
    (match members.lookup name with
      | some value => type.inhabits value
      | none => !required) && inhabitsProperties properties members

end

/-! ### The generator -/

section Generator

variable (numberLiteral : ℚ → Except String String)

/-- `jsonPointer`. -/
def jsonPointer (base component : String) : String :=
  base ++ "/" ++ (component.replace "~" "~0").replace "/" "~1"

mutual

/-- What `validateTypeScriptNumbersAt` finds, in its order. -/
def numberErrors (location : String) : Json ℚ → List String
  | .num value =>
    match numberLiteral value with
    | .ok _ => []
    | .error err => [location ++ ": " ++ err]
  | .arr items => itemErrors location 0 items
  | .obj members =>
    ((memberErrors location members).mergeSort fun a b => a.1 ≤ b.1).flatMap Prod.snd
  | _ => []

def itemErrors (location : String) (index : ℕ) : List (Json ℚ) → List String
  | [] => []
  | item :: items =>
    numberErrors (location ++ "/" ++ toString index) item ++ itemErrors location (index + 1) items

def memberErrors (location : String) : List (String × Json ℚ) → List (String × List String)
  | [] => []
  | (name, value) :: members =>
    (name, numberErrors (jsonPointer location name) value) :: memberErrors location members

end

/-- `validateTypeScriptNumbers`. -/
def validateTypeScriptNumbers (value : Json ℚ) : Except String Unit :=
  match numberErrors numberLiteral "$" value with
  | [] => .ok ()
  | err :: _ => .error err

/-- `typescriptLiteral`. -/
def typescriptLiteral (value : Json ℚ) : Except String TypeExpr :=
  match value with
  | .str _ => .ok (.literal value)
  | .null => .ok (.literal value)
  | .num number => do
    let _ ← numberLiteral number
    return .literal value
  | _ => do
    validateTypeScriptNumbers numberLiteral value
    return .literal value

/-- The names in `required`. -/
def requiredNames (node : Node) : List String :=
  match node.lookup "required" with
  | some (.arr names) => names.filterMap text?
  | _ => []

/-- `objectAllowsAdditionalProperties`. -/
def objectAllowsAdditionalProperties (node : Node) : Bool :=
  match node.lookup "additionalProperties" with
  | some (.bool closed) => closed
  | _ => true

/-- The type of an object schema without properties. -/
def recordTypeScript (convert : Json ℚ → Except String TypeExpr) (node : Node) :
    Except String TypeExpr :=
  if objectAt node "patternProperties" ≠ [] then .ok (.record .unknown)
  else
    match node.lookup "additionalProperties" with
    | some (.bool true) => .ok (.record .unknown)
    | some (.bool false) => .ok (.record .never)
    | some (.obj additional) => do
      let converted ← convert (.obj additional)
      return .record converted
    | _ => .ok (.record .unknown)

/-- The type of an object schema with properties. -/
def propertiesTypeScript (convert : Json ℚ → Except String TypeExpr) (node : Node) :
    Except String TypeExpr := do
  let required := requiredNames node
  let sorted := (objectAt node "properties").mergeSort fun a b => a.1 ≤ b.1
  let parts ← sorted.mapM fun property => do
    let converted ← convert property.2
    return (property.1, decide (property.1 ∈ required), converted)
  return .object parts
    (objectAt node "patternProperties" ≠ [] || objectAllowsAdditionalProperties node)

/-- The `switch` on the type. -/
def typeTypeScript (convert : Json ℚ → Except String TypeExpr) (node : Node) :
    Except String TypeExpr :=
  match node.lookup "type" with
  | some (.str "string") => .ok .string
  | some (.str "integer") => .ok .number
  | some (.str "number") => .ok .number
  | some (.str "boolean") => .ok .boolean
  | some (.str "array") => do
    let item ← convert ((node.lookup "items").getD .null)
    return .array item
  | some (.str "object") =>
    if objectAt node "properties" = [] then recordTypeScript convert node
    else propertiesTypeScript convert node
  | _ => .ok .unknown

/-- The body of `schemaNodeTypeScript`: `const`, `enum` and `oneOf` come before the type. -/
def nodeTypeScript (convert : Json ℚ → Except String TypeExpr) (node : Node) :
    Except String TypeExpr :=
  match node.lookup "const" with
  | some constant => typescriptLiteral numberLiteral constant
  | none =>
    match node.lookup "enum" with
    | some (.arr choices) => do
      let parts ← choices.mapM (typescriptLiteral numberLiteral)
      return .union parts
    | _ =>
      match node.lookup "oneOf" with
      | some (.arr choices) => do
        let parts ← choices.mapM convert
        return .union parts
      | _ => typeTypeScript convert node

/-- `schemaNodeTypeScript`, with a bound on the depth of the schema. -/
def schemaNodeTypeScript : ℕ → Json ℚ → Except String TypeExpr
  | 0, _ => .error "schema is too deep"
  | fuel + 1, .obj node => nodeTypeScript numberLiteral (schemaNodeTypeScript fuel) node
  | _ + 1, _ => .ok .unknown

/-- The type of a schema: its depth bounds the schemas inside it. -/
def schemaType (schema : Json ℚ) : Except String TypeExpr :=
  schemaNodeTypeScript numberLiteral (depth schema + 1) schema

/-- `schemaTypeScript`. -/
def schemaTypeScript (schema : Json ℚ) : Except String String := do
  let type ← schemaType numberLiteral schema
  return type.text numberLiteral

end Generator

/-! ### Where the generator looks -/

/-- The schemas inside a schema that the generator converts. -/
def converted (node : Node) : List (Json ℚ) :=
  match node.lookup "const", node.lookup "enum", node.lookup "oneOf", node.lookup "type" with
  | some _, _, _, _ => []
  | none, some (.arr _), _, _ => []
  | none, _, some (.arr choices), _ => choices
  | none, _, _, some (.str "array") => [(node.lookup "items").getD .null]
  | none, _, _, some (.str "object") =>
    if objectAt node "properties" = [] then
      if objectAt node "patternProperties" ≠ [] then []
      else (node.lookup "additionalProperties").toList
    else (objectAt node "properties").map Prod.snd
  | _, _, _, _ => []

/-- The generator reads a type off the keywords of the schema itself. -/
def shaping (node : Node) : Bool :=
  match node.lookup "const", node.lookup "enum", node.lookup "oneOf", node.lookup "type" with
  | some _, _, _, _ => true
  | _, some (.arr _), _, _ => true
  | _, _, some (.arr _), _ => true
  | _, _, _, some (.str name) => name ∈ ["string", "integer", "number", "boolean", "array", "object"]
  | _, _, _, _ => false

/-- No schema that the generator gets to has both a reference and a keyword that it reads a type
off. -/
def unshadowed : ℕ → Json ℚ → Bool
  | 0, _ => true
  | fuel + 1, .obj node =>
    !((reference? node).isSome && shaping node) && (converted node).all (unshadowed fuel)
  | _ + 1, _ => true

/-! ### Soundness -/

section Soundness

variable {numberLiteral : ℚ → Except String String} {setting : Setting} {node : Node}
  {value : Json ℚ} {type : TypeExpr} {check : Json ℚ → Json ℚ → Bool}
  {convert : Json ℚ → Except String TypeExpr}

theorem inhabitsAny_iff {choices : List TypeExpr} :
    inhabitsAny choices value = true ↔ ∃ choice ∈ choices, choice.inhabits value = true := by
  induction choices with
  | nil => simp [inhabitsAny]
  | cons choice choices ih => simp [inhabitsAny, ih]

theorem inhabitsProperties_iff {properties : List (String × Bool × TypeExpr)} {members : Node} :
    inhabitsProperties properties members = true ↔ ∀ property ∈ properties,
      (match members.lookup property.1 with
        | some value => property.2.2.inhabits value
        | none => !property.2.1) = true := by
  induction properties with
  | nil => simp [inhabitsProperties]
  | cons property properties ih =>
    obtain ⟨name, required, type⟩ := property
    simp [inhabitsProperties, ih]

/-- A literal is the type of the values that are equal to it. -/
theorem typescriptLiteral_ok (h : typescriptLiteral numberLiteral value = .ok type) :
    type = .literal value := by
  unfold typescriptLiteral at h
  split at h
  · exact (Except.ok.inj h).symm
  · exact (Except.ok.inj h).symm
  · obtain ⟨_, -, h⟩ := bind_eq_ok.mp h
    exact (Except.ok.inj h).symm
  · obtain ⟨_, -, h⟩ := bind_eq_ok.mp h
    exact (Except.ok.inj h).symm

/-- The conversion of one schema is sound. -/
def Sound (check : Json ℚ → Json ℚ → Bool) (convert : Json ℚ → Except String TypeExpr)
    (schema : Json ℚ) : Prop :=
  ∀ type value, convert schema = .ok type → check schema value = true → type.inhabits value = true

/-- What an object schema says of the members of a value. -/
theorem objectHolds_parts {members : Node} (h : objectHolds check setting node (.obj members) = true) :
    requiredHolds node members = true ∧ propertiesHold check node members = true ∧
      additionalPropertiesHold check setting node members = true := by
  simp only [objectHolds, Bool.and_eq_true] at h
  obtain ⟨⟨⟨⟨⟨⟨⟨hrequired, hproperties⟩, -⟩, hadditional⟩, -⟩, -⟩, -⟩, -⟩ := h
  exact ⟨hrequired, hproperties, hadditional⟩

/-- Without properties and patterns every member is an additional one. -/
theorem check_additional {members : Node} {schema : Json ℚ}
    (hproperties : objectAt node "properties" = [])
    (hpatterns : objectAt node "patternProperties" = [])
    (hschema : node.lookup "additionalProperties" = some schema)
    (h : additionalPropertiesHold check setting node members = true) :
    ∀ member ∈ members, check schema member.2 = true := by
  intro member hmember
  rw [additionalPropertiesHold, hschema, Option.all_some] at h
  have hself := List.all_eq_true.mp h member hmember
  simpa [additional, hproperties, hpatterns] using hself

theorem record_sound {members : Node} (hfalse : ∀ value, check (.bool false) value = false)
    (hproperties : objectAt node "properties" = [])
    (hsound : objectAt node "patternProperties" = [] →
      ∀ schema, node.lookup "additionalProperties" = some schema → Sound check convert schema)
    (hrecord : recordTypeScript convert node = .ok type)
    (h : objectHolds check setting node (.obj members) = true) :
    type.inhabits (.obj members) = true := by
  obtain ⟨-, -, hadditional⟩ := objectHolds_parts h
  unfold recordTypeScript at hrecord
  split at hrecord
  · obtain rfl := Except.ok.inj hrecord
    simp [TypeExpr.inhabits]
  next hpatterns =>
  have hpatterns : objectAt node "patternProperties" = [] := by simpa using hpatterns
  split at hrecord
  · obtain rfl := Except.ok.inj hrecord
    simp [TypeExpr.inhabits]
  · next hclosed =>
    obtain rfl := Except.ok.inj hrecord
    have hall := check_additional hproperties hpatterns hclosed hadditional
    simp only [hfalse, Bool.false_eq_true, imp_false] at hall
    rw [List.eq_nil_iff_forall_not_mem.mpr hall]
    rfl
  · next schema hschema =>
    obtain ⟨result, hconvert, hrecord⟩ := bind_eq_ok.mp hrecord
    obtain rfl := Except.ok.inj hrecord
    have hall := check_additional hproperties hpatterns hschema hadditional
    rw [TypeExpr.inhabits, List.all_eq_true]
    intro member hmember
    exact hsound hpatterns _ hschema _ _ hconvert (hall member hmember)
  · obtain rfl := Except.ok.inj hrecord
    simp [TypeExpr.inhabits]

theorem isSome_of_required {members : Node} (h : requiredHolds node members = true) {name : String}
    (hname : name ∈ requiredNames node) : (members.lookup name).isSome = true := by
  unfold requiredHolds at h
  unfold requiredNames at hname
  split at hname
  · next names hnames =>
    rw [hnames] at h
    obtain ⟨value, hvalue, htext⟩ := List.mem_filterMap.mp hname
    have hself := List.all_eq_true.mp h value hvalue
    rwa [htext, Option.all_some] at hself
  · cases hname

theorem closed_of_not_allows (h : ¬ objectAllowsAdditionalProperties node = true) :
    node.lookup "additionalProperties" = some (.bool false) := by
  unfold objectAllowsAdditionalProperties at h
  split at h
  · next closed hschema =>
    rw [hschema, Bool.eq_false_of_not_eq_true h]
  · exact absurd rfl h

/-- A closed object has only declared members. -/
theorem declared_of_closed {members : Node} (hfalse : ∀ value, check (.bool false) value = false)
    (hpatterns : objectAt node "patternProperties" = [])
    (hschema : node.lookup "additionalProperties" = some (.bool false))
    (h : additionalPropertiesHold check setting node members = true) :
    ∀ member ∈ members, ∃ property ∈ objectAt node "properties", property.1 = member.1 := by
  intro member hmember
  rw [additionalPropertiesHold, hschema, Option.all_some] at h
  have hself := List.all_eq_true.mp h member hmember
  rw [hfalse, Bool.or_false, additional, hpatterns] at hself
  have hfound : ((objectAt node "properties").lookup member.1).isSome = true := by
    simpa using hself
  obtain ⟨schema, hfound⟩ := Option.isSome_iff_exists.mp hfound
  obtain ⟨before, after, hsplit, -⟩ := List.lookup_eq_some_iff.mp hfound
  exact ⟨(member.1, schema), by simp [hsplit], rfl⟩

theorem properties_sound {members : Node} (hfalse : ∀ value, check (.bool false) value = false)
    (hsound : ∀ property ∈ objectAt node "properties", Sound check convert property.2)
    (hobject : propertiesTypeScript convert node = .ok type)
    (h : objectHolds check setting node (.obj members) = true) :
    type.inhabits (.obj members) = true := by
  obtain ⟨hrequired, hproperties, hadditional⟩ := objectHolds_parts h
  obtain ⟨parts, hparts, hobject⟩ := bind_eq_ok.mp hobject
  obtain rfl := Except.ok.inj hobject
  obtain ⟨hforth, hback⟩ := mem_of_mapM_eq_ok hparts
  rw [TypeExpr.inhabits, Bool.and_eq_true_iff, inhabitsProperties_iff]
  constructor
  · intro part hpart
    obtain ⟨property, hmem, hpair⟩ := hback part hpart
    rw [List.mem_mergeSort] at hmem
    obtain ⟨result, hconvert, hpair⟩ := bind_eq_ok.mp hpair
    obtain rfl := Except.ok.inj hpair
    dsimp only
    split
    · next found hfound =>
      have hall := List.all_eq_true.mp hproperties property hmem
      rw [hfound, Option.all_some] at hall
      exact hsound property hmem _ _ hconvert hall
    · next hnone =>
      have hoptional : property.1 ∉ requiredNames node := by
        intro hreq
        have hsome := isSome_of_required hrequired hreq
        rw [hnone] at hsome
        cases hsome
      simp [hoptional]
  · by_cases hopen : (objectAt node "patternProperties" ≠ [] ||
        objectAllowsAdditionalProperties node) = true
    · rw [hopen, Bool.true_or]
    · rw [Bool.or_eq_true, not_or] at hopen
      obtain ⟨hpatterns, hclosed⟩ := hopen
      have hpatterns : objectAt node "patternProperties" = [] := by simpa using hpatterns
      have hschema := closed_of_not_allows hclosed
      rw [Bool.or_eq_true]
      refine .inr (List.all_eq_true.mpr fun member hmember => decide_eq_true ?_)
      obtain ⟨property, hmem, hname⟩ :=
        declared_of_closed hfalse hpatterns hschema hadditional member hmember
      obtain ⟨part, hpart, hpair⟩ := hforth property (List.mem_mergeSort.mpr hmem)
      obtain ⟨result, -, hpair⟩ := bind_eq_ok.mp hpair
      obtain rfl := Except.ok.inj hpair
      exact List.mem_map.mpr ⟨_, hpart, hname⟩

theorem items_sound (hsound : Sound check convert ((node.lookup "items").getD .null))
    (hunknown : ∀ schema type, (∀ inner, schema ≠ .obj inner) → convert schema = .ok type →
      type = .unknown)
    {items : List (Json ℚ)} (hconvert : convert ((node.lookup "items").getD .null) = .ok type)
    (h : arrayHolds check node (.arr items) = true) :
    (TypeExpr.array type).inhabits (.arr items) = true := by
  simp only [arrayHolds, Bool.and_eq_true] at h
  have hitems : itemsHold check node items = true := h.1.1.1.1
  rw [TypeExpr.inhabits, List.all_eq_true]
  intro item hitem
  by_cases hobj : ∃ inner, node.lookup "items" = some (.obj inner)
  · obtain ⟨inner, hinner⟩ := hobj
    rw [hinner, Option.getD_some] at hsound hconvert
    unfold itemsHold at hitems
    rw [hinner] at hitems
    exact hsound _ _ hconvert (List.all_eq_true.mp hitems item hitem)
  · -- without a schema for all items, or with a Boolean one, the items are unknown
    have hother : ∀ inner, (node.lookup "items").getD .null ≠ .obj inner := by
      intro inner heq
      cases hlookup : node.lookup "items" with
      | none => simp [hlookup] at heq
      | some schema => exact hobj ⟨inner, by simpa [hlookup] using heq⟩
    rw [hunknown _ _ hother hconvert]
    rfl

theorem converted_array (hconst : node.lookup "const" = none)
    (henum : ∀ choices, node.lookup "enum" ≠ some (.arr choices))
    (honeOf : ∀ choices, node.lookup "oneOf" ≠ some (.arr choices))
    (hname : node.lookup "type" = some (.str "array")) :
    converted node = [(node.lookup "items").getD .null] := by
  unfold converted
  rw [hconst, hname]
  split <;> simp_all

theorem converted_object (hconst : node.lookup "const" = none)
    (henum : ∀ choices, node.lookup "enum" ≠ some (.arr choices))
    (honeOf : ∀ choices, node.lookup "oneOf" ≠ some (.arr choices))
    (hname : node.lookup "type" = some (.str "object")) :
    converted node =
      if objectAt node "properties" = [] then
        if objectAt node "patternProperties" ≠ [] then []
        else (node.lookup "additionalProperties").toList
      else (objectAt node "properties").map Prod.snd := by
  unfold converted
  rw [hconst, hname]
  split <;> simp_all

theorem converted_oneOf {choices : List (Json ℚ)} (hconst : node.lookup "const" = none)
    (henum : ∀ choices, node.lookup "enum" ≠ some (.arr choices))
    (honeOf : node.lookup "oneOf" = some (.arr choices)) : converted node = choices := by
  unfold converted
  rw [hconst, honeOf]
  split <;> simp_all

/-- The types of scalars. -/
theorem scalar_sound {name : String}
    (hname : (name, type) ∈ [("string", .string), ("integer", .number), ("number", .number),
      ("boolean", TypeExpr.boolean)]) (h : hasType name value = true) :
    type.inhabits value = true := by
  simp only [List.mem_cons, Prod.mk.injEq, List.not_mem_nil, or_false] at hname
  rcases hname with ⟨rfl, rfl⟩ | ⟨rfl, rfl⟩ | ⟨rfl, rfl⟩ | ⟨rfl, rfl⟩ <;>
    cases value <;> first | rfl | simp [hasType] at h

/-- The `switch` on the type is sound. -/
theorem type_sound (hfalse : ∀ value, check (.bool false) value = false)
    (hunknown : ∀ schema type, (∀ inner, schema ≠ .obj inner) → convert schema = .ok type →
      type = .unknown)
    (hconst : node.lookup "const" = none) (henum : ∀ choices, node.lookup "enum" ≠ some (.arr choices))
    (honeOf : ∀ choices, node.lookup "oneOf" ≠ some (.arr choices))
    (hsound : ∀ schema ∈ converted node, Sound check convert schema)
    (htype : typeTypeScript convert node = .ok type) (h : Shaped check setting node value) :
    type.inhabits value = true := by
  have hholds := h.type
  unfold typeHolds at hholds
  unfold typeTypeScript at htype
  split at htype
  · next hname =>
    obtain rfl := Except.ok.inj htype
    rw [hname] at hholds
    exact scalar_sound (by simp) hholds
  · next hname =>
    obtain rfl := Except.ok.inj htype
    rw [hname] at hholds
    exact scalar_sound (by simp) hholds
  · next hname =>
    obtain rfl := Except.ok.inj htype
    rw [hname] at hholds
    exact scalar_sound (by simp) hholds
  · next hname =>
    obtain rfl := Except.ok.inj htype
    rw [hname] at hholds
    exact scalar_sound (by simp) hholds
  · next hname =>
    obtain ⟨item, hconvert, htype⟩ := bind_eq_ok.mp htype
    obtain rfl := Except.ok.inj htype
    rw [hname] at hholds
    cases value with
    | arr items =>
      refine items_sound (hsound _ ?_) hunknown hconvert h.array
      rw [converted_array hconst henum honeOf hname]
      exact List.mem_singleton_self _
    | _ => exact absurd hholds (by simp [hasType])
  · next hname =>
    rw [hname] at hholds
    cases value with
    | obj members =>
      rw [converted_object hconst henum honeOf hname] at hsound
      split at htype
      · next hproperties =>
        refine record_sound hfalse hproperties (fun hpatterns schema hschema => ?_) htype h.object
        exact hsound schema (by simp [hproperties, hpatterns, hschema])
      · next hproperties =>
        refine properties_sound hfalse (fun property hproperty => ?_) htype h.object
        refine hsound _ ?_
        rw [if_neg hproperties]
        exact List.mem_map_of_mem hproperty
    | _ => exact absurd hholds (by simp [hasType])
  · obtain rfl := Except.ok.inj htype
    rfl

theorem choice_of_oneOf {choices : List (Json ℚ)} (honeOf : node.lookup "oneOf" = some (.arr choices))
    (h : combinationsHold check node value = true) :
    ∃ choice ∈ choices, check choice value = true := by
  simp only [combinationsHold, Bool.and_eq_true] at h
  have hcount := h.1.1.2
  rw [combined, honeOf] at hcount
  have hpos : 0 < choices.countP fun schema => check schema value := by
    rw [of_decide_eq_true hcount]
    exact one_pos
  exact List.countP_pos_iff.mp hpos

/-- **One schema**: if the schemas that it converts are converted soundly, so is it. -/
theorem node_sound (hfalse : ∀ value, check (.bool false) value = false)
    (hunknown : ∀ schema type, (∀ inner, schema ≠ .obj inner) → convert schema = .ok type →
      type = .unknown)
    (hsound : ∀ schema ∈ converted node, Sound check convert schema)
    (hnode : nodeTypeScript numberLiteral convert node = .ok type)
    (h : Shaped check setting node value) : type.inhabits value = true := by
  unfold nodeTypeScript at hnode
  split at hnode
  · next constant hconst =>
    obtain rfl := typescriptLiteral_ok hnode
    have hholds := h.const
    rw [constHolds, hconst, Option.all_some] at hholds
    exact hholds
  next hconst =>
  split at hnode
  · next choices henum =>
    obtain ⟨parts, hparts, hnode⟩ := bind_eq_ok.mp hnode
    obtain rfl := Except.ok.inj hnode
    have hholds := h.enum
    rw [enumHolds, henum] at hholds
    obtain ⟨choice, hchoice, halike⟩ := List.any_eq_true.mp hholds
    obtain ⟨part, hpart, hliteral⟩ := (mem_of_mapM_eq_ok hparts).1 choice hchoice
    obtain rfl := typescriptLiteral_ok hliteral
    exact inhabitsAny_iff.mpr ⟨_, hpart, halike⟩
  next henum =>
  split at hnode
  · next choices honeOf =>
    obtain ⟨parts, hparts, hnode⟩ := bind_eq_ok.mp hnode
    obtain rfl := Except.ok.inj hnode
    obtain ⟨choice, hchoice, hcheck⟩ := choice_of_oneOf honeOf h.combinations
    obtain ⟨part, hpart, hconvert⟩ := (mem_of_mapM_eq_ok hparts).1 choice hchoice
    rw [converted_oneOf hconst henum honeOf] at hsound
    exact inhabitsAny_iff.mpr ⟨part, hpart, hsound choice hchoice _ _ hconvert hcheck⟩
  next honeOf =>
  exact type_sound hfalse hunknown hconst henum honeOf hsound hnode h

theorem not_shaping (h : shaping node = false) :
    node.lookup "const" = none ∧ (∀ choices, node.lookup "enum" ≠ some (.arr choices)) ∧
      (∀ choices, node.lookup "oneOf" ≠ some (.arr choices)) ∧
      ∀ name ∈ ["string", "integer", "number", "boolean", "array", "object"],
        node.lookup "type" ≠ some (.str name) := by
  unfold shaping at h
  split at h
  · cases h
  · cases h
  · cases h
  · next htype hconst henum honeOf =>
    refine ⟨Option.eq_none_iff_forall_ne_some.mpr hconst, henum, honeOf, ?_⟩
    rintro name hname heq
    rw [htype] at heq
    cases heq
    exact of_decide_eq_false h hname
  · next hconst henum honeOf htype =>
    refine ⟨Option.eq_none_iff_forall_ne_some.mpr hconst, henum, honeOf, ?_⟩
    exact fun name _ => htype name

/-- A schema without such keywords has the type `unknown`. -/
theorem nodeTypeScript_of_not_shaping (h : shaping node = false) :
    nodeTypeScript numberLiteral convert node = .ok .unknown := by
  obtain ⟨hconst, henum, honeOf, htype⟩ := not_shaping h
  unfold nodeTypeScript
  rw [hconst]
  dsimp only
  split
  · next choices heq => exact absurd heq (henum choices)
  split
  · next choices heq => exact absurd heq (honeOf choices)
  unfold typeTypeScript
  split
  iterate 6
    · next heq => exact absurd heq (htype _ (by simp))
  · rfl

theorem valid_false (fuel : ℕ) (value : Json ℚ) : valid setting fuel (.bool false) value = false := by
  cases fuel <;> rfl

theorem unknown_of_not_obj {fuel : ℕ} {schema : Json ℚ} (hother : ∀ inner, schema ≠ .obj inner)
    (hgen : schemaNodeTypeScript numberLiteral fuel schema = .ok type) :
    type = .unknown := by
  cases fuel with
  | zero => cases hgen
  | succ fuel =>
    cases schema with
    | obj node => exact absurd rfl (hother node)
    | _ => exact (Except.ok.inj hgen).symm

/-- **The generated type has the values of the schema**, if no reference is shadowed. -/
theorem schemaNodeTypeScript_sound {fuel steps : ℕ} {schema : Json ℚ}
    (hgen : schemaNodeTypeScript numberLiteral fuel schema = .ok type)
    (hclear : unshadowed fuel schema = true) (hvalid : valid setting steps schema value = true) :
    type.inhabits value = true := by
  induction fuel generalizing schema type value steps with
  | zero => cases hgen
  | succ fuel ih =>
    cases schema with
    | obj node =>
      cases steps with
      | zero => cases hvalid
      | succ steps =>
        rw [unshadowed, Bool.and_eq_true_iff] at hclear
        obtain ⟨hshadow, hinner⟩ := hclear
        rw [valid] at hvalid
        split at hvalid
        · next reference href =>
          have hshaping : shaping node = false := by simpa [href] using hshadow
          have hunknown := hgen.symm.trans (nodeTypeScript_of_not_shaping hshaping)
          obtain rfl := Except.ok.inj hunknown
          rfl
        · refine node_sound (valid_false steps) ?_ ?_ hgen (shaped_of_keywordsHold hvalid)
          · exact fun schema type hother hconvert => unknown_of_not_obj hother hconvert
          · intro schema hschema type value hconvert hcheck
            exact ih hconvert (List.all_eq_true.mp hinner schema hschema) hcheck
    | _ =>
      obtain rfl := Except.ok.inj hgen
      rfl

end Soundness

/-! ### The values of the generated type -/

section Values

variable {numberLiteral : ℚ → Except String String} {setting : Setting}
  {schema : Json ℚ} {type : TypeExpr}

/-- **Every value of the schema is one of the generated type**, if no schema that the generator gets
to has a keyword that it reads a type off beside a reference. -/
theorem generated_type_sound (hgen : schemaType numberLiteral schema = .ok type)
    (hclear : unshadowed (depth schema + 1) schema = true) :
    ∀ steps value, valid setting steps schema value = true → type.inhabits value = true :=
  fun _ _ hvalid => schemaNodeTypeScript_sound hgen hclear hvalid

/-- Texts are found where they stand, no format is checked, and `#/definitions/x` leads to the
definition of `x`. -/
def sampleSetting (definition : Json ℚ) : Setting where
  search pattern text := decide (pattern.toList <:+: text.toList)
  format _ _ := true
  resolve reference := if reference = "#/definitions/x" then some definition else none

/-- Only whole numbers are read as floats. -/
def sampleNumberLiteral : ℚ → Except String String :=
  typescriptNumberLiteral (fun value => .ok (toString value.num)) fun value =>
    if value.den = 1 then some value else none

/-- `{"type":"array","items":{"enum":["a",1]}}` -/
def choicesSchema : Json ℚ :=
  .obj [("type", .str "array"), ("items", .obj [("enum", .arr [.str "a", .num 1])])]

/-- A list of choices has the generated type. -/
theorem generated_type_sound_sample :
    schemaType sampleNumberLiteral choicesSchema =
        .ok (.array (.union [.literal (.str "a"), .literal (.num 1)])) ∧
      unshadowed (depth choicesSchema + 1) choicesSchema = true ∧
      valid (sampleSetting .null) 2 choicesSchema (.arr [.num 1, .str "a"]) = true ∧
      (TypeExpr.array (.union [.literal (.str "a"), .literal (.num 1)])).inhabits
        (.arr [.num 1, .str "a"]) = true := by
  have hgen : schemaType sampleNumberLiteral choicesSchema =
      .ok (.array (.union [.literal (.str "a"), .literal (.num 1)])) := rfl
  have hclear : unshadowed (depth choicesSchema + 1) choicesSchema = true := by decide +kernel
  have hvalid : valid (sampleSetting .null) 2 choicesSchema (.arr [.num 1, .str "a"]) = true := by
    decide +kernel
  exact ⟨hgen, hclear, hvalid, generated_type_sound hgen hclear 2 _ hvalid⟩

/-- `{"$ref":"#/definitions/x","type":"string","definitions":{"x":{"type":"number"}}}` -/
def shadowedSchema : Json ℚ :=
  .obj [("$ref", .str "#/definitions/x"), ("type", .str "string"),
    ("definitions", .obj [("x", .obj [("type", .str "number")])])]

/-- **Beside a reference the type is wrong**: the schema has the value `1`, the generated type is
`string`. -/
theorem shadowed_type_rejects :
    schemaType sampleNumberLiteral shadowedSchema = .ok .string ∧
      valid (sampleSetting (.obj [("type", .str "number")])) 2 shadowedSchema (.num 1) = true ∧
      TypeExpr.string.inhabits (.num 1) = false :=
  ⟨rfl, by decide +kernel, rfl⟩

end Values

end Modary.Action.TypeScript
