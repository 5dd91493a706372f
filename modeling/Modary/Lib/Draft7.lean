import Mathlib.Data.Rat.Defs
import Mathlib.Algebra.Order.Ring.Rat
import Modary.Lib.JsonValue

/-! # JSON Schema, Draft 7

Validity of a JSON value, keyword by keyword. A schema with a reference is what the reference leads
to: its other keywords do not count. -/

namespace Modary.Lib.Draft7

open Modary.Lib.JsonValue

/-- What the keywords leave to others: regular expressions, formats, and where a reference leads. -/
structure Setting where
  search : String → String → Bool
  format : String → Json ℚ → Bool
  resolve : String → Option (Json ℚ)

/-- The members of an object schema. -/
abbrev Node := List (String × Json ℚ)

/-! ### Keywords for every value -/

/-- The value has a type. -/
def hasType (name : String) : Json ℚ → Bool
  | .null => name = "null"
  | .bool _ => name = "boolean"
  | .num value => name = "number" || (name = "integer" && value.den = 1)
  | .str _ => name = "string"
  | .arr _ => name = "array"
  | .obj _ => name = "object"

def typeHolds (node : Node) (value : Json ℚ) : Bool :=
  match node.lookup "type" with
  | some (.str name) => hasType name value
  | some (.arr names) => names.any fun name => (text? name).any fun name => hasType name value
  | _ => true

def enumHolds (node : Node) (value : Json ℚ) : Bool :=
  match node.lookup "enum" with
  | some (.arr choices) => choices.any fun choice => alike choice value
  | _ => true

def constHolds (node : Node) (value : Json ℚ) : Bool :=
  (node.lookup "const").all fun constant => alike constant value

/-- A keyword with a number. -/
def bound (node : Node) (keyword : String) (test : ℚ → Bool) : Bool :=
  match node.lookup keyword with
  | some (.num limit) => test limit
  | _ => true

/-! ### Numbers and texts -/

def numberHolds (node : Node) : Json ℚ → Bool
  | .num value =>
    bound node "multipleOf" (fun limit => (value / limit).den = 1) &&
      bound node "maximum" (fun limit => value ≤ limit) &&
      bound node "exclusiveMaximum" (fun limit => value < limit) &&
      bound node "minimum" (fun limit => limit ≤ value) &&
      bound node "exclusiveMinimum" (fun limit => limit < value)
  | _ => true

def textHolds (setting : Setting) (node : Node) : Json ℚ → Bool
  | .str value =>
    bound node "maxLength" (fun limit => (value.length : ℚ) ≤ limit) &&
      bound node "minLength" (fun limit => limit ≤ (value.length : ℚ)) &&
      ((node.lookup "pattern").bind text?).all (fun pattern => setting.search pattern value)
  | _ => true

/-! ### Arrays -/

section Applied

variable (check : Json ℚ → Json ℚ → Bool)

/-- `items` and `additionalItems`. -/
def itemsHold (node : Node) (items : List (Json ℚ)) : Bool :=
  match node.lookup "items" with
  | some (.arr schemas) =>
    (schemas.zip items).all (fun pair => check pair.1 pair.2) &&
      (node.lookup "additionalItems").all fun schema =>
        (items.drop schemas.length).all (check schema)
  | some schema => items.all (check schema)
  | none => true

/-- No two items are the same. -/
def unlike : List (Json ℚ) → Bool
  | [] => true
  | item :: items => items.all (fun other => !alike item other) && unlike items

def arrayHolds (node : Node) : Json ℚ → Bool
  | .arr items =>
    itemsHold check node items &&
      bound node "maxItems" (fun limit => (items.length : ℚ) ≤ limit) &&
      bound node "minItems" (fun limit => limit ≤ (items.length : ℚ)) &&
      (match node.lookup "uniqueItems" with
        | some (.bool true) => unlike items
        | _ => true) &&
      (node.lookup "contains").all fun schema => items.any (check schema)
  | _ => true

/-! ### Objects -/

/-- A keyword whose value is an object; none is an empty one. -/
def objectAt (node : Node) (keyword : String) : Node :=
  match node.lookup keyword with
  | some (.obj members) => members
  | _ => []

def requiredHolds (node : Node) (members : Node) : Bool :=
  match node.lookup "required" with
  | some (.arr names) => names.all fun name => (text? name).all fun name =>
    (members.lookup name).isSome
  | _ => true

def propertiesHold (node : Node) (members : Node) : Bool :=
  (objectAt node "properties").all fun property =>
    (members.lookup property.1).all (check property.2)

def patternPropertiesHold (setting : Setting) (node : Node) (members : Node) : Bool :=
  (objectAt node "patternProperties").all fun property => members.all fun member =>
    !setting.search property.1 member.1 || check property.2 member.2

/-- Neither a property nor a pattern is for this name. -/
def additional (setting : Setting) (node : Node) (name : String) : Bool :=
  ((objectAt node "properties").lookup name).isNone &&
    (objectAt node "patternProperties").all fun property => !setting.search property.1 name

def additionalPropertiesHold (setting : Setting) (node : Node) (members : Node) : Bool :=
  (node.lookup "additionalProperties").all fun schema => members.all fun member =>
    !additional setting node member.1 || check schema member.2

def dependenciesHold (node : Node) (members : Node) : Bool :=
  (objectAt node "dependencies").all fun dependency =>
    (members.lookup dependency.1).isNone ||
      match dependency.2 with
      | .arr names => names.all fun name => (text? name).all fun name =>
        (members.lookup name).isSome
      | schema => check schema (.obj members)

def objectHolds (setting : Setting) (node : Node) : Json ℚ → Bool
  | .obj members =>
    requiredHolds node members && propertiesHold check node members &&
      patternPropertiesHold check setting node members &&
      additionalPropertiesHold check setting node members &&
      dependenciesHold check node members &&
      (node.lookup "propertyNames").all (fun schema =>
        members.all fun member => check schema (.str member.1)) &&
      bound node "maxProperties" (fun limit => (members.length : ℚ) ≤ limit) &&
      bound node "minProperties" (fun limit => limit ≤ (members.length : ℚ))
  | _ => true

/-! ### Combinations -/

/-- A keyword whose value is a list of schemas. -/
def combined (node : Node) (keyword : String) (test : List (Json ℚ) → Bool) : Bool :=
  match node.lookup keyword with
  | some (.arr schemas) => test schemas
  | _ => true

def conditionHolds (node : Node) (value : Json ℚ) : Bool :=
  (node.lookup "if").all fun schema =>
    if check schema value then (node.lookup "then").all fun schema => check schema value
    else (node.lookup "else").all fun schema => check schema value

def combinationsHold (node : Node) (value : Json ℚ) : Bool :=
  combined node "allOf" (fun schemas => schemas.all fun schema => check schema value) &&
    combined node "anyOf" (fun schemas => schemas.any fun schema => check schema value) &&
    combined node "oneOf" (fun schemas => schemas.countP (fun schema => check schema value) = 1) &&
    (node.lookup "not").all (fun schema => !check schema value) &&
    conditionHolds check node value

/-- All the keywords of an object schema but `$ref`. -/
def keywordsHold (setting : Setting) (node : Node) (value : Json ℚ) : Bool :=
  typeHolds node value && enumHolds node value && constHolds node value &&
    numberHolds node value && textHolds setting node value &&
    ((node.lookup "format").bind text?).all (fun format => setting.format format value) &&
    arrayHolds check node value && objectHolds check setting node value &&
    combinationsHold check node value

end Applied

/-- The reference of an object schema. -/
def reference? (node : Node) : Option String := (node.lookup "$ref").bind text?

/-- The value is valid; `fuel` bounds the schemas that are entered one inside the other. -/
def valid (setting : Setting) : ℕ → Json ℚ → Json ℚ → Bool
  | 0, _, _ => false
  | _ + 1, .bool accepts, _ => accepts
  | fuel + 1, .obj node, value =>
    match reference? node with
    | some reference => (setting.resolve reference).any fun target =>
      valid setting fuel target value
    | none => keywordsHold (valid setting fuel) setting node value
  | _ + 1, _, _ => false

/-- The keywords that say which values an object schema has. -/
structure Shaped (check : Json ℚ → Json ℚ → Bool) (setting : Setting) (node : Node)
    (value : Json ℚ) : Prop where
  type : typeHolds node value = true
  enum : enumHolds node value = true
  const : constHolds node value = true
  array : arrayHolds check node value = true
  object : objectHolds check setting node value = true
  combinations : combinationsHold check node value = true

theorem shaped_of_keywordsHold {check : Json ℚ → Json ℚ → Bool} {setting : Setting} {node : Node}
    {value : Json ℚ} (h : keywordsHold check setting node value = true) :
    Shaped check setting node value := by
  simp only [keywordsHold, Bool.and_eq_true] at h
  obtain ⟨⟨⟨⟨⟨⟨⟨⟨htype, henum⟩, hconst⟩, -⟩, -⟩, -⟩, harray⟩, hobject⟩, hcombinations⟩ := h
  exact ⟨htype, henum, hconst, harray, hobject, hcombinations⟩

end Modary.Lib.Draft7
