import FeatureRules.Json.Record

/-!
# Parameters

A parameter is a named and typed input. It may be required of the caller, and it may be fetched by a
resolver.
-/

namespace FeatureRules

structure Parameter where
  name : String
  type : ValueType
  required : Bool
  resolver : Option String
deriving DecidableEq, Repr

namespace Parameter

/-- Read a flag: a truth value, or its name in any case. The empty text is false. -/
def decodeFlag : Document → Except DecodeError Bool
  | .bool value => .ok value
  | .string text =>
      let lower := String.ofList (text.toList.map Char.toLower)
      if lower = "true" then .ok true
      else if lower = "false" ∨ lower = "" then .ok false
      else .error (.notBoolean lower)
  | _ => .error .malformed

structure Draft where
  name : Option String := none
  type : Option ValueType := none
  required : Option Bool := none
  resolver : Option (Option String) := none

def Draft.set (draft : Draft) (key : String) (value : Document) : Except DecodeError Draft := do
  if key = "name" then
    return { draft with name := ← Document.fill draft.name value.decodeString }
  else if key = "type" then
    return { draft with type := ← Document.fill draft.type (ValueType.decode value) }
  else if key = "required" then
    return { draft with required := ← Document.fill draft.required (decodeFlag value) }
  else if key = "resolver" then
    return { draft with
      resolver := ← Document.fill draft.resolver
        (value.decodeOptional Document.decodeString) }
  else Document.ignore draft value

/-- A parameter from its fields. The name and the type are needed. -/
def Draft.finish (draft : Draft) : Except DecodeError Parameter := do
  let name ← Document.require draft.name
  let type ← Document.require draft.type
  return {
    name := name
    type := type
    required := draft.required.getD false
    resolver := draft.resolver.getD none }

def decode (document : Document) : Except DecodeError Parameter := do
  (← document.decodeRecord ["name", "type", "required", "resolver"] Draft.set {}).finish

def ofJson (value : Json) : Except DecodeError Parameter :=
  decode (Document.ofJson value)

/-- A parameter as a JSON value. An absent resolver is left out. -/
def toJson (parameter : Parameter) : Json :=
  .object <|
    [("name", .string parameter.name),
      ("type", parameter.type.toJson),
      ("required", .bool parameter.required)] ++
    match parameter.resolver with
    | none => []
    | some resolver => [("resolver", .string resolver)]

end Parameter

end FeatureRules
