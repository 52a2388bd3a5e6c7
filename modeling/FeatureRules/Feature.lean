import FeatureRules.Json.Record

/-!
# Features

A feature is a named value that rules compute. It may be typed, may stay in the context, and may
have a default.
-/

namespace FeatureRules

structure Feature where
  name : String
  type : Option ValueType
  holder : Holder
  defaultValue : Option Json
deriving Repr

namespace Feature

structure Draft where
  name : Option String := none
  type : Option (Option ValueType) := none
  result : Option Bool := none
  defaultValue : Option (Option Json) := none

def Draft.set (draft : Draft) (key : String) (value : Document) : Except DecodeError Draft := do
  if key = "name" then
    return { draft with name := ← Document.fill draft.name value.decodeString }
  else if key = "type" then
    return { draft with
      type := ← Document.fill draft.type (value.decodeOptional ValueType.decode) }
  else if key = "result" then
    return { draft with result := ← Document.fill draft.result value.decodeBool }
  else if key = "default" then
    return { draft with
      defaultValue := ← Document.fill draft.defaultValue
        (value.decodeOptional Document.decodeJson) }
  else Document.ignore draft value

/-- A feature from its fields. Only the name is needed, and a feature belongs to the result unless it
says otherwise. -/
def Draft.finish (draft : Draft) : Except DecodeError Feature := do
  let name ← Document.require draft.name
  return {
    name := name
    type := draft.type.getD none
    holder := Holder.ofFlag (draft.result.getD true)
    defaultValue := draft.defaultValue.getD none }

def decode (document : Document) : Except DecodeError Feature := do
  (← document.decodeRecord ["name", "type", "result", "default"] Draft.set {}).finish

def ofJson (value : Json) : Except DecodeError Feature :=
  decode (Document.ofJson value)

/-- A feature as a JSON value. An absent type is written as null, an absent default is left out. -/
def toJson (feature : Feature) : Json :=
  .object <|
    [("name", .string feature.name),
      ("type", Json.orNull (feature.type.map ValueType.toJson)),
      ("result", .bool feature.holder.isResult)] ++
    match feature.defaultValue with
    | none => []
    | some value => [("default", value)]

end Feature

end FeatureRules
