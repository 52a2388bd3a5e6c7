import FeatureRules.Json.Document
import FeatureRules.ValueType

/-!
# Records in JSON documents

A record is written as an object, or as an array of its fields in a fixed order. Fields are taken up
one by one in the order of the text, so the first fault of a record is the one that is reported.
-/

namespace FeatureRules

/-- Why a document is not what it is read for. -/
inductive DecodeError where
  /-- The text is not JSON, or has another shape. -/
  | malformed
  /-- A flag is a text that stands for no truth value. -/
  | notBoolean (text : String)
deriving DecidableEq, Repr

/-- What there is to say about a fault beyond its presence. -/
def DecodeError.message? : DecodeError → Option String
  | malformed => none
  | notBoolean text => some ("expected a boolean, got '" ++ text ++ "'")

namespace Document

def decodeString : Document → Except DecodeError String
  | string value => .ok value
  | _ => .error .malformed

def decodeBool : Document → Except DecodeError Bool
  | bool value => .ok value
  | _ => .error .malformed

def decodeJson (document : Document) : Except DecodeError Json :=
  match document.json? with
  | some value => .ok value
  | none => .error .malformed

def decodeOptional {α : Type} (decode : Document → Except DecodeError α) :
    Document → Except DecodeError (Option α)
  | null => .ok none
  | document => (decode document).map some

/-- One of several names, written as a text or as the only key of an object with the value null. -/
def decodeName {α : Type} (ofName? : String → Option α) (document : Document) :
    Except DecodeError α :=
  let named (name : String) : Except DecodeError α :=
    match ofName? name with
    | some value => .ok value
    | none => .error .malformed
  match document with
  | string name => named name
  | object [(some name, null)] => named name
  | _ => .error .malformed

def decodeItems {α : Type} (decode : Document → Except DecodeError α) :
    List Document → Except DecodeError (List α)
  | [] => .ok []
  | item :: rest => do
      let value ← decode item
      let later ← decodeItems decode rest
      return value :: later

def decodeArray {α : Type} (decode : Document → Except DecodeError α) :
    Document → Except DecodeError (List α)
  | array items => decodeItems decode items
  | _ => .error .malformed

/-- Take up the fields of an object. A key has to be a text. -/
def setFields {σ : Type} (set : σ → String → Document → Except DecodeError σ) (draft : σ) :
    List (Option String × Document) → Except DecodeError σ
  | [] => .ok draft
  | (some key, value) :: rest => do setFields set (← set draft key value) rest
  | (none, _) :: _ => .error .malformed

/-- Take up the items of an array as fields, in the order of the keys. -/
def setItems {σ : Type} (set : σ → String → Document → Except DecodeError σ) (draft : σ) :
    List String → List Document → Except DecodeError σ
  | _, [] => .ok draft
  | key :: keys, item :: rest => do setItems set (← set draft key item) keys rest
  | [], _ :: _ => .error .malformed

/-- Read a record: `set` takes up one field, and `keys` is the order of fields in an array. -/
def decodeRecord {σ : Type} (keys : List String)
    (set : σ → String → Document → Except DecodeError σ) (draft : σ) :
    Document → Except DecodeError σ
  | object fields => setFields set draft fields
  | array items => setItems set draft keys items
  | _ => .error .malformed

/-- Pass over a field that the record does not have. Its text still has to be JSON. -/
def ignore {σ : Type} (draft : σ) (value : Document) : Except DecodeError σ :=
  if value.intact then .ok draft else .error .malformed

/-- Fill a place that can be filled once. -/
def fill {α : Type} (place : Option α) (value : Except DecodeError α) :
    Except DecodeError (Option α) :=
  match place with
  | some _ => .error .malformed
  | none => value.map some

def require {α : Type} : Option α → Except DecodeError α
  | some value => .ok value
  | none => .error .malformed

/-- Read a whole text. What follows the document counts only when the document itself is sound. -/
def decodeText {α : Type} (decode : Document → Except DecodeError α) (text : String) :
    Except DecodeError α := do
  let (document, rest) := read text
  let value ← decode document
  if rest.isEmpty then return value else .error .malformed

end Document

namespace ValueType

def decode (document : Document) : Except DecodeError ValueType :=
  document.decodeName ofName?

def toJson (type : ValueType) : Json :=
  .string type.name

end ValueType

namespace Getter

def decode (document : Document) : Except DecodeError Getter :=
  document.decodeName ofName?

def toJson (getter : Getter) : Json :=
  .string getter.name

end Getter

end FeatureRules
