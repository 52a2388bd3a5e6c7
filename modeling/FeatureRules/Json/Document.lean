import FeatureRules.Entries
import FeatureRules.Json.Lexeme

/-!
# JSON documents

A document is what a JSON text writes, before it is known what the text is read for: repeated keys
are kept apart, a value may denote nothing, and a text that stops being JSON gives a document that is
cut off there. Readers of a document go through it in the order of the text, so they find the first
fault of the text first.
-/

namespace FeatureRules

/-- A JSON text as written. -/
inductive Document where
  | null
  | bool (value : Bool)
  | number (value : Number)
  | string (value : String)
  | array (items : List Document)
  /-- A key without a text holds an unpaired surrogate escape, or is missing in front of a cut. -/
  | object (fields : List (Option String × Document))
  /-- Well-formed text that denotes no value: a number beyond the finite range, an unpaired surrogate
  escape, or an array or object inside too many others. -/
  | void
  /-- The text is not JSON from here on. -/
  | cut
deriving Repr, Inhabited

namespace Document

/-! ## Assembling a document -/

/-- How many arrays and objects may be open at once. -/
def nestingLimit : Nat :=
  127

/-- An array or object that is still open, with its content so far in reverse. An object also holds
the key of the value being read. -/
inductive Frame where
  | array (items : List Document)
  | object (fields : List (Option String × Document)) (key : Option String)

/-- What may come next inside the innermost open frame. -/
inductive Expectation where
  | value
  /-- A value, or the end of an array without items. -/
  | firstItem
  | key
  /-- A key, or the end of an object without fields. -/
  | firstKey
  | colon
  /-- A comma, or the end of the innermost array or object. -/
  | separator
deriving DecidableEq, Repr

inductive State where
  | running (frames : List Frame) (expectation : Expectation)
  | finished (document : Document)
  | stuck

def place (value : Document) : List Frame → State
  | [] => .finished value
  | .array items :: outer => .running (.array (value :: items) :: outer) .separator
  | .object fields key :: outer =>
      .running (.object ((key, value) :: fields) none :: outer) .separator

/-- An array or object that closes inside the given frames. It denotes nothing when they are as many
as may be open. -/
def close (value : Document) (outer : List Frame) : State :=
  if (outer.drop (nestingLimit - 1)).isEmpty then place value outer else place void outer

def stepValue (frames : List Frame) : Lexeme → State
  | .null => place null frames
  | .bool value => place (bool value) frames
  | .number (some value) => place (number value) frames
  | .number none => place void frames
  | .string (some value) => place (string value) frames
  | .string none => place void frames
  | .openArray => .running (.array [] :: frames) .firstItem
  | .openObject => .running (.object [] none :: frames) .firstKey
  | _ => .stuck

def stepKey (frames : List Frame) (lexeme : Lexeme) : State :=
  match frames, lexeme with
  | .object fields _ :: outer, .string key => .running (.object fields key :: outer) .colon
  | _, _ => .stuck

def step (frames : List Frame) (expectation : Expectation) (lexeme : Lexeme) : State :=
  match expectation, lexeme, frames with
  | .value, _, _ => stepValue frames lexeme
  | .firstItem, .closeArray, .array items :: outer => close (array items.reverse) outer
  | .firstItem, _, _ => stepValue frames lexeme
  | .key, _, _ => stepKey frames lexeme
  | .firstKey, .closeObject, .object fields _ :: outer => close (object fields.reverse) outer
  | .firstKey, _, _ => stepKey frames lexeme
  | .colon, .colon, _ => .running frames .value
  | .separator, .comma, .array _ :: _ => .running frames .value
  | .separator, .comma, .object _ _ :: _ => .running frames .key
  | .separator, .closeArray, .array items :: outer => close (array items.reverse) outer
  | .separator, .closeObject, .object fields _ :: outer => close (object fields.reverse) outer
  | _, _, _ => .stuck

def enclose (value : Document) : List Frame → Document
  | [] => value
  | .array items :: outer => enclose (array (value :: items).reverse) outer
  | .object fields key :: outer => enclose (object ((key, value) :: fields).reverse) outer

def assemble (frames : List Frame) (expectation : Expectation) :
    List Lexeme → Document × List Lexeme
  | [] => (enclose cut frames, [])
  | lexeme :: rest =>
      match step frames expectation lexeme with
      | .running next nextExpectation => assemble next nextExpectation rest
      | .finished document => (document, rest)
      | .stuck => (enclose cut frames, lexeme :: rest)

/-- The document at the start of a text, and the lexemes behind it. -/
def read (text : String) : Document × List Lexeme :=
  assemble [] .value (Lexeme.scan text)

/-! ## Documents and values -/

mutual

/-- Whether a document is JSON to its end. -/
def intact : Document → Bool
  | cut => false
  | array items => intactItems items
  | object fields => intactFields fields
  | _ => true

def intactItems : List Document → Bool
  | [] => true
  | item :: rest => item.intact && intactItems rest

def intactFields : List (Option String × Document) → Bool
  | [] => true
  | (_, value) :: rest => value.intact && intactFields rest

end

mutual

/-- The value of a document. A repeated key keeps its first place and takes its last value. -/
def json? : Document → Option Json
  | null => some .null
  | bool value => some (.bool value)
  | number value => some (.number value)
  | string value => some (.string value)
  | array items => (jsonItems? items).map .array
  | object fields => (jsonFields? [] fields).map .object
  | void => none
  | cut => none

def jsonItems? : List Document → Option (List Json)
  | [] => some []
  | item :: rest =>
      match item.json?, jsonItems? rest with
      | some value, some later => some (value :: later)
      | _, _ => none

def jsonFields? (done : List (String × Json)) :
    List (Option String × Document) → Option (List (String × Json))
  | [] => some done
  | (key, document) :: rest =>
      match key, document.json? with
      | some name, some value => jsonFields? (Entries.insert name value done) rest
      | _, _ => none

end

mutual

def ofJson : Json → Document
  | .null => null
  | .bool value => bool value
  | .number value => number value
  | .string value => string value
  | .array items => array (ofItems items)
  | .object fields => object (ofFields fields)

def ofItems : List Json → List Document
  | [] => []
  | item :: rest => ofJson item :: ofItems rest

def ofFields : List (String × Json) → List (Option String × Document)
  | [] => []
  | (key, value) :: rest => (some key, ofJson value) :: ofFields rest

end

end Document

def Json.parse? (text : String) : Option Json :=
  match Document.read text with
  | (document, []) => document.json?
  | (_, _ :: _) => none

end FeatureRules
