/-!
# Types, getters and holders

Declared types of values, the typed getters of the rule engine that read them, and the two holders
that values live in while rules fire.
-/

namespace FeatureRules

/-- Declared type of a feature, a parameter or the value of a rule. -/
inductive ValueType where
  | boolean
  | integer
  | decimal
  | string
  | object
  | slice
deriving DecidableEq, Repr

namespace ValueType

def name : ValueType → String
  | boolean => "boolean"
  | integer => "integer"
  | decimal => "decimal"
  | string => "string"
  | object => "object"
  | slice => "slice"

def all : List ValueType :=
  [boolean, integer, decimal, string, object, slice]

/-- The type that a name stands for. Names are matched exactly. -/
def ofName? (text : String) : Option ValueType :=
  all.find? fun type => type.name == text

end ValueType

inductive Getter where
  | get
  | getMap
  | getString
  | getBool
  | getInt
  | getFloat
  | getSlice
deriving DecidableEq, Repr

namespace Getter

def name : Getter → String
  | get => "Get"
  | getMap => "GetMap"
  | getString => "GetString"
  | getBool => "GetBool"
  | getInt => "GetInt"
  | getFloat => "GetFloat"
  | getSlice => "GetSlice"

def all : List Getter :=
  [get, getMap, getString, getBool, getInt, getFloat, getSlice]

def ofName? (text : String) : Option Getter :=
  all.find? fun getter => getter.name == text

/-- The getter that reads values of a type. A value without a type is read by the untyped getter. -/
def ofType : Option ValueType → Getter
  | some .object => getMap
  | some .string => getString
  | some .boolean => getBool
  | some .integer => getInt
  | some .decimal => getFloat
  | some .slice => getSlice
  | none => get

end Getter

/-- Where a value lives while rules fire. -/
inductive Holder where
  /-- Inputs and intermediate values. -/
  | context
  /-- Values handed back to the caller. -/
  | result
deriving DecidableEq, Repr

namespace Holder

def name : Holder → String
  | context => "ctx"
  | result => "result"

def ofFlag (toResult : Bool) : Holder :=
  if toResult then result else context

def isResult : Holder → Bool
  | context => false
  | result => true

def meet : Holder → Holder → Holder
  | result, other => other
  | context, _ => context

end Holder

end FeatureRules
