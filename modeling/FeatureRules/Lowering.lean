import FeatureRules.Model

/-!
# Lowering

References of a rule text become typed calls on the holders of the rule engine, and the text is made
to yield a value of the wanted type.
-/

namespace FeatureRules

/-- Where a reference is read, and the type that is known of it. -/
structure Target where
  holder : Holder
  type : Option ValueType
deriving DecidableEq, Repr

/-- What a name stands for behind a sigil. Parameters are read from the context, and rules from where
the feature of their name is held. Membership is not read from one place. -/
def Model.resolve (model : Model) (sigil : Sigil) (name : String) : Option Target :=
  match sigil with
  | .parameter =>
      some { holder := .context, type := (model.parameter? name).map Parameter.type }
  | .result | .synonym =>
      match model.feature? name with
      | some feature => some { holder := feature.holder, type := feature.type }
      | none => some { holder := .result, type := none }
  | .membership => none

def Getter.call (getter : Getter) (key : String) : String :=
  "." ++ getter.name ++ "(\"" ++ key ++ "\")"

def Holder.read (holder : Holder) (getter : Getter) (key : String) : String :=
  holder.name ++ getter.call key

namespace Reference

/-- The calls that follow a path. All steps but the last lead through maps. -/
def pathCalls (last : Getter) : List String → String
  | [] => ""
  | [segment] => last.call segment
  | segment :: next :: rest => Getter.getMap.call segment ++ pathCalls last (next :: rest)

def membershipTest (name : String) : String :=
  "processor.Contains(" ++ Holder.context.read .getSlice (name ++ "_entries") ++ ", " ++
    Holder.context.read .get (name ++ "_value") ++ ")"

/-- The getter of the name itself. A cast says the type of what is read last, so it counts here only
without a path. -/
def rootGetter (reference : Reference) (type : Option ValueType) : Getter :=
  match reference.path, reference.cast with
  | [], some _ => Getter.ofType reference.castType?
  | _, _ => Getter.ofType type

def access (model : Model) (reference : Reference) : String :=
  match model.resolve reference.sigil reference.name with
  | none => membershipTest reference.name
  | some target =>
      target.holder.read (reference.rootGetter target.type) reference.name ++
        pathCalls (Getter.ofType reference.castType?) reference.path

end Reference

def Fragment.lower (model : Model) : Fragment → String
  | literal content => content
  | reference mention => mention.access model

def startsWith (start text : String) : Bool :=
  start.toList.isPrefixOf text.toList

def isAccess (expression : String) : Bool :=
  startsWith (Holder.context.name ++ ".") expression ||
    startsWith (Holder.result.name ++ ".") expression

/-- Make an expression yield a value of a type. A call is converted to a string by appending the empty
string, and any other text that is no literal becomes one. An object is read from its JSON text. -/
def conform (type : Option ValueType) (expression : String) : String :=
  match type with
  | some .string =>
      if isAccess expression then expression ++ " + \"\""
      else if startsWith "\"" expression then expression
      else "\"" ++ expression ++ "\""
  | some .object => "processor.ToMap(" ++ Json.quote expression ++ ")"
  | _ => expression

namespace Model

def substitute (model : Model) (text : String) : String :=
  String.join ((Fragment.split text).map (Fragment.lower model))

/-- A text lowered to an expression of a type. -/
def lower (model : Model) (text : String) (type : Option ValueType) : String :=
  conform type (model.substitute text)

end Model

end FeatureRules
