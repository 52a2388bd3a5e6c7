import FeatureRules.Feature
import FeatureRules.ModelError
import FeatureRules.Reference

/-!
# Rules

A rule computes the value of its name from an expression, under a condition. Rule bodies are JSON
values: an object with a `value` carries the type, the condition and the holder beside it, and any
other body is the expression itself.
-/

namespace FeatureRules

structure Rule where
  name : String
  /-- The body. Texts are expressions, and other values stand for their JSON text. -/
  expression : Json
  condition : Option String
  /-- The declared type. Without one, the type of the feature of the same name applies. -/
  type : Option ValueType
  holder : Holder
deriving Repr

namespace Rule

def plain (name : String) (expression : Json) : Rule :=
  { name, expression, condition := none, type := none, holder := .result }

def expressionText (rule : Rule) : String :=
  rule.expression.sourceText

/-- Expression and condition in one text, which holds every reference of the rule. -/
def referenceText (rule : Rule) : String :=
  match rule.condition with
  | none => rule.expressionText
  | some condition => rule.expressionText ++ " " ++ condition

/-- The rules that a rule waits for, in the order of its text and with repetitions. -/
def dependencies (rule : Rule) : List String :=
  FeatureRules.dependencies rule.referenceText

def inContext (rule : Rule) : Rule :=
  { rule with holder := .context }

def feature (rule : Rule) : Feature :=
  { name := rule.name, type := rule.type, holder := rule.holder, defaultValue := none }

def readType (name : String) : Option Json → Except ModelError (Option ValueType)
  | none => .ok none
  | some .null => .ok none
  | some (.string text) =>
      match ValueType.ofName? text with
      | some type => .ok (some type)
      | none => .error (.invalidRule name (.unknownType text))
  | some other => .error (.invalidRule name (.typeNotText other))

def readCondition : Option Json → Option String
  | none => none
  | some .null => none
  | some condition => some condition.sourceText

/-- The holder that a body declares. Only truth values choose one. -/
def readHolder : Option Json → Holder
  | some (.bool toResult) => Holder.ofFlag toResult
  | _ => .result

def ofJson (name : String) (body : Json) : Except ModelError Rule :=
  match body with
  | .object fields =>
      match fields.lookup "value" with
      | none => .ok (plain name body)
      | some expression => do
          let type ← readType name (fields.lookup "type")
          return {
            name := name
            expression := expression
            condition := readCondition (fields.lookup "condition")
            type := type
            holder := readHolder (fields.lookup "result") }
  | _ => .ok (plain name body)

end Rule

end FeatureRules
