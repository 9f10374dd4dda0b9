import SqlTemplate.Configuration
import SqlTemplate.Node.Repetition
import SqlTemplate.Node.Trim
/-!
# Rendering

What a node writes under a configuration, from an environment. A text or a trim that fails writes nothing;
a sequence or a repetition that fails has written what came before.
-/
namespace SqlTemplate
namespace Node

def substitute (c : Configuration) (b : Bindings) (content : List Char) : Except Error (List Char) :=
  let expression := String.ofList content
  match c.evaluator.evaluate expression b with
  | .error e => .error (.expression expression e)
  | .ok v => match c.injectionFilter with
    | none => .ok v.text.toList
    | some filter => if filter.accepts v.text then .ok v.text.toList
      else .error (.injection v.text filter.pattern)

/-- The environment in which substitutions are evaluated: a scalar argument goes by a name. -/
def exposeScalar (env : Environment) : Environment :=
  let parameter := env.bindings.parameter
  if parameter.isSimple then env.bind Bindings.scalarName parameter else env

/-- A text with its substitutions replaced. A text without any is written as it is. -/
def renderText (c : Configuration) (text : String) (env : Environment) : Rendered :=
  if hasSubstitution text then
    let env := exposeScalar env
    match Scanner.substitutions.replaceM (substitute c env.bindings) text.toList with
    | .ok written => .write written env
    | .error e => .failed e env
  else .write text.toList env

def renderConditional (c : Configuration) (test : String) (body : Environment → Rendered)
    (env : Environment) : Rendered :=
  match c.evaluator.test test env.bindings with
  | .error e => .failed (.expression test e) env
  | .ok true => (body env).answering true
  | .ok false => .done false env

def renderRepetition (c : Configuration) (r : Repetition) (body : Environment → Rendered)
    (env : Environment) : Rendered :=
  match c.evaluator.collect r.collection env.bindings with
  | .error e => .failed (.expression r.collection e) env
  | .ok entries => r.renderEntries body entries env

def renderTrim (t : Trim) (body : Environment → Rendered) (env : Environment) : Rendered :=
  let r := body env
  match r.outcome with
  | .ok _ => { r with chunks := [t.finish r.text] }
  | .error _ => { r with chunks := [] }

mutual

def render (c : Configuration) : Node → Environment → Rendered
  | .text s, env => renderText c s env
  | .conditional test body, env => renderConditional c test (render c body) env
  | .repetition r body, env => renderRepetition c r (render c body) env
  | .trim t body, env => renderTrim t (render c body) env
  | .sequence nodes, env => renderAll c nodes env

def renderAll (c : Configuration) : List Node → Environment → Rendered
  | [], env => .done true env
  | n :: ns, env => (render c n env).andThen (renderAll c ns)

end

end Node
end SqlTemplate
