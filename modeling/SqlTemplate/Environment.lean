import SqlTemplate.Bindings
import SqlTemplate.Error
/-!
# The state of a rendering

A rendering reads and changes its environment: the bindings and a counter that gives every iteration of
every repetition a number of its own. What a rendering writes is a list of chunks, one for each text that
was written at once; on an error the chunks written before and the environment reached are kept.
-/
namespace SqlTemplate

structure Environment where
  bindings : Bindings
  counter : Nat

namespace Environment

def ofArgument (argument : Value) (databaseId : Option String) : Environment :=
  ⟨.ofArgument argument databaseId,0⟩

def bind (env : Environment) (name : String) (v : Value) : Environment :=
  { env with bindings := env.bindings.bind name v }

def unbind (env : Environment) (name : String) : Environment :=
  { env with bindings := env.bindings.unbind name }

def bind? (env : Environment) (name : Option String) (v : Value) : Environment :=
  name.elim env (env.bind · v)

def unbind? (env : Environment) (name : Option String) : Environment := name.elim env env.unbind

def advance (env : Environment) : Environment := { env with counter := env.counter+1 }

end Environment

/-- The result of rendering a node: what was written, the environment reached, and either an error or
whether the node produced its body. -/
structure Rendered where
  chunks : List (List Char)
  env : Environment
  outcome : Except Error Bool

namespace Rendered

def done (produced : Bool) (env : Environment) : Rendered := ⟨[],env,.ok produced⟩

def failed (e : Error) (env : Environment) : Rendered := ⟨[],env,.error e⟩

def write (chunk : List Char) (env : Environment) : Rendered := ⟨[chunk],env,.ok true⟩

def write? (text : Option String) (env : Environment) : Rendered :=
  text.elim (done true env) fun s => write s.toList env

def andThen (r : Rendered) (next : Environment → Rendered) : Rendered :=
  match r.outcome with
  | .error _ => r
  | .ok _ => let r' := next r.env; { r' with chunks := r.chunks ++ r'.chunks }

def mapChunks (f : List (List Char) → List (List Char)) (r : Rendered) : Rendered :=
  { r with chunks := f r.chunks }

def answering (produced : Bool) (r : Rendered) : Rendered :=
  { r with outcome := r.outcome.map fun _ => produced }

def text (r : Rendered) : List Char := r.chunks.flatten

@[simp] theorem done_andThen (produced : Bool) (env : Environment) (next : Environment → Rendered) :
    (done produced env).andThen next = next env := by simp [done,andThen]

@[simp] theorem failed_andThen (e : Error) (env : Environment) (next : Environment → Rendered) :
    (failed e env).andThen next = failed e env := by simp [failed,andThen]

theorem andThen_assoc (r : Rendered) (f g : Environment → Rendered) :
    (r.andThen f).andThen g = r.andThen fun env => (f env).andThen g := by
  obtain ⟨chunks,env,outcome⟩ := r
  cases outcome with
  | error e => rfl
  | ok b => cases h : (f env).outcome <;> simp [andThen,h]

end Rendered
end SqlTemplate
