import SqlTemplate.Node.Render
/-!
# Contexts

A context holds an environment and the text written so far, and nodes are applied to it one after the
other.
-/
namespace SqlTemplate

structure Context where
  env : Environment
  written : List Char

namespace Context

def ofArgument (argument : Value) (databaseId : Option String) : Context :=
  ⟨.ofArgument argument databaseId,[]⟩

def bindings (c : Context) : Bindings := c.env.bindings

def append (c : Context) (text : List Char) : Context := { c with written := c.written ++ text }

def takeNumber (c : Context) : Nat × Context := (c.env.counter,{ c with env := c.env.advance })

def bind (c : Context) (name : String) (v : Value) : Context := { c with env := c.env.bind name v }

def unbind (c : Context) (name : String) : Context := { c with env := c.env.unbind name }

/-- A node applied to a context. What was written before an error, and the bindings made, stay. -/
def apply (config : Configuration) (node : Node) (c : Context) : Context × Except Error Bool :=
  let r := node.render config c.env
  (⟨r.env,c.written ++ r.text⟩,r.outcome)

def sql (c : Context) : List Char := Text.trim c.written

end Context
end SqlTemplate
