import SqlTemplate.Value.Basic
/-!
# Bindings

The names that expressions and bind markers can refer to during one rendering. A name bound explicitly
wins; any other name falls back to the argument: to its member of that name or, when the argument is a
lone scalar, to the scalar itself.
-/
namespace SqlTemplate

structure Bindings where
  parameter : Value
  values : Table String Value

namespace Bindings

def parameterName : String := "_parameter"

def databaseIdName : String := "_databaseId"

def scalarName : String := "value"

def empty : Bindings := ⟨.null,.empty⟩

def ofArgument (argument : Value) (databaseId : Option String) : Bindings where
  parameter := argument
  values := .ofList [(parameterName,argument),(databaseIdName,databaseId.elim .null .string)]

def bind (b : Bindings) (name : String) (v : Value) : Bindings :=
  { b with values := b.values.put name v }

def unbind (b : Bindings) (name : String) : Bindings := { b with values := b.values.erase name }

/-- The value a name is bound to, not counting the argument's members. -/
def explicit? (b : Bindings) (name : String) : Option Value := b.values.get? name

def has (b : Bindings) (name : String) : Bool := (b.explicit? name).isSome

def ofParameter? (b : Bindings) (name : String) : Option Value :=
  if b.parameter.isNull then none
  else if b.parameter.isSimple then some b.parameter
  else b.parameter.property? name

def get? (b : Bindings) (name : String) : Option Value :=
  (b.explicit? name).or (b.ofParameter? name)

/-- What a property path leads to when its root is bound explicitly. -/
def additional? (b : Bindings) (path : List Char) : Option Value :=
  (b.explicit? (String.ofList (Path.root path))).bind (·.lookup? (Path.afterRoot path))

@[simp] theorem explicit?_bind (b : Bindings) (name other : String) (v : Value) :
    (b.bind name v).explicit? other = if name = other then some v else b.explicit? other := by
  simp [bind,explicit?]

@[simp] theorem parameter_bind (b : Bindings) (name : String) (v : Value) :
    (b.bind name v).parameter = b.parameter := rfl

@[simp] theorem parameter_unbind (b : Bindings) (name : String) :
    (b.unbind name).parameter = b.parameter := rfl

@[simp] theorem explicit?_unbind (b : Bindings) (name other : String) :
    (b.unbind name).explicit? other = if name = other then none else b.explicit? other := by
  simp [unbind,explicit?]

end Bindings
end SqlTemplate
