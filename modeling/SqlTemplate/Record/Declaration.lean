import SqlTemplate.TypeRegistry
/-!
# Declared records

A record type is declared by its name, its fields and the convention of its property names, which rewrites the
names of the fields. A field may have a property name of its own, or be left out.
-/
namespace SqlTemplate

structure RecordField where
  name : String
  type : ValueType
  rename : Option String := none
  skip : Bool := false

structure RecordDeclaration where
  typeName : String
  casing : Option (String → String) := none
  fields : List RecordField

namespace RecordDeclaration

def propertyName (d : RecordDeclaration) (f : RecordField) : String :=
  f.rename.getD (d.casing.elim f.name (· f.name))

def exposed (d : RecordDeclaration) : List RecordField := d.fields.filter (!·.skip)

def shape (d : RecordDeclaration) : RecordShape :=
  ⟨d.typeName,d.exposed.map fun f => (d.propertyName f,f.type)⟩

def type (d : RecordDeclaration) : ValueType := .record d.typeName

def instantiate (d : RecordDeclaration) (field : String → Value) : Value :=
  .record d.typeName (Entries.ofList (d.exposed.map fun f => (d.propertyName f,field f.name)))

end RecordDeclaration
end SqlTemplate
