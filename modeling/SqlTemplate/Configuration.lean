import SqlTemplate.Dialect
import SqlTemplate.Expr.Evaluator
import SqlTemplate.InjectionFilter
import SqlTemplate.TypeRegistry
/-!
# Configurations

The switches and services that templates are compiled with.
-/
namespace SqlTemplate

structure Configuration where
  dialect : Dialect
  databaseId : Option String
  shrinkWhitespace : Bool
  injectionFilter : Option InjectionFilter
  /-- The type tag of a null that has none of its own. -/
  nullSqlType : SqlType
  evaluator : Evaluator
  typeHandlers : TypeHandlers
  introspector : Introspector

namespace Configuration

/-- Question marks for placeholders, the standard evaluator and the builtin types. -/
def standard : Configuration where
  dialect := .generic
  databaseId := none
  shrinkWhitespace := false
  injectionFilter := none
  nullSqlType := .other
  evaluator := .standard
  typeHandlers := TypeRegistry.builtin.typeHandlers
  introspector := TypeRegistry.builtin.introspector

def withRegistry (c : Configuration) (r : TypeRegistry) : Configuration :=
  { c with typeHandlers := r.typeHandlers, introspector := r.introspector }

end Configuration
end SqlTemplate
