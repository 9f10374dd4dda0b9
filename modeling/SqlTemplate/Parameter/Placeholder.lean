import SqlTemplate.Parameter.Mapping
import SqlTemplate.Scanner
/-!
# Placeholders

A rendered text becomes SQL: every bind marker is replaced by the placeholder of its position and described
by a mapping. Mappings are in the order of their placeholders.
-/
namespace SqlTemplate

structure MappedSql where
  text : List Char
  mappings : List ParameterMapping

namespace MappedSql

def empty : MappedSql := ⟨[],[]⟩

def addText (text : List Char) (m : MappedSql) : MappedSql := { m with text := text ++ m.text }

def addMapping (mapping : ParameterMapping) (m : MappedSql) : MappedSql :=
  { m with mappings := mapping :: m.mappings }

end MappedSql

namespace MarkerScope

/-- The SQL of the pieces from a position on. The first marker that cannot be read is the error. -/
def fill (s : MarkerScope) : Nat → List Piece → Except Error MappedSql
  | _, [] => .ok .empty
  | n, .literal text :: ps => (s.fill n ps).map (.addText text)
  | n, .escapedOpening :: ps => (s.fill n ps).map (.addText Scanner.bindMarkers.opening)
  | n, .span parts :: ps => do
    let mapping ← s.describe n (Scanner.bindMarkers.content parts)
    let rest ← s.fill (n+1) ps
    return (rest.addMapping mapping).addText (s.config.dialect.placeholder n)

def mapMarkers (s : MarkerScope) (text : List Char) : Except Error MappedSql :=
  s.fill 0 (Scanner.bindMarkers.pieces text)

end MarkerScope
end SqlTemplate
