import SqlTemplate.Node.Basic
import SqlTemplate.Text.Blank
/-!
# Trimming a rendered text

The text is stripped of the first listed word that it starts with and of the first that it ends with, up
to ASCII case, and what is left is put between the front and the back text. A blank text stays empty.
-/
namespace SqlTemplate
open Text

namespace Trim

def upperCase (s : String) : String := String.ofList (upper s.toList)

def withFrontOverrides (t : Trim) (words : List String) : Trim :=
  { t with frontOverrides := words.map upperCase }

def withBackOverrides (t : Trim) (words : List String) : Trim :=
  { t with backOverrides := words.map upperCase }

def parseOverrides (words : String) : List String :=
  ((List.splitOn '|' words.toList).filter (!·.isEmpty)).map String.ofList

def whereClause : Trim :=
  { front := some "WHERE"
    frontOverrides := ["AND ","OR ","AND\n","OR\n","AND\r","OR\r","AND\t","OR\t"] }

def setClause : Trim := { front := some "SET", frontOverrides := [","], backOverrides := [","] }

/-- A text without the first listed word that it starts with and the blanks after it. -/
def stripFront (t : Trim) (body : List Char) : List Char :=
  match t.frontOverrides.find? fun w => w.toList.isPrefixOf (upper body) with
  | some w => trimStart (body.drop (trim w.toList).length)
  | none => body

def stripBack (t : Trim) (body : List Char) : List Char :=
  match t.backOverrides.find? fun w => endsWith w.toList (upper body) with
  | some w => trimEnd (body.take (body.length-(trim w.toList).length))
  | none => body

def finish (t : Trim) (contents : List Char) : List Char :=
  let body := trim contents
  if body = [] then []
  else
    let body := t.stripBack (t.stripFront body)
    let parts := [(t.front.getD "").toList,body,(t.back.getD "").toList]
    [' '].intercalate (parts.filter (!·.isEmpty))

end Trim
end SqlTemplate
