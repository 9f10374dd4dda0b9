import SqlTemplate.Text.Blank
/-!
# Shrinking whitespace

Every run of blanks becomes one space, and none is left at the ends. Quoted stretches, from a single or
double quote to the next one of its kind, are kept as they are; one that is never closed goes to the end.
-/
namespace SqlTemplate.Text

def isQuote (c : Char) : Bool := c = '\'' || c = '"'

/-- The text that is written for what follows a place. `started` says that something has been written,
`pending` that blanks were passed since, `quote` which quote is open. -/
def shrinkFrom (started pending : Bool) : Option Char → List Char → List Char
  | _, [] => []
  | some q, c :: cs => c :: shrinkFrom true false (if c = q then none else some q) cs
  | none, c :: cs =>
    if isBlank c then shrinkFrom started true none cs
    else
      let rest := c :: shrinkFrom true false (if isQuote c then some c else none) cs
      if pending && started then ' ' :: rest else rest

def shrink (cs : List Char) : List Char := shrinkFrom false false none cs

end SqlTemplate.Text
