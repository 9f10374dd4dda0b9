import SqlTemplate.Expr.Parser
/-!
# The grammar of expressions

Five levels of left associative binary operators, over signs, over members and keys, over atoms. The grammar is
written over lexemes and without reference to the reading of texts. A layout spells lexemes one after the other
with any blanks around them; a word must end where its lexeme does.
-/
namespace SqlTemplate.Expr
open Text

inductive Rank
  | or
  | and
  | comparison
  | additive
  | multiplicative
  deriving DecidableEq

/-- The levels of the grammar, from the whole expression to the atom. -/
inductive Level
  | binary (r : Rank)
  | unary
  | access
  | primary
  deriving DecidableEq

/-- The level of what stands to the right of an operator. To its left there may be its own level. -/
def Rank.operand : Rank → Level
  | .or => .binary .and
  | .and => .binary .comparison
  | .comparison => .binary .additive
  | .additive => .binary .multiplicative
  | .multiplicative => .unary

end SqlTemplate.Expr

namespace SqlTemplate.BinaryOp
open SqlTemplate.Expr

def rank : BinaryOp → Rank
  | .or => .or
  | .and => .and
  | .eq | .ne | .comparison _ => .comparison
  | .arithmetic .add | .arithmetic .sub => .additive
  | .arithmetic _ => .multiplicative

/-- What an operator is written as: a symbol, and in the upper ranks a word too. -/
def spellings : BinaryOp → List Token
  | .or => [.symbol ['|','|'],.word ['o','r']]
  | .and => [.symbol ['&','&'],.word ['a','n','d']]
  | .eq => [.symbol ['=','='],.word ['e','q']]
  | .ne => [.symbol ['!','='],.word ['n','e','q']]
  | .comparison .less => [.symbol ['<'],.word ['l','t']]
  | .comparison .lessEq => [.symbol ['<','='],.word ['l','t','e']]
  | .comparison .greater => [.symbol ['>'],.word ['g','t']]
  | .comparison .greaterEq => [.symbol ['>','='],.word ['g','t','e']]
  | .arithmetic .add => [.symbol ['+']]
  | .arithmetic .sub => [.symbol ['-']]
  | .arithmetic .mul => [.symbol ['*']]
  | .arithmetic .div => [.symbol ['/']]
  | .arithmetic .rem => [.symbol ['%']]

end SqlTemplate.BinaryOp

namespace SqlTemplate.Expr
open Text

namespace Token

def text : Token → List Char
  | .symbol text | .word text => text

def wellFormed : Token → Bool
  | .symbol text => text.head?.any fun c => !isNameChar c && !isSpace c
  | .word text => text ≠ [] && text.all isNameChar

def isWord : Token → Bool
  | .symbol _ => false
  | .word _ => true

end Token

def notSpellings : List Token := [.symbol ['!'],.word ['n','o','t']]

def minus : Token := .symbol ['-']

def dot : Token := .symbol ['.']

def opening : Token := .symbol ['(']

def closing : Token := .symbol [')']

def openingKey : Token := .symbol ['[']

def closingKey : Token := .symbol [']']

def IsIdentifier : List Char → Prop
  | [] => False
  | c :: cs => isNameStart c = true ∧ ∀ d ∈ cs, isNameChar d = true

instance (name : List Char) : Decidable (IsIdentifier name) :=
  match name with
  | [] => isFalse id
  | c :: cs => decidable_of_iff (isNameStart c = true ∧ cs.all isNameChar = true) (by simp [IsIdentifier])

def IsDigits (cs : List Char) : Prop := cs ≠ [] ∧ ∀ c ∈ cs, c.isDigit = true

instance (cs : List Char) : Decidable (IsDigits cs) :=
  decidable_of_iff (cs ≠ [] ∧ cs.all Char.isDigit = true) (by simp [IsDigits])

inductive Lexeme
  | mark (t : Token)
  | name (text : List Char)
  | digits (whole : List Char)
  | decimal (whole fraction : List Char)
  | quoted (quote : Char) (text : List Char)
  deriving DecidableEq

namespace Lexeme

def text : Lexeme → List Char
  | .mark t => t.text
  | .name text => text
  | .digits whole => whole
  | .decimal whole fraction => whole ++ '.' :: fraction
  | .quoted quote text => quote :: (text ++ [quote])

/-- The texts that a lexeme is spelled with. A string does not hold its own quote. -/
def WellFormed : Lexeme → Prop
  | .mark t => t.wellFormed = true
  | .name text => IsIdentifier text
  | .digits whole => IsDigits whole
  | .decimal whole fraction => IsDigits whole ∧ IsDigits fraction
  | .quoted quote text => (quote = '\'' ∨ quote = '"') ∧ quote ∉ text

instance (l : Lexeme) : Decidable l.WellFormed :=
  match l with
  | .mark t => inferInstanceAs (Decidable (t.wellFormed = true))
  | .name text => inferInstanceAs (Decidable (IsIdentifier text))
  | .digits whole => inferInstanceAs (Decidable (IsDigits whole))
  | .decimal whole fraction => inferInstanceAs (Decidable (IsDigits whole ∧ IsDigits fraction))
  | .quoted quote text => inferInstanceAs (Decidable ((quote = '\'' ∨ quote = '"') ∧ quote ∉ text))

def isWord : Lexeme → Bool
  | .mark t => t.isWord
  | .name _ => true
  | _ => false

end Lexeme

/-- The texts that spell a list of lexemes. -/
inductive Layout : List Lexeme → List Char → Prop
  | nil {gap : List Char} (hgap : ∀ c ∈ gap, isSpace c = true) : Layout [] gap
  | cons {gap : List Char} {l : Lexeme} {ls : List Lexeme} {cs : List Char}
      (hgap : ∀ c ∈ gap, isSpace c = true) (hl : l.WellFormed)
      (hend : l.isWord = true → continuesName cs = false) (h : Layout ls cs) :
      Layout (l :: ls) (gap ++ (l.text ++ cs))

def decimalValue (whole fraction : List Char) : Float :=
  (Numeral.Real.decimal false (Nat.ofDigitChars 10 (whole ++ fraction) 0) (-fraction.length)).toFloat

def wordLiterals : List (List Char × Value) :=
  [("null".toList,.null),("true".toList,.bool true),("false".toList,.bool false)]

/-- The lexemes of an expression that stands on a level, and its tree. -/
inductive Derives : Level → List Lexeme → Expr → Prop
  | operand {r : Rank} {ts : List Lexeme} {e : Expr} (h : Derives r.operand ts e) : Derives (.binary r) ts e
  | binary {r : Rank} {ls rs : List Lexeme} {t : Token} {lhs rhs : Expr} {op : BinaryOp} (hop : op.rank = r)
      (ht : t ∈ op.spellings) (hl : Derives (.binary r) ls lhs) (hr : Derives r.operand rs rhs) :
      Derives (.binary r) (ls ++ .mark t :: rs) (.binary lhs op rhs)
  | not {t : Token} {ts : List Lexeme} {e : Expr} (ht : t ∈ notSpellings) (h : Derives .unary ts e) :
      Derives .unary (.mark t :: ts) (.not e)
  | negate {ts : List Lexeme} {e : Expr} (h : Derives .unary ts e) :
      Derives .unary (.mark minus :: ts) (.negate e)
  | access {ts : List Lexeme} {e : Expr} (h : Derives .access ts e) : Derives .unary ts e
  | property {ts : List Lexeme} {e : Expr} {name : List Char} (h : Derives .access ts e) :
      Derives .access (ts ++ [.mark dot,.name name]) (.property e (String.ofList name))
  | call {ts : List Lexeme} {e : Expr} {name : List Char} (h : Derives .access ts e) :
      Derives .access (ts ++ [.mark dot,.name name,.mark opening,.mark closing]) (.call e (String.ofList name))
  | index {ts ks : List Lexeme} {e key : Expr} (h : Derives .access ts e) (hkey : Derives (.binary .or) ks key) :
      Derives .access (ts ++ .mark openingKey :: (ks ++ [.mark closingKey])) (.index e key)
  | primary {ts : List Lexeme} {e : Expr} (h : Derives .primary ts e) : Derives .access ts e
  | parenthesised {ts : List Lexeme} {e : Expr} (h : Derives (.binary .or) ts e) :
      Derives .primary (.mark opening :: (ts ++ [.mark closing])) e
  | integer {ds : List Char} (hfits : Nat.ofDigitChars 10 ds 0 < Nat.pow 2 63) :
      Derives .primary [.digits ds] (.literal (.int (Int64.ofNat (Nat.ofDigitChars 10 ds 0))))
  | decimal {whole fraction : List Char} :
      Derives .primary [.decimal whole fraction] (.literal (.float (decimalValue whole fraction)))
  | string {quote : Char} {text : List Char} :
      Derives .primary [.quoted quote text] (.literal (.string (String.ofList text)))
  | word {text : List Char} {v : Value} (h : (text,v) ∈ wordLiterals) : Derives .primary [.name text] (.literal v)
  | identifier {name : List Char} (h : ∀ v, (name,v) ∉ wordLiterals) :
      Derives .primary [.name name] (.variable (String.ofList name))

/-- No variable of the expression is named `not`. -/
def NotFree : Expr → Prop
  | .literal _ => True
  | .variable name => name ≠ "not"
  | .property e _ | .call e _ | .not e | .negate e => NotFree e
  | .index e key => NotFree e ∧ NotFree key
  | .binary lhs _ rhs => NotFree lhs ∧ NotFree rhs

end SqlTemplate.Expr
