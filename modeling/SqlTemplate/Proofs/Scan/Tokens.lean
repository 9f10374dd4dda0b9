import SqlTemplate.Parameter.Placeholder
/-!
# Scanned texts as tokens

What a scan finds, one token for each character that stands for itself and one slot for each span. Every
pass over a scanned text is a function of its tokens, and the tokens are read off character by character.
-/
namespace SqlTemplate

/-- A place of a scanned text: a character, or a slot where a span stood. -/
inductive Token (α : Type)
  | char (c : Char)
  | slot (a : α)
  deriving DecidableEq

namespace Token
variable {α β ε : Type}

def chars (cs : List Char) : List (Token α) := cs.map .char

def slot? : Token α → Option α
  | .char _ => none
  | .slot a => some a

def slots (ts : List (Token α)) : List α := ts.filterMap slot?

def write (f : α → List Char) : Token α → List Char
  | .char c => [c]
  | .slot a => f a

def fill (f : α → List Char) (ts : List (Token α)) : List Char := ts.flatMap (write f)

/-- The text of tokens where a slot can fail; the leftmost failure is the failure of the whole. -/
def fillM (f : α → Except ε (List Char)) : List (Token α) → Except ε (List Char)
  | [] => .ok []
  | .char c :: ts => (fillM f ts).map (c :: ·)
  | .slot a :: ts => do
    let text ← f a
    let rest ← fillM f ts
    return text ++ rest

@[simp] theorem chars_nil : (chars [] : List (Token α)) = [] := rfl

@[simp] theorem chars_cons (c : Char) (cs : List Char) :
    (chars (c :: cs) : List (Token α)) = .char c :: chars cs := rfl

@[simp] theorem chars_append (a b : List Char) :
    (chars (a ++ b) : List (Token α)) = chars a ++ chars b := List.map_append

@[simp] theorem slots_nil : slots ([] : List (Token α)) = [] := rfl

@[simp] theorem slots_char (c : Char) (ts : List (Token α)) : slots (.char c :: ts) = slots ts := rfl

@[simp] theorem slots_slot (a : α) (ts : List (Token α)) : slots (.slot a :: ts) = a :: slots ts := rfl

@[simp] theorem slots_append (a b : List (Token α)) : slots (a ++ b) = slots a ++ slots b :=
  List.filterMap_append

@[simp] theorem slots_chars (cs : List Char) : slots (chars cs : List (Token α)) = [] := by
  induction cs with
  | nil => rfl
  | cons c cs ih => simpa using ih

@[simp] theorem fill_nil (f : α → List Char) : fill f [] = [] := rfl

@[simp] theorem fill_char (f : α → List Char) (c : Char) (ts : List (Token α)) :
    fill f (.char c :: ts) = c :: fill f ts := rfl

@[simp] theorem fill_slot (f : α → List Char) (a : α) (ts : List (Token α)) :
    fill f (.slot a :: ts) = f a ++ fill f ts := rfl

@[simp] theorem fill_append (f : α → List Char) (a b : List (Token α)) :
    fill f (a ++ b) = fill f a ++ fill f b := List.flatMap_append

@[simp] theorem fill_chars (f : α → List Char) (cs : List Char) : fill f (chars cs) = cs := by
  induction cs with
  | nil => rfl
  | cons c cs ih => simpa using ih

private theorem fillM_append (f : α → Except ε (List Char)) (a b : List (Token α)) :
    fillM f (a ++ b) = do return (← fillM f a) ++ (← fillM f b) := by
  induction a with
  | nil => cases h : fillM f b <;> simp [fillM,h,bind,Except.bind,pure,Except.pure]
  | cons t a ih =>
    cases t with
    | char c =>
      simp only [List.cons_append,fillM,ih]
      cases fillM f a <;> cases fillM f b <;> rfl
    | slot x =>
      simp only [List.cons_append,fillM,ih]
      cases f x <;> cases fillM f a <;> cases fillM f b <;>
        simp [bind,Except.bind,pure,Except.pure]

private theorem fillM_chars (f : α → Except ε (List Char)) (cs : List Char) : fillM f (chars cs) = .ok cs := by
  induction cs with
  | nil => rfl
  | cons c cs ih => simp [fillM,ih,Except.map]

end Token

namespace Scanner
open Token

def pieceTokens (s : Scanner) : Piece → List (Token (List Char))
  | .literal text => chars text
  | .escapedOpening => chars (s.escapes.mark ++ s.opening)
  | .span parts => [.slot (s.content parts)]

def tokens (s : Scanner) (cs : List Char) : List (Token (List Char)) :=
  (s.pieces cs).flatMap s.pieceTokens

theorem spans_eq_slots (s : Scanner) (cs : List Char) : s.spans cs = slots (s.tokens cs) := by
  rw [spans,tokens]
  induction s.pieces cs with
  | nil => rfl
  | cons p ps ih => cases p <;> simp [pieceTokens,ih]

theorem replace_eq_fill (s : Scanner) (f : List Char → List Char) (cs : List Char) :
    s.replace f cs = fill f (s.tokens cs) := by
  rw [replace,tokens]
  induction s.pieces cs with
  | nil => rfl
  | cons p ps ih =>
    have hp : s.writePiece (m := Id) f p = fill f (s.pieceTokens p) := by
      cases p <;> simp [writePiece,pieceTokens,pure]
    rw [List.flatMap_cons,fill_append,← ih,← hp]
    rfl

theorem replaceM_eq_fillM {ε : Type} (s : Scanner) (f : List Char → Except ε (List Char))
    (cs : List Char) : s.replaceM f cs = fillM f (s.tokens cs) := by
  rw [replaceM,tokens]
  induction s.pieces cs with
  | nil => rfl
  | cons p ps ih =>
    rw [List.flatMap_cons,fillM_append,← ih,List.mapM_cons]
    cases p with
    | literal text =>
      rw [pieceTokens,fillM_chars]
      simp only [writePiece,bind,Except.bind,pure,Except.pure]
      cases List.mapM (s.writePiece f) ps <;> simp
    | escapedOpening =>
      rw [pieceTokens,fillM_chars]
      simp only [writePiece,bind,Except.bind,pure,Except.pure]
      cases List.mapM (s.writePiece f) ps <;> simp
    | span parts =>
      simp only [pieceTokens,fillM,writePiece,bind,Except.bind,pure,Except.pure]
      cases f (s.content parts) with
      | error e => rfl
      | ok text => cases List.mapM (s.writePiece f) ps <;> simp

end Scanner

namespace MarkerScope
open Token

def fillTokens (s : MarkerScope) : Nat → List (Token (List Char)) → Except Error MappedSql
  | _, [] => .ok .empty
  | n, .char c :: ts => (s.fillTokens n ts).map (.addText [c])
  | n, .slot content :: ts => do
    let mapping ← s.describe n content
    let rest ← s.fillTokens (n+1) ts
    return (rest.addMapping mapping).addText (s.config.dialect.placeholder n)

private theorem fillTokens_chars (s : MarkerScope) (n : Nat) (cs : List Char) (ts : List (Token (List Char))) :
    s.fillTokens n (chars cs ++ ts) = (s.fillTokens n ts).map (.addText cs) := by
  induction cs with
  | nil => cases h : s.fillTokens n ts <;> simp [h,Except.map,MappedSql.addText]
  | cons c cs ih =>
    simp only [chars_cons,List.cons_append,fillTokens,ih]
    cases s.fillTokens n ts <;> simp [Except.map,MappedSql.addText]

theorem mapMarkers_eq_fillTokens (s : MarkerScope) (text : List Char) :
    s.mapMarkers text = s.fillTokens 0 (Scanner.bindMarkers.tokens text) := by
  rw [mapMarkers,Scanner.tokens]
  generalize 0 = n
  induction Scanner.bindMarkers.pieces text generalizing n with
  | nil => rfl
  | cons p ps ih =>
    rw [List.flatMap_cons]
    cases p with
    | literal text => rw [fill,Scanner.pieceTokens,fillTokens_chars,ih]
    | escapedOpening =>
      rw [fill,Scanner.pieceTokens,fillTokens_chars,ih]
      rfl
    | span parts =>
      simp only [fill,Scanner.pieceTokens,List.cons_append,List.nil_append,fillTokens,ih]

end MarkerScope
end SqlTemplate
