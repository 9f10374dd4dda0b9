import SqlTemplate.Text.Cut
/-!
# Delimited spans

A text is read as an alternation of literal pieces and spans `opening … closing`. A delimiter directly
preceded by a backslash is literal; for an opening delimiter the backslash may be the end of the delimiter
before it. An opening delimiter that is never closed is literal too, with everything after it. The pieces
keep the text as it was written: the two readings of the escapes, kept or dropped, are two ways to write
the pieces out.
-/
namespace SqlTemplate
open Text

structure Delimiters where
  opening : List Char
  closing : List Char
  opening_ne_nil : opening ≠ [] := by decide

/-- What a scan finds: a literal, an opening delimiter with its backslash, or a span. The content of a span
is kept as the parts between its escaped closing delimiters. -/
inductive Piece
  | literal (text : List Char)
  | escapedOpening
  | span (parts : List (List Char))
  deriving DecidableEq

def endsInBackslash (cs : List Char) : Bool := cs.getLast? = some '\\'

def beforeEscape? (cs : List Char) : Option (List Char) :=
  if endsInBackslash cs then some cs.dropLast else none

theorem eq_append_of_beforeEscape? {cs kept : List Char} (h : beforeEscape? cs = some kept) :
    cs = kept ++ ['\\'] := by
  simp only [beforeEscape?,endsInBackslash,decide_eq_true_eq,Option.ite_none_right_eq_some,
    Option.some.injEq] at h
  obtain ⟨hl,rfl⟩ := h
  obtain ⟨init,rfl⟩ := List.getLast?_eq_some_iff.mp hl
  simp

namespace Delimiters

/-- The parts of a span's content and the text after its closing delimiter, none if it is never closed. -/
def spanParts? (d : Delimiters) (cs : List Char) : Option (List (List Char) × List Char) :=
  match _hc : cut? d.closing cs with
  | none => none
  | some (before,after) =>
    match _he : beforeEscape? before with
    | none => some ([before],after)
    | some kept => (d.spanParts? after).map fun (parts,rest) => (kept :: parts,rest)
termination_by cs.length
decreasing_by
  have h1 := length_of_cut? _hc
  have h2 := congrArg List.length (eq_append_of_beforeEscape? _he)
  simp at h2
  omega

theorem length_of_spanParts? {d : Delimiters} {cs : List Char} {parts : List (List Char)}
    {rest : List Char} (h : d.spanParts? cs = some (parts,rest)) : rest.length ≤ cs.length := by
  fun_induction spanParts? d cs generalizing parts with
  | case1 => simp at h
  | case2 cs before after hc =>
    have := length_of_cut? hc
    simp only [Option.some.injEq,Prod.mk.injEq] at h
    obtain ⟨-,rfl⟩ := h
    omega
  | case3 cs before after hc kept he ih =>
    have := length_of_cut? hc
    simp only [Option.map_eq_some_iff,Prod.mk.injEq,Prod.exists] at h
    obtain ⟨parts',rest',hs,-,rfl⟩ := h
    have := ih hs
    omega

theorem ne_nil_of_spanParts? {d : Delimiters} {cs : List Char} {parts : List (List Char)}
    {rest : List Char} (h : d.spanParts? cs = some (parts,rest)) : parts ≠ [] := by
  rw [spanParts?] at h
  split at h
  · simp at h
  · split at h
    · simp only [Option.some.injEq,Prod.mk.injEq] at h
      simp [← h.1]
    · simp only [Option.map_eq_some_iff,Prod.mk.injEq,Prod.exists] at h
      obtain ⟨parts',rest',-,rfl,-⟩ := h
      simp

theorem eq_append_of_spanParts? {d : Delimiters} {cs : List Char} {parts : List (List Char)}
    {rest : List Char} (h : d.spanParts? cs = some (parts,rest)) :
    cs = ('\\' :: d.closing).intercalate parts ++ d.closing ++ rest := by
  fun_induction spanParts? d cs generalizing parts with
  | case1 => simp at h
  | case2 cs before after hc =>
    simp only [Option.some.injEq,Prod.mk.injEq] at h
    obtain ⟨rfl,rfl⟩ := h
    rw [List.intercalate_singleton]
    exact eq_append_of_cut? hc
  | case3 cs before after hc kept he ih =>
    simp only [Option.map_eq_some_iff,Prod.mk.injEq,Prod.exists] at h
    obtain ⟨parts',rest',hs,rfl,rfl⟩ := h
    rw [List.intercalate_cons_of_ne_nil (ne_nil_of_spanParts? hs),eq_append_of_cut? hc,eq_append_of_beforeEscape? he,
      ih hs]
    simp

/-- The pieces of a text, in order. `escaping` says that the delimiter passed last ends in a backslash and
the text goes on right behind it: an opening delimiter there is literal, and has no backslash of its own. -/
def piecesFrom (d : Delimiters) (escaping : Bool) (cs : List Char) : List Piece :=
  match _hc : cut? d.opening cs with
  | none => [.literal cs]
  | some (before,after) =>
    match beforeEscape? before with
    | some kept => .literal kept :: .escapedOpening :: d.piecesFrom (endsInBackslash d.opening) after
    | none =>
      if escaping ∧ before = [] then .literal d.opening :: d.piecesFrom (endsInBackslash d.opening) after
      else match _hs : d.spanParts? after with
        | none => [.literal cs]
        | some (parts,rest) =>
          .literal before :: .span parts :: d.piecesFrom (endsInBackslash (d.opening ++ d.closing)) rest
termination_by cs.length
decreasing_by
  all_goals
    have h1 := length_of_cut? _hc
    have h2 := List.length_pos_iff.mpr d.opening_ne_nil
  · omega
  · omega
  · have h3 := length_of_spanParts? _hs
    omega

def pieces (d : Delimiters) (cs : List Char) : List Piece := d.piecesFrom false cs

/-- When no delimiter ends in a backslash, each delimiter is escaped by the text before it alone. -/
theorem pieces_of_not_endsInBackslash {d : Delimiters} (ho : endsInBackslash d.opening = false)
    (hoc : endsInBackslash (d.opening ++ d.closing) = false) (cs : List Char) :
    d.pieces cs = match cut? d.opening cs with
      | none => [.literal cs]
      | some (before,after) => match beforeEscape? before with
        | some kept => .literal kept :: .escapedOpening :: d.pieces after
        | none => match d.spanParts? after with
          | none => [.literal cs]
          | some (parts,rest) => .literal before :: .span parts :: d.pieces rest := by
  rw [pieces,piecesFrom]
  split
  · next h => simp [h]
  · next before after h =>
    cases he : beforeEscape? before with
    | some kept => simp [h,he,ho,pieces]
    | none =>
      cases hs : d.spanParts? after with
      | none => simp [h,he,hs]
      | some span =>
        obtain ⟨parts,rest⟩ := span
        simp [h,he,hs,hoc,pieces]

def source (d : Delimiters) : Piece → List Char
  | .literal text => text
  | .escapedOpening => '\\' :: d.opening
  | .span parts => d.opening ++ ('\\' :: d.closing).intercalate parts ++ d.closing

private theorem flatMap_source_piecesFrom (d : Delimiters) (escaping : Bool) (cs : List Char) :
    (d.piecesFrom escaping cs).flatMap d.source = cs := by
  fun_induction piecesFrom d escaping cs with
  | case1 escaping cs hc => simp [source]
  | case2 escaping cs before after hc kept he ih =>
    rw [eq_append_of_cut? hc,eq_append_of_beforeEscape? he]
    simp [source,ih]
  | case3 escaping cs before after hc he hb ih =>
    rw [eq_append_of_cut? hc,hb.2]
    simp [source,ih]
  | case4 escaping cs before after hc he hb hs => simp [source]
  | case5 escaping cs before after hc he hb parts rest hs ih =>
    rw [eq_append_of_cut? hc,eq_append_of_spanParts? hs]
    simp [source,ih]

theorem flatMap_source_pieces (d : Delimiters) (cs : List Char) :
    (d.pieces cs).flatMap d.source = cs :=
  d.flatMap_source_piecesFrom false cs

end Delimiters

/-- Whether a scan hands on the backslashes of escaped delimiters or drops them. -/
inductive Escapes
  | keep
  | drop
  deriving DecidableEq

def Escapes.mark : Escapes → List Char
  | .keep => ['\\']
  | .drop => []

structure Scanner extends Delimiters where
  escapes : Escapes := .drop

namespace Scanner

def bindMarkers : Scanner := ⟨⟨['#','{'],['}'],by decide⟩,.drop⟩

def substitutions : Scanner := ⟨⟨['$','{'],['}'],by decide⟩,.drop⟩

/-- The same spans with the escapes left in place, for a text that is going to be scanned again. -/
def keepingEscapes (s : Scanner) : Scanner := { s with escapes := .keep }

def content (s : Scanner) (parts : List (List Char)) : List Char :=
  (s.escapes.mark ++ s.closing).intercalate parts

def spans (s : Scanner) (cs : List Char) : List (List Char) :=
  (s.pieces cs).filterMap fun
    | .span parts => some (s.content parts)
    | _ => none

def hasSpan (s : Scanner) (cs : List Char) : Bool := !(s.spans cs).isEmpty

def writePiece {m : Type → Type} [Pure m] (s : Scanner) (f : List Char → m (List Char)) :
    Piece → m (List Char)
  | .literal text => pure text
  | .escapedOpening => pure (s.escapes.mark ++ s.opening)
  | .span parts => f (s.content parts)

/-- Replace every span by what `f` returns for its content, from the left; the first failure of `f` is
the failure of the whole. -/
def replaceM {m : Type → Type} [Monad m] (s : Scanner) (f : List Char → m (List Char))
    (cs : List Char) : m (List Char) :=
  return ((← (s.pieces cs).mapM (s.writePiece f))).flatten

def replace (s : Scanner) (f : List Char → List Char) (cs : List Char) : List Char :=
  ((s.pieces cs).map (s.writePiece (m := Id) f)).flatten

end Scanner
end SqlTemplate
