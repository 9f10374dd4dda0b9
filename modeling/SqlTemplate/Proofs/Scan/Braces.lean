import SqlTemplate.Proofs.Scan.Tokens
/-!
# Scanning character by character

The spans of both pipeline scanners are written `x{…}` with a sigil `x`. For these the tokens of a text are
found from its first characters: an escaped opening delimiter, a span, or one character that stands for
itself.
-/
namespace SqlTemplate
open Text Token

def Scanner.braces (x : Char) (e : Escapes) : Scanner := ⟨⟨[x,'{'],['}'],by simp⟩,e⟩

theorem bindMarkers_eq_braces : Scanner.bindMarkers = .braces '#' .drop := rfl

theorem keepingEscapes_eq_braces : Scanner.bindMarkers.keepingEscapes = .braces '#' .keep := rfl

theorem substitutions_eq_braces : Scanner.substitutions = .braces '$' .drop := rfl

namespace Scanner
variable {x : Char} {e : Escapes}

/-- The content of a span whose opening delimiter has been passed, and the text behind the span. -/
def body? (s : Scanner) (cs : List Char) : Option (List Char × List Char) :=
  (s.spanParts? cs).map fun (parts,rest) => (s.content parts,rest)

private theorem content_cons (s : Scanner) (part : List Char) {parts : List (List Char)} (h : parts ≠ []) :
    s.content (part :: parts) = part ++ s.escapes.mark ++ s.closing ++ s.content parts := by
  simp [content,List.intercalate_cons_of_ne_nil h]

private theorem spanParts?_eq (d : Delimiters) (cs : List Char) :
    d.spanParts? cs = match cut? d.closing cs with
      | none => none
      | some (before,after) => match beforeEscape? before with
        | none => some ([before],after)
        | some kept => (d.spanParts? after).map fun (parts,rest) => (kept :: parts,rest) := by
  rw [Delimiters.spanParts?]
  split
  · next h => simp [h]
  · next before after h => cases he : beforeEscape? before <;> simp [h,he]

private theorem cut?_cons {d : Char} {ds : List Char} {c : Char} {cs : List Char}
    (h : afterStart? (d :: ds) (c :: cs) = none) :
    cut? (d :: ds) (c :: cs) = (cut? (d :: ds) cs).map fun (before,after) => (c :: before,after) := by
  simp [cut?,h]

private theorem beforeEscape?_cons_cons (c d : Char) (cs : List Char) :
    beforeEscape? (c :: d :: cs) = (beforeEscape? (d :: cs)).map (c :: ·) := by
  by_cases h : endsInBackslash (d :: cs) = true <;>
    simp_all [beforeEscape?,endsInBackslash]

theorem body?_nil : (braces x e).body? [] = none := by
  simp [body?,spanParts?_eq,braces,cut?,afterStart?]

theorem body?_closing (cs : List Char) : (braces x e).body? ('}' :: cs) = some ([],cs) := by
  rw [body?,spanParts?_eq]
  simp [braces,cut?,afterStart?,beforeEscape?,endsInBackslash,content]

theorem body?_escaped (cs : List Char) : (braces x e).body? ('\\' :: '}' :: cs) =
    ((braces x e).body? cs).map fun (content,rest) => (e.mark ++ '}' :: content,rest) := by
  have hc : cut? (braces x e).closing ('\\' :: '}' :: cs) = some (['\\'],cs) := by
    simp [braces,cut?,afterStart?]
  have he : beforeEscape? ['\\'] = some [] := by decide
  rw [body?,body?,spanParts?_eq]
  simp only [hc,he]
  cases hs : (braces x e).spanParts? cs with
  | none => simp
  | some span =>
    have hp := content_cons (braces x e) [] (Delimiters.ne_nil_of_spanParts? hs)
    simpa [braces] using hp

theorem body?_cons {c : Char} {cs : List Char} (hc : c ≠ '}') (he : ¬(c = '\\' ∧ cs.head? = some '}')) :
    (braces x e).body? (c :: cs) =
      ((braces x e).body? cs).map fun (content,rest) => (c :: content,rest) := by
  have hcut : cut? (braces x e).closing (c :: cs) =
      (cut? (braces x e).closing cs).map fun (before,after) => (c :: before,after) :=
    cut?_cons (by simp [afterStart?,Ne.symm hc])
  rw [body?,body?,spanParts?_eq,spanParts?_eq,hcut]
  cases hs : cut? (braces x e).closing cs with
  | none => simp
  | some split =>
    obtain ⟨before,after⟩ := split
    simp only [Option.map_some]
    cases before with
    | nil =>
      have hhead : cs.head? = some '}' := by simp [eq_append_of_cut? hs,braces]
      have hb : beforeEscape? [c] = none := by
        simpa [beforeEscape?,endsInBackslash] using fun h => he ⟨h,hhead⟩
      simp [hb,content,show beforeEscape? [] = none from rfl]
    | cons b bs =>
      rw [beforeEscape?_cons_cons]
      cases beforeEscape? (b :: bs) with
      | none => simp [content]
      | some kept =>
        simp only [Option.map_some]
        cases hp : (braces x e).spanParts? after with
        | none => simp
        | some span =>
          have hne := Delimiters.ne_nil_of_spanParts? hp
          simp [content_cons (braces x e) _ hne]

private theorem tokens_eq (cs : List Char) :
    (braces x e).tokens cs = match cut? [x,'{'] cs with
      | none => chars cs
      | some (before,after) => match beforeEscape? before with
        | some kept => chars kept ++ (chars (e.mark ++ [x,'{']) ++ (braces x e).tokens after)
        | none => match (braces x e).body? after with
          | none => chars cs
          | some (content,rest) => chars before ++ .slot content :: (braces x e).tokens rest := by
  have ho : endsInBackslash (braces x e).opening = false := by simp [endsInBackslash,braces]
  have hoc : endsInBackslash ((braces x e).opening ++ (braces x e).closing) = false := by
    simp [endsInBackslash,braces]
  rw [tokens,Delimiters.pieces_of_not_endsInBackslash ho hoc]
  change List.flatMap _ (match cut? [x,'{'] cs with
    | none => [Piece.literal cs]
    | some (before,after) => _) = _
  cases cut? [x,'{'] cs with
  | none => simp [pieceTokens]
  | some split =>
    obtain ⟨before,after⟩ := split
    simp only
    cases he : beforeEscape? before with
    | some kept =>
      simp only [List.flatMap_cons,pieceTokens]
      rfl
    | none =>
      simp only [body?]
      cases (braces x e).spanParts? after with
      | none => simp [pieceTokens]
      | some span => simp [pieceTokens,tokens]

@[simp] theorem tokens_nil : (braces x e).tokens [] = [] := by
  simp [tokens_eq,cut?,afterStart?]

theorem tokens_opening {cs content rest : List Char} (h : (braces x e).body? cs = some (content,rest)) :
    (braces x e).tokens (x :: '{' :: cs) = .slot content :: (braces x e).tokens rest := by
  rw [tokens_eq]
  simp [cut?,afterStart?,beforeEscape?,endsInBackslash,h]

theorem tokens_unclosed {cs : List Char} (h : (braces x e).body? cs = none) :
    (braces x e).tokens (x :: '{' :: cs) = chars (x :: '{' :: cs) := by
  rw [tokens_eq]
  simp [cut?,afterStart?,beforeEscape?,endsInBackslash,h]

theorem tokens_escaped (hx : x ≠ '\\') (cs : List Char) :
    (braces x e).tokens ('\\' :: x :: '{' :: cs) =
      chars (e.mark ++ [x,'{']) ++ (braces x e).tokens cs := by
  have he : beforeEscape? ['\\'] = some [] := by decide
  rw [tokens_eq]
  simp [cut?,afterStart?,hx,he]

theorem tokens_cons {c : Char} {cs : List Char} (ho : ¬[x,'{'] <+: c :: cs)
    (he : ¬['\\',x,'{'] <+: c :: cs) :
    (braces x e).tokens (c :: cs) = .char c :: (braces x e).tokens cs := by
  have hs : afterStart? [x,'{'] (c :: cs) = none := by
    cases h : afterStart? [x,'{'] (c :: cs) with
    | none => rfl
    | some rest => exact absurd ⟨rest,(eq_append_of_afterStart? h).symm⟩ ho
  rw [tokens_eq,tokens_eq cs,cut?_cons hs]
  cases hc : cut? [x,'{'] cs with
  | none => simp
  | some split =>
    obtain ⟨before,after⟩ := split
    simp only [Option.map_some]
    cases before with
    | nil =>
      have hcs := eq_append_of_cut? hc
      have hb : beforeEscape? [c] = none := by
        simp only [beforeEscape?,endsInBackslash,List.getLast?_singleton,Option.some.injEq,
          decide_eq_true_eq,ite_eq_right_iff,reduceCtorEq,imp_false]
        rintro rfl
        exact he ⟨after,by simp [hcs]⟩
      rw [hb,show beforeEscape? [] = none from rfl]
      cases (braces x e).body? after <;> simp
    | cons b bs =>
      rw [beforeEscape?_cons_cons]
      cases beforeEscape? (b :: bs) with
      | some kept => simp
      | none => cases (braces x e).body? after <;> simp

end Scanner
end SqlTemplate
