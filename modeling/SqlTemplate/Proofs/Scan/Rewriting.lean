import SqlTemplate.Proofs.Lexical.Chunk
import SqlTemplate.Proofs.Scan.Encoding
/-!
# Rewritten contents

A scan that keeps the escapes writes a text again with other contents in its spans. When the new contents are as
closed as the old ones, the result is read like the text itself: the same stretches, and the new contents in the
places of the old ones.
-/
namespace SqlTemplate
open Text Token

/-- A rewriting of contents that frees no closing delimiter and puts no backslash at the end. -/
structure KeepsClosed (f : List Char → List Char) : Prop where
  closed : ∀ content, Unescaped ['}'] (f content) → Unescaped ['}'] content
  ends : ∀ content, endsInBackslash content = false → endsInBackslash (f content) = false

theorem KeepsClosed.comp {f g : List Char → List Char} (hg : KeepsClosed g) (hf : KeepsClosed f) :
    KeepsClosed fun content => g (f content) := by
  refine ⟨?_,?_⟩
  · intro content h
    exact hf.closed content (hg.closed (f content) h)
  · intro content h
    exact hg.ends (f content) (hf.ends content h)

def Scanner.wrap (s : Scanner) (content : List Char) : List Char := s.opening ++ content ++ s.closing

theorem Token.weave_mapSlots {α β : Type} (f : α → β) (ts : Chunk α) : weave (ts.mapSlots f) = weave ts := by
  induction ts with
  | nil => rfl
  | cons t ts ih =>
    funext texts
    cases t with
    | char c => exact congrArg (c :: ·) (congrFun ih texts)
    | slot a => exact congrArg (texts.headD [] ++ ·) (congrFun ih texts.tail)

namespace Span
variable {x : Char} {f : List Char → List Char}

def rewrite (h : KeepsClosed f) (p : Span x) : Span x where
  before := p.before
  content := f p.content
  before_literal := p.before_literal
  before_end := p.before_end
  content_closed := fun hu => p.content_closed (h.closed p.content hu)
  content_end := h.ends p.content p.content_end

def written (e : Escapes) (p : Span x) : Chunk (List Char) := chars (e.read [x,'{'] p.before) ++ [.slot p.content]

private theorem mapSlots_written (f : List Char → List Char) (e : Escapes) (p : Span x) :
    (p.written e).mapSlots f = chars (e.read [x,'{'] p.before) ++ [.slot (f p.content)] := by
  rw [written,Chunk.mapSlots_append,Chunk.mapSlots_chars]
  rfl

end Span

namespace Reading
variable {x : Char} {f : List Char → List Char}

def rewrite (h : KeepsClosed f) (r : Reading x) : Reading x := { r with spans := r.spans.map (Span.rewrite h) }

def written (e : Escapes) (r : Reading x) : Chunk (List Char) :=
  r.spans.flatMap (Span.written e) ++ chars (r.tail e)

private theorem mapSlots_written (f : List Char → List Char) (e : Escapes) (r : Reading x) : (r.written e).mapSlots f =
    r.spans.flatMap (fun p => chars (e.read [x,'{'] p.before) ++ [.slot (f p.content)]) ++ chars (r.tail e) := by
  rw [written,Chunk.mapSlots_append,Chunk.mapSlots_flatMap,Chunk.mapSlots_chars]
  simp only [Span.mapSlots_written]

private theorem tokens_eq_written (e : Escapes) (r : Reading x) :
    r.tokens e = (r.written e).mapSlots (e.read ['}']) := by
  rw [mapSlots_written]
  rfl

theorem written_rewrite (h : KeepsClosed f) (e : Escapes) (r : Reading x) :
    (r.rewrite h).written e = (r.written e).mapSlots f := by
  rw [mapSlots_written,written,rewrite,List.flatMap_map]
  rfl

theorem slots_written (e : Escapes) (r : Reading x) : slots (r.written e) = r.spans.map Span.content := by
  rw [written,slots_append,slots_chars,List.append_nil]
  induction r.spans with
  | nil => rfl
  | cons p ps ih =>
    rw [List.flatMap_cons,slots_append,ih,Span.written,slots_append,slots_chars]
    rfl

private theorem fill_written (r : Reading x) : fill (Scanner.braces x .keep).wrap (r.written .keep) = r.source := by
  rw [written,source,fill_append,fill_chars]
  change _ ++ r.tail .keep = _ ++ r.tail .keep
  congr 1
  induction r.spans with
  | nil => rfl
  | cons p ps ih =>
    rw [List.flatMap_cons,List.flatMap_cons,fill_append,ih]
    simp [Span.written,Span.source,Scanner.wrap,Scanner.braces,Escapes.read]

section scans
variable (hx : x ≠ '\\') (hx' : x ≠ '{')
include hx hx'

theorem tokens_keep (r : Reading x) : (Scanner.braces x .keep).tokens r.source = r.written .keep := by
  rw [tokens_source hx hx',tokens_eq_written,mapSlots_written]
  rfl

theorem tokens_drop (r : Reading x) :
    (Scanner.braces x .drop).tokens r.source = (r.written .drop).mapSlots (dropEscapes ['}']) := by
  rw [tokens_source hx hx',tokens_eq_written]
  rfl

/-- Writing a text again with other contents writes the rewritten reading. -/
theorem replace_source (h : KeepsClosed f) (r : Reading x) :
    (Scanner.braces x .keep).replace (fun content => (Scanner.braces x .keep).wrap (f content)) r.source =
      (r.rewrite h).source := by
  rw [Scanner.replace_eq_fill,r.tokens_keep hx hx',← fill_written,written_rewrite,Chunk.fill_mapSlots]

end scans
end Reading

namespace Scanner
variable {x : Char} {e : Escapes}

/-- With the escapes kept the tokens of a text make up the text, byte for byte. -/
theorem fill_wrap_tokens (text : List Char) :
    fill bindMarkers.keepingEscapes.wrap (bindMarkers.keepingEscapes.tokens text) = text := by
  obtain ⟨t,rfl⟩ := Reading.exists_source (x := '#') (by decide) text
  rw [keepingEscapes_eq_braces,t.tokens_keep (by decide) (by decide),t.fill_written]

private theorem tokens_append_escaped (hx : x ≠ '\\') {cs : List Char} (h : ¬Unescaped [x,'{'] cs)
    (rest : List Char) : (braces x e).tokens (cs ++ '\\' :: x :: '{' :: rest) =
      chars (e.read [x,'{'] cs) ++ (chars (e.mark ++ [x,'{']) ++ (braces x e).tokens rest) := by
  have hd := unslashed_opening hx
  induction cs using escapeInduction [x,'{'] with
  | nil => simpa using tokens_escaped hx rest
  | escaped cs ih =>
    change (braces x e).tokens ('\\' :: x :: '{' :: (cs ++ '\\' :: x :: '{' :: rest)) = _
    rw [tokens_escaped hx,ih (fun hu => h (hu.of_escaped hd)),e.read_escaped hd]
    simp
  | other c cs he ih =>
    have hno : ¬[x,'{'] <+: c :: cs := fun hp => h (.of_start hp)
    have hopen : ¬[x,'{'] <+: c :: (cs ++ '\\' :: x :: '{' :: rest) := by
      cases cs with
      | nil => simp
      | cons b cs => simpa using hno
    have hesc : ¬['\\',x,'{'] <+: c :: (cs ++ '\\' :: x :: '{' :: rest) := by
      match cs, he with
      | [], _ => simp [hx]
      | [b], _ => simp
      | b :: b' :: cs, he => simpa using he
    rw [List.cons_append,tokens_cons hopen hesc,ih (fun hu => h (hu.of_cons he)),e.read_cons he]
    simp

end Scanner

namespace Reading
variable {x : Char}

theorem tokens_source_escaped (hx : x ≠ '\\') (hx' : x ≠ '{') (e : Escapes) {r : Reading x} (hr : r.unclosed = [])
    (rest : List Char) : (Scanner.braces x e).tokens (r.source ++ '\\' :: x :: '{' :: rest) =
      (Scanner.braces x e).tokens r.source ++ (chars (e.mark ++ [x,'{']) ++ (Scanner.braces x e).tokens rest) := by
  have htail : r.tail e = e.read [x,'{'] r.rest := by rw [tail,hr,List.append_nil]
  rw [r.tokens_source hx hx',tokens,htail,source,hr,List.append_nil,List.append_assoc,
    tokens_spans hx hx',Scanner.tokens_append_escaped hx r.rest_literal,List.append_assoc]

end Reading
end SqlTemplate
