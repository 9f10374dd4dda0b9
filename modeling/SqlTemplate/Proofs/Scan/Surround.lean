import SqlTemplate.Proofs.Scan.Reading
/-!
# Texts put around a text

Text in front of a text and behind it can be put there or taken away, and the spans stay as they are when it is
plain enough: in front it must neither open a span nor escape one, behind it must neither open nor close one, and
no span may be left open.
-/
namespace SqlTemplate
open Text Token

/-- Every opening delimiter that is not escaped is closed. -/
def Terminated (x : Char) (cs : List Char) : Prop := ∃ r : Reading x, r.source = cs ∧ r.unclosed = []

namespace Reading
variable {x : Char} {r : Reading x} {a b cs : List Char}

private theorem exists_front (hx : x ∉ a) (ha : '\\' ∉ a) (r : Reading x) :
    ∃ r' : Reading x, r'.source = a ++ r.source ∧ r'.unclosed = r.unclosed ∧
      r'.spans.map Span.content = r.spans.map Span.content := by
  have hend {stretch : List Char} (h : endsInBackslash stretch = false) : endsInBackslash (a ++ stretch) = false := by
    cases stretch with
    | nil => simpa using endsInBackslash_of_not_mem ha
    | cons c stretch => rwa [endsInBackslash_append (by simp)]
  obtain ⟨spans,rest,unclosed,hrest,hunclosed⟩ := r
  cases spans with
  | nil =>
    refine ⟨⟨[],a ++ rest,unclosed,fun hu => hrest (hu.of_append hx),?_⟩,by simp [source],rfl,rfl⟩
    exact hunclosed.imp_right fun h => ⟨hend h.1,h.2⟩
  | cons p ps =>
    refine ⟨⟨⟨a ++ p.before,p.content,fun hu => p.before_literal (hu.of_append hx),hend p.before_end,
      p.content_closed,p.content_end⟩ :: ps,rest,unclosed,hrest,hunclosed⟩,?_,rfl,rfl⟩
    simp [source,Span.source]

private theorem exists_dropFront (hx' : x ≠ '\\') (hx'' : x ≠ '{') (hx : x ∉ a) (ha : '\\' ∉ a)
    (h : r.source = a ++ cs) :
    ∃ r' : Reading x, r'.source = cs ∧ r'.unclosed = r.unclosed ∧
      r'.spans.map Span.content = r.spans.map Span.content := by
  obtain ⟨r',rfl⟩ := exists_source hx' cs
  obtain ⟨whole,hsource,hunclosed,hspans⟩ := r'.exists_front hx ha
  obtain rfl : whole = r := source_injective hx' hx'' (hsource.trans h.symm)
  exact ⟨r',rfl,hunclosed.symm,hspans.symm⟩

private theorem exists_back (hu : r.unclosed = []) (hb : '{' ∉ b) :
    ∃ r' : Reading x, r'.source = r.source ++ b ∧ r'.unclosed = [] ∧ r'.spans = r.spans := by
  have hrest : ¬Unescaped ([x] ++ ['{']) (r.rest ++ b) := fun h => r.rest_literal (h.of_append_left hb)
  exact ⟨⟨r.spans,r.rest ++ b,[],hrest,.inl rfl⟩,by simp [source,hu],rfl,rfl⟩

/-- The last span ends where it is closed: what has no closing delimiter in it is behind it. -/
theorem exists_dropBack (hu : r.unclosed = []) (hb : '}' ∉ b) (h : r.source = cs ++ b) :
    ∃ r' : Reading x, r'.source = cs ∧ r'.unclosed = [] ∧ r'.spans = r.spans := by
  have kept {m : List Char} (hcs : cs = r.spans.flatMap Span.source ++ m) (hm : ¬Unescaped [x,'{'] m) :
      ∃ r' : Reading x, r'.source = cs ∧ r'.unclosed = [] ∧ r'.spans = r.spans :=
    ⟨⟨r.spans,m,[],hm,.inl rfl⟩,by simp [source,hcs],rfl,rfl⟩
  rw [source,hu,List.append_nil] at h
  rcases List.append_eq_append_iff.mp h with ⟨m,hcs,hrest⟩ | ⟨m,hspans,hbm⟩
  · exact kept hcs fun hm => r.rest_literal (hrest ▸ hm.append_right b)
  · -- Otherwise the spans reach into the end, and their last character is a closing delimiter.
    rcases List.eq_nil_or_concat m with rfl | ⟨m,d,rfl⟩
    · exact kept (m := []) (by simpa using hspans.symm) (by simp [Unescaped])
    · rcases List.eq_nil_or_concat r.spans with hnil | ⟨ps,p,hps⟩
      · simp [hnil] at hspans
      · have hlast : (ps.flatMap Span.source ++ (p.before ++ x :: '{' :: p.content)) ++ ['}'] = (cs ++ m) ++ [d] := by
          simpa [hps,Span.source] using hspans
        obtain rfl : '}' = d := by simpa using (List.append_inj' hlast rfl).2
        exact absurd (by simp [hbm]) hb

private theorem exists_between {a' b' : List Char} (hx' : x ≠ '\\') (hx'' : x ≠ '{') (hu : r.unclosed = [])
    (h : r.source = a ++ (cs ++ b)) (hx : x ∉ a ++ a') (ha : '\\' ∉ a ++ a') (hb : '}' ∉ b) (hb' : '{' ∉ b') :
    ∃ r' : Reading x, r'.source = a' ++ (cs ++ b') ∧ r'.unclosed = [] ∧
      r'.spans.map Span.content = r.spans.map Span.content := by
  simp only [List.mem_append,not_or] at hx ha
  obtain ⟨r₁,hs₁,hu₁,hc₁⟩ := exists_dropFront hx' hx'' hx.1 ha.1 h
  obtain ⟨r₂,hs₂,hu₂,hc₂⟩ := exists_dropBack (hu₁.trans hu) hb hs₁
  obtain ⟨r₃,hs₃,hu₃,hc₃⟩ := exists_back hu₂ hb'
  obtain ⟨r₄,hs₄,hu₄,hc₄⟩ := exists_front hx.2 ha.2 r₃
  exact ⟨r₄,by rw [hs₄,hs₃,hs₂],hu₄.trans hu₃,by rw [hc₄,hc₃,hc₂,hc₁]⟩

private theorem spans_eq (hx' : x ≠ '\\') (hx'' : x ≠ '{') (e : Escapes) (r : Reading x) :
    (Scanner.braces x e).spans r.source = (r.spans.map Span.content).map (e.read ['}']) := by
  rw [Scanner.spans_eq_slots,r.tokens_source hx' hx'',slots_tokens,contents,List.map_map]
  rfl

end Reading

section
variable {x : Char} {cs : List Char}

private theorem not_unescaped_of_not_mem (h : x ∉ cs) : ¬Unescaped [x,'{'] cs := by
  rintro ⟨a,b,rfl,-⟩
  simp at h

theorem Terminated.of_not_mem (h : x ∉ cs) : Terminated x cs :=
  ⟨⟨[],cs,[],not_unescaped_of_not_mem h,.inl rfl⟩,by simp [Reading.source],rfl⟩

theorem Scanner.spans_of_not_mem (hx' : x ≠ '\\') (hx'' : x ≠ '{') (h : x ∉ cs) (e : Escapes) :
    (braces x e).spans cs = [] := by
  have hspans := Reading.spans_eq hx' hx'' e ⟨[],cs,[],not_unescaped_of_not_mem h,.inl rfl⟩
  simpa [Reading.source] using hspans

end

/-- Replacing what stands around a text leaves the spans as they are, and no span becomes unclosed. -/
theorem Terminated.between {x : Char} {a b a' b' cs : List Char} (hx' : x ≠ '\\') (hx'' : x ≠ '{')
    (h : Terminated x (a ++ (cs ++ b))) (hx : x ∉ a ++ a') (ha : '\\' ∉ a ++ a') (hb : '}' ∉ b) (hb' : '{' ∉ b') :
    Terminated x (a' ++ (cs ++ b')) ∧
      ∀ e, (Scanner.braces x e).spans (a' ++ (cs ++ b')) = (Scanner.braces x e).spans (a ++ (cs ++ b)) := by
  obtain ⟨r,hr,hu⟩ := h
  obtain ⟨r',hr',hu',hspans⟩ := r.exists_between hx' hx'' hu hr hx ha hb hb'
  refine ⟨⟨r',hr',hu'⟩,fun e => ?_⟩
  rw [← hr,← hr',Reading.spans_eq hx' hx'',Reading.spans_eq hx' hx'',hspans]

end SqlTemplate
