import SqlTemplate.Proofs.Scan.Reading
/-!
# Encoded texts

Literals and contents are put together to one text by a backslash before every delimiter that is meant
literally. A scan of that text undoes it: the handler is called with the contents, from the left and no further
than the first failure, and its results stand between the literals.
-/
namespace SqlTemplate
open Text Token

/-- The text with a backslash before every occurrence of a delimiter. -/
def escapeDelimiter (d : List Char) : List Char → List Char
  | [] => []
  | c :: cs => if d <+: c :: cs then '\\' :: c :: escapeDelimiter d cs else c :: escapeDelimiter d cs

/-- A delimiter without a backslash whose first character stands in it only once: no two occurrences overlap. -/
structure Separable (x : Char) (tail : List Char) : Prop where
  unslashed : Unslashed (x :: tail)
  first_once : x ∉ tail

private theorem separable_closing : Separable '}' [] := ⟨unslashed_closing,by simp⟩

private theorem separable_opening {x : Char} (hx : x ≠ '\\') (hx' : x ≠ '{') : Separable x ['{'] :=
  ⟨unslashed_opening hx,by simpa using hx'⟩

section escapeDelimiter
variable {d : List Char}

private theorem prefix_of_prefix_escapeDelimiter {p cs : List Char} (hp : '\\' ∉ p)
    (h : p <+: escapeDelimiter d cs) : p <+: cs := by
  induction p generalizing cs with
  | nil => exact List.nil_prefix
  | cons a p ih =>
    simp only [List.mem_cons,not_or] at hp
    cases cs with
    | nil => simp [escapeDelimiter] at h
    | cons c cs =>
      rw [escapeDelimiter] at h
      split at h
      · exact absurd (List.cons_prefix_cons.mp h).1.symm hp.1
      · obtain ⟨rfl,hrest⟩ := List.cons_prefix_cons.mp h
        exact List.cons_prefix_cons.mpr ⟨rfl,ih hp.2 hrest⟩

private theorem not_prefix_escapeDelimiter (hd : Unslashed d) (cs : List Char) : ¬d <+: escapeDelimiter d cs := by
  intro h
  have hcs := prefix_of_prefix_escapeDelimiter hd.not_mem h
  cases cs with
  | nil => exact hd.ne_nil (List.prefix_nil.mp hcs)
  | cons c cs =>
    rw [escapeDelimiter,if_pos hcs] at h
    obtain ⟨a,ds,rfl⟩ := List.exists_cons_of_ne_nil hd.ne_nil
    obtain rfl : a = '\\' := (List.cons_prefix_cons.mp h).1
    exact hd.not_mem (by simp)

private theorem not_unescaped_escapeDelimiter (hd : Unslashed d) (cs : List Char) :
    ¬Unescaped d (escapeDelimiter d cs) := by
  suffices h : ∀ escaped, hasUnescaped d escaped (escapeDelimiter d cs) = false by
    rw [unescaped_iff,h]
    decide
  intro escaped
  induction cs generalizing escaped with
  | nil =>
    obtain ⟨a,ds,rfl⟩ := List.exists_cons_of_ne_nil hd.ne_nil
    simp [escapeDelimiter,hasUnescaped]
  | cons c cs ih =>
    have hno := not_prefix_escapeDelimiter hd (c :: cs)
    rw [← List.isPrefixOf_iff_prefix,Bool.not_eq_true] at hno
    by_cases h : d <+: c :: cs
    · rw [escapeDelimiter,if_pos h] at hno ⊢
      simp [hasUnescaped,hno,ih]
    · rw [escapeDelimiter,if_neg h] at hno ⊢
      simp [hasUnescaped,hno,ih]

private theorem endsInBackslash_escapeDelimiter (cs : List Char) :
    endsInBackslash (escapeDelimiter d cs) = endsInBackslash cs := by
  induction cs with
  | nil => rfl
  | cons c cs ih =>
    have hlast : endsInBackslash (c :: escapeDelimiter d cs) = endsInBackslash (c :: cs) := by
      cases cs with
      | nil => rfl
      | cons a cs =>
        have hne : escapeDelimiter d (a :: cs) ≠ [] := by
          rw [escapeDelimiter]
          split <;> simp
        rw [endsInBackslash_cons hne,endsInBackslash_cons (by simp),ih]
    rw [escapeDelimiter]
    split
    · rw [endsInBackslash_cons (by simp),hlast]
    · exact hlast

private theorem escapeDelimiter_append {x : Char} {tail a : List Char} (h : x ∉ a) (cs : List Char) :
    escapeDelimiter (x :: tail) (a ++ cs) = a ++ escapeDelimiter (x :: tail) cs := by
  induction a with
  | nil => rfl
  | cons c a ih =>
    simp only [List.mem_cons,not_or] at h
    have hno : ¬(x :: tail) <+: c :: (a ++ cs) := fun hp => h.1 (List.cons_prefix_cons.mp hp).1
    rw [List.cons_append,escapeDelimiter,if_neg hno,ih h.2,List.cons_append]

private theorem dropEscapes_escapeDelimiter {x : Char} {tail : List Char} (hd : Separable x tail)
    (cs : List Char) : dropEscapes (x :: tail) (escapeDelimiter (x :: tail) cs) = cs := by
  induction cs with
  | nil => rfl
  | cons c cs ih =>
    rw [escapeDelimiter]
    split
    · next h =>
      -- the induction hypothesis reaches behind the delimiter, since no other one begins inside it
      obtain ⟨rfl,rest,rfl⟩ := List.cons_prefix_cons.mp h
      have hslash : '\\' ∉ tail := fun hm => hd.unslashed.not_mem (List.mem_cons_of_mem x hm)
      rw [escapeDelimiter_append hd.first_once] at ih ⊢
      rw [dropEscapes_append hslash] at ih
      change dropEscapes (x :: tail) ('\\' :: ((x :: tail) ++ _)) = _
      rw [dropEscapes_escaped hd.unslashed,List.append_cancel_left ih]
      rfl
    · have hno : ¬ '\\' :: x :: tail <+: c :: escapeDelimiter (x :: tail) cs := fun hp =>
        not_prefix_escapeDelimiter hd.unslashed cs (List.cons_prefix_cons.mp hp).2
      rw [dropEscapes_cons hno,ih]

end escapeDelimiter

namespace Token
variable {α : Type}

def weave : List (Token α) → List (List Char) → List Char
  | [], _ => []
  | .char c :: ts, texts => c :: weave ts texts
  | .slot _ :: ts, texts => texts.headD [] ++ weave ts texts.tail

theorem weave_chars (cs : List Char) (ts : List (Token α)) :
    weave (chars cs ++ ts) = fun texts => cs ++ weave ts texts := by
  induction cs with
  | nil => rfl
  | cons c cs ih => simp [weave,ih]

end Token

namespace Scanner

/-- Literals, each with the content of the span behind it, and a last literal, as one text: the delimiters in
them are escaped, and each content stands between delimiters. -/
def encode (s : Scanner) (spans : List (List Char × List Char)) (last : List Char) : List Char :=
  (spans.flatMap fun (literal,content) => escapeDelimiter s.opening literal ++ s.opening ++
    escapeDelimiter s.closing content ++ s.closing) ++ escapeDelimiter s.opening last

theorem replaceM_eq_mapM {m : Type → Type} [Monad m] [LawfulMonad m] (s : Scanner)
    (f : List Char → m (List Char)) (cs : List Char) :
    s.replaceM f cs = weave (s.tokens cs) <$> (s.spans cs).mapM f := by
  rw [replaceM,tokens,spans]
  induction s.pieces cs with
  | nil => simp [weave]
  | cons p ps ih =>
    simp only [bind_pure_comp] at ih
    have hrest (g : List Char → List Char) := congrArg (fun rest => g <$> rest) ih
    simp only [Functor.map_map] at hrest
    cases p with
    | literal text => simpa [writePiece,pieceTokens,weave_chars] using hrest (text ++ ·)
    | escapedOpening =>
      rw [List.flatMap_cons,pieceTokens,weave_chars]
      simpa [writePiece] using hrest (s.escapes.mark ++ s.opening ++ ·)
    | span parts =>
      simp [writePiece,pieceTokens,weave,hrest]

private theorem exists_reading_encode {x : Char} (hx : x ≠ '\\') {spans : List (List Char × List Char)}
    (hliteral : ∀ p ∈ spans, endsInBackslash p.1 = false)
    (hcontent : ∀ p ∈ spans, endsInBackslash p.2 = false) (last : List Char) :
    ∃ r : Reading x, r.source = (braces x .drop).encode spans last ∧
      r.rest = escapeDelimiter [x,'{'] last ∧ r.unclosed = [] ∧
      r.spans.map (fun p => (p.before,p.content)) =
        spans.map fun p => (escapeDelimiter [x,'{'] p.1,escapeDelimiter ['}'] p.2) := by
  have ho := unslashed_opening hx
  induction spans with
  | nil =>
    exact ⟨⟨[],_,[],not_unescaped_escapeDelimiter ho last,.inl rfl⟩,by simp [Reading.source,encode,braces],
      rfl,rfl,rfl⟩
  | cons p ps ih =>
    obtain ⟨r,hsource,hrest,hunclosed,hspans⟩ := ih (fun q hq => hliteral q (List.mem_cons_of_mem p hq))
      (fun q hq => hcontent q (List.mem_cons_of_mem p hq))
    have hl := hliteral p (by simp)
    have hc := hcontent p (by simp)
    rw [← endsInBackslash_escapeDelimiter (d := [x,'{'])] at hl
    rw [← endsInBackslash_escapeDelimiter (d := ['}'])] at hc
    refine ⟨.cons ⟨_,_,not_unescaped_escapeDelimiter ho p.1,hl,
      not_unescaped_escapeDelimiter unslashed_closing p.2,hc⟩ r,?_,hrest,hunclosed,?_⟩
    · rw [Reading.source_cons,hsource]
      simp [Span.source,encode,braces]
    · simp [Reading.cons,hspans]

private theorem weave_mapM {m : Type → Type} [Monad m] [LawfulMonad m] {x : Char} (hx : x ≠ '\\') (hx' : x ≠ '{')
    {spans : List (List Char × List Char)} {rs : List (Span x)}
    (h : rs.map (fun p => (p.before,p.content)) =
      spans.map fun p => (escapeDelimiter [x,'{'] p.1,escapeDelimiter ['}'] p.2))
    (tail : List Char) (f : List Char → m (List Char)) :
    weave (rs.flatMap (Span.tokens .drop) ++ chars tail) <$> (spans.map Prod.snd).mapM f =
      (fun texts => (List.zipWith (fun p text => p.1 ++ text) spans texts).flatten ++ tail) <$>
        (spans.map Prod.snd).mapM f := by
  induction spans generalizing rs with
  | nil =>
    obtain rfl : rs = [] := by simpa using h
    have hw := weave_chars (α := List Char) tail []
    simpa [weave] using congrArg pure (congrFun hw [])
  | cons p ps ih =>
    obtain ⟨r,rs,rfl⟩ : ∃ r rs', rs = r :: rs' := by
      cases rs with
      | nil => simp at h
      | cons r rs => exact ⟨r,rs,rfl⟩
    simp only [List.map_cons,List.cons.injEq,Prod.mk.injEq] at h
    have hbefore : Escapes.read .drop [x,'{'] r.before = p.1 := by
      rw [h.1.1]
      exact dropEscapes_escapeDelimiter (separable_opening hx hx') p.1
    have hrest (text : List Char) := congrArg (fun rest => (p.1 ++ text ++ ·) <$> rest) (ih h.2)
    simp only [Functor.map_map,List.append_assoc] at hrest
    simp [Span.tokens,hbefore,weave_chars,weave,hrest,-List.mapM_map]

private theorem contents_eq {x : Char} {spans : List (List Char × List Char)} {r : Reading x}
    (h : r.spans.map (fun p => (p.before,p.content)) =
      spans.map fun p => (escapeDelimiter [x,'{'] p.1,escapeDelimiter ['}'] p.2)) :
    r.contents .drop = spans.map Prod.snd := by
  have hread := congrArg (List.map fun p => dropEscapes ['}'] p.2) h
  simp only [List.map_map] at hread
  rw [Reading.contents]
  refine hread.trans (List.map_congr_left ?_)
  intro p _
  exact dropEscapes_escapeDelimiter separable_closing p.2

private theorem replaceM_braces_encode {m : Type → Type} [Monad m] [LawfulMonad m] {x : Char} (hx : x ≠ '\\')
    (hx' : x ≠ '{') {spans : List (List Char × List Char)}
    (hliteral : ∀ p ∈ spans, endsInBackslash p.1 = false)
    (hcontent : ∀ p ∈ spans, endsInBackslash p.2 = false) (last : List Char)
    (f : List Char → m (List Char)) :
    (braces x .drop).replaceM f ((braces x .drop).encode spans last) =
      (fun texts => (List.zipWith (fun p text => p.1 ++ text) spans texts).flatten ++ last) <$>
        (spans.map Prod.snd).mapM f := by
  obtain ⟨r,hsource,hrest,hunclosed,hspans⟩ := exists_reading_encode hx hliteral hcontent last
  have htail : r.tail .drop = last := by
    rw [Reading.tail,hrest,hunclosed,List.append_nil]
    exact dropEscapes_escapeDelimiter (separable_opening hx hx') last
  rw [← hsource,replaceM_eq_mapM,spans_eq_slots,r.tokens_source hx hx',Reading.slots_tokens,
    contents_eq hspans,Reading.tokens,htail]
  exact weave_mapM hx hx' hspans last f

section recorded
variable {ε α β : Type}

abbrev Recorded (ε α : Type) := ExceptT ε (StateM (List (List Char))) α

/-- A handler that puts down every content it is called with. -/
def recorded (h : List Char → Except ε (List Char)) (content : List Char) : Recorded ε (List Char) :=
  ExceptT.mk fun calls => (h content,calls ++ [content])

def Recorded.outcome (x : Recorded ε α) (calls : List (List Char)) : Except ε α × List (List Char) :=
  x.run.run calls

theorem outcome_pure (a : α) (calls : List (List Char)) :
    Recorded.outcome (pure a : Recorded ε α) calls = (.ok a,calls) := rfl

theorem outcome_bind_ok {x : Recorded ε α} {a : α} {calls calls' : List (List Char)}
    (h : x.outcome calls = (.ok a,calls')) (f : α → Recorded ε β) :
    Recorded.outcome (x >>= f) calls = (f a).outcome calls' := by
  have hrun : x calls = (.ok a,calls') := h
  simp only [Recorded.outcome,ExceptT.run,StateT.run,bind,ExceptT.bind,ExceptT.mk,StateT.bind,hrun]
  rfl

theorem outcome_bind_error {x : Recorded ε α} {e : ε} {calls calls' : List (List Char)}
    (h : x.outcome calls = (.error e,calls')) (f : α → Recorded ε β) :
    Recorded.outcome (x >>= f) calls = (.error e,calls') := by
  have hrun : x calls = (.error e,calls') := h
  simp only [Recorded.outcome,ExceptT.run,StateT.run,bind,ExceptT.bind,ExceptT.mk,StateT.bind,hrun]
  rfl

theorem outcome_recorded {h : List Char → Except ε (List Char)} {content : List Char}
    {result : Except ε (List Char)} (hr : h content = result) (calls : List (List Char)) :
    (recorded h content).outcome calls = (result,calls ++ [content]) :=
  congrArg (fun r => (r,calls ++ [content])) hr

private theorem outcome_mapM_ok {h : List Char → Except ε (List Char)} {g : List Char → List Char}
    {contents : List (List Char)} (hall : ∀ content ∈ contents, h content = .ok (g content))
    (calls : List (List Char)) :
    Recorded.outcome (contents.mapM (recorded h)) calls = (.ok (contents.map g),calls ++ contents) := by
  induction contents generalizing calls with
  | nil => simp [outcome_pure]
  | cons content contents ih =>
    have hfirst := outcome_recorded (hall content (by simp)) calls
    have hrest := ih (fun c hc => hall c (List.mem_cons_of_mem content hc)) (calls ++ [content])
    rw [List.mapM_cons,outcome_bind_ok hfirst,outcome_bind_ok hrest,outcome_pure]
    simp

private theorem outcome_mapM_error {h : List Char → Except ε (List Char)} {e : ε}
    {before : List (List Char)} {content : List Char} (after : List (List Char))
    (hbefore : ∀ b ∈ before, ∃ text, h b = .ok text) (herror : h content = .error e)
    (calls : List (List Char)) :
    Recorded.outcome ((before ++ content :: after).mapM (recorded h)) calls =
      (.error e,calls ++ (before ++ [content])) := by
  induction before generalizing calls with
  | nil =>
    rw [List.nil_append,List.mapM_cons,outcome_bind_error (outcome_recorded herror calls),List.nil_append]
  | cons b before ih =>
    obtain ⟨text,htext⟩ := hbefore b (by simp)
    have hrest := ih (fun c hc => hbefore c (List.mem_cons_of_mem b hc)) (calls ++ [b])
    rw [List.cons_append,List.mapM_cons,outcome_bind_ok (outcome_recorded htext calls),
      outcome_bind_error hrest]
    simp

end recorded

/-- Scanning undoes the encoding. Whatever the handler does, it is called with the contents in order; one that
answers each content gives the literals with its answers in between, after a call for each content; one that
first fails at a content gives that failure, after the calls up to there. -/
theorem replaceM_encode {s : Scanner} (hs : s = bindMarkers ∨ s = substitutions)
    (spans : List (List Char × List Char)) (last : List Char)
    (hliteral : ∀ p ∈ spans, endsInBackslash p.1 = false)
    (hcontent : ∀ p ∈ spans, endsInBackslash p.2 = false) :
    (∀ (m : Type → Type) [Monad m] [LawfulMonad m] (f : List Char → m (List Char)),
      s.replaceM f (s.encode spans last) = do
        let texts ← (spans.map Prod.snd).mapM f
        return (List.zipWith (fun p text => p.1 ++ text) spans texts).flatten ++ last) ∧
    ∀ (ε : Type) (h : List Char → Except ε (List Char)),
      (∀ g : List Char → List Char, (∀ p ∈ spans, h p.2 = .ok (g p.2)) →
        Recorded.outcome (s.replaceM (recorded h) (s.encode spans last)) [] =
          (.ok ((spans.flatMap fun p => p.1 ++ g p.2) ++ last),spans.map Prod.snd)) ∧
      ∀ (k : Nat) (hk : k < spans.length) (e : ε),
        (∀ (j : Nat) (hj : j < k), ∃ text, h spans[j].2 = .ok text) → h spans[k].2 = .error e →
          Recorded.outcome (s.replaceM (recorded h) (s.encode spans last)) [] =
            (.error e,(spans.map Prod.snd).take (k+1)) := by
  obtain ⟨x,hx,hx',rfl⟩ : ∃ x, x ≠ '\\' ∧ x ≠ '{' ∧ s = braces x .drop := by
    rcases hs with rfl | rfl
    · exact ⟨'#',by decide,by decide,rfl⟩
    · exact ⟨'$',by decide,by decide,rfl⟩
  refine ⟨fun m _ _ f => ?_,fun ε h => ⟨fun g hg => ?_,fun k hk e hbefore herror => ?_⟩⟩
  · rw [replaceM_braces_encode hx hx' hliteral hcontent last f]
    simp
  · have hcalls : Recorded.outcome ((spans.map Prod.snd).mapM (recorded h)) [] =
        (.ok ((spans.map Prod.snd).map g),spans.map Prod.snd) := by
      refine outcome_mapM_ok ?_ []
      intro content hmem
      obtain ⟨p,hp,rfl⟩ := List.mem_map.mp hmem
      exact hg p hp
    rw [replaceM_braces_encode hx hx' hliteral hcontent last,← bind_pure_comp,outcome_bind_ok hcalls,
      outcome_pure]
    simp [List.flatMap,List.zipWith_map_right]
  · have hsplit : spans.map Prod.snd =
        (spans.take k).map Prod.snd ++ spans[k].2 :: (spans.drop (k+1)).map Prod.snd := by
      rw [← List.map_cons (f := Prod.snd),← List.map_append,List.getElem_cons_drop,List.take_append_drop]
    have hanswered : ∀ b ∈ (spans.take k).map Prod.snd, ∃ text, h b = .ok text := by
      intro b hb
      obtain ⟨p,hp,rfl⟩ := List.mem_map.mp hb
      obtain ⟨j,hj,rfl⟩ := List.getElem_of_mem hp
      have hjk : j < k := by
        rw [List.length_take] at hj
        omega
      rw [List.getElem_take]
      exact hbefore j hjk
    have hcalls := outcome_mapM_error ((spans.drop (k+1)).map Prod.snd) hanswered herror []
    rw [← hsplit] at hcalls
    rw [replaceM_braces_encode hx hx' hliteral hcontent last,← bind_pure_comp,outcome_bind_error hcalls]
    simp [List.take_add_one,hk]

theorem replaceM_encode_tangled :
    let spans := [(['a','\\','#','{','b','#'],['x','}']),([],['#','{','y']),(['}'],['z'])]
    let handler (content : List Char) : Except String (List Char) :=
      if content = ['#','{','y'] then .error "unknown" else .ok content
    (∀ p ∈ spans, endsInBackslash p.1 = false) ∧ (∀ p ∈ spans, endsInBackslash p.2 = false) ∧
      bindMarkers.encode spans ['\\'] = "a\\\\#\x7bb##\x7bx\\\x7d\x7d#\x7b#\x7by\x7d\x7d#\x7bz\x7d\\".toList ∧
      Recorded.outcome (bindMarkers.replaceM (recorded handler) (bindMarkers.encode spans ['\\'])) [] =
        (.error "unknown",[['x','}'],['#','{','y']]) := by
  intro spans handler
  have hliteral : ∀ p ∈ spans, endsInBackslash p.1 = false := by decide
  have hcontent : ∀ p ∈ spans, endsInBackslash p.2 = false := by decide
  have hencoded := replaceM_encode (.inl rfl) spans ['\\'] hliteral hcontent
  refine ⟨hliteral,hcontent,by decide +kernel,?_⟩
  refine (hencoded.2 String handler).2 1 (by decide) "unknown" ?_ rfl
  intro j hj
  obtain rfl : j = 0 := by omega
  exact ⟨['x','}'],rfl⟩

end Scanner
end SqlTemplate
