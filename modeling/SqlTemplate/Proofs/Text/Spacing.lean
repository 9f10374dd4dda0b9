import SqlTemplate.Proofs.Scan.Finish
/-!
# The spacing of a text

A text as what shrinking keeps whole, single characters and quoted stretches, with the blanks in between. Every
text has exactly one such spacing. Shrinking keeps the solids and replaces the gaps: between two solids by one
space, or by nothing where there was none, and at the ends by nothing.
-/
namespace SqlTemplate.Text

/-- What shrinking keeps whole: a character that is neither blank nor a quote, or a stretch from a quote to the
next one of its kind. -/
inductive IsSolid : List Char → Prop
  | char (c : Char) (blank : isBlank c = false) (quote : isQuote c = false) : IsSolid [c]
  | quoted (q : Char) (inner : List Char) (quote : isQuote q = true) (inside : q ∉ inner) :
    IsSolid (q :: (inner ++ [q]))

@[ext] structure Part where
  gap : List Char
  solid : List Char
  gap_blank : allBlank gap = true
  isSolid : IsSolid solid

/-- Solids, the blanks behind the last one, and at the end perhaps a quoted stretch that is never closed. -/
@[ext] structure Spacing where
  parts : List Part
  gap : List Char
  unclosed : List Char
  gap_blank : allBlank gap = true
  unclosed_open : unclosed = [] ∨ ∃ q inner, isQuote q = true ∧ q ∉ inner ∧ unclosed = q :: inner

private theorem isBlank_of_isQuote {c : Char} (h : isQuote c = true) : isBlank c = false := by
  simp only [isQuote,Bool.or_eq_true,decide_eq_true_eq] at h
  rcases h with rfl | rfl <;> decide

theorem IsSolid.head {s : List Char} (h : IsSolid s) : ∃ c cs, s = c :: cs ∧ isBlank c = false := by
  cases h with
  | char c blank quote => exact ⟨c,[],rfl,blank⟩
  | quoted q inner quote inside => exact ⟨q,inner ++ [q],rfl,isBlank_of_isQuote quote⟩

namespace Part

def source (p : Part) : List Char := p.gap ++ p.solid

end Part

namespace Spacing

def source (s : Spacing) : List Char := s.parts.flatMap Part.source ++ (s.gap ++ s.unclosed)

def solids (s : Spacing) : List (List Char) :=
  s.parts.map Part.solid ++ if s.unclosed = [] then [] else [s.unclosed]

def gaps (s : Spacing) : List (List Char) := s.parts.map Part.gap ++ [s.gap]

def cons (p : Part) (s : Spacing) : Spacing := { s with parts := p :: s.parts }

@[simp] theorem source_cons (p : Part) (s : Spacing) : (cons p s).source = p.source ++ s.source := by
  simp [source,cons]

private theorem exists_blank {c : Char} (hc : isBlank c = true) (s : Spacing) :
    ∃ t : Spacing, t.source = c :: s.source := by
  obtain ⟨parts,gap,unclosed,hg,hu⟩ := s
  have hblank {g : List Char} (h : allBlank g = true) : allBlank (c :: g) = true := by
    simpa [allBlank,hc] using h
  cases parts with
  | nil => exact ⟨⟨[],c :: gap,unclosed,hblank hg,hu⟩,rfl⟩
  | cons p ps =>
    exact ⟨⟨⟨c :: p.gap,p.solid,hblank p.gap_blank,p.isSolid⟩ :: ps,gap,unclosed,hg,hu⟩,rfl⟩

/-- Every text has a spacing. -/
theorem exists_source (cs : List Char) : ∃ s : Spacing, s.source = cs := by
  induction hn : cs.length using Nat.strongRecOn generalizing cs with
  | ind n ih =>
    subst hn
    cases cs with
    | nil => exact ⟨⟨[],[],[],allBlank_nil,.inl rfl⟩,rfl⟩
    | cons c cs =>
      obtain ⟨s,hs⟩ := ih cs.length (by simp) cs rfl
      cases hb : isBlank c with
      | true =>
        obtain ⟨t,ht⟩ := exists_blank hb s
        exact ⟨t,by rw [ht,hs]⟩
      | false =>
        cases hq : isQuote c with
        | false => exact ⟨cons ⟨[],[c],allBlank_nil,.char c hb hq⟩ s,by simp [Part.source,hs]⟩
        | true =>
          by_cases hm : c ∈ cs
          · obtain ⟨inner,more,rfl,hi⟩ := List.eq_append_cons_of_mem hm
            obtain ⟨t,ht⟩ := ih more.length (by simp; omega) more rfl
            exact ⟨cons ⟨[],c :: (inner ++ [c]),allBlank_nil,.quoted c inner hq hi⟩ t,
              by simp [Part.source,ht]⟩
          · exact ⟨⟨[],[],c :: cs,allBlank_nil,.inr ⟨c,cs,hq,hm,rfl⟩⟩,rfl⟩

end Spacing

private theorem blanks_inj {g g' r r' : List Char} (hg : allBlank g = true) (hg' : allBlank g' = true)
    (hr : ∀ c, r.head? = some c → isBlank c = false) (hr' : ∀ c, r'.head? = some c → isBlank c = false)
    (h : g ++ r = g' ++ r') : g = g' ∧ r = r' := by
  have hstart {g r : List Char} (hg : allBlank g = true)
      (hr : ∀ c, r.head? = some c → isBlank c = false) : (g ++ r).takeWhile isBlank = g := by
    rw [List.takeWhile_append_of_pos (List.all_eq_true.mp hg)]
    cases r with
    | nil => simp
    | cons c r => simp [hr c rfl]
  have hsame : g = g' := by
    rw [← hstart hg hr,h,hstart hg' hr']
  subst hsame
  exact ⟨rfl,List.append_cancel_left h⟩

private theorem quoted_inj {q : Char} {inner inner' more more' : List Char} (hi : q ∉ inner) (hi' : q ∉ inner')
    (h : inner ++ q :: more = inner' ++ q :: more') : inner = inner' ∧ more = more' := by
  have hstart {inner more : List Char} (hi : q ∉ inner) : (inner ++ q :: more).takeWhile (· ≠ q) = inner := by
    rw [List.takeWhile_append_of_pos]
    · simp
    · intro c hc
      have hne : c ≠ q := by
        rintro rfl
        exact hi hc
      simpa using hne
  have hsame : inner = inner' := by
    rw [← hstart hi,h,hstart hi']
  subst hsame
  simpa using h

namespace IsSolid

theorem append_inj {s s' more more' : List Char} (h : IsSolid s) (h' : IsSolid s')
    (he : s ++ more = s' ++ more') : s = s' ∧ more = more' := by
  cases h with
  | char c blank quote =>
    cases h' with
    | char d blank' quote' => simpa using he
    | quoted q inner quote' inside =>
      obtain ⟨rfl,-⟩ : c = q ∧ _ := by simpa using he
      simp [quote] at quote'
  | quoted q inner quote inside =>
    cases h' with
    | char d blank' quote' =>
      obtain ⟨rfl,-⟩ : q = d ∧ _ := by simpa using he
      simp [quote] at quote'
    | quoted q' inner' quote' inside' =>
      have hcons : q = q' ∧ inner ++ q :: more = inner' ++ q' :: more' := by simpa using he
      obtain ⟨rfl,hrest⟩ := hcons
      obtain ⟨rfl,rfl⟩ := quoted_inj inside inside' hrest
      exact ⟨rfl,rfl⟩

private theorem append_ne_unclosed {s more inner : List Char} {q : Char} (h : IsSolid s) (hq : isQuote q = true)
    (hi : q ∉ inner) : s ++ more ≠ q :: inner := by
  intro he
  cases h with
  | char c blank quote =>
    obtain ⟨rfl,-⟩ := List.cons.inj he
    simp [quote] at hq
  | quoted q' inner' quote inside =>
    obtain ⟨rfl,rfl⟩ := List.cons.inj he
    simp at hi

theorem head?_append {s : List Char} (h : IsSolid s) (more : List Char) :
    ∀ c, (s ++ more).head? = some c → isBlank c = false := by
  obtain ⟨d,ds,rfl,hd⟩ := h.head
  intro c hc
  obtain rfl : d = c := by simpa using hc
  exact hd

end IsSolid

namespace Spacing

private theorem head?_unclosed (s : Spacing) : ∀ c, s.unclosed.head? = some c → isBlank c = false := by
  intro c hc
  rcases s.unclosed_open with hu | ⟨q,inner,hq,-,hu⟩
  · simp [hu] at hc
  · obtain rfl : q = c := by simpa [hu] using hc
    exact isBlank_of_isQuote hq

private theorem source_ne_end (p : Part) (more : List Char) (s : Spacing) :
    p.source ++ more ≠ s.gap ++ s.unclosed := by
  intro h
  simp only [Part.source,List.append_assoc] at h
  obtain ⟨-,hrest⟩ := blanks_inj p.gap_blank s.gap_blank (p.isSolid.head?_append more) s.head?_unclosed h
  rcases s.unclosed_open with hu | ⟨q,inner,hq,hi,hu⟩
  · obtain ⟨c,cs,hc,-⟩ := p.isSolid.head
    simp [hu,hc] at hrest
  · exact p.isSolid.append_ne_unclosed hq hi (hrest.trans hu)

/-- A text has no other spacing. -/
theorem source_injective {s t : Spacing} (h : s.source = t.source) : s = t := by
  obtain ⟨ps,g,u,hg,hu⟩ := s
  obtain ⟨ps',g',u',hg',hu'⟩ := t
  induction ps generalizing ps' with
  | nil =>
    cases ps' with
    | nil =>
      obtain ⟨rfl,rfl⟩ := blanks_inj hg hg' (head?_unclosed ⟨[],g,u,hg,hu⟩)
        (head?_unclosed ⟨[],g',u',hg',hu'⟩) h
      rfl
    | cons p' ps' =>
      refine absurd ?_ (source_ne_end p' (source ⟨ps',g',u',hg',hu'⟩) ⟨[],g,u,hg,hu⟩)
      simpa [source] using h.symm
  | cons p ps ih =>
    cases ps' with
    | nil =>
      refine absurd ?_ (source_ne_end p (source ⟨ps,g,u,hg,hu⟩) ⟨[],g',u',hg',hu'⟩)
      simpa [source] using h
    | cons p' ps' =>
      have hcons : p.gap ++ (p.solid ++ source ⟨ps,g,u,hg,hu⟩) =
          p'.gap ++ (p'.solid ++ source ⟨ps',g',u',hg',hu'⟩) := by
        simpa [source,Part.source] using h
      obtain ⟨hgap,hrest⟩ := blanks_inj p.gap_blank p'.gap_blank (p.isSolid.head?_append _)
        (p'.isSolid.head?_append _) hcons
      obtain ⟨hsolid,hmore⟩ := p.isSolid.append_inj p'.isSolid hrest
      obtain rfl : p = p' := Part.ext hgap hsolid
      have htail := ih ps' hmore
      simp only [Spacing.mk.injEq] at htail ⊢
      simpa using htail

def separator (gap : List Char) : List Char := if gap = [] then [] else [' ']

@[simp] theorem separator_nil : separator [] = [] := rfl

@[simp] theorem separator_separator (gap : List Char) : separator (separator gap) = separator gap := by
  cases gap <;> rfl

private theorem allBlank_separator (gap : List Char) : allBlank (separator gap) = true := by
  unfold separator
  split <;> decide

def flush (s : Spacing) : Spacing :=
  match s.parts with
  | [] => { s with gap := [], gap_blank := allBlank_nil }
  | p :: ps => { s with parts := { p with gap := [], gap_blank := allBlank_nil } :: ps }

/-- The spacing with separators for its gaps, and without the blanks at its end. -/
def even (s : Spacing) : Spacing where
  parts := s.parts.map fun p => ⟨separator p.gap,p.solid,allBlank_separator p.gap,p.isSolid⟩
  gap := if s.unclosed = [] then [] else separator s.gap
  unclosed := s.unclosed
  gap_blank := by
    split
    · exact allBlank_nil
    · exact allBlank_separator s.gap
  unclosed_open := s.unclosed_open

def shrunk (s : Spacing) : Spacing := s.flush.even

private theorem gaps_shrunk (s : Spacing) : s.shrunk.gaps =
    s.gaps.mapIdx fun i gap => if 0 < i ∧ i < s.solids.length then separator gap else [] := by
  obtain ⟨parts,gap,unclosed,hg,hu⟩ := s
  cases parts with
  | nil => by_cases h : unclosed = [] <;> simp [shrunk,flush,even,gaps,h]
  | cons p ps =>
    have hlength : (solids ⟨p :: ps,gap,unclosed,hg,hu⟩).length =
        ps.length+1+if unclosed = [] then 0 else 1 := by
      simp only [solids,List.length_append,List.length_map,List.length_cons]
      split <;> rfl
    have hinner : (ps.map Part.gap).mapIdx (fun i g => if 0 < i+1 ∧ i+1 < ps.length+1+(if unclosed = [] then 0 else 1)
        then separator g else []) = ps.map fun p => separator p.gap := by
      apply List.ext_getElem
      · simp
      · intro i hi hi'
        have hlt : i < ps.length := by simpa using hi'
        have hcond : 0 < i+1 ∧ i+1 < ps.length+1+(if unclosed = [] then 0 else 1) := by omega
        simp [hcond]
    have hlast : (if 0 < ps.length+1 ∧ ps.length+1 < ps.length+1+(if unclosed = [] then 0 else 1)
        then separator gap else []) = if unclosed = [] then [] else separator gap := by
      by_cases h : unclosed = [] <;> simp [h]
    simp only [gaps,hlength,List.map_cons,List.cons_append,List.mapIdx_cons,List.mapIdx_append,hinner,
      List.length_map,List.mapIdx_nil,Nat.zero_add,hlast]
    by_cases h : unclosed = [] <;> simp [shrunk,flush,even,h]

private theorem solids_shrunk (s : Spacing) : s.shrunk.solids = s.solids := by
  obtain ⟨parts,gap,unclosed,hg,hu⟩ := s
  cases parts <;> simp [shrunk,flush,even,solids]

private theorem trimStart_source (s : Spacing) : trimStart s.source = s.flush.source := by
  obtain ⟨parts,gap,unclosed,hg,hu⟩ := s
  cases parts with
  | nil =>
    simp only [source,flush,List.flatMap_nil,List.nil_append]
    rw [trimStart_blanks hg,trimStart_eq_self (head?_unclosed ⟨[],gap,unclosed,hg,hu⟩)]
  | cons p ps =>
    simp only [source,flush,List.flatMap_cons,Part.source,List.append_assoc,List.nil_append]
    rw [trimStart_blanks p.gap_blank,trimStart_eq_self (p.isSolid.head?_append _)]

private theorem shrinkFrom_blanks {gap : List Char} (hg : allBlank gap = true) (pending : Bool) (rest : List Char) :
    shrinkFrom true pending none (gap ++ rest) = shrinkFrom true (pending || !gap.isEmpty) none rest := by
  induction gap generalizing pending with
  | nil => simp
  | cons c gap ih =>
    simp only [allBlank,List.all_cons,Bool.and_eq_true] at hg
    simp [shrinkFrom,hg.1,ih hg.2]

private theorem shrinkFrom_inside {q : Char} {inner : List Char} (hi : q ∉ inner) (rest : List Char) :
    shrinkFrom true false (some q) (inner ++ rest) = inner ++ shrinkFrom true false (some q) rest := by
  induction inner with
  | nil => rfl
  | cons c inner ih =>
    simp only [List.mem_cons,not_or] at hi
    simp [shrinkFrom,Ne.symm hi.1,ih hi.2]

private theorem shrinkFrom_solid {s : List Char} (h : IsSolid s) (pending : Bool) (rest : List Char) :
    shrinkFrom true pending none (s ++ rest) =
      (if pending then [' '] else []) ++ (s ++ shrinkFrom true false none rest) := by
  cases h with
  | char c blank quote => cases pending <;> simp [shrinkFrom,blank,quote]
  | quoted q inner quote inside =>
    have hinner := shrinkFrom_inside inside (q :: rest)
    have hblank := isBlank_of_isQuote quote
    cases pending <;> simp [shrinkFrom,hblank,quote,hinner]

private theorem shrinkFrom_unclosed {q : Char} {inner : List Char} (hq : isQuote q = true) (hi : q ∉ inner)
    (pending : Bool) : shrinkFrom true pending none (q :: inner) =
      (if pending then [' '] else []) ++ q :: inner := by
  have hinner := shrinkFrom_inside hi []
  have hblank := isBlank_of_isQuote hq
  cases pending <;> simp_all [shrinkFrom]

theorem shrinkFrom_source (s : Spacing) : shrinkFrom true false none s.source = s.even.source := by
  obtain ⟨parts,gap,unclosed,hg,hu⟩ := s
  have hseparator (gap : List Char) : (if (!gap.isEmpty) = true then [' '] else []) = separator gap := by
    cases gap <;> rfl
  induction parts with
  | nil =>
    simp only [source,even,List.flatMap_nil,List.nil_append,List.map_nil]
    rw [shrinkFrom_blanks hg]
    rcases hu with rfl | ⟨q,inner,hq,hi,rfl⟩
    · simp [shrinkFrom]
    · rw [shrinkFrom_unclosed hq hi,Bool.false_or,hseparator]
      simp
  | cons p ps ih =>
    simp only [source,even,List.flatMap_cons,List.map_cons,Part.source,List.append_assoc] at ih ⊢
    rw [shrinkFrom_blanks p.gap_blank,shrinkFrom_solid p.isSolid,Bool.false_or,hseparator,ih]

private theorem shrunk_shrunk (s : Spacing) : s.shrunk.shrunk = s.shrunk := by
  obtain ⟨parts,gap,unclosed,hg,hu⟩ := s
  by_cases h : unclosed = [] <;> cases parts <;> simp [shrunk,flush,even,h]

/-- Shrinking evens out the spacing. -/
theorem shrink_source (s : Spacing) : shrink s.source = s.shrunk.source := by
  rw [shrink_eq,trimStart_source,shrinkFrom_source,shrunk]

end Spacing

/-- A text has one spacing, and so has the shrunk text: the same solids in the same order, between two of them one
space where there were blanks and nothing where there were none, and nothing before the first and behind the last.
Shrinking it again changes nothing. -/
theorem shrink_normalises (cs : List Char) :
    shrink (shrink cs) = shrink cs ∧
    (∀ s t : Spacing, s.source = t.source → s = t) ∧
    ∃ s t : Spacing, s.source = cs ∧ t.source = shrink cs ∧ t.solids = s.solids ∧
      t.gaps = s.gaps.mapIdx fun i gap =>
        if 0 < i ∧ i < s.solids.length ∧ gap ≠ [] then [' '] else [] := by
  obtain ⟨s,rfl⟩ := Spacing.exists_source cs
  refine ⟨?_,fun _ _ => Spacing.source_injective,s,s.shrunk,rfl,s.shrink_source.symm,s.solids_shrunk,?_⟩
  · rw [s.shrink_source,s.shrunk.shrink_source,s.shrunk_shrunk]
  · rw [s.gaps_shrunk]
    congr 1
    funext i gap
    by_cases h : gap = [] <;> simp [Spacing.separator,h]

end SqlTemplate.Text
