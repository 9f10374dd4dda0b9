import SqlTemplate.Proofs.Marker.Statements
import SqlTemplate.Proofs.Scan.Finish
/-!
# Shrunk markers

Shrinking a text shrinks what stands in its markers too. Without quotes, this shrinks the path, the type, the names
and the values of a marker one by one, so a marker whose texts have no blanks inside but single spaces states the
same as before.
-/
namespace SqlTemplate

namespace Text
variable {cs : List Char}

def Unquoted (cs : List Char) : Prop := ∀ c ∈ cs, isQuote c = false

theorem Unquoted.sublist {cs' : List Char} (h : Unquoted cs) (hs : cs'.Sublist cs) : Unquoted cs' :=
  fun c hc => h c (hs.mem hc)

theorem Unquoted.quoteAfter (h : Unquoted cs) : quoteAfter none cs = none := by
  induction cs with
  | nil => rfl
  | cons c cs ih =>
    have hrest := ih fun d hd => h d (List.mem_cons_of_mem c hd)
    simpa [Text.quoteAfter,h c (by simp)] using hrest

private theorem squeeze_of_not_mem {k : Char} (h : k ∉ cs) (pending : Bool) : squeeze pending (some k) cs = cs := by
  induction cs generalizing pending with
  | nil => rfl
  | cons c cs ih =>
    simp only [List.mem_cons,not_or] at h
    simp [squeeze,Ne.symm h.1,ih h.2]

/-- A character that is kept cuts a text in two that are shrunk by themselves. -/
theorem squeeze_append (h : Unquoted cs) {c : Char} (hb : isBlank c = false) (hq : isQuote c = false)
    (pending : Bool) (rest : List Char) :
    squeeze pending none (cs ++ c :: rest) = squeeze pending none cs ++ c :: squeeze false none rest := by
  induction cs generalizing pending with
  | nil => cases pending <;> simp [squeeze,hb,hq]
  | cons d cs ih =>
    have hrest : Unquoted cs := fun e he => h e (List.mem_cons_of_mem d he)
    have hd := h d (by simp)
    by_cases hdb : isBlank d = true
    · simp [squeeze,hdb,ih hrest]
    · cases pending <;> simp [squeeze,hdb,hd,ih hrest]

private theorem squeeze_intercalate {parts : List (List Char)} (h : ∀ part ∈ parts, Unquoted part) {sep : Char}
    (hb : isBlank sep = false) (hq : isQuote sep = false) :
    squeeze false none ([sep].intercalate parts) = [sep].intercalate (parts.map (squeeze false none)) := by
  induction parts with
  | nil => rfl
  | cons part parts ih =>
    have hrest := ih fun p hp => h p (List.mem_cons_of_mem part hp)
    cases parts with
    | nil => simp
    | cons part' parts =>
      have hjoin (p : List Char) (ps : List (List Char)) (hne : ps ≠ []) :
          [sep].intercalate (p :: ps) = p ++ sep :: [sep].intercalate ps := by
        rw [List.intercalate_cons_of_ne_nil hne,List.append_assoc,List.singleton_append]
      rw [hjoin part (part' :: parts) (by simp),squeeze_append (h part (by simp)) hb hq,hrest]
      exact (hjoin _ _ (by simp)).symm

private theorem allBlank_squeeze (h : allBlank cs = true) (pending : Bool) :
    allBlank (squeeze pending none cs) = true := by
  induction cs generalizing pending with
  | nil => cases pending <;> decide
  | cons c cs ih =>
    have hc : isBlank c = true := List.all_eq_true.mp h c (by simp)
    have hcs : allBlank cs = true := List.all_eq_true.mpr fun d hd => List.all_eq_true.mp h d (by simp [hd])
    simpa [squeeze,hc] using ih hcs true

private theorem trimStart_squeeze (cs : List Char) (pending : Bool) :
    trimStart (squeeze pending none cs) = squeeze false none (trimStart cs) := by
  have hspace : isBlank ' ' = true := by decide
  induction cs generalizing pending with
  | nil => cases pending <;> simp [squeeze,trimStart_cons,hspace]
  | cons c cs ih =>
    rw [trimStart_cons]
    by_cases hc : isBlank c = true
    · simp [squeeze,hc,ih]
    · cases pending <;> simp [squeeze,hc,trimStart_cons,hspace]

private theorem not_mem_squeeze {c : Char} (h : c ∉ cs) (hc : c ≠ ' ') (pending : Bool) (q : Option Char) :
    c ∉ squeeze pending q cs := by
  induction cs generalizing pending q with
  | nil => cases q <;> cases pending <;> simp [squeeze,hc]
  | cons d cs ih =>
    simp only [List.mem_cons,not_or] at h
    cases q with
    | some k => simpa [squeeze,h.1] using ih h.2 _ _
    | none =>
      by_cases hd : isBlank d = true
      · simpa [squeeze,hd] using ih h.2 _ _
      · cases pending <;> simpa [squeeze,hd,h.1,hc] using ih h.2 _ _

private theorem shrink_eq_nil_iff (h : trim cs = cs) : shrink cs = [] ↔ cs = [] := by
  rw [shrink_eq,trimStart_eq_self (head?_of_trim h)]
  cases cs with
  | nil => exact Iff.rfl
  | cons c cs => simp [shrinkFrom,head?_of_trim h c rfl]

private theorem exists_last {c : Char} (hc : isBlank c = false) (cs : List Char) : ∃ front z gap, isBlank z = false ∧
    allBlank gap = true ∧ c :: cs = front ++ z :: gap ∧ trimEnd (c :: cs) = front ++ [z] := by
  obtain ⟨gap,hcs,hgap⟩ := exists_trimEnd (c :: cs)
  have hkept : trimEnd (c :: cs) = c :: trimEnd cs := trimEnd_append hc [] cs
  obtain ⟨front,z,hlast⟩ := (List.eq_nil_or_concat (trimEnd (c :: cs))).resolve_left (by simp [hkept])
  have hz : isBlank z = false := isBlank_of_getLast?_trimEnd (by rw [hlast]; simp)
  exact ⟨front,z,gap,hz,hgap,by simpa [hlast] using hcs,by simpa using hlast⟩

/-- Without quotes, a shrunk text without the blanks at its ends is the text shrunk by itself. -/
theorem trim_squeeze (h : Unquoted cs) (pending : Bool) : trim (squeeze pending none cs) = shrink (trim cs) := by
  rw [trim,trimStart_squeeze,trim]
  have hstart : Unquoted (trimStart cs) := h.sublist (List.dropWhile_sublist _)
  cases hs : trimStart cs with
  | nil => rfl
  | cons c rest =>
    rw [hs] at hstart
    have hc := isBlank_of_trimStart hs
    obtain ⟨front,z,gap,hz,hgap,hcs,hend⟩ := exists_last hc rest
    have hzq : isQuote z = false := hstart z (by simp [hcs])
    have hfront : Unquoted front := hstart.sublist (by simp [hcs])
    have hlast : trimStart (front ++ [z]) = front ++ [z] := by
      rw [← hend]
      apply trimStart_eq_self
      intro d hd
      have hkeep : trimEnd (c :: rest) = c :: trimEnd rest := trimEnd_append hc [] rest
      obtain rfl : c = d := by simpa [hkeep] using hd
      exact hc
    have htail : trimEnd (squeeze false none gap) = [] := by
      have hblank := allBlank_squeeze hgap false
      simpa using trimEnd_blanks hblank []
    rw [hend,hcs,squeeze_append hfront hz hzq,trimEnd_append hz,htail,shrink_eq,hlast,
      shrinkFrom_append false none front hz [],hfront.quoteAfter]
    simp [shrinkFrom,hz]

end Text

namespace Marker
open Text
variable {content : List Char}

def shrunkStatement (stated : String × String) : String × String :=
  (String.ofList (shrink stated.1.toList),String.ofList (shrink stated.2.toList))

private theorem statement?_squeeze {option : List Char} (h : Unquoted option) :
    statement? (squeeze false none option) = (statement? option).map shrunkStatement := by
  by_cases heq : '=' ∈ option
  · obtain ⟨name,value,rfl,hn⟩ := List.eq_append_cons_of_mem heq
    have hname : Unquoted name := h.sublist (List.sublist_append_left _ _)
    have hvalue : Unquoted value := h.sublist (by simp)
    rw [squeeze_append hname (by decide) (by decide),statement?_append (not_mem_squeeze hn (by decide) _ _),
      statement?_append hn,trim_squeeze hname,trim_squeeze hvalue]
    by_cases hempty : trim name = []
    · rw [if_pos ((shrink_eq_nil_iff (trim_trim name)).mpr hempty),if_pos hempty]
      rfl
    · rw [if_neg ((not_congr (shrink_eq_nil_iff (trim_trim name))).mpr hempty),if_neg hempty]
      simp [shrunkStatement]
  · rw [statement?_of_not_mem heq,statement?_of_not_mem (not_mem_squeeze heq (by decide) _ _)]
    rfl

private theorem ofProperty_shrink {path : List Char} (h : trim path = path) :
    ofProperty (shrink path) = (ofProperty path).map shrunkStatement := by
  have hname : String.ofList (shrink Attribute.property.name.toList) = Attribute.property.name := by decide
  unfold ofProperty
  by_cases hempty : path = []
  · rw [if_pos ((shrink_eq_nil_iff h).mpr hempty),if_pos hempty]
    rfl
  · rw [if_neg ((not_congr (shrink_eq_nil_iff h)).mpr hempty),if_neg hempty]
    simp [shrunkStatement,hname]

private theorem headStatements?_squeeze {head : List Char} (h : Unquoted head) :
    headStatements? (squeeze false none head) = (headStatements? head).map (List.map shrunkStatement) := by
  have hbody : Unquoted (trimStart head) := h.sublist (List.dropWhile_sublist _)
  have hstart : (squeeze false none (trimStart head)).head? = (trimStart head).head? := by
    cases hs : trimStart head with
    | nil => rfl
    | cons c rest => simp [squeeze,isBlank_of_trimStart hs]
  have htag : String.ofList (shrink Attribute.sqlType.name.toList) = Attribute.sqlType.name := by decide
  simp only [headStatements?,trimStart_squeeze,hstart]
  generalize trimStart head = body at hbody ⊢
  split
  · rfl
  · by_cases hc : ':' ∈ body
    · obtain ⟨path,type,rfl,hp⟩ := List.eq_append_cons_of_mem hc
      have hpath : Unquoted path := hbody.sublist (List.sublist_append_left _ _)
      have htype : Unquoted type := hbody.sublist (by simp)
      have hp' := not_mem_squeeze hp (c := ':') (by decide) false none
      rw [squeeze_append hpath (by decide) (by decide)]
      obtain ⟨htake,hdrop⟩ := span_ne (rfl : path ++ ':' :: type = _) hp (by simp)
      obtain ⟨htake',hdrop'⟩ :=
        span_ne (rfl : squeeze false none path ++ ':' :: squeeze false none type = _) hp' (by simp)
      simp only [htake,hdrop,htake',hdrop',trim_squeeze hpath,trim_squeeze htype,ofProperty_shrink (trim_trim path),
        shrink_eq_nil_iff (trim_trim type)]
      split
      · rfl
      · simp [shrunkStatement,htag]
    · have hc' := not_mem_squeeze hc (by decide) false none
      obtain ⟨htake,hdrop⟩ := span_ne (List.append_nil body).symm hc (by simp)
      obtain ⟨htake',hdrop'⟩ := span_ne (List.append_nil (squeeze false none body)).symm hc' (by simp)
      simp only [htake,hdrop,htake',hdrop',trim_squeeze hbody,ofProperty_shrink (trim_trim body)]
      rfl

/-- A marker without quotes states the same when it is shrunk, each text shrunk by itself. -/
theorem statements?_squeeze (h : Unquoted content) :
    statements? (squeeze false none content) = (statements? content).map (List.map shrunkStatement) := by
  have hjoin : [','].intercalate (List.splitOn ',' content) = content := List.intercalate_splitOn ','
  have hparts : ∀ part ∈ List.splitOn ',' content, Unquoted part ∧ ',' ∉ part := fun part hp =>
    ⟨h.sublist (sublist_of_mem_splitOn hp),not_mem_of_mem_splitOn hp⟩
  cases hs : List.splitOn ',' content with
  | nil => exact absurd hs (List.splitOn_ne_nil _ content)
  | cons head options =>
    rw [hs] at hjoin hparts
    have hcomma : ∀ part ∈ (head :: options).map (squeeze false none), ',' ∉ part := by
      intro part hp
      obtain ⟨whole,hw,rfl⟩ := List.mem_map.mp hp
      exact not_mem_squeeze (hparts whole hw).2 (by decide) _ _
    have hsqueeze : squeeze false none content = [','].intercalate ((head :: options).map (squeeze false none)) := by
      rw [← squeeze_intercalate (fun part hp => (hparts part hp).1) (by decide) (by decide),hjoin]
    rw [hsqueeze,statements?,statements?,List.splitOn_intercalate _ hcomma (by simp),hs]
    apply statementsOf?_map
    · exact headStatements?_squeeze (hparts head (by simp)).1
    · exact fun option ho => statement?_squeeze (hparts option (List.mem_cons_of_mem _ ho)).1

/-- No quote stands in the content, and shrinking changes nothing in what it states. -/
def Compact (content : List Char) : Prop :=
  Unquoted content ∧ ∀ stated, statements? content = some stated → ∀ e ∈ stated,
    shrink e.1.toList = e.1.toList ∧ shrink e.2.toList = e.2.toList

theorem parse_squeeze (h : Compact content) {q : Option Char} (hq : IsOpen q) :
    (parse (squeeze false q content)).toOption = (parse content).toOption := by
  cases q with
  | some k =>
    have hk : k ∉ content := by
      intro hm
      have hquote := h.1 k hm
      rw [hq k rfl] at hquote
      exact absurd hquote (by decide)
    rw [squeeze_of_not_mem hk]
  | none =>
    rw [parse_toOption,parse_toOption,statements?_squeeze h.1]
    cases hs : statements? content with
    | none => rfl
    | some stated =>
      have hsame : stated.map shrunkStatement = stated.map id := by
        apply List.map_congr_left
        intro e he
        obtain ⟨hname,hvalue⟩ := h.2 stated hs e he
        simp [shrunkStatement,hname,hvalue]
      simp [hsame]

end Marker
end SqlTemplate
