import SqlTemplate.Node.Render
import SqlTemplate.Proofs.Scan.Surround
import SqlTemplate.Proofs.Text.Word
/-!
# What a trim takes away

A trim takes a text apart: blanks and a word at each end, and what is left between them. Its output differs from the
text only by these words, by blanks and by the texts that it puts around, so the bind markers stay.
-/
namespace SqlTemplate
open Text

/-- A text taken apart: a word at each end, blanks around these words, and the core that is left. -/
structure Trimming where
  before : List Char
  frontWord : List Char
  frontGap : List Char
  core : List Char
  backGap : List Char
  backWord : List Char
  after : List Char
  blank : ∀ gap ∈ [before,frontGap,backGap,after], allBlank gap = true
  trimmed : trim core = core

namespace Trimming

def source (p : Trimming) : List Char :=
  p.before ++ (p.frontWord ++ (p.frontGap ++ (p.core ++ (p.backGap ++ (p.backWord ++ p.after)))))

def left (p : Trimming) : List Char := p.core ++ (p.backGap ++ p.backWord)

/-- The words at the ends are those that are cut off for two lists, first at the front and then at the back. -/
structure Cuts (p : Trimming) (fronts backs : List String) : Prop where
  text : trim p.source = p.frontWord ++ (p.frontGap ++ p.left)
  left : trim p.left = p.left
  front : CutFor (BeginsWith (trim p.source)) (fronts.map String.toList) p.frontWord
  back : CutFor (EndsWith p.left) (backs.map String.toList) p.backWord

end Trimming

namespace Trim

theorem stripFront_eq (t : Trim) (body : List Char) :
    t.stripFront body = cutWord (t.frontOverrides.map String.toList) body := by
  rw [stripFront,cutWord,List.find?_map]
  simp only [Function.comp_def]
  cases t.frontOverrides.find? fun w => w.toList.isPrefixOf (upper body) <;> rfl

private theorem stripBack_eq (t : Trim) (body : List Char) :
    t.stripBack body = cutWordEnd (t.backOverrides.map String.toList) body := by
  have hpasses (w : String) : w.toList.reverse.isPrefixOf (upper body.reverse) = endsWith w.toList (upper body) := by
    rw [endsWith,upper,List.map_reverse,upper]
  rw [stripBack,cutWordEnd,cutWord,List.map_map,List.find?_map]
  simp only [Function.comp_def,hpasses]
  cases t.backOverrides.find? fun w => endsWith w.toList (upper body) with
  | none => simp
  | some w =>
    simp only [Option.map_some]
    rw [trim_reverse,List.length_reverse,List.drop_reverse]
    rfl

private theorem map_upperCase (words : List String) :
    (words.map upperCase).map String.toList = (words.map String.toList).map upper := by
  simp [upperCase]

/-- A trim with these words takes every text apart, and strips what it takes away. -/
theorem exists_trimming (t : Trim) (fronts backs : List String) (s : List Char) :
    let node := (t.withFrontOverrides fronts).withBackOverrides backs
    ∃ p : Trimming, p.source = s ∧ p.Cuts fronts backs ∧ p.core = node.stripBack (node.stripFront (trim s)) := by
  intro node
  have hbody := trim_trim s
  obtain ⟨before,after,hs,hbefore,hafter⟩ := exists_trim s
  obtain ⟨frontWord,frontGap,hfrontSplit,hfrontGap,hfront⟩ := cutWord_split (fronts.map String.toList) hbody
  have hleft := trim_cutWord ((fronts.map String.toList).map upper) hbody
  rw [stripFront_eq,stripBack_eq]
  simp only [node,withFrontOverrides,withBackOverrides,map_upperCase]
  generalize cutWord ((fronts.map String.toList).map upper) (trim s) = left at *
  obtain ⟨backWord,backGap,hbackSplit,hbackGap,hback⟩ := cutWordEnd_split (backs.map String.toList) hleft
  have hcore := trim_cutWordEnd ((backs.map String.toList).map upper) hleft
  generalize cutWordEnd ((backs.map String.toList).map upper) left = core at *
  have hsource : s = before ++ (frontWord ++ (frontGap ++ (core ++ (backGap ++ (backWord ++ after))))) := by
    rw [hfrontSplit,hbackSplit] at hs
    simpa using hs
  refine ⟨⟨before,frontWord,frontGap,core,backGap,backWord,after,by simp [*],hcore⟩,hsource.symm,⟨?_,?_,?_,?_⟩,rfl⟩
  · simpa [Trimming.source,← hsource,Trimming.left,← hbackSplit] using hfrontSplit
  · simpa [Trimming.left,← hbackSplit] using hleft
  · simpa [Trimming.source,← hsource] using hfront
  · simpa [Trimming.left,← hbackSplit] using hback

def around (t : Trim) : List String := t.front.toList ++ t.back.toList

/-- The front text, the core and the back text, those that are not empty, with a space between any two. -/
def enclose (t : Trim) (core : List Char) : List Char :=
  [' '].intercalate ([(t.front.getD "").toList,core,(t.back.getD "").toList].filter (!·.isEmpty))

private theorem forall_around {P : String → Prop} (t : Trim) (h : P "") :
    (∀ w ∈ t.around, P w) ↔ P (t.front.getD "") ∧ P (t.back.getD "") := by
  cases hf : t.front <;> cases hb : t.back <;> simp [around,hf,hb,h]

private theorem finish_eq (t : Trim) (s : List Char) :
    t.finish s = if allBlank s = true then [] else t.enclose (t.stripBack (t.stripFront (trim s))) := by
  simp only [finish,trim_eq_nil_iff]
  rfl

private theorem enclose_eq_nil_iff (t : Trim) (core : List Char) :
    t.enclose core = [] ↔ core = [] ∧ ∀ w ∈ t.around, w = "" := by
  have haround := t.forall_around (P := fun w => w = "") rfl
  rw [enclose,haround,← String.toList_eq_nil_iff,← String.toList_eq_nil_iff]
  cases (t.front.getD "").toList <;> cases core <;> cases (t.back.getD "").toList <;> simp

private theorem exists_enclose (t : Trim) (core : List Char) : ∃ a b, t.enclose core = a ++ (core ++ b) ∧
    ∀ c, c ≠ ' ' → (∀ w ∈ t.around, c ∉ w.toList) → c ∉ a ∧ c ∉ b := by
  have haround (c : Char) := t.forall_around (P := fun w => c ∉ w.toList) (by simp)
  simp only [haround]
  rw [enclose]
  generalize (t.front.getD "").toList = front
  generalize (t.back.getD "").toList = back
  by_cases hcore : core = []
  · refine ⟨[' '].intercalate ([front,back].filter (!·.isEmpty)),[],?_,?_⟩
    · subst hcore
      cases front <;> cases back <;> simp
    · intro c hc h
      cases front <;> cases back <;> simp_all
  · refine ⟨if front = [] then [] else front ++ [' '],if back = [] then [] else ' ' :: back,?_,?_⟩
    · cases front <;> cases back <;> simp [hcore]
    · intro c hc h
      cases front <;> cases back <;> simp_all

private theorem frontOverrides_whereClause : ∀ w ∈ whereClause.frontOverrides.map String.toList,
    ∃ sep ∈ [' ','\t','\r','\n'], w = trim w ++ [sep] ∧ (trim w = ['A','N','D'] ∨ trim w = ['O','R']) := by
  intro w hw
  refine ⟨w.getLast?.getD ' ',?_⟩
  revert w
  decide

/-- The characters that delimit a marker or escape a delimiter. -/
def markup : List Char := ['#','{','}','\\']

end Trim

namespace Trimming.Cuts
variable {p : Trimming} {fronts backs : List String}

/-- For the words of a `WHERE` clause no longer word is cut. -/
theorem whole_word (h : p.Cuts fronts backs) (hfronts : fronts.map Trim.upperCase = Trim.whereClause.frontOverrides)
    (hne : p.frontWord ≠ []) :
    (sameWord p.frontWord ['A','N','D'] = true ∨ sameWord p.frontWord ['O','R'] = true) ∧
      ∃ c ∈ [' ','\t','\r','\n'], ∃ gap, p.frontGap = c :: gap := by
  have hblank : ∀ c ∈ [' ','\t','\r','\n'], isBlank c = true := List.all_eq_true.mp (by decide)
  have hcut := h.front.upper
  rw [← Trim.map_upperCase,hfronts,h.text] at hcut
  have hwords : ∀ w ∈ Trim.whereClause.frontOverrides.map String.toList,
      ∃ sep, w = trim w ++ [sep] ∧ isBlank sep = true := by
    intro w hw
    obtain ⟨sep,hsep,hend,-⟩ := Trim.frontOverrides_whereClause w hw
    exact ⟨sep,hend,hblank sep hsep⟩
  obtain ⟨w,hw,hword,hmore⟩ := hcut.followed hne hwords
  obtain ⟨sep,hsep,hend,hstem⟩ := Trim.frontOverrides_whereClause w hw
  rw [hend,List.getLast?_append,List.getLast?_singleton,Option.some_or] at hmore
  refine ⟨?_,sep,hsep,?_⟩
  · rcases hstem with hstem | hstem
    · exact .inl (hstem ▸ hword)
    · exact .inr (hstem ▸ hword)
  · cases hgap : p.frontGap with
    | nil =>
      rw [hgap,List.nil_append] at hmore
      have hkept := head?_of_trim h.left sep hmore
      simp [hblank sep hsep] at hkept
    | cons c gap =>
      rw [hgap,List.cons_append,List.head?_cons,Option.some.injEq] at hmore
      exact ⟨gap,by rw [hmore]⟩

private theorem spans_enclose (h : p.Cuts fronts backs) (t : Trim)
    (hplain : ∀ w ∈ fronts ++ (backs ++ t.around), ∀ c ∈ Trim.markup, c ∉ w.toList) (hs : Terminated '#' p.source) :
    Terminated '#' (t.enclose p.core) ∧
      ∀ e, (Scanner.braces '#' e).spans (t.enclose p.core) = (Scanner.braces '#' e).spans p.source := by
  obtain ⟨a,b,hout,haround⟩ := t.exists_enclose p.core
  have hsigns : ∀ c ∈ Trim.markup, c.isAlpha = false ∧ isBlank c = false ∧ c ≠ ' ' := by
    simp [Trim.markup,isBlank]
  have hfree {c : Char} (hc : c ∈ Trim.markup) : c ∉ p.before ++ (p.frontWord ++ p.frontGap) ++ a ∧
      c ∉ p.backGap ++ (p.backWord ++ p.after) ∧ c ∉ b := by
    obtain ⟨halpha,hblank,hspace⟩ := hsigns c hc
    have hfronts : c ∉ p.frontWord := h.front.not_mem halpha (by
      simpa using fun w hw => hplain w (List.mem_append_left _ hw) c hc)
    have hbacks : c ∉ p.backWord := h.back.not_mem halpha (by
      simpa using fun w hw => hplain w (List.mem_append_right _ (List.mem_append_left _ hw)) c hc)
    have hgaps : ∀ gap ∈ [p.before,p.frontGap,p.backGap,p.after], c ∉ gap :=
      fun gap hgap => not_mem_of_allBlank (p.blank gap hgap) hblank
    have hput := haround c hspace fun w hw =>
      hplain w (List.mem_append_right _ (List.mem_append_right _ hw)) c hc
    simp only [List.mem_append,not_or]
    exact ⟨⟨⟨hgaps _ (by simp),hfronts,hgaps _ (by simp)⟩,hput.1⟩,⟨hgaps _ (by simp),hbacks,hgaps _ (by simp)⟩,
      hput.2⟩
  have hsource : p.source =
      (p.before ++ (p.frontWord ++ p.frontGap)) ++ (p.core ++ (p.backGap ++ (p.backWord ++ p.after))) := by
    simp [source]
  rw [hsource] at hs ⊢
  rw [hout]
  exact hs.between (by decide) (by decide) (hfree (by decide)).1 (hfree (by decide)).1 (hfree (by decide)).2.1
    (hfree (by decide)).2.2

end Trimming.Cuts

/-- A trim writes what finishing makes of the text of its body. A blank text becomes nothing. Any other text is taken
apart: at each end the first listed word that stands there is missing, and blanks, and the core is put between the front
and the back text as it stands. So in a `WHERE` clause only a whole `AND` or `OR` is missing. When neither the words nor
the texts that are put around have markup in them and no marker is left open, the markers stay what they are. -/
theorem Trim.finish_splits (t : Trim) (fronts backs : List String) :
    let node := (t.withFrontOverrides fronts).withBackOverrides backs
    (∀ c body env b, (Node.render c body env).outcome = .ok b →
      (Node.render c (.trim node body) env).text = node.finish (Node.render c body env).text) ∧
    ∀ s, (∃ p : Trimming, p.source = s ∧ p.Cuts fronts backs ∧
        (node.finish s = [] ↔ allBlank s = true ∨ p.core = [] ∧ ∀ w ∈ t.around, w = "") ∧
        (allBlank s = false → node.finish s = t.enclose p.core) ∧
        (node.frontOverrides = whereClause.frontOverrides → p.frontWord ≠ [] →
          (sameWord p.frontWord ['A','N','D'] = true ∨ sameWord p.frontWord ['O','R'] = true) ∧
            ∃ c ∈ [' ','\t','\r','\n'], ∃ gap, p.frontGap = c :: gap)) ∧
      ((∀ w ∈ fronts ++ (backs ++ t.around), ∀ c ∈ markup, c ∉ w.toList) → Terminated '#' s →
        Terminated '#' (node.finish s) ∧
          ∀ e, (Scanner.braces '#' e).spans (node.finish s) = (Scanner.braces '#' e).spans s) := by
  intro node
  constructor
  · intro c body env b hbody
    simp [Node.render,Node.renderTrim,hbody,Rendered.text]
  · intro s
    obtain ⟨p,rfl,hcuts,hcore⟩ := t.exists_trimming fronts backs s
    have hfinish : node.finish p.source = if allBlank p.source = true then [] else t.enclose p.core := by
      rw [finish_eq,hcore]
      rfl
    rw [hfinish]
    refine ⟨⟨p,rfl,hcuts,?_,fun hb => by simp [hb],hcuts.whole_word⟩,fun hplain hs => ?_⟩
    · split
      · next hb => simp [hb]
      · next hb => rw [t.enclose_eq_nil_iff]; simp [hb]
    · split
      · next hb =>
        have hnone : '#' ∉ p.source := not_mem_of_allBlank hb (by decide)
        refine ⟨.of_not_mem (by simp),fun e => ?_⟩
        rw [Scanner.spans_of_not_mem (by decide) (by decide) hnone,
          Scanner.spans_of_not_mem (by decide) (by decide) (by simp)]
      · exact hcuts.spans_enclose t hplain hs

theorem Trim.finish_splits_and :
    let s := "\n and\torder_id = #\x7ba\x7d ".toList
    Terminated '#' s ∧ whereClause.finish s = "WHERE order_id = #\x7ba\x7d".toList ∧
      Scanner.bindMarkers.spans (whereClause.finish s) = Scanner.bindMarkers.spans s ∧
      ∃ p : Trimming, p.source = s ∧ p.frontWord ≠ [] ∧
        (sameWord p.frontWord ['A','N','D'] = true ∨ sameWord p.frontWord ['O','R'] = true) ∧
        ∃ c ∈ [' ','\t','\r','\n'], ∃ gap, p.frontGap = c :: gap := by
  intro s
  have hs : Terminated '#' s := by
    have hbefore : ¬Unescaped ['#','{'] "\n and\torder_id = ".toList := by
      rw [unescaped_iff]
      decide
    have hcontent : ¬Unescaped ['}'] ['a'] := by simp [unescaped_iff,hasUnescaped]
    have hrest : ¬Unescaped ['#','{'] [' '] := by simp [unescaped_iff,hasUnescaped]
    exact ⟨⟨[⟨_,['a'],hbefore,by decide,hcontent,by decide⟩],[' '],[],hrest,.inl rfl⟩,rfl,rfl⟩
  have hnode : (whereClause.withFrontOverrides whereClause.frontOverrides).withBackOverrides [] = whereClause := by
    decide
  obtain ⟨-,h⟩ := Trim.finish_splits whereClause whereClause.frontOverrides []
  rw [hnode] at h
  obtain ⟨⟨p,hp,hcuts,-,-,hwhole⟩,hmarkers⟩ := h s
  have hword : p.frontWord ≠ [] := by
    have hfirst : BeginsWith (trim p.source) "AND\t".toList := by
      rw [beginsWith_iff,hp]
      decide
    cases hcuts.front with
    | none hnone hcut => exact absurd hfirst (hnone _ (by decide))
    | first before word after hwords hbefore hword hcut =>
      obtain ⟨-,-,-,hstem⟩ := frontOverrides_whereClause word (by simp [hwords])
      have hlength := sameWord_length hcut
      intro hnil
      rcases hstem with hstem | hstem <;> simp [hnil,hstem] at hlength
  have hplain : ∀ w ∈ whereClause.frontOverrides ++ ([] ++ whereClause.around), ∀ c ∈ markup, c ∉ w.toList := by
    intro w hw c hc
    simp only [markup,List.mem_cons,List.not_mem_nil,or_false] at hc
    revert w
    rcases hc with rfl | rfl | rfl | rfl <;> decide
  exact ⟨hs,by decide,(hmarkers hplain hs).2 .drop,p,hp,hword,hwhole rfl hword⟩

end SqlTemplate
