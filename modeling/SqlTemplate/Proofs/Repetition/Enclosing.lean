import SqlTemplate.Proofs.Lexical.Renaming
import SqlTemplate.Proofs.Scan.Finish
import SqlTemplate.Proofs.Scan.Rewriting
/-!
# Markers in nested iterations

A text in nested iterations is renamed by each of them, from the innermost out, and scanned for its markers when all
of them are over. Every pass leaves the stretches between markers as they are written, and the last scan finds what
a scan of the text itself would find, with the renamed contents in the places of the contents.
-/
namespace SqlTemplate
open Text Token

namespace Repetition

private theorem renameContent_cases (r : Repetition) (n : Nat) (content : List Char) :
    r.renameContent n content = content ∨
      ∃ x ∈ r.names, renameVariable? n content x = some (r.renameContent n content) := by
  have hone (name : Option String) : name.bind (renameVariable? n content) = none ∨
      ∃ x renamed, name = some x ∧ renameVariable? n content x = some renamed := by
    cases name with
    | none => exact .inl rfl
    | some x =>
      cases hx : renameVariable? n content x with
      | none => exact .inl hx
      | some renamed => exact .inr ⟨x,renamed,rfl,hx⟩
  rcases hone r.item with hitem | ⟨x,renamed,hitem,hx⟩
  · rcases hone r.index with hindex | ⟨x,renamed,hindex,hx⟩
    · left
      rw [renameContent,hitem,hindex]
      rfl
    · right
      refine ⟨x,by simp [names,hindex],?_⟩
      rw [renameContent,hitem,hindex,Option.bind_some,hx]
      rfl
  · right
    refine ⟨x,by simp [names,hitem],?_⟩
    rw [renameContent,hitem,Option.bind_some,hx]
    rfl

def Spelled (r : Repetition) : Prop := ∀ x ∈ r.names, ∀ c ∈ x.toList, isNameChar c = true

instance (r : Repetition) : Decidable r.Spelled :=
  decidable_of_iff ((r.names.all fun x => x.toList.all isNameChar) = true) (by simp [Spelled,List.all_eq_true])

theorem keepsClosed_renameContent {r : Repetition} (h : r.Spelled) (n : Nat) :
    KeepsClosed (r.renameContent n) := by
  have hfree {cs : List Char} (hcs : ∀ c ∈ cs, isNameChar c = true) {d : Char} (hd : isNameChar d = false) :
      d ∉ cs := by
    intro hm
    have hname := hcs d hm
    rw [hd] at hname
    contradiction
  have hrenamed {content : List Char} {x : String} (hx : x ∈ r.names)
      (heq : renameVariable? n content x = some (r.renameContent n content)) :
      ∃ before made rest, content = before ++ rest ∧ endsInBackslash before = false ∧
        r.renameContent n content = made ++ rest ∧ '}' ∉ made ∧ '\\' ∉ made := by
    obtain ⟨rest,hstart,-,hmade⟩ := renameVariable?_eq_some heq
    obtain ⟨blanks,hcontent,hblanks⟩ := Text.exists_trimStart content
    have hchars := isNameChar_of_mem_manufactured (h x hx) n
    refine ⟨blanks ++ x.toList,(manufactured x n).toList,rest,?_,?_,hmade,hfree hchars (by decide),
      hfree hchars (by decide)⟩
    · rw [List.append_assoc,← hstart]
      exact hcontent
    · cases hn : x.toList with
      | nil => simpa using endsInBackslash_of_allBlank hblanks
      | cons c cs =>
        rw [endsInBackslash_append (by simp),← hn]
        exact endsInBackslash_of_not_mem (hfree (h x hx) (by decide))
  refine ⟨?_,?_⟩
  · intro content hu
    rcases r.renameContent_cases n content with hkept | ⟨x,hx,heq⟩
    · rwa [hkept] at hu
    · obtain ⟨before,made,rest,hcontent,hbefore,hmade,hclosing,-⟩ := hrenamed hx heq
      rw [hmade] at hu
      rw [hcontent]
      exact (hu.of_append hclosing).append_left before hbefore
  · intro content hend
    rcases r.renameContent_cases n content with hkept | ⟨x,hx,heq⟩
    · rwa [hkept]
    · obtain ⟨before,made,rest,hcontent,-,hmade,-,hslash⟩ := hrenamed hx heq
      rw [hmade]
      cases rest with
      | nil => simpa using endsInBackslash_of_not_mem hslash
      | cons c cs =>
        rw [endsInBackslash_append (by simp)]
        rw [hcontent] at hend
        exact endsInBackslash_right hend

/-- An iteration renames the contents of a text and nothing else. -/
theorem renameMarkers_source {r : Repetition} (h : r.Spelled) (n : Nat) (t : Reading '#') :
    r.renameMarkers n t.source = (t.rewrite (keepsClosed_renameContent h n)).source :=
  t.replace_source (by decide) (by decide) (keepsClosed_renameContent h n)

/-- A text written in nested iterations, given with their numbers from the innermost out. -/
def renameMarkersIn (enclosing : List (Repetition × Nat)) (text : List Char) : List Char :=
  enclosing.foldl (fun text i => i.1.renameMarkers i.2 text) text

def renameContentIn (enclosing : List (Repetition × Nat)) (content : List Char) : List Char :=
  enclosing.foldl (fun content i => i.1.renameContent i.2 content) content

theorem keepsClosed_renameContentIn {enclosing : List (Repetition × Nat)} (h : ∀ i ∈ enclosing, i.1.Spelled) :
    KeepsClosed (renameContentIn enclosing) := by
  induction enclosing with
  | nil => exact ⟨fun _ h => h,fun _ h => h⟩
  | cons i is ih =>
    have hfirst := keepsClosed_renameContent (h i (by simp)) i.2
    exact (ih fun j hj => h j (List.mem_cons_of_mem i hj)).comp hfirst

section
variable {enclosing : List (Repetition × Nat)} (h : ∀ i ∈ enclosing, i.1.Spelled)
include h

/-- Nested iterations rename the contents of a text one after the other. -/
theorem renameMarkersIn_source (t : Reading '#') :
    renameMarkersIn enclosing t.source = (t.rewrite (keepsClosed_renameContentIn h)).source := by
  induction enclosing generalizing t with
  | nil =>
    change t.source = Reading.source { t with spans := t.spans.map fun p => p }
    rw [List.map_id']
  | cons i is ih =>
    have hrest : ∀ j ∈ is, j.1.Spelled := fun j hj => h j (List.mem_cons_of_mem i hj)
    have hfirst := renameMarkers_source (h i (by simp)) i.2 t
    change renameMarkersIn is (i.1.renameMarkers i.2 t.source) = _
    rw [hfirst,ih hrest]
    change Reading.source { t with spans := (t.spans.map _).map _ } = Reading.source { t with spans := t.spans.map _ }
    rw [List.map_map]
    rfl

private theorem tokens_keep_renameMarkersIn (text : List Char) :
    let raw := Scanner.bindMarkers.keepingEscapes
    raw.tokens (renameMarkersIn enclosing text) = Chunk.mapSlots (renameContentIn enclosing) (raw.tokens text) := by
  obtain ⟨t,rfl⟩ := Reading.exists_source (x := '#') (by decide) text
  simp only [keepingEscapes_eq_braces]
  rw [renameMarkersIn_source h,Reading.tokens_keep (by decide) (by decide),Reading.tokens_keep (by decide) (by decide),
    Reading.written_rewrite]

private theorem tokens_drop_renameMarkersIn (text : List Char) : ∃ written : Chunk (List Char),
    slots written = Scanner.bindMarkers.keepingEscapes.spans text ∧
      Scanner.bindMarkers.tokens text = written.mapSlots (dropEscapes ['}']) ∧
      Scanner.bindMarkers.tokens (renameMarkersIn enclosing text) =
        (written.mapSlots (renameContentIn enclosing)).mapSlots (dropEscapes ['}']) := by
  obtain ⟨t,rfl⟩ := Reading.exists_source (x := '#') (by decide) text
  refine ⟨t.written .drop,?_,?_,?_⟩
  · rw [Scanner.spans_eq_slots,keepingEscapes_eq_braces,t.tokens_keep (by decide) (by decide),t.slots_written,
      t.slots_written]
  · rw [bindMarkers_eq_braces,t.tokens_drop (by decide) (by decide)]
  · rw [renameMarkersIn_source h,bindMarkers_eq_braces,Reading.tokens_drop (by decide) (by decide),
      Reading.written_rewrite]

private theorem renameMarkersIn_escaped {before : Reading '#'} (hb : before.unclosed = []) (after : List Char) :
    renameMarkersIn enclosing (before.source ++ '\\' :: '#' :: '{' :: after) =
      renameMarkersIn enclosing before.source ++ '\\' :: '#' :: '{' :: renameMarkersIn enclosing after := by
  let raw := Scanner.bindMarkers.keepingEscapes
  have hsplit : raw.tokens (before.source ++ '\\' :: '#' :: '{' :: after) =
      raw.tokens before.source ++ (chars ['\\','#','{'] ++ raw.tokens after) :=
    Reading.tokens_source_escaped (by decide) (by decide) .keep hb after
  rw [← Scanner.fill_wrap_tokens (renameMarkersIn enclosing (before.source ++ '\\' :: '#' :: '{' :: after)),
    tokens_keep_renameMarkersIn h,hsplit,Chunk.mapSlots_append,Chunk.mapSlots_append,Chunk.mapSlots_chars,
    ← tokens_keep_renameMarkersIn h,← tokens_keep_renameMarkersIn h,fill_append,fill_append,fill_chars,
    Scanner.fill_wrap_tokens,Scanner.fill_wrap_tokens]
  rfl

end

/-- The passes of nested iterations over a text compose with the last scan, which finds `contents`. -/
structure RenamedThenScanned (enclosing : List (Repetition × Nat)) (text : List Char) (raw : Scanner)
    (renamed : List Char) (contents : List (List Char)) : Prop where
  /-- The text between markers is kept, byte for byte, and the number and order of the markers. -/
  tokens : raw.tokens renamed = Chunk.mapSlots (renameContentIn enclosing) (raw.tokens text)
  source : fill raw.wrap (raw.tokens text) = text
  source_renamed : fill raw.wrap (raw.tokens renamed) = renamed
  /-- The handler is called with the renamed contents, and what it writes is put between those of the text. -/
  replaced : ∀ (m : Type → Type) [Monad m] [LawfulMonad m] (f : List Char → m (List Char)),
    Scanner.bindMarkers.replaceM f renamed = weave (Scanner.bindMarkers.tokens text) <$> contents.mapM f
  replaced_unrenamed : ∀ (m : Type → Type) [Monad m] [LawfulMonad m] (f : List Char → m (List Char)),
    Scanner.bindMarkers.replaceM f text = weave (Scanner.bindMarkers.tokens text) <$>
      ((raw.spans text).map (dropEscapes ['}'])).mapM f
  described : ∀ s : MarkerScope, s.mapMarkers renamed = (s.describeAll 0 contents).map fun mappings =>
    ⟨s.config.dialect.place 0 (Scanner.bindMarkers.tokens text),mappings⟩
  /-- Where no content changes, nothing does. -/
  unchanged : (∀ content ∈ raw.spans text, renameContentIn enclosing content = content) → renamed = text

/-- An escaped opening delimiter loses one backslash, however deep it stands. -/
structure LosesOneEscape (enclosing : List (Repetition × Nat)) (before after whole : List Char) : Prop where
  kept : whole = renameMarkersIn enclosing before ++ '\\' :: '#' :: '{' :: renameMarkersIn enclosing after
  lost : ∀ f : List Char → List Char, Scanner.bindMarkers.replace f whole =
    Scanner.bindMarkers.replace f (renameMarkersIn enclosing before) ++
      '#' :: '{' :: Scanner.bindMarkers.replace f (renameMarkersIn enclosing after)

/-- The passes of nested iterations compose with the last scan. They keep the text between markers, and the last scan
calls its handler with the renamed contents and drops the escapes that all of them have left. -/
theorem scan_renameMarkersIn {enclosing : List (Repetition × Nat)} (h : ∀ i ∈ enclosing, i.1.Spelled)
    (text : List Char) :
    let raw := Scanner.bindMarkers.keepingEscapes
    let renamed := renameMarkersIn enclosing text
    let contents := (raw.spans text).map fun content => dropEscapes ['}'] (renameContentIn enclosing content)
    RenamedThenScanned enclosing text raw renamed contents ∧
      ∀ (before : Reading '#') (after : List Char), before.unclosed = [] →
        LosesOneEscape enclosing before.source after
          (renameMarkersIn enclosing (before.source ++ '\\' :: '#' :: '{' :: after)) := by
  intro raw renamed contents
  obtain ⟨written,hslots,htext,hrenamed⟩ := tokens_drop_renameMarkersIn h text
  have hkeep : raw.tokens renamed = Chunk.mapSlots (renameContentIn enclosing) (raw.tokens text) :=
    tokens_keep_renameMarkersIn h text
  have hspans : Scanner.bindMarkers.spans renamed = contents := by
    rw [Scanner.spans_eq_slots,hrenamed,Chunk.slots_mapSlots,Chunk.slots_mapSlots,hslots,List.map_map]
    rfl
  refine ⟨⟨hkeep,Scanner.fill_wrap_tokens text,Scanner.fill_wrap_tokens renamed,?_,?_,?_,?_⟩,?_⟩
  · intro m _ _ f
    have hweave : weave (Scanner.bindMarkers.tokens renamed) = weave (Scanner.bindMarkers.tokens text) := by
      rw [hrenamed,htext,weave_mapSlots,weave_mapSlots,weave_mapSlots]
    rw [Scanner.replaceM_eq_mapM,hspans,hweave]
  · intro m _ _ f
    have hdirect : Scanner.bindMarkers.spans text = (raw.spans text).map (dropEscapes ['}']) := by
      rw [Scanner.spans_eq_slots,htext,Chunk.slots_mapSlots,hslots]
    rw [Scanner.replaceM_eq_mapM,hdirect]
  · intro s
    have hplace : s.config.dialect.place 0 (Scanner.bindMarkers.tokens renamed) =
        s.config.dialect.place 0 (Scanner.bindMarkers.tokens text) := by
      rw [hrenamed,htext,Dialect.place_mapSlots,Dialect.place_mapSlots,Dialect.place_mapSlots]
    rw [MarkerScope.mapMarkers_eq,hspans,hplace]
  · intro hid
    have hsame : Chunk.mapSlots (renameContentIn enclosing) (raw.tokens text) = raw.tokens text := by
      rw [Scanner.spans_eq_slots] at hid
      exact Chunk.mapSlots_eq_self hid
    rw [← Scanner.fill_wrap_tokens renamed,← Scanner.fill_wrap_tokens text]
    exact congrArg _ (hkeep.trans hsame)
  · intro before after hb
    have hwhole := renameMarkersIn_escaped h hb after
    refine ⟨hwhole,?_⟩
    intro f
    have hclosed : (before.rewrite (keepsClosed_renameContentIn h)).unclosed = [] := hb
    have hscan := Reading.tokens_source_escaped (by decide) (by decide) .drop hclosed (renameMarkersIn enclosing after)
    rw [← renameMarkersIn_source h] at hscan
    rw [hwhole,Scanner.replace_eq_fill,Scanner.replace_eq_fill,Scanner.replace_eq_fill,bindMarkers_eq_braces,hscan,
      fill_append,fill_append,fill_chars]
    rfl

theorem scan_renameMarkersIn_nested :
    let enclosing : List (Repetition × Nat) :=
      [(⟨"row.tags",some "tag",none,none,none,none⟩,1),(⟨"rows",some "row",some "i",none,none,none⟩,0)]
    let text := "\\#\x7btag\x7d #\x7b tag\x7d,#\x7brow.x\\\x7dy\x7d #\x7bi".toList
    (∀ i ∈ enclosing, i.1.Spelled) ∧
      renameMarkersIn enclosing text =
        "\\#\x7btag\x7d #\x7b__frch_tag_1\x7d,#\x7b__frch_row_0.x\\\x7dy\x7d #\x7bi".toList ∧
      ∀ f : List Char → Option (List Char), Scanner.bindMarkers.replaceM f (renameMarkersIn enclosing text) = do
        let first ← f "__frch_tag_1".toList
        let second ← f "__frch_row_0.x\x7dy".toList
        return "#\x7btag\x7d ".toList ++ (first ++ (',' :: (second ++ " #\x7bi".toList))) := by
  intro enclosing text
  have hspelled : ∀ i ∈ enclosing, i.1.Spelled := by decide +kernel
  refine ⟨hspelled,by decide +kernel,?_⟩
  intro f
  have hscan := (scan_renameMarkersIn hspelled text).1.replaced Option f
  have hcontents : ((Scanner.bindMarkers.keepingEscapes.spans text).map fun content =>
      dropEscapes ['}'] (renameContentIn enclosing content)) =
        ["__frch_tag_1".toList,"__frch_row_0.x\x7dy".toList] := by decide +kernel
  have htokens : Scanner.bindMarkers.tokens text = chars "#\x7btag\x7d ".toList ++
      .slot " tag".toList :: .char ',' :: .slot "row.x\x7dy".toList :: chars " #\x7bi".toList := by decide +kernel
  rw [hscan,hcontents,htokens,weave_chars,List.mapM_cons,List.mapM_cons,List.mapM_nil]
  cases f "__frch_tag_1".toList with
  | none => rfl
  | some first =>
    cases f "__frch_row_0.x\x7dy".toList with
    | none => rfl
    | some second => rfl

end Repetition
end SqlTemplate
