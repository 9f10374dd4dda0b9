import SqlTemplate.Proofs.Offsets.Scan
import SqlTemplate.Proofs.Scan.Escape
/-!
# What a scan has reached

A scan over offsets keeps to the pieces of the text: before each delimiter that it looks at, the consumed text ends in
another delimiter, which has no backslash at its end. So the backslash that is sliced off was not consumed before, and
the scan over offsets is the replacement of the spans.
-/
namespace SqlTemplate
open Text

/-- A state of a scan: the text behind the offset, when what is consumed does not end in a backslash or nothing is
left. -/
structure Reached (text : List Char) (offset : Nat) (rest : List Char) : Prop where
  split : ∃ consumed, text = consumed ++ rest ∧ byteSize consumed = offset ∧
    (rest ≠ [] → endsInBackslash consumed = false)

namespace Reached
variable {text rest before after kept delim : List Char} {offset : Nat}

theorem start (text : List Char) : Reached text 0 text := ⟨[],rfl,rfl,fun _ => rfl⟩

private theorem finished (text : List Char) : Reached text (byteSize text) [] := ⟨text,by simp,rfl,by simp⟩

private theorem offset_add (h : Reached text offset (before ++ after)) :
    offset+byteSize before = byteSize text-byteSize after := by
  obtain ⟨consumed,rfl,rfl,-⟩ := h.split
  simp only [byteSize_append]
  omega

theorem findFrom? (h : Reached text offset rest) (delim : List Char) :
    findFrom? delim text offset = some ((cut? delim rest).map fun (before,_) => offset+byteSize before) := by
  obtain ⟨consumed,rfl,rfl,-⟩ := h.split
  rw [findFrom?_append,find?,Option.map_map]
  congr 2
  funext p
  exact Nat.add_comm _ _

theorem split_at (h : Reached text offset rest) (hcut : cut? delim rest = some (before,after)) :
    Reached text offset (before ++ (delim ++ after)) := by
  rwa [eq_append_of_cut? hcut,List.append_assoc] at h

theorem slice? (h : Reached text offset (before ++ after)) :
    slice? text offset (offset+byteSize before) = some before := by
  obtain ⟨consumed,rfl,rfl,-⟩ := h.split
  exact slice?_between consumed before after

private theorem slice?_end (h : Reached text offset (before ++ after)) :
    Text.slice? text (offset+byteSize before) (byteSize text) = some after := by
  obtain ⟨consumed,rfl,rfl,-⟩ := h.split
  rw [← List.append_assoc,← byteSize_append]
  exact slice?_from (consumed ++ before) after

theorem escapedAt? (h : Reached text offset (before ++ after)) (hne : before ++ after ≠ []) :
    escapedAt? text (offset+byteSize before) = some (beforeEscape? before).isSome := by
  obtain ⟨consumed,rfl,rfl,hclear⟩ := h.split
  have hends : endsInBackslash (consumed ++ before) = endsInBackslash before := by
    cases before with
    | nil => simpa using hclear hne
    | cons c before => exact endsInBackslash_append (by simp)
  have hslice := slice?_to (consumed ++ before) after
  rw [← byteSize_append,SqlTemplate.escapedAt?,isSome_beforeEscape?]
  split
  · next hzero =>
    obtain ⟨-,rfl⟩ := List.append_eq_nil_iff.mp (byteSize_eq_zero_iff.mp hzero)
    rfl
  · rw [← List.append_assoc,hslice,Option.map_some,hends]

theorem closingEscapedAt? (h : Reached text offset (before ++ after)) (hne : before ++ after ≠ []) :
    closingEscapedAt? text offset (offset+byteSize before) = some (beforeEscape? before).isSome := by
  rw [SqlTemplate.closingEscapedAt?,h.escapedAt? hne]
  cases before with
  | nil => simp [beforeEscape?]
  | cons c before => simp [Char.utf8Size_pos c]

theorem slice?_escaped (h : Reached text offset (before ++ after)) (hkept : beforeEscape? before = some kept)
    (e : Escapes) : Text.slice? text offset (offset+byteSize before-e.omitted) = some (kept ++ e.mark) := by
  obtain rfl := eq_append_of_beforeEscape? hkept
  cases e with
  | keep => exact h.slice?
  | drop =>
    have hslash : '\\'.utf8Size = 1 := rfl
    have hsize : offset+byteSize (kept ++ ['\\'])-1 = offset+byteSize kept := by simp [hslash]
    rw [Escapes.omitted,hsize,Escapes.mark,List.append_nil]
    rw [List.append_assoc] at h
    exact h.slice?

theorem advance (h : Reached text offset (before ++ (delim ++ after))) (hne : delim ≠ [])
    (hd : endsInBackslash delim = false) : Reached text (offset+byteSize before+byteSize delim) after := by
  obtain ⟨consumed,rfl,rfl,-⟩ := h.split
  refine ⟨consumed ++ (before ++ delim),by simp,by simp [Nat.add_assoc],fun _ => ?_⟩
  rw [← List.append_assoc,endsInBackslash_append hne,hd]

end Reached

/-- Delimiters that a backslash can stand in front of but not at the end of. -/
structure Delimiters.Plain (d : Delimiters) : Prop where
  closing_ne_nil : d.closing ≠ []
  opening : endsInBackslash d.opening = false
  closing : endsInBackslash d.closing = false

theorem Scanner.plain_braces (x : Char) (e : Escapes) : (braces x e).Plain :=
  ⟨by simp [braces],rfl,rfl⟩

namespace Scanner
variable {s : Scanner} {text rest before after : List Char} {offset : Nat}

/-- An escaped closing delimiter is a part of the content, any other one ends it. -/
theorem closeFrom?_step (hs : s.Plain) (h : Reached text offset rest)
    (hcut : cut? s.closing rest = some (before,after)) (content : List Char) :
    s.closeFrom? text offset content = match beforeEscape? before with
      | none => some (some (content ++ before,offset+byteSize before))
      | some kept => s.closeFrom? text (offset+byteSize before+byteSize s.closing)
          (content ++ (kept ++ s.escapes.mark) ++ s.closing) := by
  have hf : findFrom? s.closing text offset = some (some (offset+byteSize before)) := by
    rw [h.findFrom?,hcut,Option.map_some]
  have h := h.split_at hcut
  have he := h.closingEscapedAt? (by simp [hs.closing_ne_nil])
  rw [closeFrom?_eq_bind,hf]
  simp only [Option.bind_eq_bind,Option.bind_some,he]
  cases hb : beforeEscape? before with
  | none => simp [h.slice?]
  | some kept => simp [h.slice?_escaped hb]

private theorem closeFrom?_eq (hs : s.Plain) (h : Reached text offset rest) (content : List Char) :
    s.closeFrom? text offset content = some ((s.spanParts? rest).map fun (parts,tail) =>
      (content ++ s.content parts,byteSize text-byteSize (s.closing ++ tail))) := by
  fun_induction s.spanParts? rest generalizing offset content with
  | case1 rest hc =>
    rw [closeFrom?_eq_bind,h.findFrom?,hc]
    rfl
  | case2 rest before after hc he =>
    rw [closeFrom?_step hs h hc,he]
    simp [(h.split_at hc).offset_add,Scanner.content]
  | case3 rest before after hc kept he ih =>
    have hnext := (h.split_at hc).advance hs.closing_ne_nil hs.closing
    rw [closeFrom?_step hs h hc,he]
    dsimp only
    rw [ih hnext]
    cases hspan : s.spanParts? after with
    | none => rfl
    | some span =>
      obtain ⟨parts,tail⟩ := span
      simp [Scanner.content,List.intercalate_cons_of_ne_nil (Delimiters.ne_nil_of_spanParts? hspan)]

def passOf (s : Scanner) (before after : List Char) : Pass (List Char) :=
  match beforeEscape? before with
  | some kept => ⟨kept ++ s.escapes.mark ++ s.opening,none,after⟩
  | none => match s.spanParts? after with
    | some (parts,tail) => ⟨before,some (s.content parts),tail⟩
    | none => ⟨before ++ s.opening ++ after,none,[]⟩

/-- No slice of an iteration fails, and behind it the scan has reached the rest. -/
theorem pass?_eq (hs : s.Plain) (h : Reached text offset rest) (hcut : cut? s.opening rest = some (before,after)) :
    ∃ next, s.pass? text offset (offset+byteSize before) =
        some ⟨(s.passOf before after).written,(s.passOf before after).content,next⟩ ∧
      Reached text next (s.passOf before after).next := by
  have h := h.split_at hcut
  have he := h.escapedAt? (by simp [s.opening_ne_nil])
  have hinner := h.advance s.opening_ne_nil hs.opening
  rw [pass?,passOf]
  simp only [Option.bind_eq_bind,Option.bind_some,he]
  cases hb : beforeEscape? before with
  | some kept => exact ⟨_,by simp [h.slice?_escaped hb],hinner⟩
  | none =>
    rw [closeFrom?_eq hs hinner]
    cases hspan : s.spanParts? after with
    | none => exact ⟨_,by simp [h.slice?,h.slice?_end],.finished text⟩
    | some span =>
      obtain ⟨parts,tail⟩ := span
      rw [Delimiters.eq_append_of_spanParts? hspan,List.append_assoc] at hinner
      have hnext := hinner.advance hs.closing_ne_nil hs.closing
      rw [hinner.offset_add] at hnext
      exact ⟨_,by simp [h.slice?],hnext⟩

private theorem cut?_nil {delim : List Char} (h : delim ≠ []) : cut? delim [] = none := by
  obtain ⟨d,ds,rfl⟩ := List.exists_cons_of_ne_nil h
  rfl

private theorem length_passOf_lt (s : Scanner) (hcut : cut? s.opening rest = some (before,after)) :
    (s.passOf before after).next.length < rest.length := by
  have hlength := length_of_cut? hcut
  have hpos := List.length_pos_iff.mpr s.opening_ne_nil
  rw [passOf]
  split
  · dsimp only
    omega
  · split
    · next hspan =>
      have := Delimiters.length_of_spanParts? hspan
      dsimp only
      omega
    · simp only [List.length_nil]
      omega

section run
variable {m : Type → Type} [Monad m] [LawfulMonad m]

private theorem replaceM_eq (hs : s.Plain) (f : List Char → m (List Char)) (rest : List Char) :
    s.replaceM f rest = match cut? s.opening rest with
      | none => pure rest
      | some (before,after) => (s.passOf before after).content.elim (pure []) f >>= fun answer =>
        ((s.passOf before after).written ++ answer ++ ·) <$> s.replaceM f (s.passOf before after).next := by
  have hoc : endsInBackslash (s.opening ++ s.closing) = false := by
    rw [endsInBackslash_append hs.closing_ne_nil,hs.closing]
  have hnil : s.pieces [] = [.literal []] := by
    rw [Delimiters.pieces_of_not_endsInBackslash hs.opening hoc,cut?_nil s.opening_ne_nil]
  rw [replaceM,Delimiters.pieces_of_not_endsInBackslash hs.opening hoc]
  cases hcut : cut? s.opening rest with
  | none => simp [writePiece]
  | some cut =>
    obtain ⟨before,after⟩ := cut
    dsimp only
    rw [passOf]
    cases hb : beforeEscape? before with
    | some kept => simp [writePiece,replaceM]
    | none =>
      cases hspan : s.spanParts? after with
      | none => simp [writePiece,replaceM,hnil,eq_append_of_cut? hcut]
      | some span => simp [writePiece,replaceM]

private theorem finishFrom?_eq (h : Reached text offset rest) (out : List Char) :
    finishFrom? text offset out = some (out ++ rest) := by
  obtain ⟨consumed,rfl,rfl,-⟩ := h.split
  rw [finishFrom?,slice?_from]
  cases rest with
  | nil => simp
  | cons c rest => simp [Char.utf8Size_pos c]

/-- The scan over offsets is the replacement, and no slice fails. -/
theorem resume_eq (hs : s.Plain) (f : List Char → m (List Char)) (h : Reached text offset rest) (out : List Char) :
    s.resume f text offset out = (fun done => some (out ++ done)) <$> s.replaceM f rest := by
  induction hn : rest.length using Nat.strongRecOn generalizing rest offset out with
  | ind n ih =>
    subst hn
    rw [resume,h.findFrom?,replaceM_eq hs f rest]
    cases hcut : cut? s.opening rest with
    | none => simp [finishFrom?_eq h]
    | some cut =>
      obtain ⟨before,after⟩ := cut
      obtain ⟨next,hpass,hnext⟩ := pass?_eq hs h hcut
      have hrest (out : List Char) := ih _ (length_passOf_lt s hcut) hnext out rfl
      simp [readFrom_of_pass? hpass,hrest]

theorem read_eq (hs : s.Plain) (f : List Char → m (List Char)) (text : List Char) :
    s.read f text = some <$> s.replaceM f text := by
  have hresume : s.read f text = s.resume f text 0 [] := by
    rw [read,resume,(Reached.start text).findFrom?,find?]
    cases cut? s.opening text <;> simp [finishFrom?_eq (.start text)]
  simpa [hresume] using resume_eq hs f (.start text) []

end run

end Scanner
end SqlTemplate
