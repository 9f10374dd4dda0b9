import SqlTemplate.Proofs.Offsets.Slice
import SqlTemplate.Scanner
/-!
# Scanning by offsets

A scan keeps the offset up to which the text is consumed and looks for the next delimiter from there. What it hands on
are slices between these two offsets, and when one of them fails the scan has no result. In any case an iteration goes
beyond the opening delimiter that it is for, so the scan ends.
-/
namespace SqlTemplate
open Text

def Escapes.omitted : Escapes → Nat
  | .keep => 0
  | .drop => 1

theorem Escapes.omitted_le (e : Escapes) : e.omitted ≤ 1 := by cases e <;> decide

def escapedAt? (text : List Char) (pos : Nat) : Option Bool :=
  if pos = 0 then some false else (slice? text 0 pos).map endsInBackslash

theorem isSome_beforeEscape? (cs : List Char) : (beforeEscape? cs).isSome = endsInBackslash cs := by
  rw [beforeEscape?]
  cases endsInBackslash cs <;> rfl

/-- A closing delimiter is escaped by its content only, so not where its content begins. -/
def closingEscapedAt? (text : List Char) (offset found : Nat) : Option Bool :=
  if offset < found then escapedAt? text found else some false

namespace Scanner

/-- The content up to the first closing delimiter that is not escaped, and where that stands; none inside when the
span is not closed. The content before the offset is given. -/
def closeFrom? (s : Scanner) (text : List Char) (offset : Nat) (content : List Char) :
    Option (Option (List Char × Nat)) :=
  match _hf : findFrom? s.closing text offset with
  | none => none
  | some none => some none
  | some (some found) =>
    match _he : closingEscapedAt? text offset found with
    | none => none
    | some true => do
      let part ← slice? text offset (found-s.escapes.omitted)
      s.closeFrom? text (found+byteSize s.closing) (content ++ part ++ s.closing)
    | some false => do
      let part ← slice? text offset found
      return some (content ++ part,found)
termination_by byteSize text-offset
decreasing_by
  have hbounds := findFrom?_bounds _hf
  have hlt : offset < found := by
    by_contra hge
    simp [closingEscapedAt?,hge] at _he
  omega

theorem closeFrom?_eq_bind (s : Scanner) (text : List Char) (offset : Nat) (content : List Char) :
    s.closeFrom? text offset content = do
      match ← findFrom? s.closing text offset with
      | none => return none
      | some found =>
        if ← closingEscapedAt? text offset found then
          let part ← slice? text offset (found-s.escapes.omitted)
          s.closeFrom? text (found+byteSize s.closing) (content ++ part ++ s.closing)
        else
          let part ← slice? text offset found
          return some (content ++ part,found) := by
  rw [closeFrom?]
  split
  · next hf => simp [hf]
  · next hf => simp [hf]
  · next found hf =>
    split
    · next he => simp [hf,he]
    · next he => simp [hf,he]
    · next he => simp [hf,he]

/-- What one iteration of a scan does: a text that it hands on as it stands, a content for the handler, and where the
next iteration goes on. -/
structure Pass (α : Type) where
  written : List Char
  content : Option (List Char)
  next : α

def pass? (s : Scanner) (text : List Char) (offset found : Nat) : Option (Pass Nat) := do
  if ← escapedAt? text found then
    let before ← slice? text offset (found-s.escapes.omitted)
    return ⟨before ++ s.opening,none,found+byteSize s.opening⟩
  else
    let before ← slice? text offset found
    match ← s.closeFrom? text (found+byteSize s.opening) [] with
    | some (content,close) => return ⟨before,some content,close+byteSize s.closing⟩
    | none =>
      let rest ← slice? text found (byteSize text)
      return ⟨before ++ rest,none,byteSize text⟩

private theorem le_of_closeFrom? {s : Scanner} {text content : List Char} {offset : Nat}
    {result : Option (List Char × Nat)}
    (h : s.closeFrom? text offset content = some result) :
    offset ≤ byteSize text ∧ ∀ content close, result = some (content,close) → offset ≤ close := by
  fun_induction closeFrom? s text offset content with
  | case1 => simp at h
  | case2 offset content hf =>
    obtain rfl : none = result := by simpa using h
    exact ⟨le_of_findFrom? hf,by simp⟩
  | case3 => simp at h
  | case4 offset content found hf he ih =>
    have hbounds := findFrom?_bounds hf
    simp only [Option.bind_eq_bind,Option.bind_eq_some_iff] at h
    obtain ⟨part,-,h⟩ := h
    obtain ⟨-,hclose⟩ := ih part h
    refine ⟨by omega,fun content close hresult => ?_⟩
    have := hclose content close hresult
    omega
  | case5 offset content found hf he =>
    have hbounds := findFrom?_bounds hf
    simp only [Option.bind_eq_bind,Option.bind_eq_some_iff,Option.pure_def,Option.some.injEq] at h
    obtain ⟨part,-,rfl⟩ := h
    refine ⟨by omega,fun content close hresult => ?_⟩
    simp only [Option.some.injEq,Prod.mk.injEq] at hresult
    omega

theorem lt_of_pass? {s : Scanner} {text : List Char} {offset found : Nat} {p : Pass Nat}
    (h : s.pass? text offset found = some p) : offset < p.next ∧ found+byteSize s.opening ≤ p.next := by
  have hpos := byteSize_pos s.opening_ne_nil
  simp only [pass?,Option.bind_eq_bind,Option.bind_eq_some_iff] at h
  obtain ⟨escaped,-,h⟩ := h
  cases escaped with
  | true =>
    simp only [ite_true,Option.bind_eq_some_iff,Option.pure_def,Option.some.injEq] at h
    obtain ⟨before,hslice,rfl⟩ := h
    have hle := (le_of_slice? hslice).1
    refine ⟨?_,Nat.le_refl _⟩
    change offset < found+byteSize s.opening
    omega
  | false =>
    simp only [Bool.false_eq_true,ite_false,Option.bind_eq_some_iff] at h
    obtain ⟨before,hslice,result,hclose,h⟩ := h
    have hle := (le_of_slice? hslice).1
    obtain ⟨hend,hclosed⟩ := le_of_closeFrom? hclose
    cases result with
    | none =>
      simp only [Option.bind_eq_some_iff,Option.pure_def,Option.some.injEq] at h
      obtain ⟨rest,-,rfl⟩ := h
      exact ⟨by change offset < byteSize text; omega,hend⟩
    | some closed =>
      obtain ⟨content,close⟩ := closed
      have := hclosed content close rfl
      simp only [Option.pure_def,Option.some.injEq] at h
      subst h
      constructor <;> dsimp only <;> omega

def finishFrom? (text : List Char) (offset : Nat) (out : List Char) : Option (List Char) :=
  if offset < byteSize text then (slice? text offset (byteSize text)).map (out ++ ·) else some out

section run
variable {m : Type → Type} [Monad m]

/-- The scan from an opening delimiter on, with what is written before. There is no result when a slice fails. -/
def readFrom (s : Scanner) (f : List Char → m (List Char)) (text : List Char) (offset found : Nat)
    (out : List Char) : m (Option (List Char)) :=
  match _hp : s.pass? text offset found with
  | none => pure none
  | some p => do
    let answer ← p.content.elim (pure []) f
    let out := out ++ p.written ++ answer
    match _hf : findFrom? s.opening text p.next with
    | none => return none
    | some (some next) => s.readFrom f text p.next next out
    | some none => return finishFrom? text p.next out
termination_by byteSize text-offset
decreasing_by
  have hlt := (lt_of_pass? _hp).1
  have hle := le_of_findFrom? _hf
  omega

def resume (s : Scanner) (f : List Char → m (List Char)) (text : List Char) (offset : Nat) (out : List Char) :
    m (Option (List Char)) :=
  match findFrom? s.opening text offset with
  | none => return none
  | some (some found) => s.readFrom f text offset found out
  | some none => return finishFrom? text offset out

theorem readFrom_of_pass?_eq_none {s : Scanner} {text : List Char} {offset found : Nat}
    (hp : s.pass? text offset found = none) (f : List Char → m (List Char)) (out : List Char) :
    s.readFrom f text offset found out = pure none := by
  rw [readFrom]
  split
  · rfl
  · next hp' => simp [hp] at hp'

theorem readFrom_of_pass? {s : Scanner} {text : List Char} {offset found : Nat} {p : Pass Nat}
    (hp : s.pass? text offset found = some p) (f : List Char → m (List Char)) (out : List Char) :
    s.readFrom f text offset found out = p.content.elim (pure []) f >>= fun answer =>
      s.resume f text p.next (out ++ p.written ++ answer) := by
  rw [readFrom]
  split
  · next hp' => simp [hp] at hp'
  · next p' hp' =>
    obtain rfl := Option.some.inj (hp.symm.trans hp')
    congr 1
    funext answer
    rw [resume]
    dsimp only
    split <;> next hf => rw [hf]

def read (s : Scanner) (f : List Char → m (List Char)) (text : List Char) : m (Option (List Char)) :=
  match find? s.opening text with
  | none => return some text
  | some found => s.readFrom f text 0 found []

end run

end Scanner

end SqlTemplate
