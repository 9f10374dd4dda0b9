import SqlTemplate.Text.Blank
/-!
# Property paths

A path such as `user.roles[0].name` is a list of segments, each a name or a bracketed key. A dot in front
of a segment is skipped, a bracket that is never closed takes the rest of the path as its key.
-/
namespace SqlTemplate
open Text

inductive Segment
  | name (name : String)
  | index (key : String)
  deriving DecidableEq

namespace Path

def endsName (c : Char) : Bool := c = '.' || c = '['

def skipDot : List Char → List Char
  | '.' :: cs => cs
  | cs => cs

theorem length_skipDot_le (cs : List Char) : (skipDot cs).length ≤ cs.length := by
  unfold skipDot
  split <;> simp

def segmentsOf (cs : List Char) : List Segment :=
  match _h : skipDot cs with
  | [] => []
  | c :: rest =>
    if c = '[' then
      .index (String.ofList (rest.takeWhile (· ≠ ']'))) :: segmentsOf ((rest.dropWhile (· ≠ ']')).drop 1)
    else
      .name (String.ofList ((c :: rest).takeWhile (!endsName ·))) ::
        segmentsOf ((c :: rest).dropWhile (!endsName ·))
termination_by cs.length
decreasing_by
  · have h1 := length_skipDot_le cs
    have h2 := (List.dropWhile_sublist (· ≠ ']') (l := rest)).length_le
    simp only [_h,List.length_cons,List.length_drop] at *
    omega
  · next hb =>
    have h2 := (List.dropWhile_sublist (!endsName ·) (l := c :: rest)).length_le
    cases cs with
    | nil => simp [skipDot] at _h
    | cons d ds =>
      by_cases hd : d = '.'
      · subst hd
        simp only [skipDot] at _h
        subst _h
        simp only [List.length_cons] at *
        omega
      · have hs : skipDot (d :: ds) = d :: ds := by
          unfold skipDot
          split
          · next heq => simp_all
          · rfl
        rw [hs,List.cons.injEq] at _h
        obtain ⟨rfl,rfl⟩ := _h
        have hn : endsName d = false := by simp [endsName,hd,hb]
        have := (List.dropWhile_sublist (!endsName ·) (l := ds)).length_le
        simp only [List.dropWhile_cons,hn,List.length_cons]
        simp
        omega

def segments (path : List Char) : List Segment := segmentsOf (trim path)

/-- The leading name of a path, `user` for `user.roles[0]`. -/
def root (path : List Char) : List Char := (trim path).takeWhile (!endsName ·)

def afterRoot (path : List Char) : List Char := (trim path).dropWhile (!endsName ·)

theorem root_append_afterRoot (path : List Char) : root path ++ afterRoot path = trim path :=
  List.takeWhile_append_dropWhile

end Path
end SqlTemplate
