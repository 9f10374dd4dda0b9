import SqlTemplate.Bindings
import SqlTemplate.Proofs.Text.Trim
import SqlTemplate.Text.Cut
/-!
# Written paths

A list of segments is written as a path with a dot before every name but a leading one and the keys in brackets,
and read back from it. A path can be cut behind its leading name: the rest is a path of its own, along which the
bindings and the values are searched.
-/
namespace SqlTemplate
open Text

namespace Segment

def text : Segment → List Char
  | .name n => '.' :: n.toList
  | .index key => '[' :: (key.toList ++ [']'])

/-- A name that a path can spell has no blanks at its ends and goes up to a dot or bracket; a key ends at a closing
bracket. -/
def Printable : Segment → Prop
  | .name n => n.toList ≠ [] ∧ trim n.toList = n.toList ∧ ∀ c ∈ n.toList, Path.endsName c = false
  | .index key => ']' ∉ key.toList

instance : DecidablePred Printable
  | .name n => decidable_of_iff
      (n.toList ≠ [] ∧ trim n.toList = n.toList ∧ (n.toList.all fun c => !Path.endsName c) = true)
      (by simp [Printable,List.all_eq_true])
  | .index key => inferInstanceAs (Decidable (']' ∉ key.toList))

theorem trim_text {s : Segment} (h : s.Printable) : trim s.text = s.text := by
  cases s with
  | name name => exact trim_append (a := ['.']) (by decide) h.2.1
  | index key =>
    have hhead : (text (.index key)).head? = some '[' := rfl
    have hlast : (text (.index key)).getLast? = some ']' := List.getLast?_concat (l := '[' :: key.toList)
    rw [trim_eq_self_iff,hhead,hlast]
    constructor <;> rintro c ⟨⟩ <;> decide

private theorem endsName_of_head?_text (s : Segment) : ∀ c ∈ s.text.head?, Path.endsName c = true := by
  cases s <;> simp [text,Path.endsName]

end Segment

namespace Path
variable {cs rest : List Char}

def more (segments : List Segment) : List Char := segments.flatMap Segment.text

/-- Segments as they are written by themselves: no dot stands before a leading name. -/
def print : List Segment → List Char
  | .name name :: segments => name.toList ++ more segments
  | segments => more segments

private theorem endsName_of_head?_more (segments : List Segment) : ∀ c ∈ (more segments).head?, endsName c = true := by
  cases segments with
  | nil => simp [more]
  | cons s segments =>
    intro c hc
    apply s.endsName_of_head?_text
    cases s <;> simpa [more,Segment.text] using hc

private theorem trim_more {segments : List Segment} (h : ∀ s ∈ segments, s.Printable) :
    trim (more segments) = more segments := by
  induction segments with
  | nil => rfl
  | cons s segments ih =>
    obtain ⟨hs,hmore⟩ := List.forall_mem_cons.mp h
    exact trim_append (Segment.trim_text hs) (ih hmore)

private theorem trim_print {segments : List Segment} (h : ∀ s ∈ segments, s.Printable) :
    trim (print segments) = print segments := by
  cases segments with
  | nil => rfl
  | cons s segments =>
    obtain ⟨hs,hmore⟩ := List.forall_mem_cons.mp h
    cases s with
    | name name => exact trim_append hs.2.1 (trim_more hmore)
    | index key => exact trim_more h

theorem skipDot_of_ne {c : Char} (h : c ≠ '.') (cs : List Char) : skipDot (c :: cs) = c :: cs := by
  unfold skipDot
  split
  · next heq => exact absurd (List.cons.inj heq).1 h
  · rfl

theorem segmentsOf_of_skipDot {c : Char} (h : skipDot cs = c :: rest) : segmentsOf cs =
    if c = '[' then .index (String.ofList (rest.takeWhile (· ≠ ']'))) ::
      segmentsOf ((rest.dropWhile (· ≠ ']')).drop 1)
    else .name (String.ofList ((c :: rest).takeWhile (!endsName ·))) ::
      segmentsOf ((c :: rest).dropWhile (!endsName ·)) := by
  rw [segmentsOf]
  split
  · next heq => simp [h] at heq
  · next heq =>
    obtain ⟨rfl,rfl⟩ := List.cons.inj (h.symm.trans heq)
    rfl

@[simp] theorem segmentsOf_nil : segmentsOf [] = [] := by
  rw [segmentsOf]
  rfl

theorem segmentsOf_name {name : List Char} (hne : name ≠ []) (hname : ∀ c ∈ name, endsName c = false)
    (hrest : ∀ c ∈ rest.head?, endsName c = true) (h : skipDot cs = name ++ rest) :
    segmentsOf cs = .name (String.ofList name) :: segmentsOf rest := by
  have hrun : ∀ c ∈ name, (!endsName c) = true := by simpa using hname
  have hstop : ∀ c ∈ rest.head?, (!endsName c) = false := by simpa using hrest
  obtain ⟨htake,hdrop⟩ := span_append hrun hstop
  obtain ⟨c,name,rfl⟩ := List.exists_cons_of_ne_nil hne
  have hbracket : c ≠ '[' := by
    rintro rfl
    exact absurd (hname '[' (by simp)) (by decide)
  rw [List.cons_append] at h htake hdrop
  rw [segmentsOf_of_skipDot h,if_neg hbracket,htake,hdrop]

theorem segmentsOf_index {key : List Char} (hkey : ']' ∉ key) :
    segmentsOf ('[' :: (key ++ ']' :: rest)) = .index (String.ofList key) :: segmentsOf rest := by
  have hskip := skipDot_of_ne (c := '[') (by decide) (key ++ ']' :: rest)
  obtain ⟨htake,hdrop⟩ := span_ne (rfl : key ++ ']' :: rest = _) hkey (by simp)
  rw [segmentsOf_of_skipDot hskip,if_pos rfl,htake,hdrop]
  rfl

private theorem segmentsOf_more {segments : List Segment} (h : ∀ s ∈ segments, s.Printable) :
    segmentsOf (more segments) = segments := by
  induction segments with
  | nil => exact segmentsOf_nil
  | cons s segments ih =>
    obtain ⟨hs,hmore⟩ := List.forall_mem_cons.mp h
    have hends := endsName_of_head?_more segments
    cases s with
    | name name =>
      have hread : segmentsOf (more (.name name :: segments)) =
          .name (String.ofList name.toList) :: segmentsOf (more segments) :=
        segmentsOf_name hs.1 hs.2.2 hends rfl
      rw [hread,ih hmore,String.ofList_toList]
    | index key =>
      have hwritten : more (.index key :: segments) = '[' :: (key.toList ++ ']' :: more segments) := by
        simp [more,Segment.text]
      rw [hwritten,segmentsOf_index hs,ih hmore,String.ofList_toList]

/-- A list of segments is read back from the path that it is written as. -/
theorem segments_print {list : List Segment} (h : ∀ s ∈ list, s.Printable) : segments (print list) = list := by
  rw [segments,trim_print h]
  cases list with
  | nil => exact segmentsOf_nil
  | cons s list =>
    obtain ⟨hs,hmore⟩ := List.forall_mem_cons.mp h
    cases s with
    | name name =>
      obtain ⟨c,cs,hc⟩ := List.exists_cons_of_ne_nil hs.1
      have hdot : c ≠ '.' := by
        rintro rfl
        exact absurd (hs.2.2 '.' (by simp [hc])) (by decide)
      have hskip : skipDot (name.toList ++ more list) = name.toList ++ more list := by
        rw [hc,List.cons_append,skipDot_of_ne hdot]
      rw [print,segmentsOf_name hs.1 hs.2.2 (endsName_of_head?_more list) hskip,segmentsOf_more hmore,
        String.ofList_toList]
    | index key => exact segmentsOf_more h

theorem endsName_of_head?_afterRoot {path : List Char} {c : Char} (h : c ∈ (afterRoot path).head?) :
    endsName c = true := by
  have hhead := List.head?_dropWhile_not (!endsName ·) (trim path)
  rw [← afterRoot,h] at hhead
  simpa using hhead

private theorem trim_afterRoot (path : List Char) : trim (afterRoot path) = afterRoot path := by
  have hpath : trim (root path ++ afterRoot path) = root path ++ afterRoot path := by
    rw [root_append_afterRoot,trim_trim]
  rw [trim_eq_self_iff] at hpath ⊢
  constructor
  · intro c hc
    have hends := endsName_of_head?_afterRoot hc
    simp only [endsName,Bool.or_eq_true,decide_eq_true_eq] at hends
    rcases hends with rfl | rfl <;> decide
  · intro c hc
    exact hpath.2 c (by simp [List.getLast?_append,hc])

/-- A path that begins with a name is that name and then the path behind it. -/
theorem segments_eq_root_cons {path : List Char} (hne : trim path ≠ [])
    (hname : ∀ c ∈ (trim path).head?, endsName c = false) :
    segments path = .name (String.ofList (root path)) :: segments (afterRoot path) := by
  obtain ⟨c,cs,hc⟩ := List.exists_cons_of_ne_nil hne
  have hends : endsName c = false := hname c (by simp [hc])
  have hdot : c ≠ '.' := by
    rintro rfl
    revert hends
    decide
  have hbracket : c ≠ '[' := by
    rintro rfl
    revert hends
    decide
  have hskip : skipDot (trim path) = c :: cs := by rw [hc,skipDot_of_ne hdot]
  rw [segments,segmentsOf_of_skipDot hskip,if_neg hbracket,← hc,segments,trim_afterRoot]
  rfl

end Path

private theorem Value.lookup?_of_segments (v : Value) {path rest : List Char} {s : Segment}
    (h : Path.segments path = s :: Path.segments rest) : v.lookup? path = (v.step? s).bind (·.lookup? rest) := by
  rw [Value.lookup?,h,List.foldlM_cons]
  rfl

namespace Path

private theorem additional?_eq_lookup? {path : List Char} (hne : trim path ≠ [])
    (hname : ∀ c ∈ (trim path).head?, endsName c = false) (b : Bindings) :
    b.additional? path = (Value.map b.values.entries).lookup? path := by
  rw [Value.lookup?_of_segments _ (segments_eq_root_cons hne hname)]
  rfl

private theorem lookup?_print_append {front back : List Segment} (h : ∀ s ∈ front ++ back, s.Printable) (v : Value) :
    v.lookup? (print (front ++ back)) = (v.lookup? (print front)).bind (·.lookup? (print back)) := by
  obtain ⟨hfront,hback⟩ := List.forall_mem_append.mp h
  have hbind : (fun v : Value => v.lookup? (print back)) = fun v => back.foldlM Value.step? v := by
    funext w
    rw [Value.lookup?,segments_print hback]
  rw [hbind,Value.lookup?,segments_print h,List.foldlM_append,Value.lookup?,segments_print hfront]
  rfl

/-- Written paths are read back. A path that begins with a name is that name and then the path behind it, and so the
bindings are searched along it like a map of them; along paths written one after another a value is searched one after
the other. -/
theorem written_path_splits :
    (∀ list : List Segment, (∀ s ∈ list, s.Printable) → segments (print list) = list) ∧
    (∀ path, trim path ≠ [] → (∀ c ∈ (trim path).head?, c ≠ '.' ∧ c ≠ '[') →
      (∃ rest, trim path = root path ++ rest ∧ segments path = .name (String.ofList (root path)) :: segments rest) ∧
      ∀ b : Bindings, b.additional? path = (Value.map b.values.entries).lookup? path) ∧
    ∀ front back : List Segment, (∀ s ∈ front ++ back, s.Printable) → ∀ v : Value,
      v.lookup? (print (front ++ back)) = (v.lookup? (print front)).bind (·.lookup? (print back)) := by
  refine ⟨fun list => segments_print,fun path hne hhead => ?_,fun front back => lookup?_print_append⟩
  have hname : ∀ c ∈ (trim path).head?, endsName c = false := by
    intro c hc
    simpa [endsName] using hhead c hc
  exact ⟨⟨afterRoot path,(root_append_afterRoot path).symm,segments_eq_root_cons hne hname⟩,
    additional?_eq_lookup? hne hname⟩

theorem written_path_splits_blanks :
    let front : List Segment := [.name "user",.index "a.b"]
    let back : List Segment := [.name "full name",.index "1"]
    let user := Value.map [("a.b",.map [("full name",.list [.null,.string "bo"])])]
    (∀ s ∈ front ++ back, s.Printable) ∧ print (front ++ back) = "user[a.b].full name[1]".toList ∧
    segments "user[a.b].full name[1]".toList = front ++ back ∧
    (Value.map [("user",user)]).lookup? "user[a.b].full name[1]".toList =
      ((Value.map [("user",user)]).lookup? "user[a.b]".toList).bind (·.lookup? "full name[1]".toList) ∧
    root " user .id".toList = "user ".toList ∧
    ((Bindings.empty.bind "user " user).additional? " user .id".toList) =
      (Value.map [("user ",user)]).lookup? " user .id".toList := by
  intro front back user
  obtain ⟨hread,hsplit,hlookup⟩ := written_path_splits
  have hprintable : ∀ s ∈ front ++ back, s.Printable := by decide +kernel
  have hprint : print (front ++ back) = "user[a.b].full name[1]".toList := by decide +kernel
  have hfront : print front = "user[a.b]".toList := by decide +kernel
  have hback : print back = "full name[1]".toList := by decide +kernel
  refine ⟨hprintable,hprint,hprint ▸ hread _ hprintable,?_,by decide +kernel,?_⟩
  · rw [← hprint,← hfront,← hback]
    exact hlookup front back hprintable _
  · have hhead : (trim " user .id".toList).head? = some 'u' := by decide +kernel
    have hnamed : ∀ c ∈ (trim " user .id".toList).head?, c ≠ '.' ∧ c ≠ '[' := by
      rw [hhead]
      rintro c ⟨⟩
      decide
    exact (hsplit _ (by decide +kernel) hnamed).2 _

end Path
end SqlTemplate
