import Mathlib
import SqlTemplate.Text.Cut
/-!
# Slices by byte offsets

A text is stored in UTF-8, and its parts are named by the offsets of their bytes. A slice whose bounds are out of
order, behind the end of the text or inside a character is an error: there is no result. The searches give offsets
that are never inside a character.
-/
namespace SqlTemplate.Text

@[simp] theorem byteSize_nil : byteSize [] = 0 := rfl

@[simp] theorem byteSize_append (a b : List Char) : byteSize (a ++ b) = byteSize a+byteSize b := by
  have hacc (n : Nat) (cs : List Char) : cs.foldl (fun n c => n+c.utf8Size) n = n+byteSize cs := by
    induction cs generalizing n with
    | nil => rfl
    | cons c cs ih => rw [byteSize,List.foldl_cons,List.foldl_cons,ih,ih (0+c.utf8Size)]; omega
  rw [byteSize,List.foldl_append,hacc]
  rfl

@[simp] theorem byteSize_cons (c : Char) (cs : List Char) : byteSize (c :: cs) = c.utf8Size+byteSize cs := by
  rw [← List.singleton_append,byteSize_append]
  simp [byteSize]

@[simp] theorem byteSize_eq_zero_iff {cs : List Char} : byteSize cs = 0 ↔ cs = [] := by
  cases cs with
  | nil => simp
  | cons c cs =>
    have hpos := c.utf8Size_pos
    simp only [byteSize_cons,reduceCtorEq,iff_false]
    omega

theorem byteSize_pos {cs : List Char} (h : cs ≠ []) : 0 < byteSize cs :=
  Nat.pos_of_ne_zero (mt byteSize_eq_zero_iff.mp h)

theorem byteSize_reverse (cs : List Char) : byteSize cs.reverse = byteSize cs := by
  induction cs with
  | nil => rfl
  | cons c cs ih => simp [ih,Nat.add_comm]

private theorem utf8ByteSize_ofList (cs : List Char) : (String.ofList cs).utf8ByteSize = byteSize cs := by
  rw [String.utf8ByteSize_ofList]
  induction cs with
  | nil => rfl
  | cons c cs ih => rw [String.utf8Len_cons,ih,byteSize_cons,Nat.add_comm]

/-- The offset stands between two characters of the text or at one of its ends. -/
def Boundary (cs : List Char) (i : Nat) : Prop := String.Pos.Raw.IsValid (String.ofList cs) ⟨i⟩

private theorem boundary_iff {cs : List Char} {i : Nat} : Boundary cs i ↔ ∃ a b, cs = a ++ b ∧ byteSize a = i := by
  rw [Boundary,String.Pos.Raw.isValid_iff_exists_append]
  constructor
  · rintro ⟨s,t,hst,hi⟩
    refine ⟨s.toList,t.toList,?_,?_⟩
    · simpa using congrArg String.toList hst
    · rw [← utf8ByteSize_ofList,String.ofList_toList]
      exact (congrArg String.Pos.Raw.byteIdx hi).symm
  · rintro ⟨a,b,rfl,rfl⟩
    refine ⟨String.ofList a,String.ofList b,String.ofList_append,?_⟩
    rw [← utf8ByteSize_ofList]
    rfl

theorem boundary_append (a b : List Char) : Boundary (a ++ b) (byteSize a) := boundary_iff.mpr ⟨a,b,rfl,rfl⟩

def splitAt? : List Char → Nat → Option (List Char × List Char)
  | cs, 0 => some ([],cs)
  | [], _+1 => none
  | c :: cs, n+1 =>
    if c.utf8Size ≤ n+1 then (splitAt? cs (n+1-c.utf8Size)).map fun (a,b) => (c :: a,b) else none

private theorem splitAt?_zero_eq_some_iff {cs a b : List Char} :
    splitAt? cs 0 = some (a,b) ↔ cs = a ++ b ∧ byteSize a = 0 := by
  simp only [splitAt?,byteSize_eq_zero_iff,Option.some.injEq,Prod.mk.injEq]
  constructor
  · rintro ⟨rfl,rfl⟩
    exact ⟨rfl,rfl⟩
  · rintro ⟨hab,rfl⟩
    exact ⟨rfl,hab⟩

private theorem splitAt?_eq_some_iff {cs a b : List Char} {n : Nat} :
    splitAt? cs n = some (a,b) ↔ cs = a ++ b ∧ byteSize a = n := by
  induction cs generalizing n a with
  | nil =>
    cases n with
    | zero => exact splitAt?_zero_eq_some_iff
    | succ n =>
      simp only [splitAt?,reduceCtorEq,false_iff]
      rintro ⟨hab,ha⟩
      obtain ⟨rfl,-⟩ := List.append_eq_nil_iff.mp hab.symm
      simp at ha
  | cons c cs ih =>
    cases n with
    | zero => exact splitAt?_zero_eq_some_iff
    | succ n =>
      simp only [splitAt?,Option.ite_none_right_eq_some,Option.map_eq_some_iff,Prod.exists,Prod.mk.injEq]
      constructor
      · rintro ⟨hc,a',b,hsplit,rfl,rfl⟩
        obtain ⟨rfl,ha⟩ := ih.mp hsplit
        refine ⟨rfl,?_⟩
        rw [byteSize_cons,ha]
        omega
      · rintro ⟨hab,ha⟩
        cases a with
        | nil => simp at ha
        | cons d a =>
          obtain ⟨rfl,rfl⟩ := List.cons.inj hab
          rw [byteSize_cons] at ha
          exact ⟨by omega,a,b,ih.mpr ⟨rfl,by omega⟩,rfl,rfl⟩

/-- The text between two offsets, if they are in order and boundaries. -/
def slice? (cs : List Char) (i j : Nat) : Option (List Char) :=
  if i ≤ j then do
    let (_,rest) ← splitAt? cs i
    let (part,_) ← splitAt? rest (j-i)
    return part
  else none

private theorem slice?_eq_some_iff {cs part : List Char} {i j : Nat} :
    slice? cs i j = some part ↔ ∃ a b, cs = a ++ (part ++ b) ∧ byteSize a = i ∧ byteSize a+byteSize part = j := by
  simp only [slice?,Option.ite_none_right_eq_some,Option.bind_eq_bind,Option.bind_eq_some_iff,Prod.exists,
    splitAt?_eq_some_iff,Option.pure_def,Option.some.injEq]
  constructor
  · rintro ⟨hij,a,rest,⟨rfl,rfl⟩,part',b,⟨rfl,hpart⟩,rfl⟩
    exact ⟨a,b,rfl,rfl,by omega⟩
  · rintro ⟨a,b,rfl,rfl,rfl⟩
    exact ⟨by omega,a,part ++ b,⟨rfl,rfl⟩,part,b,⟨rfl,by omega⟩,rfl⟩

@[simp] theorem slice?_between (a part b : List Char) :
    slice? (a ++ (part ++ b)) (byteSize a) (byteSize a+byteSize part) = some part :=
  slice?_eq_some_iff.mpr ⟨a,b,rfl,rfl,rfl⟩

theorem slice?_to (a b : List Char) : slice? (a ++ b) 0 (byteSize a) = some a :=
  slice?_eq_some_iff.mpr ⟨[],b,rfl,rfl,by simp⟩

theorem slice?_from (a b : List Char) : slice? (a ++ b) (byteSize a) (byteSize (a ++ b)) = some b :=
  slice?_eq_some_iff.mpr ⟨a,[],by simp,rfl,by simp⟩

theorem slice?_behind {c : Char} (hc : c.utf8Size = 1) (a b : List Char) :
    slice? (a ++ c :: b) (byteSize a+1) (byteSize (a ++ c :: b)) = some b :=
  slice?_eq_some_iff.mpr ⟨a ++ [c],[],by simp,by simp [hc],by simp [hc]; omega⟩

theorem le_of_slice? {cs part : List Char} {i j : Nat} (h : slice? cs i j = some part) :
    i ≤ j ∧ j ≤ byteSize cs ∧ byteSize part = j-i := by
  obtain ⟨a,b,rfl,rfl,rfl⟩ := slice?_eq_some_iff.mp h
  simp only [byteSize_append]
  omega

theorem isSome_slice?_iff {cs : List Char} {i j : Nat} :
    (slice? cs i j).isSome ↔ i ≤ j ∧ Boundary cs i ∧ Boundary cs j := by
  rw [Option.isSome_iff_exists]
  constructor
  · rintro ⟨part,h⟩
    obtain ⟨a,b,rfl,rfl,rfl⟩ := slice?_eq_some_iff.mp h
    exact ⟨by omega,boundary_append a _,boundary_iff.mpr ⟨a ++ part,b,by simp,by simp⟩⟩
  · rintro ⟨hij,hi,hj⟩
    obtain ⟨a,b,rfl,rfl⟩ := boundary_iff.mp hi
    obtain ⟨a',b',hsplit,rfl⟩ := boundary_iff.mp hj
    rcases List.append_eq_append_iff.mp hsplit with ⟨part,rfl,rfl⟩ | ⟨part,rfl,rfl⟩
    · exact ⟨part,by simp⟩
    · obtain rfl : part = [] := by
        rw [byteSize_append] at hij
        exact byteSize_eq_zero_iff.mp (by omega)
      exact ⟨[],slice?_eq_some_iff.mpr ⟨a',b,by simp,by simp,by simp⟩⟩

def find? (delim cs : List Char) : Option Nat := (cut? delim cs).map fun (before,_) => byteSize before

/-- Where the delimiter stands first from an offset on. The outer result is missing when the text cannot be sliced
there. -/
def findFrom? (delim text : List Char) (offset : Nat) : Option (Option Nat) := do
  let rest ← slice? text offset (byteSize text)
  return (find? delim rest).map (·+offset)

theorem findFrom?_append (delim a b : List Char) :
    findFrom? delim (a ++ b) (byteSize a) = some ((find? delim b).map (·+byteSize a)) := by
  rw [findFrom?,slice?_from]
  rfl

theorem le_of_findFrom? {delim text : List Char} {offset : Nat} {result : Option Nat}
    (h : findFrom? delim text offset = some result) : offset ≤ byteSize text := by
  simp only [findFrom?,Option.bind_eq_bind,Option.bind_eq_some_iff] at h
  obtain ⟨rest,hrest,-⟩ := h
  exact (le_of_slice? hrest).1

theorem findFrom?_bounds {delim text : List Char} {offset found : Nat}
    (h : findFrom? delim text offset = some (some found)) :
    offset ≤ found ∧ found+byteSize delim ≤ byteSize text := by
  simp only [findFrom?,Option.bind_eq_bind,Option.bind_eq_some_iff,Option.pure_def,Option.some.injEq,find?,
    Option.map_map,Option.map_eq_some_iff,Prod.exists,Function.comp_apply] at h
  obtain ⟨rest,hrest,before,after,hcut,rfl⟩ := h
  obtain ⟨-,-,hsize⟩ := le_of_slice? hrest
  have hoffset := (le_of_slice? hrest).1
  rw [eq_append_of_cut? hcut] at hsize
  simp only [byteSize_append] at hsize
  omega

def findChar? (p : Char → Bool) : List Char → Option Nat
  | [] => none
  | c :: cs => if p c then some 0 else (findChar? p cs).map (c.utf8Size+·)

def runEnd (p : Char → Bool) (cs : List Char) : Nat := (findChar? p cs).getD (byteSize cs)

theorem exists_of_findChar? {p : Char → Bool} {cs : List Char} {n : Nat} (h : findChar? p cs = some n) :
    ∃ a c b, cs = a ++ c :: b ∧ byteSize a = n ∧ p c = true ∧ ∀ d ∈ a, p d = false := by
  induction cs generalizing n with
  | nil => simp [findChar?] at h
  | cons c cs ih =>
    rw [findChar?] at h
    cases hc : p c with
    | true =>
      obtain rfl : 0 = n := by simpa [hc] using h
      exact ⟨[],c,cs,rfl,rfl,hc,by simp⟩
    | false =>
      simp only [hc,Bool.false_eq_true,ite_false,Option.map_eq_some_iff] at h
      obtain ⟨k,hk,rfl⟩ := h
      obtain ⟨a,d,b,rfl,rfl,hd,ha⟩ := ih hk
      exact ⟨c :: a,d,b,rfl,byteSize_cons c a,hd,List.forall_mem_cons.mpr ⟨hc,ha⟩⟩

theorem findChar?_eq_none_iff {p : Char → Bool} {cs : List Char} :
    findChar? p cs = none ↔ ∀ c ∈ cs, p c = false := by
  induction cs with
  | nil => simp [findChar?]
  | cons c cs ih =>
    rw [findChar?]
    cases hc : p c <;> simp [hc,ih]

private theorem runEnd_eq (p : Char → Bool) (cs : List Char) : runEnd p cs = byteSize (cs.takeWhile (!p ·)) := by
  rw [runEnd]
  cases h : findChar? p cs with
  | none =>
    have hall : cs.takeWhile (!p ·) = cs :=
      List.takeWhile_eq_self_iff.mpr (by simpa using findChar?_eq_none_iff.mp h)
    rw [hall,Option.getD_none]
  | some n =>
    obtain ⟨a,c,b,rfl,rfl,hc,ha⟩ := exists_of_findChar? h
    have hrun : ∀ d ∈ a, (!p d) = true := by simpa using ha
    have hstop : ∀ d ∈ (c :: b).head?, (!p d) = false := by simpa using hc
    rw [(span_append hrun hstop).1,Option.getD_some]

theorem slice?_to_runEnd (p : Char → Bool) (cs : List Char) :
    slice? cs 0 (runEnd p cs) = some (cs.takeWhile (!p ·)) := by
  have h := slice?_to (cs.takeWhile (!p ·)) (cs.dropWhile (!p ·))
  rwa [List.takeWhile_append_dropWhile,← runEnd_eq] at h

theorem slice?_from_runEnd (p : Char → Bool) (cs : List Char) :
    slice? cs (runEnd p cs) (byteSize cs) = some (cs.dropWhile (!p ·)) := by
  have h := slice?_from (cs.takeWhile (!p ·)) (cs.dropWhile (!p ·))
  rwa [List.takeWhile_append_dropWhile,← runEnd_eq] at h

theorem slice?_to_separator (sep : Char) (cs : List Char) :
    slice? cs 0 (runEnd (· = sep) cs) = some (cs.takeWhile (· ≠ sep)) := by
  simpa using slice?_to_runEnd (· = sep) cs

theorem slice?_from_separator (sep : Char) (cs : List Char) :
    slice? cs (runEnd (· = sep) cs) (byteSize cs) = some (cs.dropWhile (· ≠ sep)) := by
  simpa using slice?_from_runEnd (· = sep) cs

end SqlTemplate.Text
