import SqlTemplate.Parameter.Marker
import SqlTemplate.Proofs.Node.Trimming
import SqlTemplate.Proofs.Offsets.Slice
import SqlTemplate.Proofs.Path.Segments
/-!
# Paths, markers and trims by offsets

The other texts that are taken apart by offsets: paths, the contents of bind markers, and what a trim strips. Each
offset is one that a search in the same text gave or the size of a part of it. The size of a stripped word is that of
the characters it stands for, since only the case of ASCII letters differs.
-/
namespace SqlTemplate
open Text

namespace Path
variable {cs inner tail : List Char} {c : Char}

def rootAt? (path : List Char) : Option (List Char) := slice? (trim path) 0 (runEnd endsName (trim path))

theorem rootAt?_eq (path : List Char) : rootAt? path = some (root path) := slice?_to_runEnd endsName (trim path)

/-- A key up to its closing bracket and what follows the bracket. A key that is not closed is the rest. -/
def keyAt? (inner : List Char) : Option (List Char × List Char) :=
  match findChar? (· = ']') inner with
  | some stop => do
    let key ← slice? inner 0 stop
    let tail ← slice? inner (stop+1) (byteSize inner)
    return (key,tail)
  | none => some (inner,[])

def nameAt? (cs : List Char) : Option (List Char × List Char) := do
  let name ← slice? cs 0 (runEnd endsName cs)
  let tail ← slice? cs (runEnd endsName cs) (byteSize cs)
  return (name,tail)

/-- The next segment of a path and what follows it; none inside at the end of the path. -/
def nextAt? (cs : List Char) : Option (Option (Segment × List Char)) :=
  match skipDot cs with
  | [] => some none
  | c :: inner =>
    if c = '[' then (keyAt? inner).map fun (key,tail) => some (.index (String.ofList key),tail)
    else (nameAt? (c :: inner)).map fun (name,tail) => some (.name (String.ofList name),tail)

private theorem keyAt?_eq (inner : List Char) :
    keyAt? inner = some (inner.takeWhile (· ≠ ']'),(inner.dropWhile (· ≠ ']')).drop 1) := by
  rw [keyAt?]
  cases h : findChar? (· = ']') inner with
  | none =>
    have hkey : ']' ∉ inner := fun hmem => absurd (findChar?_eq_none_iff.mp h _ hmem) (by decide)
    obtain ⟨htake,hdrop⟩ := span_ne (List.append_nil inner).symm hkey (by simp)
    rw [htake,hdrop,List.drop_nil]
  | some stop =>
    obtain ⟨key,c,tail,rfl,rfl,hc,hbefore⟩ := exists_of_findChar? h
    obtain rfl : c = ']' := of_decide_eq_true hc
    have hkey : ']' ∉ key := fun hmem => absurd (hbefore _ hmem) (by decide)
    obtain ⟨htake,hdrop⟩ := span_ne (rfl : key ++ ']' :: tail = _) hkey (by simp)
    rw [htake,hdrop]
    dsimp only
    rw [slice?_to,slice?_behind rfl]
    rfl

private theorem nameAt?_eq (cs : List Char) :
    nameAt? cs = some (cs.takeWhile (!endsName ·),cs.dropWhile (!endsName ·)) := by
  rw [nameAt?,slice?_to_runEnd,slice?_from_runEnd]
  rfl

private theorem eq_of_skipDot (h : skipDot cs = c :: inner) : cs = '.' :: c :: inner ∨ cs = c :: inner ∧ c ≠ '.' := by
  unfold skipDot at h
  split at h
  · exact .inl (by rw [h])
  · next hdot =>
    refine .inr ⟨h,?_⟩
    rintro rfl
    exact hdot inner h

private theorem length_dropWhile_lt (h : skipDot cs = c :: inner) (hbracket : c ≠ '[') :
    ((c :: inner).dropWhile (!endsName ·)).length < cs.length := by
  have hle := (List.dropWhile_sublist (!endsName ·) (l := c :: inner)).length_le
  rcases eq_of_skipDot h with rfl | ⟨rfl,hdot⟩
  · simp only [List.length_cons] at hle ⊢
    omega
  · have hname : endsName c = false := by simp [endsName,hdot,hbracket]
    have hle := (List.dropWhile_sublist (!endsName ·) (l := inner)).length_le
    simp only [List.dropWhile_cons,hname,Bool.not_false,ite_true,List.length_cons]
    omega

theorem nextAt?_cases (cs : List Char) : (nextAt? cs = some none ∧ segmentsOf cs = []) ∨
    ∃ segment tail, nextAt? cs = some (some (segment,tail)) ∧ segmentsOf cs = segment :: segmentsOf tail ∧
      tail.length < cs.length := by
  rw [nextAt?]
  cases h : skipDot cs with
  | nil =>
    refine .inl ⟨rfl,?_⟩
    rw [segmentsOf]
    split
    · rfl
    · next heq => simp [h] at heq
  | cons c inner =>
    right
    dsimp only
    rw [segmentsOf_of_skipDot h,keyAt?_eq,nameAt?_eq]
    by_cases hbracket : c = '['
    · have hlength := length_skipDot_le cs
      have htail := (List.dropWhile_sublist (· ≠ ']') (l := inner)).length_le
      rw [h,List.length_cons] at hlength
      simp only [if_pos hbracket]
      refine ⟨_,_,rfl,rfl,?_⟩
      rw [List.length_drop]
      omega
    · simp only [if_neg hbracket]
      exact ⟨_,_,rfl,rfl,length_dropWhile_lt h hbracket⟩

private theorem length_lt_of_nextAt? {segment : Segment} (h : nextAt? cs = some (some (segment,tail))) :
    tail.length < cs.length := by
  rcases nextAt?_cases cs with ⟨hnext,-⟩ | ⟨segment',tail',hnext,-,hlt⟩
  · simp [hnext] at h
  · obtain ⟨rfl,rfl⟩ : segment' = segment ∧ tail' = tail := by simpa [hnext] using h
    exact hlt

def tokensAt? (cs : List Char) : Option (List Segment) :=
  match _h : nextAt? cs with
  | none => none
  | some none => some []
  | some (some (segment,tail)) => (tokensAt? tail).map (segment :: ·)
termination_by cs.length
decreasing_by exact length_lt_of_nextAt? _h

theorem tokensAt?_eq (cs : List Char) : tokensAt? cs = some (segmentsOf cs) := by
  fun_induction tokensAt? cs with
  | case1 cs h => rcases nextAt?_cases cs with ⟨hnext,-⟩ | ⟨segment,tail,hnext,-⟩ <;> simp [hnext] at h
  | case2 cs h =>
    rcases nextAt?_cases cs with ⟨-,hnil⟩ | ⟨segment,tail,hnext,-⟩
    · rw [hnil]
    · simp [hnext] at h
  | case3 cs segment tail h ih =>
    rcases nextAt?_cases cs with ⟨hnext,-⟩ | ⟨segment',tail',hnext,hcons,-⟩
    · simp [hnext] at h
    · obtain ⟨rfl,rfl⟩ : segment' = segment ∧ tail' = tail := by simpa [hnext] using h
      rw [ih,hcons,Option.map_some]

end Path

def Bindings.additionalAt? (b : Bindings) (path : List Char) : Option (Option Value) := do
  let root ← Path.rootAt? path
  match b.explicit? (String.ofList root) with
  | none => return none
  | some v =>
    let rest ← slice? (trim path) (byteSize root) (byteSize (trim path))
    return v.lookup? rest

theorem Bindings.additionalAt?_eq (b : Bindings) (path : List Char) :
    b.additionalAt? path = some (b.additional? path) := by
  have hrest := slice?_from (Path.root path) (Path.afterRoot path)
  rw [Path.root_append_afterRoot] at hrest
  rw [additionalAt?,Path.rootAt?_eq,additional?]
  simp only [Option.bind_eq_bind,Option.bind_some,hrest]
  cases b.explicit? (String.ofList (Path.root path)) <;> rfl

namespace Marker
variable {content : String} {attributes : MarkerAttributes}

def optionsAt? (content : String) (attributes : MarkerAttributes) :
    List Char → Option (Except Error MarkerAttributes)
  | ',' :: tail => do
    let option ← slice? tail 0 (runEnd (· = ',') tail)
    match addOption content attributes option with
    | .error e => return .error e
    | .ok attributes =>
      match _h : slice? tail (runEnd (· = ',') tail) (byteSize tail) with
      | none => none
      | some rest => optionsAt? content attributes rest
  | _ => some (.ok attributes)
termination_by rest => byteSize rest
decreasing_by
  have hsize := (le_of_slice? _h).2.2
  have hcomma := Char.utf8Size_pos ','
  rw [byteSize_cons]
  omega

def typeAndOptionsAt? (content : String) (attributes : MarkerAttributes) :
    List Char → Option (Except Error MarkerAttributes)
  | ':' :: tail => do
    let type ← slice? tail 0 (runEnd (· = ',') tail)
    if trim type = [] then return .error (.markerSyntax content .missingType)
    else
      let rest ← slice? tail (runEnd (· = ',') tail) (byteSize tail)
      optionsAt? content (Entries.put attributes Attribute.sqlType.name (String.ofList (trim type))) rest
  | rest => optionsAt? content attributes rest

/-- The attributes of a marker, from slices of its content. -/
def parseAt? (content : List Char) : Option (Except Error MarkerAttributes) :=
  let text := String.ofList content
  let body := trimStart content
  if body.head? = some '(' then some (.error (.expressionParameter text))
  else do
    let property ← slice? body 0 (runEnd endsProperty body)
    let attributes := ofProperty (trim property)
    let rest ← slice? body (runEnd endsProperty body) (byteSize body)
    typeAndOptionsAt? text attributes rest

private theorem addOptions_cons (content : String) (attributes : MarkerAttributes) (tail : List Char) :
    addOptions content attributes (',' :: tail) =
      (addOption content attributes (tail.takeWhile (· ≠ ','))).bind fun attributes =>
        addOptions content attributes (tail.dropWhile (· ≠ ',')) := by
  rw [addOptions]
  by_cases hcomma : ',' ∈ tail
  · obtain ⟨option,more,rfl,hoption⟩ := List.eq_append_cons_of_mem hcomma
    obtain ⟨htake,hdrop⟩ := span_ne (rfl : option ++ ',' :: more = _) hoption (by simp)
    rw [List.splitOn_append_cons_self_of_not_mem hoption,htake,hdrop]
    rfl
  · obtain ⟨htake,hdrop⟩ := span_ne (List.append_nil tail).symm hcomma (by simp)
    rw [List.splitOn_eq_singleton hcomma,htake,hdrop]
    rfl

private theorem optionsAt?_eq (content : String) (attributes : MarkerAttributes) (rest : List Char) :
    optionsAt? content attributes rest = some (addOptions content attributes rest) := by
  fun_induction optionsAt? content attributes rest with
  | case1 attributes tail ih =>
    have hrest := slice?_from_separator ',' tail
    rw [slice?_to_separator,addOptions_cons,Option.bind_eq_bind,Option.bind_some]
    cases addOption content attributes (tail.takeWhile (· ≠ ',')) with
    | error e => rfl
    | ok attributes =>
      dsimp only
      split
      · next h => simp [hrest] at h
      · next rest h =>
        obtain rfl := Option.some.inj (hrest.symm.trans h)
        exact ih attributes _ hrest
  | case2 attributes rest hrest =>
    rw [addOptions]
    exact hrest

private theorem typeAndOptionsAt?_eq (content : String) (attributes : MarkerAttributes) (rest : List Char) :
    typeAndOptionsAt? content attributes rest = some (addTypeAndOptions content attributes rest) := by
  fun_cases typeAndOptionsAt? content attributes rest with
  | case1 tail =>
    rw [slice?_to_separator,slice?_from_separator,addTypeAndOptions]
    simp only [Option.bind_eq_bind,Option.bind_some,optionsAt?_eq]
    split <;> rfl
  | case2 rest hcolon =>
    rw [optionsAt?_eq,addTypeAndOptions]
    exact hcolon

theorem parseAt?_eq (content : List Char) : parseAt? content = some (parse content) := by
  rw [parseAt?,parse,slice?_to_runEnd,slice?_from_runEnd]
  simp only [Option.bind_eq_bind,Option.bind_some,typeAndOptionsAt?_eq]
  split <;> rfl

end Marker

section words
variable {text word : List Char}

private theorem utf8Size_toLower (c : Char) : c.toLower.utf8Size = c.utf8Size := by
  by_cases hupper : c.isUpper = true
  · have hall : ∀ n < 128, (Char.ofNat n).toLower.utf8Size = (Char.ofNat n).utf8Size := by decide
    have hlow : c.toNat < 128 := by
      simp only [Char.isUpper,decide_eq_true_eq,ge_iff_le,UInt32.le_iff_toNat_le] at hupper
      have hZ : ('Z'.val).toNat = 90 := rfl
      change c.val.toNat < 128
      omega
    have hc := hall c.toNat hlow
    rwa [Char.ofNat_toNat] at hc
  · rw [Char.toLower_eq_of_not_isUpper hupper]

private theorem byteSize_of_sameWord {a b : List Char} (h : sameWord a b = true) : byteSize a = byteSize b := by
  have hlower (cs : List Char) : byteSize (lower cs) = byteSize cs := by
    induction cs with
    | nil => rfl
    | cons c cs ih =>
      rw [lower] at ih ⊢
      rw [List.map_cons,byteSize_cons,byteSize_cons,utf8Size_toLower,ih]
  rw [← hlower a,← hlower b,sameWord_iff.mp h]

private theorem beginsWith_of_isPrefixOf (h : word.isPrefixOf (upper text) = true) : BeginsWith text word := by
  obtain ⟨rest,hrest⟩ := List.isPrefixOf_iff_prefix.mp h
  obtain ⟨a,b,rfl,ha,-⟩ := List.map_eq_append_iff.mp hrest.symm
  refine ⟨a,b,rfl,?_⟩
  rw [← ha]
  exact (sameWord_upper a a).trans (sameWord_iff.mpr rfl)

private theorem slice?_word (htext : trim text = text) (h : word.isPrefixOf (upper text) = true) :
    slice? text (byteSize (trim word)) (byteSize text) = some (text.drop (trim word).length) := by
  obtain ⟨cut,gap,rest,hsplit,hcut,-⟩ := (beginsWith_of_isPrefixOf h).exists_cut htext
  rw [hsplit,← byteSize_of_sameWord hcut,← sameWord_length hcut,List.drop_left]
  exact slice?_from cut (gap ++ rest)

private theorem slice?_wordEnd (htext : trim text = text) (h : endsWith word (upper text) = true) :
    slice? text 0 (byteSize text-byteSize (trim word)) = some (text.take (text.length-(trim word).length)) := by
  have hreverse : trim text.reverse = text.reverse := by rw [trim_reverse,htext]
  have hprefix : word.reverse.isPrefixOf (upper text.reverse) = true := by
    rwa [upper,List.map_reverse,← upper]
  obtain ⟨cut,gap,rest,hsplit,hcut,-⟩ := (beginsWith_of_isPrefixOf hprefix).exists_cut hreverse
  have hsize := byteSize_of_sameWord hcut
  have hlength := sameWord_length hcut
  rw [trim_reverse,byteSize_reverse] at hsize
  rw [trim_reverse,List.length_reverse] at hlength
  have htake : byteSize text-byteSize (trim word) = byteSize (gap ++ rest).reverse ∧
      text.length-(trim word).length = (gap ++ rest).reverse.length := by
    have hbytes := congrArg byteSize hsplit
    have hchars := congrArg List.length hsplit
    rw [byteSize_reverse,byteSize_append] at hbytes
    rw [List.length_reverse,List.length_append] at hchars
    rw [byteSize_reverse,List.length_reverse]
    omega
  have hends : text = (gap ++ rest).reverse ++ cut.reverse := by simpa using congrArg List.reverse hsplit
  rw [htake.1,htake.2,hends,List.take_left]
  exact slice?_to _ _

end words

namespace Trim

/-- A text without its first front word, sliced behind the word. -/
def stripFrontAt? (t : Trim) (body : List Char) : Option (List Char) :=
  match t.frontOverrides.find? fun w => w.toList.isPrefixOf (upper body) with
  | some w => (slice? body (byteSize (trim w.toList)) (byteSize body)).map trimStart
  | none => some body

def stripBackAt? (t : Trim) (body : List Char) : Option (List Char) :=
  match t.backOverrides.find? fun w => endsWith w.toList (upper body) with
  | some w => (slice? body 0 (byteSize body-byteSize (trim w.toList))).map trimEnd
  | none => some body

def finishAt? (t : Trim) (contents : List Char) : Option (List Char) :=
  if trim contents = [] then some []
  else do
    let body ← t.stripFrontAt? (trim contents)
    let body ← t.stripBackAt? body
    return t.enclose body

private theorem stripFrontAt?_eq (t : Trim) {body : List Char} (h : trim body = body) :
    t.stripFrontAt? body = some (t.stripFront body) := by
  rw [stripFrontAt?,stripFront]
  cases hfind : t.frontOverrides.find? fun w => w.toList.isPrefixOf (upper body) with
  | none => rfl
  | some w =>
    have hword := List.find?_some hfind
    dsimp only
    rw [slice?_word h hword,Option.map_some]

private theorem stripBackAt?_eq (t : Trim) {body : List Char} (h : trim body = body) :
    t.stripBackAt? body = some (t.stripBack body) := by
  rw [stripBackAt?,stripBack]
  cases hfind : t.backOverrides.find? fun w => endsWith w.toList (upper body) with
  | none => rfl
  | some w =>
    have hword := List.find?_some hfind
    dsimp only
    rw [slice?_wordEnd h hword,Option.map_some]

theorem finishAt?_eq (t : Trim) (contents : List Char) : t.finishAt? contents = some (t.finish contents) := by
  have hleft : trim (t.stripFront (trim contents)) = t.stripFront (trim contents) := by
    rw [t.stripFront_eq]
    exact trim_cutWord _ (trim_trim contents)
  rw [finishAt?,t.stripFrontAt?_eq (trim_trim contents),finish]
  split
  · rfl
  · rw [Option.bind_eq_bind,Option.bind_some,t.stripBackAt?_eq hleft]
    rfl

end Trim

end SqlTemplate
