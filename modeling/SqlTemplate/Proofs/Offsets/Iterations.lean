import SqlTemplate.Proofs.Offsets.Cuts
import SqlTemplate.Proofs.Offsets.Reached
import SqlTemplate.Proofs.Scan.Encoding
/-!
# The iterations of a scan

In every iteration of a scan over offsets the bounds of all slices are in order and between characters of the text,
and the scan goes on behind the delimiter that it has found. Each call of the handler is for an opening delimiter of
its own.
-/
namespace SqlTemplate
open Text

/-- The delimiter was found from an offset on that a scan has reached. -/
def FoundFrom (delim text : List Char) (offset found : Nat) : Prop :=
  ∃ rest before after, Reached text offset rest ∧ cut? delim rest = some (before,after) ∧
    found = offset+byteSize before

/-- The delimiter stands where it was found, and the bounds of all slices from the offset up to it or behind it are in
order and boundaries, also when the backslash of an escaped delimiter is sliced off. -/
structure InRange (e : Escapes) (delim text : List Char) (offset found : Nat) : Prop where
  order : offset ≤ found
  start : Boundary text offset
  stop : Boundary text found
  behind : Boundary text (found+byteSize delim)
  delimiter : slice? text found (found+byteSize delim) = some delim
  escaped : escapedAt? text found = some true →
    offset+e.omitted ≤ found ∧ Boundary text (found-e.omitted)

section
variable {text rest before after delim : List Char} {offset found : Nat}

private theorem Reached.boundary (h : Reached text offset rest) : Boundary text offset := by
  obtain ⟨consumed,rfl,rfl,-⟩ := h.split
  exact boundary_append consumed rest

theorem Reached.slice?_between (h : Reached text offset (before ++ (delim ++ after))) :
    Text.slice? text (offset+byteSize before) (offset+byteSize before+byteSize delim) = some delim := by
  obtain ⟨consumed,rfl,rfl,-⟩ := h.split
  rw [← List.append_assoc,← byteSize_append]
  exact Text.slice?_between (consumed ++ before) delim after

private theorem Reached.foundFrom (h : Reached text offset rest)
    (hf : Text.findFrom? delim text offset = some (some found)) : FoundFrom delim text offset found := by
  rw [h.findFrom?,Option.some.injEq,Option.map_eq_some_iff] at hf
  obtain ⟨⟨before,after⟩,hcut,rfl⟩ := hf
  exact ⟨rest,before,after,h,hcut,rfl⟩

private theorem FoundFrom.inRange (h : FoundFrom delim text offset found) (hne : delim ≠ []) (e : Escapes) :
    InRange e delim text offset found := by
  obtain ⟨rest,before,after,h,hcut,rfl⟩ := h
  have h := h.split_at hcut
  have hdelim := h.slice?_between
  obtain ⟨-,hfound,hbehind⟩ := isSome_slice?_iff.mp (Option.isSome_of_eq_some hdelim)
  refine ⟨by omega,h.boundary,hfound,hbehind,hdelim,fun hescaped => ?_⟩
  rw [h.escapedAt? (by simp [hne]),Option.some.injEq,Option.isSome_iff_exists] at hescaped
  obtain ⟨kept,hkept⟩ := hescaped
  have hslice := h.slice?_escaped hkept e
  have homitted : e.omitted ≤ byteSize before := by
    have hpos : 0 < byteSize before := byteSize_pos (by simp [eq_append_of_beforeEscape? hkept])
    exact e.omitted_le.trans hpos
  exact ⟨by omega,(isSome_slice?_iff.mp (Option.isSome_of_eq_some hslice)).2.2⟩

end

namespace Scanner
variable {s : Scanner} {text : List Char} {offset found close : Nat}

/-- The iterations of a scan: up to where the text is consumed, and where the next opening delimiter is. -/
inductive Visits (s : Scanner) (text : List Char) : Nat → Nat → Prop
  | first {found : Nat} (h : find? s.opening text = some found) : Visits s text 0 found
  | next {offset found found' : Nat} {p : Pass Nat} (h : Visits s text offset found)
      (hp : s.pass? text offset found = some p) (hf : findFrom? s.opening text p.next = some (some found')) :
      Visits s text p.next found'

/-- The iterations of the searches for the ends of the spans: up to where the content is read, and where the next
closing delimiter is. -/
inductive Closes (s : Scanner) (text : List Char) : Nat → Nat → Prop
  | first {offset found close : Nat} (h : s.Visits text offset found) (he : escapedAt? text found = some false)
      (hf : findFrom? s.closing text (found+byteSize s.opening) = some (some close)) :
      Closes s text (found+byteSize s.opening) close
  | next {offset close close' : Nat} (h : Closes s text offset close)
      (he : closingEscapedAt? text offset close = some true)
      (hf : findFrom? s.closing text (close+byteSize s.closing) = some (some close')) :
      Closes s text (close+byteSize s.closing) close'

private theorem Visits.foundFrom (hs : s.Plain) (h : s.Visits text offset found) :
    FoundFrom s.opening text offset found := by
  induction h with
  | first h =>
    obtain ⟨⟨before,after⟩,hcut,rfl⟩ := Option.map_eq_some_iff.mp h
    exact ⟨text,before,after,.start text,hcut,(Nat.zero_add _).symm⟩
  | next h hp hf ih =>
    obtain ⟨rest,before,after,hreached,hcut,rfl⟩ := ih
    obtain ⟨next,hpass,hnext⟩ := pass?_eq hs hreached hcut
    obtain rfl := Option.some.inj (hp.symm.trans hpass)
    exact hnext.foundFrom hf

private theorem Closes.foundFrom (hs : s.Plain) (h : s.Closes text offset close) :
    FoundFrom s.closing text offset close := by
  induction h with
  | first h he hf =>
    obtain ⟨rest,before,after,hreached,hcut,rfl⟩ := h.foundFrom hs
    exact ((hreached.split_at hcut).advance s.opening_ne_nil hs.opening).foundFrom hf
  | next h he hf ih =>
    obtain ⟨rest,before,after,hreached,hcut,rfl⟩ := ih
    exact ((hreached.split_at hcut).advance hs.closing_ne_nil hs.closing).foundFrom hf

private theorem Visits.exists_pass (hs : s.Plain) (h : s.Visits text offset found) :
    ∃ p, s.pass? text offset found = some p ∧ offset < p.next ∧ found+byteSize s.opening ≤ p.next ∧
      Boundary text p.next := by
  obtain ⟨rest,before,after,hreached,hcut,rfl⟩ := h.foundFrom hs
  obtain ⟨next,hpass,hnext⟩ := pass?_eq hs hreached hcut
  obtain ⟨hlt,hle⟩ := lt_of_pass? hpass
  exact ⟨_,hpass,hlt,hle,hnext.boundary⟩

section calls
variable {ε : Type}

/-- The handler is called with the content in the iteration for the opening delimiter at the place. -/
def CalledAt (s : Scanner) (text : List Char) (place : Nat) (content : List Char) : Prop :=
  ∃ offset p, s.Visits text offset place ∧ s.pass? text offset place = some p ∧ p.content = some content

/-- The contents of calls in iterations of their own, none for an opening delimiter before the place. -/
def CallsFrom (s : Scanner) (text : List Char) (place : Nat) (made : List (List Char)) : Prop :=
  ∃ places, List.Forall₂ (s.CalledAt text) places made ∧ places.Pairwise (· < ·) ∧ ∀ p ∈ places, place ≤ p

theorem CallsFrom.nil (s : Scanner) (text : List Char) (place : Nat) : s.CallsFrom text place [] :=
  ⟨[],.nil,.nil,by simp⟩

theorem CallsFrom.mono {place place' : Nat} {made : List (List Char)} (h : s.CallsFrom text place' made)
    (hle : place ≤ place') : s.CallsFrom text place made := by
  obtain ⟨places,hcalled,hsorted,hplaces⟩ := h
  exact ⟨places,hcalled,hsorted,fun p hp => hle.trans (hplaces p hp)⟩

theorem CallsFrom.cons {place : Nat} {content : List Char} {made : List (List Char)}
    (hfirst : s.CalledAt text place content) (h : s.CallsFrom text (place+1) made) :
    s.CallsFrom text place (content :: made) := by
  obtain ⟨places,hcalled,hsorted,hplaces⟩ := h
  refine ⟨place :: places,.cons hfirst hcalled,List.pairwise_cons.mpr ⟨hplaces,hsorted⟩,?_⟩
  exact List.forall_mem_cons.mpr ⟨Nat.le_refl place,fun p hp => (Nat.le_succ place).trans (hplaces p hp)⟩

private theorem readFrom_calls (h : List Char → Except ε (List Char)) (hv : s.Visits text offset found)
    (out : List Char) (calls : List (List Char)) :
    ∃ made, (Recorded.outcome (s.readFrom (recorded h) text offset found out) calls).2 = calls ++ made ∧
      s.CallsFrom text found made := by
  -- the plain principle keeps the scan folded, for `readFrom_of_pass?`
  induction offset, found, out using readFrom.induct s text generalizing calls with
  | case1 offset found out hp =>
    rw [readFrom_of_pass?_eq_none hp]
    exact ⟨[],by simp [outcome_pure],.nil s text found⟩
  | case2 offset found out p hp ih =>
    have hrest (answer : List Char) (calls : List (List Char)) : ∃ made,
        (Recorded.outcome (s.resume (recorded h) text p.next (out ++ p.written ++ answer)) calls).2 = calls ++ made ∧
          s.CallsFrom text (found+1) made := by
      rw [resume]
      split
      · exact ⟨[],by simp [outcome_pure],.nil s text (found+1)⟩
      · next next hf =>
        have hbehind := (lt_of_pass? hp).2
        have hpos := byteSize_pos s.opening_ne_nil
        have hnext := (findFrom?_bounds hf).1
        obtain ⟨made,hmade,hcalls⟩ := ih answer next hf (hv.next hp hf) calls
        exact ⟨made,hmade,hcalls.mono (by omega)⟩
      · exact ⟨[],by simp [outcome_pure],.nil s text (found+1)⟩
    rw [readFrom_of_pass? hp]
    cases hcontent : p.content with
    | none =>
      obtain ⟨made,hmade,hcalls⟩ := hrest [] calls
      exact ⟨made,by simpa using hmade,hcalls.mono (Nat.le_succ found)⟩
    | some content =>
      have hfirst : s.CalledAt text found content := ⟨offset,p,hv,hp,hcontent⟩
      rw [Option.elim_some]
      cases hanswer : h content with
      | error e =>
        rw [outcome_bind_error (outcome_recorded hanswer calls)]
        exact ⟨[content],rfl,.cons hfirst (.nil s text (found+1))⟩
      | ok answer =>
        obtain ⟨made,hmade,hcalls⟩ := hrest answer (calls ++ [content])
        rw [outcome_bind_ok (outcome_recorded hanswer calls),hmade]
        exact ⟨content :: made,by simp,.cons hfirst hcalls⟩

private theorem read_calls (s : Scanner) (h : List Char → Except ε (List Char)) (text : List Char) :
    ∃ places, List.Forall₂ (s.CalledAt text) places (Recorded.outcome (s.read (recorded h) text) []).2 ∧
      places.Pairwise (· < ·) := by
  rw [read]
  cases hfind : find? s.opening text with
  | none => exact ⟨[],.nil,.nil⟩
  | some found =>
    obtain ⟨made,hmade,places,hcalled,hsorted,-⟩ := readFrom_calls h (.first hfind) [] []
    exact ⟨places,by rwa [hmade],hsorted⟩

end calls

/-- A scan over offsets takes no slice that is out of range. It ends with the replacement, and each call of its
handler is for an opening delimiter of its own. -/
structure ScansInRange (s : Scanner) (text : List Char) : Prop where
  visits : ∀ offset found, s.Visits text offset found → InRange s.escapes s.opening text offset found ∧
    ∃ p, s.pass? text offset found = some p ∧ offset < p.next ∧ found + byteSize s.opening ≤ p.next ∧
      Boundary text p.next
  closes : ∀ offset close, s.Closes text offset close → InRange s.escapes s.closing text offset close
  read : ∀ (m : Type → Type) [Monad m] [LawfulMonad m] (f : List Char → m (List Char)),
    s.read f text = some <$> s.replaceM f text
  calls : ∀ (ε : Type) (h : List Char → Except ε (List Char)), ∃ places,
    List.Forall₂ (s.CalledAt text) places (Recorded.outcome (s.read (recorded h) text) []).2 ∧
      places.Pairwise (· < ·)

end Scanner

/-- Paths, markers and trimmed texts are taken apart by offsets without a slice that fails, and each step along a path
leaves less of it. -/
structure CutsInRange : Prop where
  root : ∀ path, Path.rootAt? path = some (Path.root path)
  next : ∀ rest, ∃ step, Path.nextAt? rest = some step ∧
    ∀ segment tail, step = some (segment,tail) → tail.length < rest.length
  tokens : ∀ path, Path.tokensAt? (trim path) = some (Path.segments path)
  additional : ∀ (b : Bindings) (path : List Char), b.additionalAt? path = some (b.additional? path)
  marker : ∀ content, Marker.parseAt? content = some (Marker.parse content)
  finish : ∀ (t : Trim) (contents : List Char), t.finishAt? contents = some (t.finish contents)

/-- No slice is out of range in a scan whose delimiters do not end in a backslash: the bounds in every iteration are in
order and boundaries, and the offset grows beyond each opening delimiter. Nor is one in the other functions that cut
texts by offsets. -/
theorem slices_in_range (s : Scanner) (hs : s.Plain) (text : List Char) : s.ScansInRange text ∧ CutsInRange := by
  constructor
  · refine ⟨fun offset found h => ?_,fun offset close h => ?_,fun m _ _ f => ?_,fun ε h => ?_⟩
    · exact ⟨(h.foundFrom hs).inRange s.opening_ne_nil s.escapes,h.exists_pass hs⟩
    · exact (h.foundFrom hs).inRange hs.closing_ne_nil s.escapes
    · exact Scanner.read_eq hs f text
    · exact s.read_calls h text
  · refine ⟨Path.rootAt?_eq,fun rest => ?_,fun path => ?_,Bindings.additionalAt?_eq,Marker.parseAt?_eq,
      Trim.finishAt?_eq⟩
    · rcases Path.nextAt?_cases rest with ⟨hnext,-⟩ | ⟨segment,tail,hnext,-,hlt⟩
      · exact ⟨none,hnext,by simp⟩
      · exact ⟨some (segment,tail),hnext,by simpa using hlt⟩
    · exact Path.tokensAt?_eq (trim path)

theorem slices_in_range_escaped :
    let s := Scanner.substitutions
    let text := "é\\$\x7bé\x7d$\x7ba\\\x7dé\x7d".toList
    s.Plain ∧ s.Visits text 0 3 ∧ s.Visits text 5 8 ∧ s.Closes text 10 12 ∧ s.Closes text 13 15 ∧
      InRange s.escapes s.opening text 0 3 ∧ InRange s.escapes s.closing text 10 12 ∧
      s.read (m := Id) pure text = some (s.replaceM (m := Id) pure text) := by
  intro s text
  have hs : s.Plain := Scanner.plain_braces '$' .drop
  have hescaped : s.Visits text 0 3 := .first (by decide +kernel)
  have hopening : s.Visits text 5 8 :=
    .next (p := ⟨['é','$','{'],none,5⟩) hescaped (by rfl) (by decide +kernel)
  have hinner : s.Closes text 10 12 := .first hopening (by decide +kernel) (by decide +kernel)
  have hclosing : s.Closes text 13 15 := .next hinner (by decide +kernel) (by decide +kernel)
  have hscan := (slices_in_range s hs text).1
  exact ⟨hs,hescaped,hopening,hinner,hclosing,(hscan.visits 0 3 hescaped).1,hscan.closes 10 12 hinner,
    hscan.read Id pure⟩

end SqlTemplate
