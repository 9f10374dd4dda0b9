import SqlTemplate.Proofs.Lexical.Chunk
import SqlTemplate.Proofs.Scan.Reading
/-!
# Descriptions in order

The SQL of a text is found in two independent ways: its mappings are the descriptions of the contents of its
spans, numbered from zero, and its text has the placeholder of that number in the place of each span.
-/
namespace SqlTemplate
open Token

namespace MarkerScope

/-- The descriptions of contents from a position on. The first one that fails is the error. -/
def describeAll (s : MarkerScope) : Nat → List (List Char) → Except Error (List ParameterMapping)
  | _, [] => .ok []
  | n, content :: contents => do
    let mapping ← s.describe n content
    let mappings ← s.describeAll (n+1) contents
    return mapping :: mappings

end MarkerScope

def Dialect.place {α : Type} (d : Dialect) : Nat → List (Token α) → List Char
  | _, [] => []
  | n, .char c :: ts => c :: d.place n ts
  | n, .slot _ :: ts => d.placeholder n ++ d.place (n+1) ts

theorem Dialect.place_chars {α : Type} (d : Dialect) (n : Nat) (cs : List Char) (ts : List (Token α)) :
    d.place n (chars cs ++ ts) = cs ++ d.place n ts := by
  induction cs with
  | nil => rfl
  | cons c cs ih => simp [place,ih]

theorem Dialect.place_mapSlots {α β : Type} (d : Dialect) (f : α → β) (n : Nat) (ts : Chunk α) :
    d.place n (ts.mapSlots f) = d.place n ts := by
  induction ts generalizing n with
  | nil => rfl
  | cons t ts ih =>
    cases t with
    | char c => exact congrArg (c :: ·) (ih n)
    | slot a => exact congrArg (d.placeholder n ++ ·) (ih (n+1))

namespace MarkerScope
variable {s : MarkerScope}

private theorem fillTokens_eq (s : MarkerScope) (n : Nat) (ts : List (Token (List Char))) :
    s.fillTokens n ts =
      (s.describeAll n (slots ts)).map fun mappings => ⟨s.config.dialect.place n ts,mappings⟩ := by
  induction ts generalizing n with
  | nil => rfl
  | cons t ts ih =>
    cases t with
    | char c =>
      rw [fillTokens,ih,slots_char]
      cases s.describeAll n (slots ts) <;> rfl
    | slot content =>
      rw [fillTokens,ih,slots_slot,describeAll]
      cases s.describe n content with
      | error e => rfl
      | ok mapping => cases s.describeAll (n+1) (slots ts) <;> rfl

/-- The SQL of a text by the contents of its spans. -/
theorem mapMarkers_eq (s : MarkerScope) (text : List Char) :
    s.mapMarkers text = (s.describeAll 0 (Scanner.bindMarkers.spans text)).map
      fun mappings => ⟨s.config.dialect.place 0 (Scanner.bindMarkers.tokens text),mappings⟩ := by
  rw [mapMarkers_eq_fillTokens,fillTokens_eq,Scanner.spans_eq_slots]

theorem mapMarkers_source (s : MarkerScope) (r : Reading '#') :
    s.mapMarkers r.source = (s.describeAll 0 (r.contents .drop)).map
      fun mappings => ⟨s.config.dialect.place 0 (r.tokens .drop),mappings⟩ := by
  rw [mapMarkers_eq_fillTokens,bindMarkers_eq_braces,r.tokens_source (by decide) (by decide),
    fillTokens_eq,r.slots_tokens]

theorem describeAll_ok {n : Nat} {contents : List (List Char)} {mappings : List ParameterMapping}
    (h : s.describeAll n contents = .ok mappings) : mappings.length = contents.length ∧
      ∀ (i : Nat) (hi : i < contents.length),
        ∃ m, mappings[i]? = some m ∧ s.describe (n+i) contents[i] = .ok m := by
  induction contents generalizing n mappings with
  | nil =>
    obtain rfl : [] = mappings := by simpa [describeAll] using h
    simp
  | cons content contents ih =>
    simp only [describeAll] at h
    cases hm : s.describe n content with
    | error e => simp [hm,bind,Except.bind] at h
    | ok m =>
      cases hms : s.describeAll (n+1) contents with
      | error e => simp [hm,hms,bind,Except.bind] at h
      | ok ms =>
        obtain rfl : m :: ms = mappings := by
          simpa [hm,hms,bind,Except.bind,pure,Except.pure] using h
        obtain ⟨hl,hi⟩ := ih hms
        refine ⟨by simp [hl],?_⟩
        intro i hlt
        cases i with
        | zero => exact ⟨m,rfl,hm⟩
        | succ i =>
          obtain ⟨m',hg,hd⟩ := hi i (by simpa using hlt)
          exact ⟨m',by simpa using hg,by simpa [Nat.add_assoc,Nat.add_comm 1] using hd⟩

theorem describeAll_error {n i : Nat} {contents : List (List Char)} {e : Error}
    (hi : i < contents.length)
    (hbefore : ∀ (j : Nat) (hj : j < i), ∃ m, s.describe (n+j) contents[j] = .ok m)
    (he : s.describe (n+i) contents[i] = .error e) : s.describeAll n contents = .error e := by
  induction contents generalizing n i with
  | nil => simp at hi
  | cons content contents ih =>
    cases i with
    | zero =>
      have he' : s.describe n content = .error e := he
      simp [describeAll,he',bind,Except.bind]
    | succ i =>
      obtain ⟨m,hm⟩ := hbefore 0 (by omega)
      have hm' : s.describe n content = .ok m := hm
      have hrest := ih (n := n+1) (i := i) (by simpa using hi)
        (by
          intro j hj
          obtain ⟨m',h⟩ := hbefore (j+1) (by omega)
          exact ⟨m',by simpa [Nat.add_assoc,Nat.add_comm 1] using h⟩)
        (by simpa [Nat.add_assoc,Nat.add_comm 1] using he)
      simp [describeAll,hm',hrest,bind,Except.bind]

theorem describeAll_total {n : Nat} {contents : List (List Char)}
    (h : ∀ (i : Nat) (hi : i < contents.length), ∃ m, s.describe (n+i) contents[i] = .ok m) :
    ∃ mappings, s.describeAll n contents = .ok mappings := by
  induction contents generalizing n with
  | nil => exact ⟨[],rfl⟩
  | cons content contents ih =>
    obtain ⟨m,hm⟩ := h 0 (by simp)
    have hm' : s.describe n content = .ok m := hm
    obtain ⟨ms,hms⟩ := ih (n := n+1) (by
      intro i hi
      obtain ⟨m',h'⟩ := h (i+1) (by simpa using hi)
      exact ⟨m',by simpa [Nat.add_assoc,Nat.add_comm 1] using h'⟩)
    exact ⟨m :: ms,by simp [describeAll,hm',hms,bind,Except.bind,pure,Except.pure]⟩

end MarkerScope
end SqlTemplate
