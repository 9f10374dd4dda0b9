import SqlTemplate.InjectionFilter
/-!
# Anchored patterns

A pattern in a group between the anchors of both ends is found in a text exactly when the pattern by itself
matches the whole text.
-/
namespace SqlTemplate

/-- What a regular expression matches: parts of a text, each with the text before and after it. -/
abbrev RegexLanguage := (before part after : String) → Prop

namespace RegexLanguage
variable {l m : RegexLanguage} {text before part after : String}

def start : RegexLanguage := fun before part _ => before = "" ∧ part = ""

def finish : RegexLanguage := fun _ part after => part = "" ∧ after = ""

def seq (l m : RegexLanguage) : RegexLanguage := fun before part after =>
  ∃ first second, part = first ++ second ∧ l before first (second ++ after) ∧ m (before ++ first) second after

def MatchesIn (l : RegexLanguage) (text : String) : Prop :=
  ∃ before part after, text = before ++ part ++ after ∧ l before part after

def MatchesWhole (l : RegexLanguage) (text : String) : Prop := l "" text ""

theorem start_seq : start.seq l before part after ↔ before = "" ∧ l before part after := by
  constructor
  · rintro ⟨first,second,rfl,⟨rfl,rfl⟩,h⟩
    simpa using h
  · rintro ⟨rfl,h⟩
    exact ⟨"",part,by simp,⟨rfl,rfl⟩,by simpa using h⟩

theorem seq_finish : l.seq finish before part after ↔ after = "" ∧ l before part after := by
  constructor
  · rintro ⟨first,second,rfl,h,rfl,rfl⟩
    simpa using h
  · rintro ⟨rfl,h⟩
    exact ⟨part,"",by simp,by simpa using h,rfl,rfl⟩

theorem matchesIn_anchored : ((start.seq l).seq finish).MatchesIn text ↔ l.MatchesWhole text := by
  simp only [MatchesIn,seq_finish,start_seq]
  constructor
  · rintro ⟨before,part,after,rfl,rfl,rfl,h⟩
    simpa [MatchesWhole] using h
  · intro h
    exact ⟨"",text,"",by simp,rfl,rfl,h⟩

end RegexLanguage

/-- A library does what it documents, for a given meaning of the patterns that are regular expressions. -/
structure RegexLibrary.Follows (library : RegexLibrary) (meaning? : String → Option RegexLanguage) : Prop where
  /-- Only expressions are compiled, and a search succeeds where the expression matches a part of the text. -/
  compiled : ∀ {pattern : String} {regex : library.Regex}, library.compile? pattern = some regex →
    ∃ l, meaning? pattern = some l ∧ ∀ text, library.isMatch regex text = true ↔ l.MatchesIn text
  /-- An expression in a group is read as by itself, after a `^` and before a `$`. The group may be unreadable,
  for example when the expression ends in a comment. -/
  grouped : ∀ {pattern : String} {l m : RegexLanguage}, meaning? pattern = some l →
    meaning? (InjectionFilter.anchored pattern) = some m → m = (RegexLanguage.start.seq l).seq .finish

/-- The filter of a pattern that is an expression by itself accepts what the expression matches in full. -/
theorem InjectionFilter.accepts_iff {library : RegexLibrary} {meaning? : String → Option RegexLanguage}
    (h : library.Follows meaning?) {pattern : String} {l : RegexLanguage} (hl : meaning? pattern = some l)
    {f : InjectionFilter} (hf : ofPattern? library pattern = some f) (text : String) :
    f.accepts text = true ↔ l.MatchesWhole text := by
  obtain ⟨regex,hregex,rfl⟩ := Option.map_eq_some_iff.mp hf
  obtain ⟨m,hm,hmatch⟩ := h.compiled hregex
  obtain rfl := h.grouped hl hm
  exact (hmatch text).trans RegexLanguage.matchesIn_anchored

end SqlTemplate
