/-!
# Injection filters

A filter is a regular expression that a substituted text has to match. Regular expressions come from a library.
-/
namespace SqlTemplate

/-- A library of regular expressions. It compiles patterns and searches texts. -/
structure RegexLibrary where
  Regex : Type
  compile? : String → Option Regex
  isMatch : Regex → String → Bool

structure InjectionFilter where
  /-- The expression as it is told in messages, anchored at both ends. -/
  pattern : String
  accepts : String → Bool

namespace InjectionFilter

def anchored (pattern : String) : String := "^(?:" ++ pattern ++ ")$"

/-- The filter of a pattern, none if the anchored pattern is not compiled. -/
def ofPattern? (library : RegexLibrary) (pattern : String) : Option InjectionFilter :=
  (library.compile? (anchored pattern)).map fun regex => ⟨anchored pattern,library.isMatch regex⟩

end InjectionFilter
end SqlTemplate
