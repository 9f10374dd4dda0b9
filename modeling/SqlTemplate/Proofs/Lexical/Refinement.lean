import SqlTemplate.Proofs.Lexical.Rendering
import SqlTemplate.Proofs.Lexical.WellFormed
/-!
# Compiling refines the lexical semantics

The SQL of a rendered text is found by a second scan, when all iterations are over. For a well formed template the
scan finds the chunks of the lexical rendering, and every marker in them binds what it was resolved to.
-/
namespace SqlTemplate
open Text Token
open Environment (Agrees Grows)

/-- The SQL and what its placeholders bind, with the paths that the template has. -/
def BoundSql.original (c : Configuration) (b : BoundSql) : String × List BoundValue :=
  (b.sql,(b.boundValues c).map BoundValue.original)

def Lexical.rendered (l : Lexical) (b : Bindings) : MarkerScope := ⟨l.config,l.parameterType,some b⟩

def BoundSql.ofBindings (b : Bindings) : BoundSql := ⟨"",[],b,b.parameter⟩

variable {l : Lexical} {bound : List String} {scope : Bindings} {env : Environment}

namespace Node

mutual

private theorem spans_of_static : (root : Node) → root.isDynamic = false →
    ∀ text ∈ root.texts, Scanner.bindMarkers.spans text = []
  | .text s, h, written, ht => by
    obtain rfl := List.mem_singleton.mp ht
    simpa [isDynamic,hasMarker,Scanner.hasSpan] using (Bool.or_eq_false_iff.mp h).2
  | .sequence nodes, h, written, ht => spansAll_of_static nodes h written ht
  | .conditional _ _, h, _, _ => by simp [isDynamic] at h
  | .repetition _ _, h, _, _ => by simp [isDynamic] at h
  | .trim _ _, h, _, _ => by simp [isDynamic] at h

private theorem spansAll_of_static : (nodes : List Node) → anyDynamic nodes = false →
    ∀ text ∈ allTexts nodes, Scanner.bindMarkers.spans text = []
  | [], _, _, ht => by simp [allTexts] at ht
  | n :: ns, h, written, ht => by
    obtain ⟨hn,hns⟩ := Bool.or_eq_false_iff.mp h
    rcases List.mem_append.mp ht with ht | ht
    · exact spans_of_static n hn written ht
    · exact spansAll_of_static ns hns written ht

end

end Node

namespace Template

end Template
end SqlTemplate
