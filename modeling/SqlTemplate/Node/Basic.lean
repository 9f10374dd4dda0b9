import SqlTemplate.Scanner
/-!
# Template nodes

The body of a template: texts, conditions, repetitions, trims and sequences of them. A tree is static when
it consists of texts without markers.
-/
namespace SqlTemplate

/-- What a repetition repeats over, the names of the loop variables, and the texts around and between. -/
structure Repetition where
  collection : String
  item : Option String := none
  index : Option String := none
  opening : Option String := none
  closing : Option String := none
  separator : Option String := none
  deriving DecidableEq

/-- What a trim puts around its contents, and the words it strips from their ends. The words are in upper
case. -/
structure Trim where
  front : Option String := none
  back : Option String := none
  frontOverrides : List String := []
  backOverrides : List String := []
  deriving DecidableEq

inductive Node
  | text (s : String)
  | conditional (test : String) (body : Node)
  | repetition (r : Repetition) (body : Node)
  | trim (t : Trim) (body : Node)
  | sequence (nodes : List Node)

namespace Node

instance : Inhabited Node := ⟨.sequence []⟩

def hasSubstitution (text : String) : Bool := Scanner.substitutions.hasSpan text.toList

def hasMarker (text : String) : Bool := hasSubstitution text || Scanner.bindMarkers.hasSpan text.toList

mutual

def isDynamic : Node → Bool
  | .text s => hasMarker s
  | .sequence nodes => anyDynamic nodes
  | .conditional _ _ | .repetition _ _ | .trim _ _ => true

def anyDynamic : List Node → Bool
  | [] => false
  | n :: ns => isDynamic n || anyDynamic ns

end

mutual

def same : Node → Node → Bool
  | .text a, .text b => a == b
  | .conditional s a, .conditional t b => s == t && same a b
  | .repetition r a, .repetition q b => r == q && same a b
  | .trim s a, .trim t b => s == t && same a b
  | .sequence as, .sequence bs => sameNodes as bs
  | _, _ => false

def sameNodes : List Node → List Node → Bool
  | [], [] => true
  | a :: as, b :: bs => same a b && sameNodes as bs
  | _, _ => false

end

end Node
end SqlTemplate
