import SqlTemplate.Proofs.Lexical.Renaming
/-!
# Checking templates

Whether a template is well formed can be decided: a marked text is the one that its own scan writes, and what an
expression mentions is read off its tree.
-/
namespace SqlTemplate
open Text

instance (cs : List Char) : Decidable (IsName cs) :=
  decidable_of_iff (cs ≠ [] ∧ cs.all isNameChar = true) (by rw [IsName,List.all_eq_true])

instance (cs : List Char) : Decidable (IsReserved cs) := inferInstanceAs (Decidable (_ <+: _))

instance (content : List Char) : Decidable (PlainMarker content) :=
  decidable_of_iff (content.all isPlain = true ∧ IsName (Path.root (Marker.path content)) ∧
      ¬IsReserved (Path.root (Marker.path content)))
    ⟨fun h => ⟨List.all_eq_true.mp h.1,h.2.1,h.2.2⟩,
      fun h => ⟨List.all_eq_true.mpr h.plain,h.root_name,h.root_free⟩⟩

instance : (t : Token (List Char)) → Decidable (PlainToken t)
  | .char c => inferInstanceAs (Decidable (isPlain c = true))
  | .slot content => inferInstanceAs (Decidable (PlainMarker content))

/-- A marked text is written by the tokens that a scan finds in it. -/
theorem markedText_iff {text : String} : MarkedText text ↔
    text.toList = Chunk.write id (Scanner.bindMarkers.tokens text.toList) ∧
      ∀ t ∈ Scanner.bindMarkers.tokens text.toList, PlainToken t := by
  constructor
  · rintro ⟨ts,ht,hp⟩
    have htokens : Scanner.bindMarkers.tokens text.toList = ts := by
      rw [ht]
      exact Chunk.tokens_write fun t hm => (hp t hm).plain
    rw [htokens]
    exact ⟨ht,hp⟩
  · intro h
    exact ⟨_,h.1,h.2⟩

instance (text : String) : Decidable (MarkedText text) := decidable_of_iff' _ markedText_iff

def Expr.mentioned (expression : String) : List String :=
  match Expr.parse expression with
  | .ok e => e.names
  | .error _ => []

theorem freeExpression_iff {expression : String} : FreeExpression expression ↔
    ∀ name ∈ Expr.mentioned expression, ¬IsReserved name.toList := by
  unfold FreeExpression Expr.mentioned
  cases Expr.parse expression <;> simp

instance (expression : String) : Decidable (FreeExpression expression) :=
  decidable_of_iff' _ freeExpression_iff

instance (r : Repetition) (bound : List String) : Decidable (r.Fresh bound) :=
  decidable_of_iff (∀ name ∈ r.names, name ∉ bound ∧ IsName name.toList ∧ ¬IsReserved name.toList)
    ⟨fun h => ⟨fun name hn => (h name hn).1,fun name hn => (h name hn).2.1,fun name hn => (h name hn).2.2⟩,
      fun h name hn => ⟨h.fresh name hn,h.is_name name hn,h.free name hn⟩⟩

instance (w : String) : Decidable (Chunk.IsWord w) := inferInstanceAs (Decidable (_ ∧ _))

namespace Node

mutual

def decideWellFormed (bound : List String) : (root : Node) → Decidable (root.WellFormed bound)
  | .text s => inferInstanceAs (Decidable (MarkedText s))
  | .conditional test body =>
    have := decideWellFormed bound body
    inferInstanceAs (Decidable (FreeExpression test ∧ body.WellFormed bound))
  | .repetition r body =>
    have := decideWellFormed (r.names ++ bound) body
    inferInstanceAs (Decidable (FreeExpression r.collection ∧
      (∀ s ∈ r.opening.toList ++ r.closing.toList ++ r.separator.toList, MarkedText s) ∧ r.Fresh bound ∧
      body.WellFormed (r.names ++ bound)))
  | .trim t body =>
    have := decideWellFormed bound body
    inferInstanceAs (Decidable ((∀ s ∈ t.front.toList ++ t.back.toList, MarkedText s) ∧
      (∀ w ∈ t.frontOverrides ++ t.backOverrides, Chunk.IsWord w) ∧ body.WellFormed bound))
  | .sequence nodes => decideAllWellFormed bound nodes

def decideAllWellFormed (bound : List String) : (nodes : List Node) → Decidable (AllWellFormed bound nodes)
  | [] => .isTrue trivial
  | n :: ns =>
    have := decideWellFormed bound n
    have := decideAllWellFormed bound ns
    inferInstanceAs (Decidable (n.WellFormed bound ∧ AllWellFormed bound ns))

end

instance (bound : List String) (root : Node) : Decidable (root.WellFormed bound) := decideWellFormed bound root

end Node
end SqlTemplate
