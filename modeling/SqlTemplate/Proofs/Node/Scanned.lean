import SqlTemplate.Proofs.Template.Injection
/-!
# Texts that are scanned

A text with substitutions is scanned when it is rendered, and a text without any is written as it is. A scan of such
a text would find nothing to substitute, but it would drop the backslashes of the escaped opening delimiters. So the
two agree on the texts that have a substitution or no escaped opening delimiter, and on no others.
-/
namespace SqlTemplate

namespace Node

private theorem exposeScalar_exposeScalar (env : Environment) : exposeScalar (exposeScalar env) = exposeScalar env := by
  unfold exposeScalar
  by_cases hs : env.bindings.parameter.isSimple = true
  · simp [hs,Environment.bind,Bindings.bind,Table.put_put]
  · simp [hs]

abbrev Evaluation (α : Type) := ExceptT Error (StateM Environment) α

/-- The text of a substitution, evaluated in the environment that is reached; a scalar argument is given its name
first. -/
def evaluate (c : Configuration) (content : List Char) : Evaluation (List Char) :=
  ExceptT.mk fun env => (substitute c (exposeScalar env).bindings content,exposeScalar env)

private theorem run_mapM_evaluate (c : Configuration) (contents : List (List Char)) (env : Environment) :
    (contents.mapM (evaluate c)).run.run env = (contents.mapM (substitute c (exposeScalar env).bindings),
      if contents.isEmpty then env else exposeScalar env) := by
  induction contents generalizing env with
  | nil => rfl
  | cons content contents ih =>
    have hfirst : (evaluate c content).run.run env =
        (substitute c (exposeScalar env).bindings content,exposeScalar env) := rfl
    -- the scalar has its name after the first content, so the rest is evaluated in the same environment
    have hrest := ih (exposeScalar env)
    rw [exposeScalar_exposeScalar,ite_self] at hrest
    rw [List.mapM_cons,List.mapM_cons,ExceptT.run_bind,StateT.run_bind,hfirst]
    cases hs : substitute c (exposeScalar env).bindings content with
    | error e => rfl
    | ok text =>
      change ((contents.mapM (evaluate c) >>= fun texts => pure (text :: texts) : Evaluation _).run).run
        (exposeScalar env) = _
      rw [ExceptT.run_bind,StateT.run_bind,hrest]
      cases contents.mapM (substitute c (exposeScalar env).bindings) <;> rfl

end Node

/-- A template text scanned in a context: what the scan returns is appended, and where it fails nothing is. -/
def Context.scanText (c : Configuration) (text : String) (context : Context) : Context × Except Error Bool :=
  let (scanned,env) := (Scanner.substitutions.replaceM (Node.evaluate c) text.toList).run.run context.env
  (⟨env,context.written ++ scanned.toOption.getD []⟩,scanned.map fun _ => true)

namespace Scanner

private theorem weave_of_no_span {s : Scanner} (hd : s.escapes = .drop) {cs : List Char} (h : s.spans cs = []) :
    (Token.weave (s.tokens cs) []).Sublist cs ∧
      (Token.weave (s.tokens cs) []).length+(s.pieces cs).count .escapedOpening = cs.length := by
  have hsource := s.flatMap_source_pieces cs
  rw [tokens]
  rw [spans] at h
  generalize s.pieces cs = ps at h hsource ⊢
  subst hsource
  induction ps with
  | nil => exact ⟨.slnil,rfl⟩
  | cons p ps ih =>
    rw [List.flatMap_cons,List.flatMap_cons]
    cases p with
    | literal text =>
      obtain ⟨hsublist,hlength⟩ := ih h
      rw [pieceTokens,Token.weave_chars,Delimiters.source]
      refine ⟨(List.Sublist.refl text).append hsublist,?_⟩
      rw [List.count_cons_of_ne (by simp),List.length_append,List.length_append]
      omega
    | escapedOpening =>
      obtain ⟨hsublist,hlength⟩ := ih h
      rw [pieceTokens,Token.weave_chars,Delimiters.source,hd,Escapes.mark,List.nil_append]
      refine ⟨((List.Sublist.refl s.opening).append hsublist).cons '\\',?_⟩
      rw [List.count_cons_self,List.length_append,List.length_append,List.length_cons]
      omega
    | span parts => simp at h

end Scanner

namespace Context
variable {c : Configuration} {text : String}

private theorem scanText_of_substitution (h : Node.hasSubstitution text = true) (context : Context) :
    context.scanText c text = context.apply c (.text text) := by
  have hspans : (Scanner.substitutions.spans text.toList).isEmpty = false := by
    simpa [Node.hasSubstitution,Scanner.hasSpan] using h
  have hrun := Node.run_mapM_evaluate c (Scanner.substitutions.spans text.toList) context.env
  rw [hspans,if_neg Bool.false_ne_true] at hrun
  rw [apply,Node.render,Node.renderText_of_substitution c h,scanText,Scanner.replaceM_eq_mapM,ExceptT.run_map,
    StateT.run_map,hrun]
  cases (Scanner.substitutions.spans text.toList).mapM
    (Node.substitute c (Node.exposeScalar context.env).bindings) with
  | error e => rfl
  | ok texts =>
    simp only [Rendered.write,Rendered.text,List.flatten_cons,List.flatten_nil,List.append_nil]
    rfl

private theorem scanText_of_no_substitution (h : Node.hasSubstitution text = false) (context : Context) :
    context.scanText c text =
      (context.append (Token.weave (Scanner.substitutions.tokens text.toList) []),.ok true) := by
  have hspans : Scanner.substitutions.spans text.toList = [] := by
    simpa [Node.hasSubstitution,Scanner.hasSpan] using h
  rw [scanText,Scanner.replaceM_eq_mapM,hspans]
  rfl

/-- Rendering a template text is scanning it exactly when the text has a substitution or no escaped opening delimiter.
A text without substitutions is written as it is, where a scan would take away one character, the backslash, of each
of its escaped opening delimiters. -/
theorem apply_text_eq_scanText_iff (c : Configuration) (text : String) (context : Context) :
    (context.apply c (.text text) = context.scanText c text ↔
      Node.hasSubstitution text = true ∨ Piece.escapedOpening ∉ Scanner.substitutions.pieces text.toList) ∧
    (Node.hasSubstitution text = false →
      context.apply c (.text text) = (context.append text.toList,.ok true) ∧
      ∃ scanned, context.scanText c text = (context.append scanned,.ok true) ∧ scanned.Sublist text.toList ∧
        scanned.length+(Scanner.substitutions.pieces text.toList).count .escapedOpening = text.toList.length) := by
  have hplain (h : Node.hasSubstitution text = false) :
      context.apply c (.text text) = (context.append text.toList,.ok true) ∧
      ∃ scanned, context.scanText c text = (context.append scanned,.ok true) ∧ scanned.Sublist text.toList ∧
        scanned.length+(Scanner.substitutions.pieces text.toList).count .escapedOpening = text.toList.length := by
    have hspans : Scanner.substitutions.spans text.toList = [] := by
      simpa [Node.hasSubstitution,Scanner.hasSpan] using h
    refine ⟨?_,_,scanText_of_no_substitution h context,Scanner.weave_of_no_span rfl hspans⟩
    simp [apply,Node.render,Node.renderText,h,Rendered.write,Rendered.text,append]
  refine ⟨?_,hplain⟩
  cases h : Node.hasSubstitution text with
  | true => simp [scanText_of_substitution h]
  | false =>
    obtain ⟨hwritten,scanned,hscanned,hsublist,hlength⟩ := hplain h
    rw [hwritten,hscanned]
    constructor
    · intro heq
      have hsame : text.toList = scanned := by simpa [append] using heq
      rw [← hsame] at hlength
      right
      rw [← List.count_eq_zero]
      omega
    · intro hagree
      have hnone := List.count_eq_zero.mpr (hagree.resolve_left Bool.false_ne_true)
      rw [hsublist.eq_of_length (by omega)]

/-- The opening delimiter of the text is escaped. It keeps its backslash, which a scan would drop, as the rendering does
when a substitution stands beside it. -/
theorem escaped_opening_kept :
    let context := Context.ofArgument (.map [("y",.int 1)]) none
    (context.apply .standard (.text "\\$\x7bx\x7d")).1.written = "\\$\x7bx\x7d".toList ∧
      (context.scanText .standard "\\$\x7bx\x7d").1.written = "$\x7bx\x7d".toList ∧
      (context.apply .standard (.text "\\$\x7bx\x7d $\x7by\x7d")).1.written = "$\x7bx\x7d 1".toList := by
  decide +kernel

end Context
end SqlTemplate
