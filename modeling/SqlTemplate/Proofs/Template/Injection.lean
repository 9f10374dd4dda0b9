import SqlTemplate.Proofs.Node.Actions
import SqlTemplate.Proofs.Placeholder.Drafts
import SqlTemplate.Proofs.Scan.Encoding
import SqlTemplate.Proofs.Template.Anchoring
import SqlTemplate.Template
/-!
# Filtered substitutions

Every text that a tree substitutes has passed the injection filter, or the rendering has stopped at it with an
error. What the filter of a pattern lets pass is what the pattern matches in full, if the pattern is a regular
expression by itself.
-/
namespace SqlTemplate

namespace Action

def text? : Action → Option String
  | .substitute text => some text
  | .expose _ | .enter _ | .leave _ => none

end Action

def textsOf (as : List Action) : List String := as.filterMap Action.text?

@[simp] theorem textsOf_append (as bs : List Action) : textsOf (as ++ bs) = textsOf as ++ textsOf bs :=
  List.filterMap_append

@[simp] theorem textsOf_substitutes (texts : List String) : textsOf (texts.map .substitute) = texts := by
  induction texts with
  | nil => rfl
  | cons text texts ih =>
    exact congrArg (text :: ·) ih

/-- Every substituted text is accepted, or it is the one that the rendering has failed at. -/
def InjectionFilter.Guards (f : InjectionFilter) (as : List Action) (outcome : Except Error Bool) : Prop :=
  ∀ text ∈ textsOf as, f.accepts text = true ∨ outcome = .error (.injection text f.pattern)

namespace InjectionFilter.Guards
variable {f : InjectionFilter}

private theorem of_no_texts {as : List Action} (h : textsOf as = []) (outcome : Except Error Bool) :
    f.Guards as outcome := by
  intro text ht
  simp [h] at ht

theorem andThen {as : List Action} {r : Rendered} {next : Environment → Rendered}
    {following : Environment → List Action} (h : f.Guards as r.outcome)
    (hn : ∀ env, f.Guards (following env) (next env).outcome) :
    f.Guards (as ++ r.followed following) (r.andThen next).outcome := by
  intro text ht
  unfold Rendered.followed at ht
  unfold Rendered.andThen
  cases ho : r.outcome with
  | error e =>
    simp only [ho,List.append_nil] at ht
    simpa [ho] using h text ht
  | ok produced =>
    simp only [ho,textsOf_append,List.mem_append] at ht
    rcases ht with ht | ht
    · exact .inl ((h text ht).resolve_right (by simp [ho]))
    · exact hn r.env text ht

end InjectionFilter.Guards

namespace Node
variable {c : Configuration} {f : InjectionFilter}

private theorem substitute_of_filter (hf : c.injectionFilter = some f) {b : Bindings} {content : List Char} {v : Value}
    (hv : c.evaluator.evaluate (String.ofList content) b = .ok v) : substitute c b content =
      if f.accepts v.text then .ok v.text.toList else .error (.injection v.text f.pattern) := by
  simp only [substitute,hv,hf]

private theorem substitute_ok {b : Bindings} {content text : List Char} (h : substitute c b content = .ok text) :
    ∃ v, c.evaluator.evaluate (String.ofList content) b = .ok v ∧ text = v.text.toList := by
  unfold substitute at h
  simp only at h
  split at h
  · contradiction
  · next v hv =>
    refine ⟨v,hv,?_⟩
    split at h
    · exact (Except.ok.inj h).symm
    · split at h
      · exact (Except.ok.inj h).symm
      · contradiction

private theorem mapM_substitute_ok {b : Bindings} {contents texts : List (List Char)}
    (h : contents.mapM (substitute c b) = .ok texts) :
    texts = (substitutedTexts c b contents).map String.toList := by
  induction contents generalizing texts with
  | nil => exact (Except.ok.inj h).symm
  | cons content contents ih =>
    rw [List.mapM_cons] at h
    obtain ⟨text,ht,h⟩ := bind_eq_ok h
    obtain ⟨rest,hrest,h⟩ := bind_eq_ok h
    obtain ⟨v,hv,rfl⟩ := substitute_ok ht
    obtain rfl := Except.ok.inj h
    simp [substitutedTexts,hv,ht,ih hrest]

private theorem textsOf_textActions (c : Configuration) {text : String} (hs : hasSubstitution text = true)
    (env : Environment) : textsOf (textActions c text env) =
      substitutedTexts c (exposeScalar env).bindings (Scanner.substitutions.spans text.toList) := by
  have hexpose : textsOf (exposeActions env) = [] := by
    unfold exposeActions
    simp only
    split <;> rfl
  rw [textActions,if_pos hs,textsOf_append,hexpose,textsOf_substitutes,List.nil_append]

theorem renderText_of_substitution (c : Configuration) {text : String} (hs : hasSubstitution text = true)
    (env : Environment) : renderText c text env =
      match (Scanner.substitutions.spans text.toList).mapM (substitute c (exposeScalar env).bindings) with
      | .ok texts => .write (Token.weave (Scanner.substitutions.tokens text.toList) texts) (exposeScalar env)
      | .error e => .failed e (exposeScalar env) := by
  rw [renderText,if_pos hs]
  simp only [Scanner.replaceM_eq_mapM]
  cases (Scanner.substitutions.spans text.toList).mapM (substitute c (exposeScalar env).bindings) <;> rfl

private theorem text_render_text {text : String} {env : Environment} {produced : Bool}
    (hs : hasSubstitution text = true) (h : ((Node.text text).render c env).outcome = .ok produced) :
    ((Node.text text).render c env).text = Token.weave (Scanner.substitutions.tokens text.toList)
      ((textsOf ((Node.text text).actions c env)).map String.toList) := by
  rw [render,renderText_of_substitution c hs] at h ⊢
  rw [actions,textsOf_textActions c hs]
  cases hm : (Scanner.substitutions.spans text.toList).mapM (substitute c (exposeScalar env).bindings) with
  | error e => simp [hm,Rendered.failed] at h
  | ok texts => simp [Rendered.write,Rendered.text,mapM_substitute_ok hm]

private theorem guards_mapM (hf : c.injectionFilter = some f) (b : Bindings) (contents : List (List Char)) :
    ∀ text ∈ substitutedTexts c b contents, f.accepts text = true ∨
      contents.mapM (substitute c b) = .error (.injection text f.pattern) := by
  induction contents with
  | nil => simp [substitutedTexts]
  | cons content contents ih =>
    intro text ht
    rw [substitutedTexts] at ht
    rw [List.mapM_cons]
    cases hv : c.evaluator.evaluate (String.ofList content) b with
    | error e => simp [hv] at ht
    | ok v =>
      have hs := substitute_of_filter hf hv
      by_cases ha : f.accepts v.text = true
      · rw [if_pos ha] at hs
        simp only [hv,hs,List.mem_cons] at ht
        rcases ht with rfl | ht
        · exact .inl ha
        · refine (ih text ht).imp_right fun he => ?_
          simp [hs,he,bind,Except.bind]
      · rw [if_neg ha] at hs
        simp only [hv,hs,List.mem_singleton] at ht
        subst ht
        exact .inr (by simp [hs,bind,Except.bind])

private theorem guards_textActions (hf : c.injectionFilter = some f) (text : String) (env : Environment) :
    f.Guards (textActions c text env) (renderText c text env).outcome := by
  by_cases hs : hasSubstitution text = true
  · intro written hw
    rw [textsOf_textActions c hs] at hw
    refine (guards_mapM hf _ _ written hw).imp_right fun he => ?_
    rw [renderText_of_substitution c hs,he]
    rfl
  · exact .of_no_texts (by simp [textActions,hs,textsOf]) _

/-- A tree stops at the first text that the filter does not accept. -/
theorem guards_actions (hf : c.injectionFilter = some f) (root : Node) (env : Environment) :
    f.Guards (root.actions c env) (root.render c env).outcome := by
  have hguards : Sequential c fun _ as _ outcome => f.Guards as outcome := by
    refine ⟨fun _ => .of_no_texts rfl,guards_textActions hf,?_,.andThen⟩
    intro env as env' outcome produced h text ht
    refine (h text ht).imp_right fun ho => ?_
    rw [ho]
    rfl
  refine (hguards.compositional ?_ ?_).of_tree root (fun _ _ => trivial) env
  · intro r position e env as env' outcome _ h
    exact h
  · intro r env outcome _
    exact .of_no_texts rfl outcome

/-- The texts that are substituted when a tree is compiled with an argument. -/
def substitutions (c : Configuration) (root : Node) (argument : Value) : List String :=
  textsOf (root.actions c (.ofArgument argument c.databaseId))

mutual

private theorem textsOf_actions_of_static (c : Configuration) : (root : Node) → root.isDynamic = false →
    (env : Environment) → textsOf (root.actions c env) = []
  | .text s, h, env => by
    have hs : hasSubstitution s = false := by simp_all [isDynamic,hasMarker]
    simp [actions,textActions,hs,textsOf]
  | .sequence nodes, h, env => textsOf_actionsAll_of_static c nodes h env
  | .conditional _ _, h, _ | .repetition _ _, h, _ | .trim _ _, h, _ => by simp [isDynamic] at h

private theorem textsOf_actionsAll_of_static (c : Configuration) : (nodes : List Node) → anyDynamic nodes = false →
    (env : Environment) → textsOf (actionsAll c nodes env) = []
  | [], _, _ => rfl
  | n :: ns, h, env => by
    rw [anyDynamic,Bool.or_eq_false_iff] at h
    rw [actionsAll,textsOf_append,textsOf_actions_of_static c n h.1 env,List.nil_append,Rendered.followed]
    split
    · rfl
    · exact textsOf_actionsAll_of_static c ns h.2 _

end
end Node

private theorem Template.compile_of_rejected {c : Configuration} {f : InjectionFilter} (hf : c.injectionFilter = some f)
    {root : Node} (declared : Option ValueType) {argument : Value} {text : String}
    (ht : text ∈ root.substitutions c argument) (ha : f.accepts text ≠ true) :
    (ofNode c root declared).bind (·.compile c argument) = .error (.injection text f.pattern) := by
  have hrender := (Node.guards_actions hf root _ text ht).resolve_left ha
  have hdynamic : root.isDynamic = true := by
    rw [← Bool.not_eq_false]
    intro hstatic
    rw [Node.substitutions,Node.textsOf_actions_of_static c root hstatic] at ht
    simp at ht
  simp only [ofNode,hdynamic,if_true,compile,compileNode,Context.apply,Context.ofArgument,bind,Except.bind,pure,
    Except.pure,hrender]

namespace InjectionFilter

/-- The filter lets pass what an expression matches in full: a compile that succeeds has substituted matched texts
only, and at a text that is not matched it fails with an injection error. -/
structure Enforces (f : InjectionFilter) (l : RegexLanguage) : Prop where
  matchesWhole : ∀ (c : Configuration) (root : Node) (declared : Option ValueType) (argument : Value) (b : BoundSql),
    c.injectionFilter = some f → (Template.ofNode c root declared).bind (·.compile c argument) = .ok b →
      ∀ text ∈ root.substitutions c argument, l.MatchesWhole text
  rejects : ∀ (c : Configuration) (root : Node) (declared : Option ValueType) (argument : Value),
    c.injectionFilter = some f → ∀ text ∈ root.substitutions c argument, ¬l.MatchesWhole text →
      (Template.ofNode c root declared).bind (·.compile c argument) = .error (.injection text f.pattern)

private theorem Enforces.of_accepts {f : InjectionFilter} {l : RegexLanguage}
    (h : ∀ text, f.accepts text = true ↔ l.MatchesWhole text) : f.Enforces l := by
  refine ⟨?_,?_⟩
  · intro c root declared argument b hf hb text ht
    by_cases ha : f.accepts text = true
    · exact (h text).mp ha
    · rw [Template.compile_of_rejected hf declared ht ha] at hb
      contradiction
  · intro c root declared argument hf text ht hm
    exact Template.compile_of_rejected hf declared ht fun ha => hm ((h text).mp ha)

/-- The filter of a pattern lets pass what the pattern, taken as an expression by itself, matches in full. This is
so exactly when the pattern is such an expression or makes no filter. What counts as substituted is what a template
text writes in the places of its substitutions. -/
theorem enforces_iff {library : RegexLibrary} {meaning? : String → Option RegexLanguage}
    (h : library.Follows meaning?) (pattern : String) :
    ((∀ f, ofPattern? library pattern = some f → ∃ l, meaning? pattern = some l ∧ f.Enforces l) ↔
      ((ofPattern? library pattern).isSome = true → (meaning? pattern).isSome = true)) ∧
    ∀ (c : Configuration) (text : String) (env : Environment) (produced : Bool),
      Node.hasSubstitution text = true → ((Node.text text).render c env).outcome = .ok produced →
        ((Node.text text).render c env).text = Token.weave (Scanner.substitutions.tokens text.toList)
          ((textsOf ((Node.text text).actions c env)).map String.toList) := by
  refine ⟨⟨?_,?_⟩,?_⟩
  · intro henforced hsome
    obtain ⟨f,hf⟩ := Option.isSome_iff_exists.mp hsome
    obtain ⟨l,hl,-⟩ := henforced f hf
    rw [hl,Option.isSome_some]
  · intro hexpression f hf
    obtain ⟨l,hl⟩ := Option.isSome_iff_exists.mp (hexpression (by rw [hf,Option.isSome_some]))
    exact ⟨l,hl,.of_accepts (accepts_iff h hl hf)⟩
  · intro c text env produced hs ho
    exact Node.text_render_text hs ho

end InjectionFilter

namespace RegexLanguage

def literal (c : Char) : RegexLanguage := fun _ part _ => part = String.singleton c

def either (l m : RegexLanguage) : RegexLanguage := fun before part after => l before part after ∨ m before part after

private theorem matchesIn_either {l m : RegexLanguage} {text : String} :
    (either l m).MatchesIn text ↔ l.MatchesIn text ∨ m.MatchesIn text := by
  simp only [MatchesIn,either,and_or_left,exists_or]

private theorem matchesIn_literal {c : Char} {text : String} :
    (literal c).MatchesIn text ↔ c ∈ text.toList := by
  simp only [MatchesIn,literal]
  constructor
  · rintro ⟨before,part,after,rfl,rfl⟩
    simp
  · intro h
    obtain ⟨cs,ds,hcs⟩ := List.append_of_mem h
    refine ⟨String.ofList cs,String.singleton c,String.ofList ds,String.toList_inj.mp ?_,rfl⟩
    simp [hcs]

private theorem matchesIn_start_literal {c : Char} {text : String} :
    (start.seq (literal c)).MatchesIn text ↔ text.toList.head? = some c := by
  simp only [MatchesIn,start_seq,literal]
  constructor
  · rintro ⟨before,part,after,rfl,rfl,rfl⟩
    simp
  · intro h
    obtain ⟨cs,hcs⟩ := List.head?_eq_some_iff.mp h
    refine ⟨"",String.singleton c,String.ofList cs,String.toList_inj.mp ?_,rfl,rfl⟩
    simp [hcs]

private theorem matchesIn_literal_finish {c : Char} {text : String} :
    ((literal c).seq finish).MatchesIn text ↔ text.toList.getLast? = some c := by
  simp only [MatchesIn,seq_finish,literal]
  constructor
  · rintro ⟨before,part,after,rfl,rfl,rfl⟩
    simp
  · intro h
    obtain ⟨cs,hcs⟩ := List.getLast?_eq_some_iff.mp h
    refine ⟨String.ofList cs,String.singleton c,"",String.toList_inj.mp ?_,rfl,rfl⟩
    simp [hcs]

/-- The meaning of three patterns: `a|b`, the same in a group between anchors, and two groups with one anchor each. -/
def ofLetters? (pattern : String) : Option RegexLanguage :=
  if pattern = "a|b" then some (either (literal 'a') (literal 'b'))
  else if pattern = "^(?:a|b)$" then some ((start.seq (either (literal 'a') (literal 'b'))).seq finish)
  else if pattern = "^(?:a)|(b)$" then some (either (start.seq (literal 'a')) ((literal 'b').seq finish))
  else none

end RegexLanguage

namespace RegexLibrary

def letters : RegexLibrary where
  Regex := String → Bool
  compile? pattern :=
    if pattern = "a|b" then some fun text => text.toList.contains 'a' || text.toList.contains 'b'
    else if pattern = "^(?:a|b)$" then some fun text => text = "a" || text = "b"
    else if pattern = "^(?:a)|(b)$" then
      some fun text => text.toList.head? = some 'a' || text.toList.getLast? = some 'b'
    else none
  isMatch regex := regex

private theorem letters_follows : letters.Follows RegexLanguage.ofLetters? := by
  refine ⟨?_,?_⟩
  · intro pattern regex h
    simp only [letters] at h
    unfold RegexLanguage.ofLetters?
    split at h
    · next hp =>
      obtain rfl := Option.some.inj h
      refine ⟨_,if_pos hp,fun text => ?_⟩
      rw [RegexLanguage.matchesIn_either]
      simp [letters,RegexLanguage.matchesIn_literal]
    split at h
    · next hp hgroup =>
      obtain rfl := Option.some.inj h
      refine ⟨_,by rw [if_neg hp,if_pos hgroup],fun text => ?_⟩
      rw [RegexLanguage.matchesIn_anchored]
      simp [letters,RegexLanguage.MatchesWhole,RegexLanguage.either,RegexLanguage.literal]
    split at h
    · next hp hgroup hpasted =>
      obtain rfl := Option.some.inj h
      refine ⟨_,by rw [if_neg hp,if_neg hgroup,if_pos hpasted],fun text => ?_⟩
      rw [RegexLanguage.matchesIn_either]
      simp [letters,RegexLanguage.matchesIn_start_literal,RegexLanguage.matchesIn_literal_finish]
    · contradiction
  · intro pattern l m hl hm
    unfold RegexLanguage.ofLetters? at hl
    split at hl
    · next hp =>
      subst hp
      obtain rfl := Option.some.inj hl
      exact (Option.some.inj hm).symm
    split at hl
    · next hp =>
      subst hp
      simp [RegexLanguage.ofLetters?,InjectionFilter.anchored] at hm
    split at hl
    · next hp =>
      subst hp
      simp [RegexLanguage.ofLetters?,InjectionFilter.anchored] at hm
    · contradiction

end RegexLibrary

namespace InjectionFilter

/-- The law holds of the filter of `a|b`. It fails for a pattern that closes the parenthesis of the anchored one and
opens it again: that is no expression, but makes a filter. -/
theorem enforces_iff_letters :
    let c := { Configuration.standard with injectionFilter := ofPattern? .letters "a|b" }
    let text := "order by $\x7bx\x7d"
    let env := Environment.ofArgument (.map [("x",.string "b")]) none
    RegexLibrary.letters.Follows RegexLanguage.ofLetters? ∧
      (∃ f l, c.injectionFilter = some f ∧ RegexLanguage.ofLetters? "a|b" = some l ∧ f.Enforces l) ∧
      (¬∀ f, ofPattern? .letters "a)|(b" = some f →
        ∃ l, RegexLanguage.ofLetters? "a)|(b" = some l ∧ f.Enforces l) ∧
      "order by b".toList = Token.weave (Scanner.substitutions.tokens text.toList)
        ((textsOf ((Node.text text).actions c env)).map String.toList) := by
  intro c text env
  have hletters := RegexLibrary.letters_follows
  refine ⟨hletters,?_,?_,?_⟩
  · obtain ⟨l,hl,henforces⟩ := (enforces_iff hletters "a|b").1.mpr (fun _ => rfl) _ rfl
    exact ⟨_,l,rfl,hl,henforces⟩
  · intro h
    have hexpression := (enforces_iff hletters "a)|(b").1.mp h rfl
    exact absurd hexpression (by decide)
  · have hwritten : ((Node.text text).render c env).text = "order by b".toList := by decide +kernel
    have hok : ((Node.text text).render c env).outcome = .ok true := toOption_eq_some.mp (by decide +kernel)
    rw [← hwritten]
    exact (enforces_iff hletters "a|b").2 c text env true (by decide +kernel) hok

/-- A pattern that closes the parenthesis of the anchored one and opens it again. It is no expression, but makes a
filter, which lets pass whatever begins with an `a`. -/
theorem unbalanced_pattern_accepted :
    let pattern := "a)|(b"
    let c := { Configuration.standard with injectionFilter := ofPattern? .letters pattern }
    let root := Node.text "$\x7bx\x7d"
    let argument : Value := .map [("x",.string "a; drop table t")]
    RegexLibrary.letters.Follows RegexLanguage.ofLetters? ∧
      (ofPattern? .letters pattern).isSome = true ∧ (RegexLanguage.ofLetters? pattern).isSome = false ∧
      root.substitutions c argument = ["a; drop table t"] ∧
      (compile c root argument).toOption.map BoundSql.sql = some "a; drop table t" := by
  refine ⟨RegexLibrary.letters_follows,?_⟩
  decide +kernel

end InjectionFilter
end SqlTemplate
