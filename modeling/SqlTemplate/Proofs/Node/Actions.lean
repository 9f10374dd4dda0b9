import SqlTemplate.Proofs.Lexical.Scope
/-!
# The actions of a rendering

A rendering names a scalar argument, reads the values of substitutions, enters iterations and leaves repetitions.
Its actions are listed in the order in which they happen, up to the point where it fails. They are a run from the
environment that the rendering starts from to the one that it reaches. What is shown of texts, of one rendering after
another and of entering and leaving holds of the actions of every tree.
-/
namespace SqlTemplate
open Repetition (manufactured indexValue)

structure Iteration where
  number : Nat
  repetition : Repetition
  position : Nat
  entry : Entry

inductive Action
  | expose (argument : Value)
  /-- The text of a value, whether it may be written or not. -/
  | substitute (text : String)
  | enter (i : Iteration)
  | leave (r : Repetition)

namespace Environment

/-- What each action does to an environment. Only repetitions of a kind are entered and left. -/
inductive Step (kind : Repetition → Prop) : Environment → Action → Environment → Prop
  | expose {env : Environment} (h : env.bindings.parameter.isSimple = true) :
    Step kind env (.expose env.bindings.parameter) (env.bind Bindings.scalarName env.bindings.parameter)
  | substitute (env : Environment) (text : String) : Step kind env (.substitute text) env
  | enter {r : Repetition} (h : kind r) (position : Nat) (e : Entry) (env : Environment) :
    Step kind env (.enter ⟨env.counter,r,position,e⟩) (r.enter position e env)
  | leave {r : Repetition} (h : kind r) (env : Environment) : Step kind env (.leave r) (r.leave env)

inductive Run (kind : Repetition → Prop) : Environment → List Action → Environment → Prop
  | nil (env : Environment) : Run kind env [] env
  | cons {env env' env'' : Environment} {a : Action} {as : List Action} (hstep : Step kind env a env')
    (hrun : Run kind env' as env'') : Run kind env (a :: as) env''

namespace Run
variable {kind : Repetition → Prop} {env env' env'' : Environment} {a : Action} {as bs : List Action}

private theorem single (h : Step kind env a env') : Run kind env [a] env' := .cons h (.nil env')

theorem append (h : Run kind env as env') (h' : Run kind env' bs env'') : Run kind env (as ++ bs) env'' := by
  induction h with
  | nil env => exact h'
  | cons hstep _ ih => exact .cons hstep (ih h')

end Run
end Environment

namespace Rendered

/-- The actions after a rendering: there are none when it failed. -/
def followed (r : Rendered) (next : Environment → List Action) : List Action :=
  match r.outcome with
  | .error _ => []
  | .ok _ => next r.env

theorem andThen_ok {r : Rendered} {next : Environment → Rendered} {produced : Bool}
    (h : (r.andThen next).outcome = .ok produced) :
    (∃ first, r.outcome = .ok first) ∧ (next r.env).outcome = .ok produced := by
  cases hr : r.outcome with
  | error e => simp [andThen,hr] at h
  | ok first => exact ⟨⟨first,rfl⟩,by simpa [andThen,hr] using h⟩

theorem chunks_andThen {r : Rendered} {produced : Bool} (h : r.outcome = .ok produced)
    (next : Environment → Rendered) : (r.andThen next).chunks = r.chunks ++ (next r.env).chunks := by
  simp [andThen,h]

private theorem env_write?_andThen (text : Option String) (env : Environment) (next : Environment → Rendered) :
    ((write? text env).andThen next).env = (next env).env := by
  cases text <;> rfl

theorem outcome_write?_andThen (text : Option String) (env : Environment) (next : Environment → Rendered) :
    ((write? text env).andThen next).outcome = (next env).outcome := by
  cases text <;> rfl

theorem chunks_write?_andThen (text : Option String) (env : Environment) (next : Environment → Rendered) :
    ((write? text env).andThen next).chunks = text.toList.map String.toList ++ (next env).chunks := by
  cases text <;> rfl

private theorem followed_write?_andThen (text : Option String) (env : Environment) (next : Environment → Rendered)
    (following : Environment → List Action) :
    ((write? text env).andThen next).followed following = (next env).followed following := by
  rw [followed,env_write?_andThen,outcome_write?_andThen,followed]

end Rendered

namespace Repetition

def iterateActions (r : Repetition) (body : Environment → Rendered) (actions : Environment → List Action) :
    List Entry → Nat → Environment → List Action
  | [], _, _ => []
  | e :: es, position, env =>
    let inside := r.enter position e env
    .enter ⟨env.counter,r,position,e⟩ ::
      (actions inside ++ (body inside).followed (r.iterateActions body actions es (position+1)))

def entriesActions (r : Repetition) (body : Environment → Rendered) (actions : Environment → List Action)
    (entries : List Entry) (env : Environment) : List Action :=
  if entries.isEmpty then []
  else r.iterateActions body actions entries 0 env ++
    (r.iterate body entries 0 false env).followed fun _ => [.leave r]

end Repetition

namespace Node

/-- The texts of substitutions, from the left. Where an evaluation fails or a text is not accepted, the rest is
not evaluated. -/
def substitutedTexts (c : Configuration) (b : Bindings) : List (List Char) → List String
  | [] => []
  | content :: contents =>
    match c.evaluator.evaluate (String.ofList content) b with
    | .error _ => []
    | .ok v => v.text ::
      match substitute c b content with
      | .error _ => []
      | .ok _ => substitutedTexts c b contents

def exposeActions (env : Environment) : List Action :=
  let parameter := env.bindings.parameter
  if parameter.isSimple then [.expose parameter] else []

def textActions (c : Configuration) (text : String) (env : Environment) : List Action :=
  if hasSubstitution text then
    exposeActions env ++ (substitutedTexts c (exposeScalar env).bindings
      (Scanner.substitutions.spans text.toList)).map .substitute
  else []

mutual

/-- What a tree does when it is rendered from an environment. -/
def actions (c : Configuration) : Node → Environment → List Action
  | .text s, env => textActions c s env
  | .conditional test body, env =>
    match c.evaluator.test test env.bindings with
    | .ok true => actions c body env
    | _ => []
  | .repetition r body, env =>
    match c.evaluator.collect r.collection env.bindings with
    | .ok entries => r.entriesActions (render c body) (actions c body) entries env
    | .error _ => []
  | .trim _ body, env => actions c body env
  | .sequence nodes, env => actionsAll c nodes env

def actionsAll (c : Configuration) : List Node → Environment → List Action
  | [], _ => []
  | n :: ns, env => actions c n env ++ (render c n env).followed (actionsAll c ns)

end

mutual

def repetitions : Node → List Repetition
  | .text _ => []
  | .conditional _ body => repetitions body
  | .repetition r body => r :: repetitions body
  | .trim _ body => repetitions body
  | .sequence nodes => allRepetitions nodes

def allRepetitions : List Node → List Repetition
  | [] => []
  | n :: ns => repetitions n ++ allRepetitions ns

end

def loopNames (root : Node) : List String := root.repetitions.flatMap Repetition.names

theorem mem_loopNames {root : Node} {r : Repetition} (h : r ∈ root.repetitions) {name : String}
    (hn : name ∈ r.names) : name ∈ root.loopNames :=
  List.mem_flatMap.mpr ⟨r,h,hn⟩

end Node

namespace Node

/-- A property of actions, of the environments that they lead from and to, and of the outcome of the rendering that
takes them: it holds of texts, and goes on from one rendering to the next. -/
structure Sequential (c : Configuration)
    (P : Environment → List Action → Environment → Except Error Bool → Prop) : Prop where
  nothing : ∀ env outcome, P env [] env outcome
  text : ∀ s env, P env (textActions c s env) (renderText c s env).env (renderText c s env).outcome
  answering : ∀ {env as env' outcome} (produced : Bool), P env as env' outcome →
    P env as env' (outcome.map fun _ => produced)
  andThen : ∀ {env as} {r : Rendered} {next : Environment → Rendered} {following : Environment → List Action},
    P env as r.env r.outcome → (∀ env', P env' (following env') (next env').env (next env').outcome) →
      P env (as ++ r.followed following) (r.andThen next).env (r.andThen next).outcome

structure Compositional (c : Configuration) (kind : Repetition → Prop)
    (P : Environment → List Action → Environment → Except Error Bool → Prop) : Prop extends Sequential c P where
  entries : ∀ {r : Repetition} {body : Environment → Rendered} {actions : Environment → List Action}, kind r →
    (∀ env, P env (actions env) (body env).env (body env).outcome) → ∀ entries env,
      P env (r.entriesActions body actions entries env) (r.renderEntries body entries env).env
        (r.renderEntries body entries env).outcome

section
variable {c : Configuration} {kind : Repetition → Prop}
  {P : Environment → List Action → Environment → Except Error Bool → Prop}

theorem Sequential.compositional (h : Sequential c P)
    (enter : ∀ {r : Repetition} {position e env as env' outcome}, kind r →
      P (r.enter position e env) as env' outcome → P env (.enter ⟨env.counter,r,position,e⟩ :: as) env' outcome)
    (leave : ∀ {r : Repetition} (env outcome), kind r → P env [.leave r] (r.leave env) outcome) :
    Compositional c kind P := by
  refine ⟨h,?_⟩
  intro r body actions hr hbody entries env
  have hiterate (entries : List Entry) (position : Nat) (started : Bool) (env : Environment) :
      P env (r.iterateActions body actions entries position env)
        (r.iterate body entries position started env).env
        (r.iterate body entries position started env).outcome := by
    induction entries generalizing position started env with
    | nil => exact h.nothing env _
    | cons e es ih =>
      let iteration := (body (r.enter position e env)).mapChunks (·.map (r.renameMarkers env.counter))
      have hiteration : P (r.enter position e env) (actions (r.enter position e env))
          (iteration.mapChunks (r.place started)).env (iteration.mapChunks (r.place started)).outcome := hbody _
      exact enter hr (h.andThen hiteration fun env' => ih (position+1) _ env')
  unfold Repetition.entriesActions Repetition.renderEntries
  split
  · exact h.nothing env _
  · have hloop : P env (r.iterateActions body actions entries 0 env)
        ((Rendered.write? r.opening env).andThen (r.iterate body entries 0 false)).env
        ((Rendered.write? r.opening env).andThen (r.iterate body entries 0 false)).outcome := by
      rw [Rendered.env_write?_andThen,Rendered.outcome_write?_andThen]
      exact hiterate entries 0 false env
    rw [← Rendered.followed_write?_andThen r.opening]
    refine h.andThen hloop fun env' => ?_
    rw [Rendered.env_write?_andThen,Rendered.outcome_write?_andThen]
    exact leave env' _ hr

mutual

/-- A compositional property holds of every tree with repetitions of the kind. -/
theorem Compositional.of_tree (h : Compositional c kind P) : (root : Node) → (∀ r ∈ root.repetitions, kind r) →
    (env : Environment) → P env (root.actions c env) (root.render c env).env (root.render c env).outcome
  | .text s, _, env => h.text s env
  | .conditional test body, hr, env => by
    unfold actions render renderConditional
    cases c.evaluator.test test env.bindings with
    | error e => exact h.nothing env _
    | ok holds =>
      cases holds with
      | false => exact h.nothing env _
      | true => exact h.answering true (h.of_tree body hr env)
  | .repetition r body, hr, env => by
    unfold actions render renderRepetition
    cases c.evaluator.collect r.collection env.bindings with
    | error e => exact h.nothing env _
    | ok entries =>
      obtain ⟨hkind,hbody⟩ := List.forall_mem_cons.mp hr
      exact h.entries hkind (h.of_tree body hbody) entries env
  | .trim t body, hr, env => by
    have hbody := h.of_tree body hr env
    unfold actions render renderTrim
    simp only
    split <;> exact hbody
  | .sequence nodes, hr, env => h.of_trees nodes hr env

private theorem Compositional.of_trees (h : Compositional c kind P) :
    (nodes : List Node) → (∀ r ∈ allRepetitions nodes, kind r) →
    (env : Environment) → P env (actionsAll c nodes env) (renderAll c nodes env).env (renderAll c nodes env).outcome
  | [], _, env => h.nothing env _
  | n :: ns, hr, env => by
    obtain ⟨hn,hns⟩ := List.forall_mem_append.mp hr
    exact h.andThen (h.of_tree n hn env) (h.of_trees ns hns)

end
end
end Node

namespace Environment.Run
variable {kind : Repetition → Prop} {env : Environment}

theorem andThen {r : Rendered} {next : Environment → Rendered} {as : List Action}
    {following : Environment → List Action} (h : Run kind env as r.env)
    (hn : ∀ env, Run kind env (following env) (next env).env) :
    Run kind env (as ++ r.followed following) (r.andThen next).env := by
  unfold Rendered.followed Rendered.andThen
  cases r.outcome with
  | error e => simpa using h
  | ok produced => exact h.append (hn r.env)

theorem textActions (c : Configuration) (text : String) (env : Environment) :
    Run kind env (Node.textActions c text env) (Node.renderText c text env).env := by
  have hexposed : Run kind env (Node.exposeActions env) (Node.exposeScalar env) := by
    unfold Node.exposeActions Node.exposeScalar
    by_cases hs : env.bindings.parameter.isSimple = true
    · simpa [hs] using single (.expose hs)
    · simpa [hs] using Run.nil env
  have hsubstituted (texts : List String) (env : Environment) : Run kind env (texts.map .substitute) env := by
    induction texts with
    | nil => exact .nil env
    | cons text texts ih => exact .cons (.substitute env text) ih
  unfold Node.textActions Node.renderText
  split
  · have hrun := hexposed.append (hsubstituted (Node.substitutedTexts c (Node.exposeScalar env).bindings
      (Scanner.substitutions.spans text.toList)) _)
    simp only
    split <;> exact hrun
  · exact .nil env

end Environment.Run

namespace Node
open Environment

/-- The actions of a tree lead to the environment that its rendering reaches. -/
theorem run_actions {kind : Repetition → Prop} (c : Configuration) (root : Node)
    (h : ∀ r ∈ root.repetitions, kind r) (env : Environment) :
    Run kind env (root.actions c env) (root.render c env).env := by
  have hrun : Sequential c fun env as env' _ => Run kind env as env' :=
    ⟨fun env _ => .nil env,Run.textActions c,fun _ h => h,Run.andThen⟩
  refine (hrun.compositional ?_ ?_).of_tree root h env
  · intro r position e env as env' _ hr hrest
    exact .cons (.enter hr position e env) hrest
  · intro r env _ hr
    exact .single (.leave hr env)

end Node
end SqlTemplate
