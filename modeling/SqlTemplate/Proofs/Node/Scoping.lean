import SqlTemplate.Proofs.Node.Frame
import SqlTemplate.Template
/-!
# The scope of loop variables

A repetition unbinds its loop variables behind its last iteration. A name that was bound around it keeps its value
exactly when no loop that has run uses it for a variable; otherwise it is unbound.
-/
namespace SqlTemplate
open Repetition (indexValue)

namespace Action

def loopNames : Action → List String
  | .enter i => i.repetition.names
  | .leave r => r.names
  | .expose _ | .substitute _ => []

end Action

/-- The variables of the loops that have run. -/
def usedNames (as : List Action) : List String := as.flatMap Action.loopNames

/-- Every repetition of which an iteration is entered is left later on, or it is a pending one. -/
def LeavesLoops (pending : List Repetition) : List Action → Prop
  | [] => True
  | a :: as => (∀ i, a = .enter i → i.repetition ∈ pending ∨ .leave i.repetition ∈ as) ∧ LeavesLoops pending as

namespace LeavesLoops
variable {pending : List Repetition} {as bs : List Action}

theorem append (h : LeavesLoops pending as) (h' : LeavesLoops pending bs) : LeavesLoops pending (as ++ bs) := by
  induction as with
  | nil => exact h'
  | cons a as ih =>
    refine ⟨fun i hi => ?_,ih h.2⟩
    exact (h.1 i hi).imp_right (List.mem_append_left bs)

theorem mono {pending' : List Repetition} (hp : ∀ r ∈ pending, r ∈ pending') (h : LeavesLoops pending as) :
    LeavesLoops pending' as := by
  induction as with
  | nil => trivial
  | cons a as ih => exact ⟨fun i hi => (h.1 i hi).imp_left (hp _),ih h.2⟩

theorem leave {r : Repetition} (h : LeavesLoops [r] as) : LeavesLoops [] (as ++ [.leave r]) := by
  induction as with
  | nil => exact ⟨by simp,trivial⟩
  | cons a as ih =>
    refine ⟨fun i hi => .inr ?_,ih h.2⟩
    rcases h.1 i hi with hr | hleave
    · obtain rfl : i.repetition = r := by simpa using hr
      simp
    · exact List.mem_append_left _ hleave

private theorem of_no_enter (h : ∀ i, .enter i ∉ as) : LeavesLoops pending as := by
  induction as with
  | nil => trivial
  | cons a as ih =>
    refine ⟨?_,ih fun i hi => h i (List.mem_cons_of_mem a hi)⟩
    rintro i rfl
    exact absurd (by simp) (h i)

end LeavesLoops

private theorem Rendered.followed_ok {r : Rendered} {produced : Bool} (h : r.outcome = .ok produced)
    (next : Environment → List Action) : r.followed next = next r.env := by
  simp [followed,h]

namespace Repetition
variable {r : Repetition} {body : Environment → Rendered} {actions : Environment → List Action}
  (hbody : ∀ env produced, (body env).outcome = .ok produced → LeavesLoops [] (actions env))
include hbody

private theorem leavesLoops_iterateActions {entries : List Entry} {position : Nat} {started : Bool} {env : Environment}
    {produced : Bool} (h : (r.iterate body entries position started env).outcome = .ok produced) :
    LeavesLoops [r] (r.iterateActions body actions entries position env) := by
  induction entries generalizing position started env with
  | nil => trivial
  | cons e es ih =>
    obtain ⟨⟨first,hfirst⟩,hrest⟩ := Rendered.andThen_ok h
    have hinside : (body (r.enter position e env)).outcome = .ok first := hfirst
    refine ⟨?_,?_⟩
    · rintro i hi
      obtain rfl := Action.enter.inj hi
      exact .inl (by simp)
    · rw [Rendered.followed_ok hinside]
      exact ((hbody _ _ hinside).mono (by simp)).append (ih hrest)

private theorem leavesLoops_entriesActions {entries : List Entry} {env : Environment} {produced : Bool}
    (h : (r.renderEntries body entries env).outcome = .ok produced) :
    LeavesLoops [] (r.entriesActions body actions entries env) := by
  unfold renderEntries at h
  unfold entriesActions
  split at h
  · next hempty =>
    rw [if_pos hempty]
    trivial
  · next hempty =>
    obtain ⟨⟨looped,hlooped⟩,-⟩ := Rendered.andThen_ok h
    rw [Rendered.outcome_write?_andThen] at hlooped
    rw [if_neg hempty,Rendered.followed_ok hlooped]
    exact (leavesLoops_iterateActions hbody hlooped).leave

end Repetition

namespace Node

private theorem leavesLoops_textActions (c : Configuration) (text : String) (env : Environment) :
    LeavesLoops [] (textActions c text env) := by
  apply LeavesLoops.of_no_enter
  intro i hi
  unfold textActions exposeActions at hi
  split at hi
  · rcases List.mem_append.mp hi with hi | hi
    · simp only at hi
      split at hi <;> simp at hi
    · simp at hi
  · simp at hi

private theorem leavesLoops_actions (c : Configuration) (root : Node) {env : Environment} {produced : Bool}
    (h : (root.render c env).outcome = .ok produced) : LeavesLoops [] (root.actions c env) := by
  have hleaves : Compositional c (fun _ => True) fun _ as _ outcome =>
      ∀ produced, outcome = .ok produced → LeavesLoops [] as := by
    refine ⟨⟨fun _ _ _ _ => trivial,fun s env _ _ => leavesLoops_textActions c s env,?_,?_⟩,?_⟩
    · intro env as env' outcome answer hbody produced ho
      cases outcome with
      | error e => contradiction
      | ok b => exact hbody b rfl
    · intro env as r next following hfirst hnext produced ho
      obtain ⟨⟨first,hr⟩,hrest⟩ := Rendered.andThen_ok ho
      rw [Rendered.followed_ok hr]
      exact (hfirst first hr).append (hnext _ produced hrest)
    · intro r body actions _ hbody entries env produced ho
      exact Repetition.leavesLoops_entriesActions hbody ho
  exact hleaves.of_tree root (fun _ _ => trivial) env produced h

end Node

namespace Environment
variable {kind : Repetition → Prop} {env env' : Environment} {a : Action} {as : List Action} {name : String}

private theorem Step.explicit?_of_not_used (h : Step kind env a env') (hs : name ≠ Bindings.scalarName)
    (hf : ¬IsReserved name.toList) (hn : name ∉ a.loopNames) :
    env'.bindings.explicit? name = env.bindings.explicit? name := by
  cases h with
  | expose hscalar => simp [bind,Ne.symm hs]
  | substitute => rfl
  | enter hr position e =>
    refine explicit?_enter_of_not_mem hn ?_ position e
    rintro x - rfl
    exact hf (Repetition.isReserved_manufactured x _)
  | @leave r hr => exact (explicit?_leave r env name).trans (if_neg hn)

/-- When all loops have been left, their variables are unbound, and no other name has changed. -/
theorem Run.explicit?_of_leavesLoops (h : Run kind env as env') (hl : LeavesLoops [] as)
    (hs : name ≠ Bindings.scalarName) (hf : ¬IsReserved name.toList) : env'.bindings.explicit? name =
      if name ∈ usedNames as then none else env.bindings.explicit? name := by
  induction h with
  | nil env => rfl
  | @cons env env₁ env₂ a as hstep _ ih =>
    have hused : name ∈ usedNames (a :: as) ↔ name ∈ a.loopNames ∨ name ∈ usedNames as := by simp [usedNames]
    rw [ih hl.2]
    by_cases hrest : name ∈ usedNames as
    · rw [if_pos hrest,if_pos (hused.mpr (.inr hrest))]
    · rw [if_neg hrest]
      by_cases hfirst : name ∈ a.loopNames
      · rw [if_pos (hused.mpr (.inl hfirst))]
        cases hstep with
        | expose hscalar => simp [Action.loopNames] at hfirst
        | substitute => simp [Action.loopNames] at hfirst
        | enter hr position e =>
          -- the repetition is left later on, so the rest uses the name as well
          have hleave := (hl.1 _ rfl).resolve_left (by simp)
          exact absurd (List.mem_flatMap.mpr ⟨_,hleave,hfirst⟩) hrest
        | @leave r hr => exact (explicit?_leave r env name).trans (if_pos hfirst)
      · have hnone : name ∉ usedNames (a :: as) := fun hn => (hused.mp hn).elim hfirst hrest
        rw [if_neg hnone,hstep.explicit?_of_not_used hs hf hfirst]

end Environment

private theorem Node.explicit?_render (c : Configuration) (root : Node) {env : Environment} {produced : Bool}
    (h : (root.render c env).outcome = .ok produced) {name : String}
    (hs : name ≠ Bindings.scalarName) (hf : ¬IsReserved name.toList) :
    (root.render c env).env.bindings.explicit? name =
      if name ∈ usedNames (root.actions c env) then none else env.bindings.explicit? name := by
  have hrun : env.Run (fun _ => True) (root.actions c env) (root.render c env).env :=
    root.run_actions c (fun _ _ => trivial) env
  exact hrun.explicit?_of_leavesLoops (leavesLoops_actions c root h) hs hf

def Environment.Unbound (name : String) (env : Environment) : Prop := env.bindings.explicit? name = none

theorem Node.unbound_render (c : Configuration) (root : Node) {env : Environment} {produced : Bool}
    (h : (root.render c env).outcome = .ok produced) {name : String}
    (hs : name ≠ Bindings.scalarName) (hf : ¬IsReserved name.toList) (hn : env.Unbound name) :
    (root.render c env).env.Unbound name := by
  rw [Environment.Unbound,root.explicit?_render c h hs hf,hn,ite_self]

namespace Context

/-- A repetition that succeeds keeps what a name was bound to exactly when no loop that has run, itself or one
inside it, has the name for a variable; else it leaves the name unbound. So behind nodes of an iteration the item
and the index are still bound to the element and to its position or key exactly when no loop in these nodes that
has run uses their names. -/
theorem apply_repetition_scope (c : Configuration) (r : Repetition) (body : Node) (context : Context)
    {produced : Bool} (h : (context.apply c (.repetition r body)).2 = .ok produced) {name : String}
    (hs : name ≠ Bindings.scalarName) (hf : ¬IsReserved name.toList) :
    (let used := usedNames ((Node.repetition r body).actions c context.env)
      let after := (context.apply c (.repetition r body)).1
      (name ∈ used → after.bindings.explicit? name = none) ∧
        ∀ v, context.bindings.explicit? name = some v →
          (after.bindings.explicit? name = some v ↔ name ∉ used)) ∧
    ∀ (q : Repetition) (position : Nat) (e : Entry) (env : Environment) (nodes : List Node) (produced : Bool),
      (Node.renderAll c nodes (q.enter position e env)).outcome = .ok produced →
        let used := usedNames (Node.actionsAll c nodes (q.enter position e env))
        let after := (Node.renderAll c nodes (q.enter position e env)).env
        (q.item = some name → (after.bindings.explicit? name = some e.value ↔ name ∉ used)) ∧
          (q.index = some name → q.item ≠ some name →
            (after.bindings.explicit? name = some (indexValue position e) ↔ name ∉ used)) := by
  have hkept {v : Value} {used : List String} {b b' : Bindings}
      (hb : b'.explicit? name = if name ∈ used then none else b.explicit? name)
      (hv : b.explicit? name = some v) : b'.explicit? name = some v ↔ name ∉ used := by
    rw [hb,hv]
    by_cases hn : name ∈ used <;> simp [hn]
  refine ⟨⟨?_,?_⟩,?_⟩
  · intro hn
    have hafter := Node.explicit?_render c (.repetition r body) h hs hf
    rwa [if_pos hn] at hafter
  · intro v hv
    exact hkept (Node.explicit?_render c (.repetition r body) h hs hf) hv
  · intro q position e env nodes produced' ho
    have hafter := Node.explicit?_render c (.sequence nodes) ho hs hf
    refine ⟨fun hitem => hkept hafter ?_,fun hindex hitem => hkept hafter ?_⟩
    · rw [Environment.explicit?_enter,if_pos hitem]
    · rw [Environment.explicit?_enter,if_neg hitem,
        if_neg (Repetition.map_manufactured_ne_of_free hf _),if_pos hindex]

theorem apply_repetition_scope_nested :
    let r : Repetition := ⟨"row.tags",some "tag",none,none,none,some ","⟩
    let context := (Context.ofArgument .null none).bind "row" (.map [("tags",.list [.string "a",.string "b"])])
    let after := (context.apply .standard (.repetition r (.text "#\x7btag\x7d"))).1
    (context.apply .standard (.repetition r (.text "#\x7btag\x7d"))).2 = .ok true ∧
      "row" ≠ Bindings.scalarName ∧ ¬IsReserved "row".toList ∧
      after.bindings.explicit? "row" = some (.map [("tags",.list [.string "a",.string "b"])]) := by
  intro r context after
  have hok : (context.apply .standard (.repetition r (.text "#\x7btag\x7d"))).2 = .ok true :=
    toOption_eq_some.mp (by decide +kernel)
  have hfree : ¬IsReserved "row".toList := by
    rw [IsReserved]
    decide
  refine ⟨hok,by decide,hfree,?_⟩
  have hscope := (apply_repetition_scope .standard r _ context hok (by decide) hfree).1.2
  exact (hscope _ rfl).mpr (by decide +kernel)

/-- A loop over the tags of `v` calls a tag `v` as well. Behind it `v` is unbound, and the text that follows in the
same iteration cannot be rendered. -/
theorem nested_repetition_unbinds_item :
    let row : Value := .map [("id",.int 7),("tags",.list [.string "a"])]
    let inner := Node.repetition ⟨"v.tags",some "v",none,none,none,none⟩ (.text "$\x7bv\x7d ")
    let context := (Context.ofArgument .null none).bind "v" row
    (context.apply .standard inner).2.toOption = some true ∧
      (context.bindings.explicit? "v").isSome = true ∧
      ((context.apply .standard inner).1.bindings.explicit? "v").isSome = false ∧
      (compile .standard (.repetition ⟨"rows",some "v",none,none,none,none⟩
        (.sequence [inner,.text "$\x7bv.id\x7d"])) (.map [("rows",.list [row])])).toOption.isSome = false := by
  decide +kernel

end Context
end SqlTemplate
