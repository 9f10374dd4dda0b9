import SqlTemplate.Context
import SqlTemplate.Proofs.Node.Actions
/-!
# The frame of a rendering

A rendering binds and unbinds the loop variables of its tree, binds the names that it manufactures from them with
the numbers that it takes, and names a scalar argument. It touches no other binding, whether it succeeds or fails.
-/
namespace SqlTemplate
open Repetition (manufactured)

namespace Environment

/-- A name that loops with these variables can bind on the way from one environment to another. -/
def Owned (names : List String) (env env' : Environment) (name : String) : Prop :=
  name ∈ names ∨ ∃ x ∈ names, ∃ n, env.counter ≤ n ∧ n < env'.counter ∧ name = manufactured x n

/-- What two environments have in common when loops with these variables have run between them. -/
structure Frame (names : List String) (env env' : Environment) : Prop where
  parameter : env'.bindings.parameter = env.bindings.parameter
  counter : env.counter ≤ env'.counter
  explicit : ∀ name, ¬Owned names env env' name →
    env'.bindings.explicit? name = env.bindings.explicit? name ∨
      name = Bindings.scalarName ∧ env.bindings.parameter.isSimple = true ∧
        env'.bindings.explicit? name = some env.bindings.parameter

theorem explicit?_enter_of_not_mem {r : Repetition} {name : String} (h : name ∉ r.names)
    {env : Environment} (hm : ∀ x ∈ r.names, name ≠ manufactured x env.counter) (position : Nat) (e : Entry) :
    (r.enter position e env).bindings.explicit? name = env.bindings.explicit? name := by
  obtain ⟨hitem,hindex⟩ := Repetition.ne_of_not_mem_names h
  have hmade {o : Option String} (ho : ∀ x, o = some x → x ∈ r.names) :
      o.map (manufactured · env.counter) ≠ some name := by
    intro heq
    obtain ⟨x,hx,hname⟩ := Option.map_eq_some_iff.mp heq
    exact hm x (ho x hx) hname.symm
  have hitem' := hmade (o := r.item) fun x hx => Repetition.mem_names.mpr (.inl hx)
  have hindex' := hmade (o := r.index) fun x hx => Repetition.mem_names.mpr (.inr hx)
  rw [explicit?_enter,if_neg hitem,if_neg hitem',if_neg hindex,if_neg hindex']

namespace Frame
variable {names : List String} {env env' env'' : Environment}

theorem refl (names : List String) (env : Environment) : Frame names env env :=
  ⟨rfl,Nat.le_refl _,fun _ _ => .inl rfl⟩

theorem trans (h : Frame names env env') (h' : Frame names env' env'') : Frame names env env'' := by
  refine ⟨h'.parameter.trans h.parameter,Nat.le_trans h.counter h'.counter,fun name hname => ?_⟩
  have hfirst : ¬Owned names env env' name := by
    rintro (hn | ⟨x,hx,n,hlow,hhigh,heq⟩)
    · exact hname (.inl hn)
    · exact hname (.inr ⟨x,hx,n,hlow,Nat.lt_of_lt_of_le hhigh h'.counter,heq⟩)
  have hsecond : ¬Owned names env' env'' name := by
    rintro (hn | ⟨x,hx,n,hlow,hhigh,heq⟩)
    · exact hname (.inl hn)
    · exact hname (.inr ⟨x,hx,n,Nat.le_trans h.counter hlow,hhigh,heq⟩)
  rcases h'.explicit name hsecond with hkept | ⟨hn,hs,hvalue⟩
  · rw [hkept]
    exact h.explicit name hfirst
  · rw [h.parameter] at hs hvalue
    exact .inr ⟨hn,hs,hvalue⟩

end Frame

private theorem Step.frame {names : List String} {env env' : Environment} {a : Action}
    (h : Step (fun r => ∀ x ∈ r.names, x ∈ names) env a env') : Frame names env env' := by
  cases h with
  | expose hs =>
    refine ⟨rfl,Nat.le_refl _,fun name _ => ?_⟩
    by_cases hn : Bindings.scalarName = name
    · subst hn
      exact .inr ⟨rfl,hs,by simp [bind]⟩
    · exact .inl (by simp [bind,hn])
  | substitute => exact .refl names env
  | @enter r hr position e =>
    refine ⟨parameter_enter r position e env,by simp [counter_enter],fun name hname => .inl ?_⟩
    have hfree : name ∉ r.names := fun hn => hname (.inl (hr name hn))
    refine explicit?_enter_of_not_mem hfree ?_ position e
    intro x hx heq
    exact hname (.inr ⟨x,hr x hx,env.counter,Nat.le_refl _,by simp [counter_enter],heq⟩)
  | @leave r hr =>
    refine ⟨parameter_leave r env,by simp,fun name hname => .inl ?_⟩
    rw [explicit?_leave,if_neg fun hn => hname (.inl (hr name hn))]

private theorem Run.frame {names : List String} {env env' : Environment} {as : List Action}
    (h : Run (fun r => ∀ x ∈ r.names, x ∈ names) env as env') : Frame names env env' := by
  induction h with
  | nil env => exact .refl names env
  | cons hstep _ ih => exact hstep.frame.trans ih

end Environment

namespace Node

theorem frame_render (c : Configuration) (root : Node) (env : Environment) :
    env.Frame root.loopNames (root.render c env).env := by
  have hrun : env.Run (fun r => ∀ x ∈ r.names, x ∈ root.loopNames) (root.actions c env) (root.render c env).env :=
    root.run_actions c (fun r hr x hx => Node.mem_loopNames hr hx) env
  exact hrun.frame

/-- The nodes that hand on what they write only when it is complete. -/
def isBuffered : Node → Bool
  | .text _ | .trim _ _ => true
  | .conditional _ _ | .repetition _ _ | .sequence _ => false

private theorem chunks_of_failed {c : Configuration} {root : Node} {env : Environment} {e : Error}
    (hb : root.isBuffered = true) (h : (root.render c env).outcome = .error e) :
    (root.render c env).chunks = [] := by
  cases root with
  | text s =>
    unfold render renderText at h ⊢
    cases hs : hasSubstitution s with
    | false => simp [hs,Rendered.write] at h
    | true =>
      simp only [hs,ite_true] at h ⊢
      cases hr : Scanner.substitutions.replaceM (substitute c (exposeScalar env).bindings) s.toList with
      | ok written => simp [hr,Rendered.write] at h
      | error e' => rfl
  | trim t body =>
    unfold render renderTrim at h ⊢
    simp only at h ⊢
    cases hbody : (body.render c env).outcome with
    | ok produced => simp [hbody] at h
    | error e' => rfl
  | conditional test body => simp [isBuffered] at hb
  | repetition r body => simp [isBuffered] at hb
  | sequence nodes => simp [isBuffered] at hb

end Node

/-- What an application of a node with these loop variables leaves of a context. -/
structure Context.Frame (names : List String) (before after : Context) : Prop where
  written : before.written <+: after.written
  env : before.env.Frame names after.env

/-- Applying a node only appends to what was written, and changes only the bindings that its loops own and the
name of a scalar argument. A text or a trim that fails hands on nothing, wherever it stands. -/
theorem Context.apply_frame (c : Configuration) (root : Node) (context : Context) :
    Context.Frame root.loopNames context (context.apply c root).1 ∧
      ∀ e, root.isBuffered = true → (context.apply c root).2 = .error e →
        (root.render c context.env).chunks = [] ∧ (context.apply c root).1.written = context.written := by
  refine ⟨⟨List.prefix_append _ _,root.frame_render c context.env⟩,?_⟩
  intro e hb he
  have hchunks : (root.render c context.env).chunks = [] := Node.chunks_of_failed hb he
  exact ⟨hchunks,by simp [Context.apply,Rendered.text,hchunks]⟩

theorem Context.apply_frame_failing_loop :
    let root := Node.sequence [.text "a",.repetition ⟨"ids",some "x",none,some "(",none,none⟩
      (.trim {} (.sequence [.text "b",.text "$\x7bx.\x7d"]))]
    let context : Context := ⟨⟨.ofArgument (.map [("ids",.list [.int 1])]) none,3⟩,['s']⟩
    let after := (context.apply .standard root).1
    (context.apply .standard root).2.toOption = none ∧ context.written <+: after.written ∧
      after.written = ['s','a','('] ∧
      after.bindings.explicit? "_databaseId" = context.bindings.explicit? "_databaseId" ∧
      (after.bindings.explicit? "__frch_x_3").isSome = true := by
  intro root context after
  obtain ⟨⟨hwritten,henv⟩,-⟩ := Context.apply_frame .standard root context
  refine ⟨by decide +kernel,hwritten,by decide +kernel,?_,by decide +kernel⟩
  have howned : ¬Environment.Owned root.loopNames context.env after.env "_databaseId" := by
    rintro (hn | ⟨x,-,n,-,-,hmade⟩)
    · exact absurd hn (by decide +kernel)
    · have hreserved := Repetition.isReserved_manufactured x n
      rw [← hmade,IsReserved] at hreserved
      exact absurd hreserved (by decide)
  rcases henv.explicit "_databaseId" howned with hkept | ⟨hscalar,-,-⟩
  · exact hkept
  · exact absurd hscalar (by decide)

end SqlTemplate
