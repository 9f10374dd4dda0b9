import SqlTemplate.Proofs.Lexical.Renaming
/-!
# Environments and scopes

The environment of a rendering agrees with the scope of the lexical one on the names that a template can mention.
Besides, it holds the manufactured names of all iterations so far, and these are never bound again. Inside a
repetition the loop variables of the last iteration are still bound; after it they are not.
-/
namespace SqlTemplate

namespace Expr

theorem evaluate_congr {b b' : Bindings} (hp : b.parameter = b'.parameter) (e : Expr)
    (h : ∀ name ∈ e.names, b.explicit? name = b'.explicit? name) : e.evaluate b = e.evaluate b' := by
  induction e with
  | literal v => rfl
  | «variable» name =>
    have hname := h name (by simp [names])
    simp only [evaluate,variableValue,hname,hp]
  | property target name ih => simp only [evaluate,ih h]
  | index target key iht ihk =>
    have ht := iht fun name hn => h name (by simp [names,hn])
    have hk := ihk fun name hn => h name (by simp [names,hn])
    simp only [evaluate,ht,hk]
  | call target method ih => simp only [evaluate,ih h]
  | not e ih => simp only [evaluate,ih h]
  | negate e ih => simp only [evaluate,ih h]
  | binary lhs op rhs ihl ihr =>
    have hl := ihl fun name hn => h name (by simp [names,hn])
    have hr := ihr fun name hn => h name (by simp [names,hn])
    simp only [evaluate,hl,hr]

end Expr

namespace Environment

@[simp] theorem explicit?_bind? (env : Environment) (o : Option String) (v : Value) (name : String) :
    (env.bind? o v).bindings.explicit? name =
      if o = some name then some v else env.bindings.explicit? name := by
  cases o with
  | none => rfl
  | some x => simp [bind?,bind]

@[simp] theorem counter_bind? (env : Environment) (o : Option String) (v : Value) :
    (env.bind? o v).counter = env.counter := by
  cases o <;> rfl

@[simp] theorem explicit?_unbind? (env : Environment) (o : Option String) (name : String) :
    (env.unbind? o).bindings.explicit? name =
      if o = some name then none else env.bindings.explicit? name := by
  cases o with
  | none => rfl
  | some x => simp [unbind?,unbind]

/-- The environment agrees with a scope in which nothing but `bound` is bound, on all names that are neither
reserved nor stale. -/
structure Agrees (stale bound : List String) (scope : Bindings) (env : Environment) : Prop where
  parameter : env.bindings.parameter = scope.parameter
  explicit : ∀ name, name ∉ stale → ¬IsReserved name.toList →
    env.bindings.explicit? name = scope.explicit? name
  fresh : ∀ name, name ∉ bound → scope.explicit? name = none

/-- The numbers that were taken stay taken, and the names made with them stay bound as they are. -/
structure Grows (env env' : Environment) : Prop where
  parameter : env'.bindings.parameter = env.bindings.parameter
  counter : env.counter ≤ env'.counter
  keeps : ∀ name m, m < env.counter → env'.bindings.explicit? (Repetition.manufactured name m) =
    env.bindings.explicit? (Repetition.manufactured name m)

theorem Grows.refl (env : Environment) : Grows env env := ⟨rfl,Nat.le_refl _,fun _ _ _ => rfl⟩

theorem Grows.trans {env₁ env₂ env₃ : Environment} (h : Grows env₁ env₂) (h' : Grows env₂ env₃) :
    Grows env₁ env₃ := by
  refine ⟨h'.parameter.trans h.parameter,Nat.le_trans h.counter h'.counter,fun name m hm => ?_⟩
  rw [h'.keeps name m (Nat.lt_of_lt_of_le hm h.counter),h.keeps name m hm]

end Environment

namespace Repetition
variable {r : Repetition} {bound : List String} {name : String}

theorem mem_names : name ∈ r.names ↔ r.item = some name ∨ r.index = some name := by
  simp [names]

theorem ne_of_not_mem_names (h : name ∉ r.names) : r.item ≠ some name ∧ r.index ≠ some name :=
  ⟨fun hi => h (mem_names.mpr (.inl hi)),fun hi => h (mem_names.mpr (.inr hi))⟩

private theorem Fresh.ne_manufactured (h : r.Fresh bound) (name : String) (n : Nat) :
    r.item ≠ some (manufactured name n) ∧ r.index ≠ some (manufactured name n) :=
  ne_of_not_mem_names fun hm => h.free _ hm (isReserved_manufactured name n)

private theorem map_manufactured_ne {o : Option String} {n m : Nat} (h : o = some name → n ≠ m) :
    o.map (manufactured · n) ≠ some (manufactured name m) := by
  intro heq
  obtain ⟨x,hx,hxn⟩ := Option.map_eq_some_iff.mp heq
  obtain ⟨rfl,hn⟩ := manufactured_inj hxn
  exact h hx hn

theorem map_manufactured_ne_of_free {o : Option String} (hf : ¬IsReserved name.toList) (n : Nat) :
    o.map (manufactured · n) ≠ some name := by
  intro h
  obtain ⟨x,-,rfl⟩ := Option.map_eq_some_iff.mp h
  exact hf (isReserved_manufactured x n)

end Repetition

namespace Environment
open Repetition (manufactured)
variable {bound : List String} {scope : Bindings} {env : Environment} {r : Repetition}

theorem Agrees.stale {stale : List String} (h : Agrees [] bound scope env) : Agrees stale bound scope env :=
  ⟨h.parameter,fun name _ hf => h.explicit name (by simp) hf,h.fresh⟩

theorem explicit?_enter (r : Repetition) (position : Nat) (e : Entry) (env : Environment) (name : String) :
    (r.enter position e env).bindings.explicit? name =
      if r.item = some name then some e.value
      else if r.item.map (manufactured · env.counter) = some name then some e.value
      else if r.index = some name then some (Repetition.indexValue position e)
      else if r.index.map (manufactured · env.counter) = some name then
        some (Repetition.indexValue position e)
      else env.bindings.explicit? name := by
  simp only [Repetition.enter,explicit?_bind?]
  rfl

theorem counter_enter (r : Repetition) (position : Nat) (e : Entry) (env : Environment) :
    (r.enter position e env).counter = env.counter+1 := by
  simp only [Repetition.enter,counter_bind?]
  rfl

theorem parameter_enter (r : Repetition) (position : Nat) (e : Entry) (env : Environment) :
    (r.enter position e env).bindings.parameter = env.bindings.parameter := by
  cases hitem : r.item <;> cases hindex : r.index <;>
    simp [Repetition.enter,hitem,hindex,bind?,bind,advance]

theorem parameter_leave (r : Repetition) (env : Environment) :
    (r.leave env).bindings.parameter = env.bindings.parameter := by
  cases hitem : r.item <;> cases hindex : r.index <;> simp [Repetition.leave,hitem,hindex,unbind?,unbind]

@[simp] theorem counter_leave (r : Repetition) (env : Environment) : (r.leave env).counter = env.counter := by
  cases hitem : r.item <;> cases hindex : r.index <;> simp [Repetition.leave,hitem,hindex,unbind?,unbind]

/-- Leaving a repetition unbinds its variables, whatever they were bound to before it. -/
theorem explicit?_leave (r : Repetition) (env : Environment) (name : String) :
    (r.leave env).bindings.explicit? name = if name ∈ r.names then none else env.bindings.explicit? name := by
  rw [Repetition.leave,explicit?_unbind?,explicit?_unbind?]
  by_cases hitem : r.item = some name <;> simp [Repetition.mem_names,hitem]

theorem explicit?_lexical_enter (r : Repetition) (position : Nat) (e : Entry) (scope : Bindings)
    (name : String) : (Lexical.enter r position e scope).explicit? name =
      if r.item = some name then some e.value
      else if r.index = some name then some (Repetition.indexValue position e)
      else scope.explicit? name := by
  cases hitem : r.item <;> cases hindex : r.index <;> simp [Lexical.enter,hitem,hindex]

theorem parameter_lexical_enter (r : Repetition) (position : Nat) (e : Entry) (scope : Bindings) :
    (Lexical.enter r position e scope).parameter = scope.parameter := by
  cases hitem : r.item <;> cases hindex : r.index <;> simp [Lexical.enter,hitem,hindex]

theorem Agrees.enter (h : Agrees r.names bound scope env) (position : Nat) (e : Entry) :
    Agrees [] (r.names ++ bound) (Lexical.enter r position e scope) (r.enter position e env) := by
  refine ⟨?_,?_,?_⟩
  · rw [parameter_lexical_enter,parameter_enter,h.parameter]
  · intro name _ hf
    rw [explicit?_enter,explicit?_lexical_enter,if_neg (Repetition.map_manufactured_ne_of_free hf _),
      if_neg (Repetition.map_manufactured_ne_of_free hf _)]
    by_cases hitem : r.item = some name
    · simp [hitem]
    · by_cases hindex : r.index = some name
      · simp [hitem,hindex]
      · have hname : name ∉ r.names := by simp [Repetition.mem_names,hitem,hindex]
        simp only [hitem,hindex,ite_false]
        exact h.explicit name hname hf
  · intro name hname
    obtain ⟨hitem,hindex⟩ := Repetition.ne_of_not_mem_names fun hn => hname (List.mem_append_left _ hn)
    rw [explicit?_lexical_enter,if_neg hitem,if_neg hindex]
    exact h.fresh name fun hb => hname (List.mem_append_right _ hb)

theorem grows_enter (hr : r.Fresh bound) (position : Nat) (e : Entry) (env : Environment) :
    Grows env (r.enter position e env) := by
  refine ⟨parameter_enter r position e env,by simp [counter_enter],fun name m hm => ?_⟩
  obtain ⟨hitem,hindex⟩ := hr.ne_manufactured name m
  have hnumber (o : Option String) : o.map (manufactured · env.counter) ≠ some (manufactured name m) :=
    Repetition.map_manufactured_ne fun _ => Nat.ne_of_gt hm
  rw [explicit?_enter,if_neg hitem,if_neg (hnumber r.item),if_neg hindex,if_neg (hnumber r.index)]

theorem explicit?_enter_manufactured (hr : r.Fresh bound) (position : Nat) (e : Entry) (scope : Bindings)
    (env : Environment) {x : String} (hx : x ∈ r.names) : ∃ v, (Lexical.enter r position e scope).explicit? x = some v ∧
      (r.enter position e env).bindings.explicit? (manufactured x env.counter) = some v := by
  obtain ⟨hitem,hindex⟩ := hr.ne_manufactured x env.counter
  rw [explicit?_enter,explicit?_lexical_enter,if_neg hitem,if_neg hindex]
  by_cases hi : r.item = some x
  · exact ⟨e.value,by simp [hi],by simp [hi]⟩
  · have hj : r.index = some x := by simpa [Repetition.mem_names,hi] using hx
    have hne : r.item.map (manufactured · env.counter) ≠ some (manufactured x env.counter) :=
      Repetition.map_manufactured_ne fun h => absurd h hi
    exact ⟨Repetition.indexValue position e,by simp [hi,hj],by simp [hne,hj]⟩

/-- After an iteration the environment agrees with the scope around it, loop variables apart. -/
theorem Agrees.exit {position : Nat} {e : Entry}
    (h : Agrees [] (r.names ++ bound) (Lexical.enter r position e scope) env)
    (hf : ∀ name, name ∉ bound → scope.explicit? name = none) : Agrees r.names bound scope env := by
  refine ⟨?_,?_,hf⟩
  · rw [h.parameter,parameter_lexical_enter]
  · intro name hname hfree
    obtain ⟨hitem,hindex⟩ := Repetition.ne_of_not_mem_names hname
    rw [h.explicit name (by simp) hfree,explicit?_lexical_enter,if_neg hitem,if_neg hindex]

theorem Agrees.leave (h : Agrees r.names bound scope env) (hr : r.Fresh bound) :
    Agrees [] bound scope (r.leave env) := by
  refine ⟨?_,?_,h.fresh⟩
  · rw [parameter_leave,h.parameter]
  · intro name _ hf
    rw [explicit?_leave]
    split
    · next hname => exact (h.fresh name (hr.fresh name hname)).symm
    · next hname => exact h.explicit name hname hf

theorem grows_leave (hr : r.Fresh bound) (env : Environment) : Grows env (r.leave env) := by
  refine ⟨parameter_leave r env,by simp,fun name m _ => ?_⟩
  rw [explicit?_leave,if_neg fun hm => hr.free _ hm (Repetition.isReserved_manufactured name m)]

theorem Agrees.evaluate_eq (h : Agrees [] bound scope env) {expression : String}
    (hf : FreeExpression expression) :
    Evaluator.standard.evaluate expression env.bindings = Evaluator.standard.evaluate expression scope := by
  simp only [Evaluator.standard]
  cases hp : Expr.parse expression with
  | error e => rfl
  | ok e =>
    exact e.evaluate_congr h.parameter fun name hn => h.explicit name (by simp) (hf e hp name hn)

theorem agrees_ofArgument (argument : Value) (databaseId : Option String) :
    Agrees [] [Bindings.parameterName,Bindings.databaseIdName] (.ofArgument argument databaseId)
      (.ofArgument argument databaseId) := by
  refine ⟨rfl,fun _ _ _ => rfl,fun name hname => ?_⟩
  refine Entries.get?_eq_none.mpr ?_
  exact hname

end Environment
end SqlTemplate
