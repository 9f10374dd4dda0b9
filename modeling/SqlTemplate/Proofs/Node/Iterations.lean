import Mathlib.Data.List.Nodup
import SqlTemplate.Proofs.Lexical.WellFormed
import SqlTemplate.Proofs.Node.Frame
/-!
# Iterations and their names

Every iteration takes a number that no other one takes, and the names manufactured with it are bound once, when it
is entered. From then on they stay bound to its element and to its position or key.
-/
namespace SqlTemplate
open Repetition (manufactured indexValue)

namespace Iteration

def bindsFor (i : Iteration) (name : Option String) (v : Value) : List (String × Value) :=
  name.toList.flatMap fun x => [(manufactured x i.number,v),(x,v)]

def binds (i : Iteration) : List (String × Value) :=
  i.bindsFor i.repetition.index (indexValue i.position i.entry) ++ i.bindsFor i.repetition.item i.entry.value

/-- The value that a variable stands for in an iteration. -/
def Gives (i : Iteration) (x : String) (v : Value) : Prop :=
  i.repetition.item = some x ∧ v = i.entry.value ∨
    i.repetition.index = some x ∧ v = indexValue i.position i.entry

end Iteration

namespace Action

def binds : Action → List (String × Value)
  | .expose argument => [(Bindings.scalarName,argument)]
  | .substitute _ => []
  | .enter i => i.binds
  | .leave _ => []

def unbinds : Action → List String
  | .leave r => r.names
  | .expose _ | .substitute _ | .enter _ => []

def iteration? : Action → Option Iteration
  | .enter i => some i
  | .expose _ | .substitute _ | .leave _ => none

private theorem iteration?_eq_some {a : Action} {i : Iteration} : a.iteration? = some i ↔ a = .enter i := by
  cases a <;> simp [iteration?]

end Action

def iterations (as : List Action) : List Iteration := as.filterMap Action.iteration?

/-- The loop variables are not among the names that are kept for iterations, and the item is not the index. -/
structure Repetition.Regular (r : Repetition) : Prop where
  free : ∀ name ∈ r.names, ¬IsReserved name.toList
  distinct : r.names.Nodup

namespace Repetition.Regular
variable {r : Repetition} {x : String}

instance (r : Repetition) : Decidable r.Regular :=
  decidable_of_iff ((∀ name ∈ r.names, ¬IsReserved name.toList) ∧ r.names.Nodup)
    ⟨fun h => ⟨h.1,h.2⟩,fun h => ⟨h.free,h.distinct⟩⟩

private theorem not_mem_names (h : r.Regular) (x : String) (n : Nat) : manufactured x n ∉ r.names :=
  fun hm => h.free _ hm (isReserved_manufactured x n)

private theorem index_ne (h : r.Regular) (hx : r.item = some x) : r.index ≠ some x := by
  intro hindex
  have hdistinct := h.distinct
  simp [names,hx,hindex] at hdistinct

end Repetition.Regular

namespace Environment
variable {env env' : Environment} {a : Action} {as : List Action}

/-- Besides taking a number, an action binds and unbinds these names, and no others. -/
theorem Step.bindings {kind : Repetition → Prop} (h : Step kind env a env') :
    env'.bindings = a.unbinds.foldl Bindings.unbind (a.binds.foldl (fun b p => b.bind p.1 p.2) env.bindings) := by
  cases h with
  | expose hs => rfl
  | substitute => rfl
  | @enter r hr position e =>
    cases hitem : r.item <;> cases hindex : r.index <;>
      simp [Repetition.enter,Action.binds,Action.unbinds,Iteration.binds,Iteration.bindsFor,hitem,hindex,
        bind?,bind,advance]
  | @leave r hr =>
    cases hitem : r.item <;> cases hindex : r.index <;>
      simp [Repetition.leave,Action.binds,Action.unbinds,Repetition.names,hitem,hindex,unbind?,unbind]

private theorem Step.explicit?_of_untouched {kind : Repetition → Prop} (h : Step kind env a env') {name : String}
    (hbinds : name ∉ a.binds.map Prod.fst) (hunbinds : name ∉ a.unbinds) :
    env'.bindings.explicit? name = env.bindings.explicit? name := by
  have hbound (ps : List (String × Value)) (b : Bindings) (hn : name ∉ ps.map Prod.fst) :
      (ps.foldl (fun b p => b.bind p.1 p.2) b).explicit? name = b.explicit? name := by
    induction ps generalizing b with
    | nil => rfl
    | cons p ps ih =>
      simp only [List.map_cons,List.mem_cons,not_or] at hn
      rw [List.foldl_cons,ih _ hn.2,Bindings.explicit?_bind,if_neg (Ne.symm hn.1)]
  have hunbound (names : List String) (b : Bindings) (hn : name ∉ names) :
      (names.foldl Bindings.unbind b).explicit? name = b.explicit? name := by
    induction names generalizing b with
    | nil => rfl
    | cons x names ih =>
      simp only [List.mem_cons,not_or] at hn
      rw [List.foldl_cons,ih _ hn.2,Bindings.explicit?_unbind,if_neg (Ne.symm hn.1)]
  rw [h.bindings,hunbound _ _ hunbinds,hbound _ _ hbinds]

end Environment

namespace Iteration
variable {i : Iteration} {x : String} {n : Nat} {v : Value}

private theorem mem_bindsFor {p : String × Value} {name : Option String} {w : Value} : p ∈ i.bindsFor name w ↔
    ∃ y, name = some y ∧ (p = (manufactured y i.number,w) ∨ p = (y,w)) := by
  cases name <;> simp [bindsFor]

private theorem gives_of_mem_binds (h : i.repetition.Regular) (hm : (manufactured x n,v) ∈ i.binds) :
    i.number = n ∧ i.Gives x v := by
  have hmade {name : Option String} {w : Value} (hnames : ∀ y, name = some y → y ∈ i.repetition.names)
      (hp : (manufactured x n,v) ∈ i.bindsFor name w) : i.number = n ∧ name = some x ∧ v = w := by
    obtain ⟨y,hy,hp | hp⟩ := mem_bindsFor.mp hp
    · obtain ⟨hname,hv⟩ := Prod.mk.inj hp
      obtain ⟨rfl,hn⟩ := Repetition.manufactured_inj hname
      exact ⟨hn.symm,hy,hv⟩
    · have hname : manufactured x n = y := congrArg Prod.fst hp
      exact absurd (hname ▸ hnames y hy) (h.not_mem_names x n)
  rcases List.mem_append.mp hm with hp | hp
  · obtain ⟨hn,hindex,hv⟩ := hmade (fun y hy => Repetition.mem_names.mpr (.inr hy)) hp
    exact ⟨hn,.inr ⟨hindex,hv⟩⟩
  · obtain ⟨hn,hitem,hv⟩ := hmade (fun y hy => Repetition.mem_names.mpr (.inl hy)) hp
    exact ⟨hn,.inl ⟨hitem,hv⟩⟩

end Iteration

namespace Environment
variable {kind : Repetition → Prop} {env env' : Environment} {a : Action} {as : List Action} {i : Iteration}
  {x : String} {n : Nat} {v : Value}

private theorem Step.counter_le (h : Step kind env a env') : env.counter ≤ env'.counter := by
  cases h with
  | expose hs => exact Nat.le_refl _
  | substitute => exact Nat.le_refl _
  | enter hr position e => simp [counter_enter]
  | leave hr => simp

theorem Step.number (h : Step kind env (.enter i) env') :
    i.number = env.counter ∧ env'.counter = env.counter+1 := by
  cases h with
  | enter hr position e => exact ⟨rfl,counter_enter _ position e env⟩

private theorem Step.regular (h : Step Repetition.Regular env (.enter i) env') : i.repetition.Regular := by
  cases h with
  | enter hr position e => exact hr

/-- Manufactured names are bound by iterations only, each by the one that took its number. -/
theorem Step.maker (h : Step Repetition.Regular env a env') (hm : (manufactured x n,v) ∈ a.binds) :
    ∃ i, a = .enter i ∧ i.number = n ∧ i.Gives x v := by
  cases a with
  | expose argument =>
    have hname : manufactured x n = Bindings.scalarName := by
      have hp : (manufactured x n,v) = (Bindings.scalarName,argument) := by simpa [Action.binds] using hm
      exact congrArg Prod.fst hp
    have hreserved := Repetition.isReserved_manufactured x n
    rw [hname] at hreserved
    exact absurd hreserved (by decide)
  | substitute text => simp [Action.binds] at hm
  | enter i => exact ⟨i,rfl,Iteration.gives_of_mem_binds h.regular hm⟩
  | leave r => simp [Action.binds] at hm

private theorem Step.not_mem_unbinds (h : Step Repetition.Regular env a env') (x : String) (n : Nat) :
    manufactured x n ∉ a.unbinds := by
  cases h with
  | expose hs => simp [Action.unbinds]
  | substitute => simp [Action.unbinds]
  | enter hr position e => simp [Action.unbinds]
  | leave hr => exact hr.not_mem_names x n

/-- The manufactured names that are bound are those of the iterations so far. -/
structure Named (its : List Iteration) (env : Environment) : Prop where
  bound : ∀ x n v, env.bindings.explicit? (manufactured x n) = some v ↔ ∃ i ∈ its, i.number = n ∧ i.Gives x v
  below : ∀ i ∈ its, i.number < env.counter

private theorem explicit?_enter_of_regular {r : Repetition} (hr : r.Regular) (position : Nat) (e : Entry)
    (env : Environment) (x : String) :
    (r.enter position e env).bindings.explicit? (manufactured x env.counter) = some v ↔
      Iteration.Gives ⟨env.counter,r,position,e⟩ x v ∨
        x ∉ r.names ∧ env.bindings.explicit? (manufactured x env.counter) = some v := by
  obtain ⟨hitem,hindex⟩ := Repetition.ne_of_not_mem_names (hr.not_mem_names x env.counter)
  have hmade (o : Option String) :
      o.map (manufactured · env.counter) = some (manufactured x env.counter) ↔ o = some x := by
    constructor
    · intro h
      obtain ⟨y,hy,hname⟩ := Option.map_eq_some_iff.mp h
      rw [hy,(Repetition.manufactured_inj hname).1]
    · rintro rfl
      rfl
  simp only [explicit?_enter,hitem,hindex,hmade,ite_false,Iteration.Gives,Repetition.mem_names,not_or]
  by_cases hi : r.item = some x
  · have hj := hr.index_ne hi
    simp [hi,hj,eq_comm]
  · by_cases hj : r.index = some x <;> simp [hi,hj,eq_comm]

theorem Named.step {its : List Iteration} (h : Named its env) (hs : Step Repetition.Regular env a env') :
    Named (its ++ a.iteration?.toList) env' := by
  have hkept {x : String} {n : Nat} (hn : ∀ i, a = .enter i → i.number ≠ n) :
      env'.bindings.explicit? (manufactured x n) = env.bindings.explicit? (manufactured x n) := by
    refine hs.explicit?_of_untouched ?_ (hs.not_mem_unbinds x n)
    intro hm
    obtain ⟨⟨name,v⟩,hp,rfl⟩ := List.mem_map.mp hm
    obtain ⟨i,hi,hnumber,-⟩ := hs.maker hp
    exact hn i hi hnumber
  cases ha : a.iteration? with
  | none =>
    refine ⟨fun x n v => ?_,fun i hi => ?_⟩
    · rw [hkept fun i hi => absurd (Action.iteration?_eq_some.mpr hi) (by simp [ha])]
      simpa using h.bound x n v
    · exact Nat.lt_of_lt_of_le (h.below i (by simpa using hi)) hs.counter_le
  | some i =>
    obtain rfl := Action.iteration?_eq_some.mp ha
    obtain ⟨hnumber,hcounter⟩ := hs.number
    refine ⟨fun x n v => ?_,fun j hj => ?_⟩
    · by_cases hn : i.number = n
      · subst hn
        have hearlier {j : Iteration} (hj : j ∈ its) : j.number ≠ i.number := by
          have hlt := h.below j hj
          omega
        have hfree : env.bindings.explicit? (manufactured x i.number) ≠ some v := by
          intro hv
          obtain ⟨j,hj,hjnumber,-⟩ := (h.bound x i.number v).mp hv
          exact hearlier hj hjnumber
        have hthis : env'.bindings.explicit? (manufactured x i.number) = some v ↔ i.Gives x v := by
          cases hs with
          | enter hr position e =>
            refine (explicit?_enter_of_regular hr position e env x).trans (or_iff_left ?_)
            exact fun hv => hfree hv.2
        rw [hthis]
        constructor
        · intro hv
          exact ⟨i,by simp,rfl,hv⟩
        · rintro ⟨j,hj,hjnumber,hv⟩
          rcases List.mem_append.mp hj with hj | hj
          · exact absurd hjnumber (hearlier hj)
          · obtain rfl : j = i := by simpa using hj
            exact hv
      · rw [hkept (by rintro j hj; obtain rfl := Action.enter.inj hj; exact hn),h.bound x n v]
        simp [or_and_right,exists_or,hn]
    · rw [hcounter]
      rcases List.mem_append.mp hj with hj | hj
      · exact Nat.lt_succ_of_lt (h.below j hj)
      · obtain rfl : j = i := by simpa using hj
        omega

theorem Named.run {its : List Iteration} (h : Named its env) (hr : Run Repetition.Regular env as env') :
    Named (its ++ iterations as) env' := by
  induction hr generalizing its with
  | nil env => simpa [iterations] using h
  | @cons env env₁ env₂ a as hstep _ ih =>
    have hrest := ih (h.step hstep)
    cases ha : a.iteration? <;> simpa [iterations,ha] using hrest

end Environment

namespace Node
open Environment

end Node
end SqlTemplate
