import SqlTemplate.Proofs.Lexical.Scope
/-!
# Rendering and lexical rendering

A rendering and the lexical one write the same chunks, up to what stands in the places of the markers: the
content of a marker as it has been renamed so far, and what it binds. In every environment that the rendering
reaches from there on, the content still resolves to what it binds.
-/
namespace SqlTemplate
open Text Token
open Environment (Agrees Grows)
open Repetition (manufactured)

/-- A chunk with both readings of its markers: the content that the rendering has written, and what the marker
binds. -/
abbrev Paired := Chunk (List Char × Option BoundValue)

/-- What the content of a marker binds: a marker that is not renamed refers to the scope, a renamed one to the
iteration whose number it carries, under the path that it had before. -/
inductive Resolves (l : Lexical) (scope : Bindings) (env : Environment) : List Char → Option BoundValue → Prop
  | own {content name rest : List Char} (leads : Leads content name rest) (free : ¬IsReserved name) :
      Resolves l scope env content (l.bound? scope content)
  | renamed {content rest : List Char} {x : String} {m : Nat}
      (leads : Leads content (manufactured x m).toList rest) (taken : m < env.counter)
      (bound : (env.bindings.explicit? (manufactured x m)).isSome) :
      Resolves l scope env content ((l.bound? env.bindings content).map BoundValue.original)

def Sound (l : Lexical) (scope : Bindings) (env : Environment) : Token (List Char × Option BoundValue) → Prop
  | .char c => isPlain c = true
  | .slot (content,v) => (∀ c ∈ content, isPlain c = true) ∧ Resolves l scope env content v

variable {l : Lexical} {scope : Bindings} {env env' : Environment}

theorem Sound.plain {t : Token (List Char × Option BoundValue)} (h : Sound l scope env t) :
    (t.map Prod.fst).Plain := by
  cases t with
  | char c => exact h
  | slot p => exact h.1

theorem Resolves.leads {content : List Char} {v : Option BoundValue} (h : Resolves l scope env content v) :
    ∃ name rest, Leads content name rest := by
  cases h with
  | own leads free => exact ⟨_,_,leads⟩
  | renamed leads taken bound => exact ⟨_,_,leads⟩

theorem Resolves.mono {content : List Char} {v : Option BoundValue} (h : Resolves l scope env content v)
    (hg : Grows env env') : Resolves l scope env' content v := by
  cases h with
  | own leads free => exact .own leads free
  | @renamed _ x m leads taken bound =>
    have hk := hg.keeps x m taken
    have hv : l.bound? env.bindings content = l.bound? env'.bindings content :=
      leads.bound?_congr l hg.parameter.symm (by simpa using hk.symm)
    rw [hv]
    exact .renamed leads (Nat.lt_of_lt_of_le taken hg.counter) (by rw [hk]; exact bound)

theorem Sound.mono {t : Token (List Char × Option BoundValue)} (h : Sound l scope env t)
    (hg : Grows env env') : Sound l scope env' t := by
  cases t with
  | char c => exact h
  | slot p => exact ⟨h.1,h.2.mono hg⟩

namespace Chunk

theorem flatten_write {α : Type} (f : α → List Char) (chunks : List (Chunk α)) :
    (chunks.map (write f)).flatten = write f chunks.flatten := by
  induction chunks with
  | nil => rfl
  | cons chunk chunks ih => simp [ih]

theorem flatten_mapSlots {α β : Type} (f : α → β) (chunks : List (Chunk α)) :
    (chunks.map (mapSlots f)).flatten = mapSlots f chunks.flatten := by
  induction chunks with
  | nil => rfl
  | cons chunk chunks ih => simp [ih]

end Chunk

theorem MarkedText.exists_paired {text : String} (h : MarkedText text) (l : Lexical) (scope : Bindings)
    (env : Environment) : ∃ ts : Paired, text.toList = ts.write Prod.fst ∧
      l.resolve scope text = ts.mapSlots Prod.snd ∧ ∀ t ∈ ts, Sound l scope env t := by
  obtain ⟨ts,ht,hp⟩ := h
  have hplain : ∀ t ∈ ts, t.Plain := fun t hm => (hp t hm).plain
  have htokens : Scanner.bindMarkers.tokens text.toList = ts := by
    rw [ht]
    exact Chunk.tokens_write hplain
  refine ⟨ts.mapSlots fun content => (content,l.bound? scope content),?_,?_,?_⟩
  · rw [ht,Chunk.write_mapSlots]
    rfl
  · rw [Lexical.resolve,htokens,Chunk.mapSlots,Chunk.mapSlots,Chunk.mapSlots,List.map_map]
    apply List.map_congr_left
    intro t _
    cases t <;> rfl
  · intro t hm
    obtain ⟨u,hu,rfl⟩ := List.mem_map.mp hm
    have hu' := hp u hu
    cases u with
    | char c => exact hu'
    | slot content =>
      have hmarker : PlainMarker content := hu'
      obtain ⟨rest,hleads⟩ := hmarker.leads
      exact ⟨hmarker.plain,.own hleads hmarker.root_free⟩

/-- What a rendering from `env` did refines what the lexical one gives in the scope: both fail, or they write
the same chunks, whose markers resolve, and an environment with the property is reached. -/
inductive Refines (l : Lexical) (scope : Bindings) (P : Environment → Prop) (env : Environment) :
    Rendered → Except Error (List (Chunk (Option BoundValue))) → Prop
  | ok {env' : Environment} (chunks : List Paired) (produced : Bool) (reached : P env')
      (grows : Grows env env') (sound : ∀ ts ∈ chunks, ∀ t ∈ ts, Sound l scope env' t) :
      Refines l scope P env ⟨chunks.map (Chunk.write Prod.fst),env',.ok produced⟩
        (.ok (chunks.map (Chunk.mapSlots Prod.snd)))
  | error {r : Rendered} {e e' : Error} (failed : r.outcome = .error e) :
      Refines l scope P env r (.error e')

namespace Refines
variable {P Q : Environment → Prop} {r : Rendered} {x y : Except Error (List (Chunk (Option BoundValue)))}

theorem done (h : P env) (produced : Bool) : Refines l scope P env (.done produced env) (.ok []) :=
  .ok [] produced h (.refl env) (by simp)

theorem write (h : P env) {text : String} (ht : MarkedText text) :
    Refines l scope P env (.write text.toList env) (.ok [l.resolve scope text]) := by
  obtain ⟨ts,hw,hr,hs⟩ := ht.exists_paired l scope env
  rw [hw,hr]
  exact .ok [ts] true h (.refl env) (by simpa using hs)

theorem write? (h : P env) {text : Option String} (ht : ∀ s ∈ text.toList, MarkedText s) :
    Refines l scope P env (.write? text env) (.ok (text.map (l.resolve scope)).toList) := by
  cases text with
  | none => exact done h true
  | some s => exact write h (ht s (by simp))

theorem andThen {next : Environment → Rendered} (h : Refines l scope P env r x)
    (hnext : ∀ env', P env' → Grows env env' → Refines l scope Q env' (next env') y) :
    Refines l scope Q env (r.andThen next) (do
      let chunks ← x
      let rest ← y
      return chunks ++ rest) := by
  cases h with
  | @error _ e _ failed =>
    have hfirst : (r.andThen next).outcome = .error e := by simp [Rendered.andThen,failed]
    exact .error hfirst
  | @ok env₁ chunks produced reached grows sound =>
    have hsecond := hnext env₁ reached grows
    generalize hn : next env₁ = second at hsecond
    cases hsecond with
    | @error _ e _ failed =>
      refine .error (e := e) ?_
      simpa [Rendered.andThen,hn] using failed
    | @ok env₂ rest produced' reached' grows' sound' =>
      have hsound : ∀ ts ∈ chunks ++ rest, ∀ t ∈ ts, Sound l scope env₂ t := by
        intro ts hm t ht
        rcases List.mem_append.mp hm with hm | hm
        · exact (sound ts hm t ht).mono grows'
        · exact sound' ts hm t ht
      have hok := Refines.ok (l := l) (P := Q) (chunks ++ rest) produced' reached' (grows.trans grows') hsound
      rw [List.map_append,List.map_append] at hok
      simp only [Rendered.andThen,hn]
      exact hok

theorem answering (h : Refines l scope P env r x) (produced : Bool) :
    Refines l scope P env (r.answering produced) x := by
  cases h with
  | @error _ e _ failed =>
    refine .error (e := e) ?_
    simp [Rendered.answering,failed,Except.map]
  | ok chunks _ reached grows sound => exact .ok chunks produced reached grows sound

end Refines
end SqlTemplate
