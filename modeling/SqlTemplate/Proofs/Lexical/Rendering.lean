import SqlTemplate.Node.Render
import SqlTemplate.Proofs.Lexical.Simulation
/-!
# Every rendering is lexical

The rendering of a well formed template refines the lexical one, node by node. In a repetition the invariant is
that the environment agrees with the scope around it on everything but the loop variables: entering an iteration
binds these in both, and renaming what the iteration wrote makes it independent of them.
-/
namespace SqlTemplate
open Text Token
open Environment (Agrees Grows)
open Repetition (manufactured)

namespace Chunk
variable {α : Type} {u : Token α}

theorem mem_of_trim {ts : Chunk α} (h : u ∈ trim ts) : u ∈ ts := by
  have hend : u ∈ (trimStart ts).reverse.dropWhile Token.isBlank := List.mem_reverse.mp h
  have hstart : u ∈ trimStart ts := List.mem_reverse.mp ((List.dropWhile_sublist _).mem hend)
  exact (List.dropWhile_sublist _).mem hstart

private theorem mem_of_stripFront {words : List String} {ts : Chunk α} (h : u ∈ stripFront words ts) : u ∈ ts := by
  unfold stripFront at h
  split at h
  · exact List.mem_of_mem_drop ((List.dropWhile_sublist _).mem h)
  · exact h

private theorem mem_of_stripBack {words : List String} {ts : Chunk α} (h : u ∈ stripBack words ts) : u ∈ ts := by
  unfold stripBack at h
  split at h
  · next w _ =>
    have hend : u ∈ (ts.take (ts.length-(Text.trim w.toList).length)).reverse.dropWhile Token.isBlank :=
      List.mem_reverse.mp h
    exact List.mem_of_mem_take (List.mem_reverse.mp ((List.dropWhile_sublist _).mem hend))
  · exact h

private theorem mem_of_join {parts : List (Chunk α)} (h : u ∈ join parts) :
    u = .char ' ' ∨ ∃ part ∈ parts, u ∈ part := by
  induction parts with
  | nil => simp [join] at h
  | cons part parts ih =>
    cases parts with
    | nil => exact .inr ⟨part,by simp,h⟩
    | cons p ps =>
      simp only [join,List.mem_append,List.mem_cons] at h
      rcases h with h | h | h
      · exact .inr ⟨part,by simp,h⟩
      · exact .inl h
      · rcases ih h with hs | ⟨q,hq,hu⟩
        · exact .inl hs
        · exact .inr ⟨q,List.mem_cons_of_mem part hq,hu⟩

private theorem mem_of_finish {t : Trim} {front back contents : Chunk α} (h : u ∈ finish t front back contents) :
    u = .char ' ' ∨ u ∈ front ∨ u ∈ contents ∨ u ∈ back := by
  unfold finish at h
  simp only at h
  split at h
  · simp at h
  · rcases mem_of_join h with hs | ⟨part,hp,hu⟩
    · exact .inl hs
    · have hpart := (List.mem_filter.mp hp).1
      simp only [List.mem_cons,List.not_mem_nil,or_false] at hpart
      rcases hpart with rfl | rfl | rfl
      · exact .inr (.inl hu)
      · exact .inr (.inr (.inl (mem_of_trim (mem_of_stripFront (mem_of_stripBack hu)))))
      · exact .inr (.inr (.inr hu))

private theorem mem_of_place {separator : Option (Chunk α)} {started : Bool} {chunks : List (Chunk α)} {ts : Chunk α}
    (h : ts ∈ place separator started chunks) : separator = some ts ∨ ts ∈ chunks := by
  cases started with
  | false => exact .inr h
  | true =>
    cases separator with
    | none => exact .inr h
    | some s =>
      simp only [place,Option.elim_some,ite_true] at h
      induction chunks with
      | nil => simp [separate] at h
      | cons chunk chunks ih =>
        unfold separate at h
        split at h
        · rcases List.mem_cons.mp h with rfl | h
          · exact .inr (by simp)
          · rcases ih h with hs | hm
            · exact .inl hs
            · exact .inr (List.mem_cons_of_mem chunk hm)
        · rcases List.mem_cons.mp h with rfl | h
          · exact .inl rfl
          · exact .inr h

private theorem any_isBlank_write (f : α → List Char) (chunks : List (Chunk α)) :
    (chunks.map (write f)).any (!allBlank ·) = chunks.any (!·.isBlank) := by
  simp [List.any_map,Function.comp_def,allBlank_write]

private theorem any_isBlank_mapSlots {β : Type} (f : α → β) (chunks : List (Chunk α)) :
    (chunks.map (mapSlots f)).any (!·.isBlank) = chunks.any (!·.isBlank) := by
  simp [List.any_map,Function.comp_def,isBlank_mapSlots]

end Chunk

variable {l : Lexical} {bound : List String} {scope : Bindings} {env env' : Environment} {r : Repetition}
  {position : Nat} {e : Entry}

def Paired.rename (r : Repetition) (n : Nat) (ts : Paired) : Paired :=
  ts.mapSlots fun p => (r.renameContent n p.1,p.2)

/-- The markers that an iteration renames do not refer to its scope any more. -/
theorem Resolves.rename (hr : r.Fresh bound) (hg : Grows (r.enter position e env) env')
    (ha : Agrees [] (r.names ++ bound) (Lexical.enter r position e scope) env') {content : List Char}
    {v : Option BoundValue} (h : Resolves l (Lexical.enter r position e scope) env' content v) :
    Resolves l scope env' (r.renameContent env.counter content) v := by
  cases h with
  | @own name _ leads free =>
    rw [Repetition.renameContent_eq leads hr.is_name]
    by_cases hname : String.ofList name ∈ r.names
    · rw [if_pos hname]
      have htaken : env.counter < (r.enter position e env).counter := by
        rw [Environment.counter_enter]
        exact Nat.lt_succ_self _
      obtain ⟨v,hs,hm⟩ := Environment.explicit?_enter_manufactured hr position e scope env hname
      rw [← hg.keeps _ _ htaken] at hm
      have leads' := leads.replace (Repetition.isName_manufactured (hr.is_name _ hname) env.counter)
      have hpath := Repetition.original_manufactured (hr.is_name _ hname) env.counter leads.continuesName_more
      have hv := leads.bound?_original leads' l ha.parameter.symm (by simpa [hs] using hm.symm)
        (.inr (by simp [hs])) (by simpa using hpath)
      rw [hv]
      exact .renamed leads' (Nat.lt_of_lt_of_le htaken hg.counter) (by simp [hm])
    · rw [if_neg hname]
      obtain ⟨hitem,hindex⟩ := Repetition.ne_of_not_mem_names hname
      have hs : (Lexical.enter r position e scope).explicit? (String.ofList name) =
          scope.explicit? (String.ofList name) := by
        rw [Environment.explicit?_lexical_enter,if_neg hitem,if_neg hindex]
      have hv : l.bound? (Lexical.enter r position e scope) content = l.bound? scope content :=
        leads.bound?_congr l (Environment.parameter_lexical_enter r position e scope) hs
      rw [hv]
      exact .own leads free
  | @renamed _ x m leads taken bound =>
    have hname : String.ofList (manufactured x m).toList ∉ r.names := by
      rw [String.ofList_toList]
      intro hm
      exact hr.free _ hm (Repetition.isReserved_manufactured x m)
    rw [Repetition.renameContent_eq leads hr.is_name,if_neg hname]
    exact .renamed leads taken bound

theorem Sound.rename (hr : r.Fresh bound) (hg : Grows (r.enter position e env) env')
    (ha : Agrees [] (r.names ++ bound) (Lexical.enter r position e scope) env')
    {t : Token (List Char × Option BoundValue)} (h : Sound l (Lexical.enter r position e scope) env' t) :
    Sound l scope env' (t.map fun p => (r.renameContent env.counter p.1,p.2)) := by
  cases t with
  | char c => exact h
  | slot p =>
    obtain ⟨root,rest,hleads⟩ := h.2.leads
    exact ⟨Repetition.renameContent_plain hleads hr.is_name h.1 env.counter,h.2.rename hr hg ha⟩

namespace Refines
variable {P : Environment → Prop} {rendered : Rendered} {x : Except Error (List (Chunk (Option BoundValue)))}

theorem renderTrim {t : Trim} (hf : ∀ w ∈ t.frontOverrides, Chunk.IsWord w)
    (hb : ∀ w ∈ t.backOverrides, Chunk.IsWord w) (hfront : MarkedText (t.front.getD ""))
    (hback : MarkedText (t.back.getD "")) {body : Environment → Rendered}
    {lexicalBody : Bindings → Except Error (List (Chunk (Option BoundValue)))}
    (h : Refines l scope P env (body env) (lexicalBody scope)) :
    Refines l scope P env (Node.renderTrim t body env) (l.renderTrim t lexicalBody scope) := by
  unfold Node.renderTrim Lexical.renderTrim
  generalize body env = rendered at h
  generalize lexicalBody scope = x at h
  cases h with
  | @error _ e _ failed =>
    refine .error (e := e) ?_
    simp [failed]
  | @ok env' chunks produced reached grows sound =>
    obtain ⟨front,hfw,hfr,hfs⟩ := hfront.exists_paired l scope env'
    obtain ⟨back,hbw,hbr,hbs⟩ := hback.exists_paired l scope env'
    have hsound : ∀ ts ∈ [Chunk.finish t front back chunks.flatten], ∀ u ∈ ts, Sound l scope env' u := by
      intro ts hts u hu
      obtain rfl := List.mem_singleton.mp hts
      rcases Chunk.mem_of_finish hu with rfl | hu | hu | hu
      · exact show isPlain ' ' = true by decide
      · exact hfs u hu
      · obtain ⟨ts,hts,hu⟩ := List.mem_flatten.mp hu
        exact sound ts hts u hu
      · exact hbs u hu
    have hok := Refines.ok (l := l) (P := P) _ produced reached grows hsound
    have hwrite := Chunk.finish_write Prod.fst t hf hb hfw hbw chunks.flatten
    have hslots := Chunk.finish_mapSlots Prod.snd t front back chunks.flatten
    simp only [Rendered.text,Chunk.flatten_write,hwrite,hfr,hbr]
    change Refines l scope P env _ (.ok [Chunk.finish t (front.mapSlots Prod.snd) (back.mapSlots Prod.snd)
      (chunks.map (Chunk.mapSlots Prod.snd)).flatten])
    rw [Chunk.flatten_mapSlots,hslots]
    exact hok

private theorem exists_paired_separator (h : ∀ s ∈ r.separator.toList, MarkedText s) (l : Lexical)
    (scope : Bindings) (env : Environment) : ∃ separator : Option Paired,
      r.separator.map String.toList = separator.map (Chunk.write Prod.fst) ∧
      r.separator.map (l.resolve scope) = separator.map (Chunk.mapSlots Prod.snd) ∧
      ∀ ts, separator = some ts → ∀ t ∈ ts, Sound l scope env t := by
  cases hs : r.separator with
  | none => exact ⟨none,rfl,rfl,by simp⟩
  | some s =>
    obtain ⟨ts,hw,hv,hsound⟩ := (h s (by simp [hs])).exists_paired l scope env
    refine ⟨some ts,by simp [hw],by simp [hv],?_⟩
    intro ts' hts
    obtain rfl := Option.some.inj hts
    exact hsound

private theorem map_renameMarkers_write {n : Nat} {chunks : List Paired}
    (h : ∀ ts ∈ chunks, ∀ t ∈ ts, (t.map Prod.fst).Plain) :
    (chunks.map (Chunk.write Prod.fst)).map (r.renameMarkers n) =
      (chunks.map (Paired.rename r n)).map (Chunk.write Prod.fst) := by
  rw [List.map_map,List.map_map]
  apply List.map_congr_left
  intro ts hts
  change r.renameMarkers n (ts.write Prod.fst) = (Paired.rename r n ts).write Prod.fst
  rw [Chunk.renameMarkers_write r n (h ts hts),Paired.rename,Chunk.write_mapSlots]
  rfl

private theorem map_mapSlots_rename (r : Repetition) (n : Nat) (chunks : List Paired) :
    (chunks.map (Paired.rename r n)).map (Chunk.mapSlots Prod.snd) = chunks.map (Chunk.mapSlots Prod.snd) := by
  rw [List.map_map]
  apply List.map_congr_left
  intro ts _
  change List.map _ (List.map _ ts) = List.map _ ts
  rw [List.map_map]
  apply List.map_congr_left
  intro t _
  cases t <;> rfl

/-- The iterations over elements, with the loop variables of the last one left in the environment. -/
theorem iterate (hr : r.Fresh bound) (hseparator : ∀ s ∈ r.separator.toList, MarkedText s)
    {body : Environment → Rendered}
    {lexicalBody : Bindings → Except Error (List (Chunk (Option BoundValue)))}
    (hbody : ∀ scope env, Agrees [] (r.names ++ bound) scope env →
      Refines l scope (Agrees [] (r.names ++ bound) scope) env (body env) (lexicalBody scope))
    (entries : List Entry) (position : Nat) (started : Bool) (h : Agrees r.names bound scope env) :
    Refines l scope (Agrees r.names bound scope) env (r.iterate body entries position started env)
      (l.iterate r lexicalBody scope entries position started) := by
  induction entries generalizing position started env with
  | nil => exact done h true
  | cons e es ih =>
    have hiteration := hbody _ _ (h.enter position e)
    unfold Repetition.iterate Lexical.iterate
    generalize body (r.enter position e env) = rendered at hiteration
    generalize lexicalBody (Lexical.enter r position e scope) = x at hiteration
    cases hiteration with
    | @error _ err _ failed =>
      refine .error (e := err) ?_
      simp [Rendered.andThen,Rendered.mapChunks,failed]
    | @ok env' chunks produced reached grows sound =>
      have hgrows : Grows env env' := (Environment.grows_enter hr position e env).trans grows
      obtain ⟨separator,hwrite,hslots,hsound⟩ := exists_paired_separator hseparator l scope env'
      let renamed := chunks.map (Paired.rename r env.counter)
      have hrenamed : (chunks.map (Chunk.write Prod.fst)).map (r.renameMarkers env.counter) =
          renamed.map (Chunk.write Prod.fst) := map_renameMarkers_write fun ts hts t ht => (sound ts hts t ht).plain
      have hvalues : renamed.map (Chunk.mapSlots Prod.snd) = chunks.map (Chunk.mapSlots Prod.snd) :=
        map_mapSlots_rename r env.counter chunks
      have hany : (renamed.map (Chunk.write Prod.fst)).any (!allBlank ·) =
          (renamed.map (Chunk.mapSlots Prod.snd)).any (!·.isBlank) := by
        rw [Chunk.any_isBlank_write,Chunk.any_isBlank_mapSlots]
      have hplaced : ∀ ts ∈ Chunk.place separator started renamed, ∀ t ∈ ts, Sound l scope env' t := by
        intro ts hts t ht
        rcases Chunk.mem_of_place hts with hs | hm
        · exact hsound ts hs t ht
        · obtain ⟨ts',hts',rfl⟩ := List.mem_map.mp hm
          obtain ⟨t',ht',rfl⟩ := List.mem_map.mp ht
          exact (sound ts' hts' t' ht').rename hr grows reached
      have hfirst := Refines.ok (l := l) _ produced (reached.exit h.fresh) hgrows hplaced
      rw [← Chunk.place_write Prod.fst r hwrite,← Chunk.place_mapSlots,← hslots,hvalues] at hfirst
      have hrest := hfirst.andThen fun env'' h'' _ => ih (position+1)
        (started || (chunks.map (Chunk.mapSlots Prod.snd)).any (!·.isBlank)) h''
      simp only [Rendered.mapChunks,hrenamed,hany,hvalues]
      exact hrest

private theorem leave (hr : r.Fresh bound) (ht : ∀ s ∈ r.closing.toList, MarkedText s)
    (h : Agrees r.names bound scope env) : Refines l scope (Agrees [] bound scope) env
      ((Rendered.write? r.closing env).andThen fun env => .done true (r.leave env))
      (.ok (r.closing.map (l.resolve scope)).toList) := by
  have hwrite : Refines l scope (Agrees r.names bound scope) env (.write? r.closing env)
      (.ok (r.closing.map (l.resolve scope)).toList) := write? h ht
  have hclosing := hwrite.andThen (Q := Agrees [] bound scope) (y := .ok []) fun env' h' _ =>
    .ok [] true (h'.leave hr) (Environment.grows_leave hr _) (by simp)
  change Refines l scope _ env _ (.ok ((r.closing.map (l.resolve scope)).toList ++ [])) at hclosing
  rwa [List.append_nil] at hclosing

theorem renderEntries (hr : r.Fresh bound)
    (ht : ∀ s ∈ r.opening.toList ++ r.closing.toList ++ r.separator.toList, MarkedText s)
    {body : Environment → Rendered}
    {lexicalBody : Bindings → Except Error (List (Chunk (Option BoundValue)))}
    (hbody : ∀ scope env, Agrees [] (r.names ++ bound) scope env →
      Refines l scope (Agrees [] (r.names ++ bound) scope) env (body env) (lexicalBody scope))
    (entries : List Entry) (h : Agrees [] bound scope env) :
    Refines l scope (Agrees [] bound scope) env (r.renderEntries body entries env)
      (l.renderEntries r lexicalBody scope entries) := by
  unfold Repetition.renderEntries Lexical.renderEntries
  split
  · exact done h true
  · have hopening : Refines l scope (Agrees r.names bound scope) env (.write? r.opening env)
        (.ok (r.opening.map (l.resolve scope)).toList) := write? h.stale fun s hs => ht s (by simp_all)
    have hiterations := hopening.andThen fun env₁ h₁ _ =>
      iterate hr (fun s hs => ht s (by simp_all)) hbody entries 0 false h₁
    have hclosing := hiterations.andThen fun env₂ h₂ _ =>
      leave hr (fun s hs => ht s (by simp_all)) h₂
    generalize l.iterate r lexicalBody scope entries 0 false = x at hclosing ⊢
    cases x with
    | error e => exact hclosing
    | ok chunks => exact hclosing

end Refines

namespace Node

private theorem renderText_of_marked {text : String} (h : MarkedText text) (c : Configuration) (env : Environment) :
    renderText c text env = .write text.toList env := by
  obtain ⟨ts,ht,hp⟩ := h
  have hnone := Chunk.hasSubstitution_write ht fun t hm => (hp t hm).plain
  rw [renderText,hnone]
  rfl

mutual

/-- The rendering of a well formed template refines the lexical one. -/
theorem render_refines (l : Lexical) : (root : Node) → {bound : List String} → {scope : Bindings} →
    {env : Environment} → root.WellFormed bound → Agrees [] bound scope env →
      Refines l scope (Agrees [] bound scope) env (root.render l.config env) (l.render root scope)
  | .text s, _, scope, env, hw, h => by
    rw [render,renderText_of_marked hw,Lexical.render]
    exact .write h hw
  | .conditional test body, _, scope, env, hw, h => by
    have htest : l.config.evaluator.test test env.bindings = l.config.evaluator.test test scope :=
      congrArg (Except.map Value.truthy) (h.evaluate_eq hw.1)
    rw [render,renderConditional,htest,Lexical.render,Lexical.renderConditional]
    cases l.config.evaluator.test test scope with
    | error e => exact .error rfl
    | ok b =>
      cases b with
      | true => exact (render_refines l body hw.2 h).answering true
      | false => exact .done h false
  | .repetition r body, _, scope, env, hw, h => by
    obtain ⟨hcollection,ht,hr,hbody⟩ := hw
    have hcollect : l.config.evaluator.collect r.collection env.bindings =
        l.config.evaluator.collect r.collection scope :=
      congrArg (Except.bind · Value.entries) (h.evaluate_eq hcollection)
    rw [render,renderRepetition,hcollect,Lexical.render,Lexical.renderRepetition]
    cases l.config.evaluator.collect r.collection scope with
    | error e => exact .error rfl
    | ok entries => exact .renderEntries hr ht (fun _ _ h' => render_refines l body hbody h') entries h
  | .trim t body, _, scope, env, hw, h => by
    obtain ⟨ht,hwords,hbody⟩ := hw
    have hgetD (o : Option String) (ho : ∀ s ∈ o.toList, MarkedText s) : MarkedText (o.getD "") := by
      cases o with
      | none => exact ⟨[],rfl,by simp⟩
      | some s => exact ho s (by simp)
    rw [render,Lexical.render]
    exact .renderTrim (fun w hm => hwords w (List.mem_append_left _ hm))
      (fun w hm => hwords w (List.mem_append_right _ hm))
      (hgetD t.front fun s hs => ht s (List.mem_append_left _ hs))
      (hgetD t.back fun s hs => ht s (List.mem_append_right _ hs)) (render_refines l body hbody h)
  | .sequence nodes, _, _, _, hw, h => renderAll_refines l nodes hw h

private theorem renderAll_refines (l : Lexical) : (nodes : List Node) → {bound : List String} → {scope : Bindings} →
    {env : Environment} → AllWellFormed bound nodes → Agrees [] bound scope env →
      Refines l scope (Agrees [] bound scope) env (renderAll l.config nodes env) (l.renderAll nodes scope)
  | [], _, _, _, _, h => .done h true
  | n :: ns, _, _, _, hw, h =>
    (render_refines l n hw.1 h).andThen fun _ h' _ => renderAll_refines l ns hw.2 h'

end

end Node
end SqlTemplate
