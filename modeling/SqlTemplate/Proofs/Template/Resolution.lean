import SqlTemplate.Proofs.Expr.Reference
import SqlTemplate.Proofs.Lexical.Marker
import SqlTemplate.Proofs.Path.Segments
import SqlTemplate.Template
/-!
# References in expressions and in bind markers

A reference in a substitution is evaluated as an expression, in a bind marker it is resolved as a property path.
Where the evaluation gives a value, the resolution gives the same one.
-/
namespace SqlTemplate
open Text SqlTemplate.Expr

namespace Step

def segment : Step → Segment
  | .member name => .name (String.ofList name)
  | .position digits => .index (String.ofList digits)

end Step

namespace Path
variable {cs rest : List Char}

private theorem segmentsOf_identifier {name : List Char} (hname : IsIdentifier name)
    (hrest : ∀ c ∈ rest.head?, endsName c = true) (h : skipDot cs = name ++ rest) :
    segmentsOf cs = .name (String.ofList name) :: segmentsOf rest := by
  obtain ⟨c,more,hhead,-⟩ := hname.head
  exact segmentsOf_name (by simp [hhead]) (fun c hc => endsName_of_isNameChar (hname.isNameChar c hc)) hrest h

private theorem segmentsOf_position {digits : List Char} (hdigits : IsDigits digits) :
    segmentsOf ('[' :: (digits ++ ']' :: rest)) = .index (String.ofList digits) :: segmentsOf rest := by
  apply segmentsOf_index
  intro hc
  exact absurd (hdigits.2 ']' hc) (by decide)

end Path

namespace Step

private theorem endsName_of_head_textOf (steps : List Step) : ∀ c ∈ (textOf steps).head?, Path.endsName c = true := by
  intro c hc
  rcases head_textOf steps c hc with rfl | rfl <;> rfl

private theorem segmentsOf_textOf {steps : List Step} (h : ∀ s ∈ steps, s.WellFormed) :
    Path.segmentsOf (textOf steps) = steps.map segment := by
  induction steps with
  | nil => rw [textOf,List.flatMap_nil,Path.segmentsOf]; rfl
  | cons s steps ih =>
    obtain ⟨hs,hsteps⟩ := List.forall_mem_cons.mp h
    have hends := endsName_of_head_textOf steps
    rw [textOf_cons,List.map_cons,← ih hsteps]
    cases s with
    | member name => exact Path.segmentsOf_identifier hs hends rfl
    | position digits =>
      have htext : (Step.position digits).text ++ textOf steps = '[' :: (digits ++ ']' :: textOf steps) := by
        simp [text]
      rw [htext]
      exact Path.segmentsOf_position hs

def evaluate (s : Step) (v : Value) : Evaluated Value :=
  match s with
  | .member name => Expr.member v (String.ofList name)
  | .position digits => Expr.element v (.int (Int64.ofNat (Nat.ofDigitChars 10 digits 0)))

private theorem evaluate_of_isSimple (s : Step) {v : Value} (hv : v.isSimple = true) (w : Value) :
    s.evaluate v ≠ .ok w := by
  intro h
  cases v with
  | list items => cases hv
  | map entries => cases hv
  | record name fields => cases hv
  | _ => cases s <;> cases h

private theorem foldlM_evaluate_of_isSimple {steps : List Step} {v w : Value} (hv : v.isSimple = true)
    (h : steps.foldlM (fun v s => s.evaluate v) v = .ok w) : steps = [] ∧ w = v := by
  cases steps with
  | nil =>
    cases h
    exact ⟨rfl,rfl⟩
  | cons s steps =>
    rw [List.foldlM_cons] at h
    cases hs : s.evaluate v with
    | error fault =>
      rw [hs] at h
      cases h
    | ok u => exact absurd hs (s.evaluate_of_isSimple hv u)

private theorem word?_digits {digits : List Char} (hd : IsDigits digits)
    (hfits : Nat.ofDigitChars 10 digits 0 < Nat.pow 2 63) :
    Numeral.word? 64 (Text.trim digits) = some (Nat.ofDigitChars 10 digits 0) := by
  have hblank : ∀ c ∈ digits, isBlank c = false :=
    fun c hc => isBlank_of_isNameChar (isNameChar_of_isDigit (hd.2 c hc))
  have hall : digits.all Char.isDigit = true := List.all_eq_true.mpr hd.2
  have hnatural : Numeral.natural? digits = some (Nat.ofDigitChars 10 digits 0) := by
    obtain ⟨c,cs,rfl⟩ := List.exists_cons_of_ne_nil hd.1
    have hc : c ≠ '+' := by
      rintro rfl
      exact absurd (hd.2 '+' (by simp)) (by decide)
    unfold Numeral.natural?
    split
    · next heq => exact absurd (List.cons.inj heq).1 hc
    · rw [Numeral.digits?,if_pos ⟨hd.1,hall⟩]
  have hlt : Nat.ofDigitChars 10 digits 0 < Nat.pow 2 64 := Nat.lt_trans hfits (by decide)
  rw [Numeral.word?,trim_of_no_blank hblank,hnatural,Option.filter_some,if_pos (by simpa using hlt)]

private theorem element_list {n : Nat} (h : n < Nat.pow 2 63) (items : List Value) :
    Expr.element (.list items) (.int (Int64.ofNat n)) = .ok ((items[n]?).getD .null) := by
  have hint := Int64.toInt_ofNat_of_lt h
  have hnonneg : ¬Int64.ofNat n < 0 := by
    rw [Int64.lt_iff_toInt_lt,hint]
    simp
  rw [Expr.element,if_neg hnonneg,hint,Int.toNat_natCast]

/-- A step that can be evaluated leads to the same part of the value as its segment does, or to null. -/
theorem step?_of_evaluate {s : Step} (hs : s.WellFormed) (hfits : s.Fits) {v w : Value}
    (h : s.evaluate v = .ok w) : (v.step? s.segment).getD .null = w := by
  cases s with
  | member name =>
    cases v with
    | map entries =>
      cases h
      rfl
    | record typeName fields =>
      cases hget : Entries.get? fields (String.ofList name) with
      | none => simp [evaluate,Expr.member,hget] at h
      | some u =>
        obtain rfl : u = w := by simpa [evaluate,Expr.member,hget] using h
        simp [segment,Value.step?,Value.property?,hget]
    | _ => cases h
  | position digits =>
    cases v with
    | list items =>
      have helement := element_list hfits items
      change ((Numeral.word? 64 (Text.trim (String.ofList digits).toList)).bind (items[·]?)).getD .null = w
      rw [String.toList_ofList,word?_digits hs hfits,Option.bind_some]
      exact Except.ok.inj (helement.symm.trans h)
    | _ => cases h

private theorem foldlM_of_evaluate {steps : List Step} (hs : ∀ s ∈ steps, s.WellFormed) (hfits : ∀ s ∈ steps, s.Fits)
    {v w : Value} (h : steps.foldlM (fun v s => s.evaluate v) v = .ok w) :
    ((steps.map segment).foldlM Value.step? v).getD .null = w := by
  induction steps generalizing v with
  | nil =>
    cases h
    rfl
  | cons s steps ih =>
    rw [List.foldlM_cons] at h
    rw [List.map_cons,List.foldlM_cons]
    cases hu : s.evaluate v with
    | error fault =>
      rw [hu] at h
      cases h
    | ok u =>
      rw [hu] at h
      have hstep := step?_of_evaluate (hs s (by simp)) (hfits s (by simp)) hu
      cases hv : v.step? s.segment with
      | some u' =>
        obtain rfl : u' = u := by simpa [hv] using hstep
        exact ih (fun s hm => hs s (by simp [hm])) (fun s hm => hfits s (by simp [hm])) h
      | none =>
        -- the missing part is evaluated as null, from which no step leads on
        obtain rfl : Value.null = u := by simpa [hv] using hstep
        obtain ⟨rfl,rfl⟩ := foldlM_evaluate_of_isSimple rfl h
        rfl

private theorem evaluate_expr (s : Step) (b : Bindings) (e : Expr) :
    Expr.evaluate b (s.expr e) = (Expr.evaluate b e).bind s.evaluate := by
  cases s with
  | member name => rfl
  | position digits => rfl

private theorem evaluate_foldl (steps : List Step) (b : Bindings) (e : Expr) :
    Expr.evaluate b (steps.foldl (fun e s => s.expr e) e) =
      (Expr.evaluate b e).bind (steps.foldlM (fun v s => s.evaluate v)) := by
  induction steps generalizing e with
  | nil =>
    cases h : Expr.evaluate b e <;> simp [h] <;> rfl
  | cons s steps ih =>
    rw [List.foldl_cons,ih,evaluate_expr]
    cases h : Expr.evaluate b e <;> rfl

end Step

private theorem Evaluator.standard_evaluate (text : String) (b : Bindings) :
    Evaluator.standard.evaluate text b = (Expr.parse text).bind (Expr.evaluate b) := rfl

/-- The scalar types have handlers, lists, maps and records have none. -/
structure TypeHandlers.OfScalars (t : TypeHandlers) : Prop where
  bool : t.has .bool = true
  int : t.has .int = true
  float : t.has .float = true
  string : t.has .string = true
  list : t.has .list = false
  map : t.has .map = false
  record : ∀ name, t.has (.record name) = false

private theorem TypeHandlers.OfScalars.has_type {t : TypeHandlers} (ht : t.OfScalars) {v : Value}
    (hv : v.isNull = false) : t.has v.type = v.isSimple := by
  cases v with
  | null => cases hv
  | bool b => exact ht.bool
  | int i => exact ht.int
  | float x => exact ht.float
  | string s => exact ht.string
  | list items => exact ht.list
  | map entries => exact ht.map
  | record name fields => exact ht.record name

private theorem Expr.variableValue_of_isSimple {b : Bindings} {name : String} (hexplicit : b.explicit? name = none)
    (hv : b.parameter.isSimple = true) : Expr.variableValue b name = .ok b.parameter := by
  rw [variableValue,hexplicit]
  cases hp : b.parameter with
  | list items => simp [hp,Value.isSimple] at hv
  | map entries => simp [hp,Value.isSimple] at hv
  | record name fields => simp [hp,Value.isSimple] at hv
  | _ => rfl

namespace Reference
variable {r : Reference}

private theorem not_isBlank_of_mem_textOf {steps : List Step} (h : ∀ s ∈ steps, s.WellFormed) :
    ∀ c ∈ Step.textOf steps, isBlank c = false := by
  intro c hc
  obtain ⟨s,hs,hc⟩ := List.mem_flatMap.mp hc
  cases s with
  | member name =>
    rcases List.mem_cons.mp hc with rfl | hc
    · decide
    · exact isBlank_of_isNameChar (IsIdentifier.isNameChar (h _ hs) c hc)
  | position digits =>
    have hdigits : IsDigits digits := h _ hs
    simp only [Step.text,List.mem_cons,List.mem_append,List.not_mem_nil,or_false] at hc
    rcases hc with rfl | hc | rfl
    · decide
    · exact isBlank_of_isNameChar (isNameChar_of_isDigit (hdigits.2 c hc))
    · decide

theorem trim_text (hr : r.WellFormed) : Text.trim r.text = r.text := by
  apply trim_of_no_blank
  intro c hc
  rcases List.mem_append.mp hc with hc | hc
  · exact isBlank_of_isNameChar (hr.root_identifier.isNameChar c hc)
  · exact not_isBlank_of_mem_textOf hr.steps c hc

private theorem root_text (hr : r.WellFormed) :
    Path.root r.text = r.root ∧ Path.afterRoot r.text = Step.textOf r.steps := by
  have hroot : ∀ c ∈ r.root, (!Path.endsName c) = true := by
    intro c hc
    simp [endsName_of_isNameChar (hr.root_identifier.isNameChar c hc)]
  rw [Path.root,Path.afterRoot,trim_text hr]
  apply span_append hroot
  intro c hc
  simp [Step.endsName_of_head_textOf r.steps c hc]

private theorem segments_text (hr : r.WellFormed) :
    Path.segments r.text = .name (String.ofList r.root) :: r.steps.map Step.segment := by
  have hskip : Path.skipDot r.text = r.text := by
    obtain ⟨c,cs,hroot,hc⟩ := hr.root_identifier.head
    have hdot : c ≠ '.' := by
      rintro rfl
      exact absurd hc (by decide)
    rw [text,hroot,List.cons_append,Path.skipDot_of_ne hdot]
  rw [Path.segments,trim_text hr,
    Path.segmentsOf_identifier hr.root_identifier (Step.endsName_of_head_textOf r.steps) hskip,
    Step.segmentsOf_textOf hr.steps]

private theorem segments_textOf {steps : List Step} (h : ∀ s ∈ steps, s.WellFormed) :
    Path.segments (Step.textOf steps) = steps.map Step.segment := by
  rw [Path.segments,trim_of_no_blank (not_isBlank_of_mem_textOf h),Step.segmentsOf_textOf h]

/-- Without an explicit binding of its root, a reference is evaluated on the argument and resolved there. -/
theorem resolve_parameter (hr : r.WellFormed) (hfits : ∀ s ∈ r.steps, s.Fits) {t : TypeHandlers}
    (ht : t.OfScalars) {b : Bindings} (hexplicit : b.explicit? (String.ofList r.root) = none) {v : Value}
    (h : Expr.evaluate b r.expr = .ok v) : (if b.parameter.isNull then .null
      else if t.has b.parameter.type then b.parameter else (b.parameter.lookup? r.text).getD .null) = v := by
  rw [expr,Step.evaluate_foldl,Expr.evaluate] at h
  cases hv : b.parameter.isSimple with
  | true =>
    rw [variableValue_of_isSimple hexplicit hv] at h
    obtain rfl : v = b.parameter := (Step.foldlM_evaluate_of_isSimple hv h).2
    cases hp : b.parameter.isNull with
    | true => cases hvalue : b.parameter with
      | null => rfl
      | _ => simp [hvalue,Value.isNull] at hp
    | false => simp [ht.has_type hp,hv]
  | false =>
    have hnull : b.parameter.isNull = false := by
      cases hp : b.parameter with
      | null => simp [hp,Value.isSimple] at hv
      | _ => rfl
    have hmember (h : (Step.member r.root :: r.steps).foldlM (fun v s => s.evaluate v) b.parameter = .ok v) :
        (b.parameter.lookup? r.text).getD .null = v := by
      have hroot : (Step.member r.root).WellFormed := hr.root_identifier
      have hroot' : (Step.member r.root).Fits := trivial
      rw [Value.lookup?,segments_text hr]
      exact Step.foldlM_of_evaluate (List.forall_mem_cons.mpr ⟨hroot,hr.steps⟩)
        (List.forall_mem_cons.mpr ⟨hroot',hfits⟩) h
    simp only [ht.has_type hnull,hnull,hv,Bool.false_eq_true,if_false]
    rw [variableValue,hexplicit] at h
    cases hp : b.parameter with
    | list items =>
      -- a list has no member of the root's name, whatever the steps are
      rw [hp] at h
      rw [Value.lookup?,segments_text hr]
      exact (Step.foldlM_evaluate_of_isSimple rfl h).2.symm
    | map entries =>
      rw [hp] at h hmember
      exact hmember h
    | record name fields =>
      rw [hp] at h hmember
      exact hmember h
    | _ => simp [hp,Value.isSimple] at hv

private theorem resolve_explicit (hr : r.WellFormed) (hfits : ∀ s ∈ r.steps, s.Fits) {b : Bindings} {w v : Value}
    (hexplicit : b.explicit? (String.ofList r.root) = some w) (h : Expr.evaluate b r.expr = .ok v) :
    (b.additional? r.text).getD .null = v := by
  rw [expr,Step.evaluate_foldl,Expr.evaluate,variableValue,hexplicit] at h
  rw [Bindings.additional?,(root_text hr).1,(root_text hr).2,hexplicit,Option.bind_some,Value.lookup?,
    segments_textOf hr.steps]
  exact Step.foldlM_of_evaluate hr.steps hfits h

/-- A reference that has a value as an expression resolves to that value. -/
theorem resolve_eq_of_evaluate (r : Reference) (hr : r.WellFormed) (c : Configuration)
    (hc : c.typeHandlers.OfScalars) (b : Bindings) (v : Value)
    (h : Evaluator.standard.evaluate (String.ofList r.text) b = .ok v) (sql : String)
    (mappings : List ParameterMapping) :
    (BoundSql.mk sql mappings b b.parameter).resolve c (String.ofList r.text) = v := by
  obtain ⟨e,hparse,hevaluate⟩ : ∃ e, Expr.parse (String.ofList r.text) = .ok e ∧ Expr.evaluate b e = .ok v := by
    rw [Evaluator.standard_evaluate] at h
    cases hp : Expr.parse (String.ofList r.text) with
    | error fault =>
      rw [hp] at h
      cases h
    | ok e =>
      rw [hp] at h
      exact ⟨e,rfl,h⟩
  obtain ⟨rfl,hfits⟩ := (parse_text_iff hr e).mp hparse
  rw [BoundSql.resolve,String.toList_ofList]
  simp only [(root_text hr).1,Bindings.has]
  cases hexplicit : b.explicit? (String.ofList r.root) with
  | some w => exact resolve_explicit hr hfits hexplicit hevaluate
  | none => exact resolve_parameter hr hfits hc hexplicit hevaluate

def notRoles : Reference := ⟨"not".toList,[.member "roles".toList,.position ['0','1']]⟩

def notBindings : Bindings :=
  .ofArgument (.map [("not",.map [("roles",.list [.string "a",.string "b"])])]) none

private theorem wellFormed_notRoles : notRoles.WellFormed where
  root_identifier := by decide
  root_free v := by simp [notRoles,wordLiterals]
  steps := by decide

private theorem fits_notRoles : ∀ s ∈ notRoles.steps, s.Fits := by decide

private theorem ofScalars_builtin : TypeRegistry.builtin.typeHandlers.OfScalars :=
  ⟨by decide,by decide,by decide,by decide,by decide,by decide,fun _ => rfl⟩

private theorem evaluate_notRoles :
    Evaluator.standard.evaluate (String.ofList notRoles.text) notBindings = .ok (.string "b") := by
  have hparse := (parse_text_iff wellFormed_notRoles notRoles.expr).mpr ⟨rfl,fits_notRoles⟩
  have hevaluate : Expr.evaluate notBindings notRoles.expr = .ok (.string "b") := by rfl
  rw [Evaluator.standard_evaluate,hparse,Except.bind]
  exact hevaluate

theorem resolve_eq_of_evaluate_notRoles : String.ofList notRoles.text = "not.roles[01]" ∧
    notRoles.WellFormed ∧ Configuration.standard.typeHandlers.OfScalars ∧
    Evaluator.standard.evaluate (String.ofList notRoles.text) notBindings = .ok (.string "b") ∧
    (BoundSql.mk "" [] notBindings notBindings.parameter).resolve .standard (String.ofList notRoles.text) =
      .string "b" := by
  refine ⟨by decide,wellFormed_notRoles,ofScalars_builtin,evaluate_notRoles,?_⟩
  exact resolve_eq_of_evaluate notRoles wellFormed_notRoles .standard ofScalars_builtin notBindings _
    evaluate_notRoles "" []

end Reference

end SqlTemplate
