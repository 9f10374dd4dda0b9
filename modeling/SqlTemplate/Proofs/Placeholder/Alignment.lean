import SqlTemplate.Arguments
import SqlTemplate.Proofs.Placeholder.Descriptions
import SqlTemplate.Proofs.Placeholder.Drafts
/-!
# Alignment of placeholders and values

Placeholders, mappings, bound values and driver arguments stand in the order of the spans of the rendered
text, one for each span and under the same number.
-/
namespace SqlTemplate
open Token

namespace Reading

/-- The SQL of a reading: escapes of opening delimiters are dropped, and each span is replaced by the
placeholder of its number. -/
def sql (placeholder : Nat → List Char) (r : Reading '#') : List Char :=
  (r.spans.mapIdx fun i p => dropEscapes ['#','{'] p.before ++ placeholder i).flatten ++
    (dropEscapes ['#','{'] r.rest ++ r.unclosed)

end Reading

private theorem Dialect.place_tokens (d : Dialect) (r : Reading '#') :
    d.place 0 (r.tokens .drop) = r.sql d.placeholder := by
  have hspans (n : Nat) (ps : List (Span '#')) (tail : List Char) :
      d.place n (ps.flatMap (Span.tokens .drop) ++ chars tail) =
        (ps.mapIdx fun i p => dropEscapes ['#','{'] p.before ++ d.placeholder (n+i)).flatten ++ tail := by
    induction ps generalizing n with
    | nil =>
      have h := d.place_chars (α := List Char) n tail []
      simpa [place] using h
    | cons p ps ih =>
      simp only [List.flatMap_cons,Span.tokens,List.append_assoc,List.mapIdx_cons,List.flatten_cons]
      rw [d.place_chars,List.cons_append,List.nil_append,place,ih]
      simp [Escapes.read,Nat.add_assoc,Nat.add_comm 1]
  rw [Reading.tokens,hspans]
  simp [Reading.sql,Reading.tail,Escapes.read]

namespace Argument

def value : Argument → Value
  | .bool b => b.elim .null .bool
  | .int8 i => i.elim .null .int
  | .float8 x => x.elim .null .float
  | .text s => s.elim .null .string

/-- The argument hands on the bound value, and a null under the type of its mapping. -/
def Carries (a : Argument) (b : BoundValue) : Prop :=
  a.value = b.value ∧ (b.value = .null → a = null b.mapping.valueType)

private theorem value_null (t : ValueType) : (null t).value = .null := by cases t <;> rfl

private theorem ofBoundValue_of_isSimple {b : BoundValue} (h : b.value.isSimple = true) :
    ∃ a, ofBoundValue b = .ok a ∧ a.Carries b := by
  unfold ofBoundValue
  cases hv : b.value with
  | null => exact ⟨_,rfl,by simp [value_null,hv],fun _ => rfl⟩
  | bool | int | float | string => exact ⟨_,rfl,by simp [value,hv],by simp [hv]⟩
  | list | map | record => simp [hv,Value.isSimple] at h

private theorem ofBoundValue_of_not_isSimple {b : BoundValue} (h : b.value.isSimple = false) :
    ofBoundValue b = .error (.unsupportedValue b.mapping.path b.value.type) := by
  unfold ofBoundValue
  cases hv : b.value with
  | null | bool | int | float | string => simp [hv,Value.isSimple] at h
  | list | map | record => rfl

end Argument

/-- What `toArguments` answers: an argument for each value in its place, or the first value that is neither
null nor a scalar. -/
def CollectsArguments (values : List BoundValue) : Prop :=
  (∃ args, toArguments values = .ok args ∧ args.length = values.length ∧
    ∀ (k : Nat) (a : Argument) (b : BoundValue), args[k]? = some a → values[k]? = some b → a.Carries b) ∨
  ∃ (k : Nat) (b : BoundValue), values[k]? = some b ∧ b.value.isSimple = false ∧
    (∀ (j : Nat) (b' : BoundValue), j < k → values[j]? = some b' → b'.value.isSimple = true) ∧
    toArguments values = .error (.unsupportedValue b.mapping.path b.value.type)

private theorem collectsArguments (values : List BoundValue) : CollectsArguments values := by
  induction values with
  | nil => exact .inl ⟨[],rfl,rfl,by simp⟩
  | cons b bs ih =>
    have hcons : toArguments (b :: bs) = do
        let a ← Argument.ofBoundValue b
        let args ← toArguments bs
        return a :: args := by simp [toArguments]
    cases hb : b.value.isSimple with
    | false =>
      refine .inr ⟨0,b,rfl,hb,by simp,?_⟩
      rw [hcons,Argument.ofBoundValue_of_not_isSimple hb]
      rfl
    | true =>
      obtain ⟨a,ha,hc⟩ := Argument.ofBoundValue_of_isSimple hb
      rcases ih with ⟨args,hargs,hl,hcarry⟩ | ⟨k,b',hk,hb',hbefore,he⟩
      · refine .inl ⟨a :: args,by rw [hcons,ha,hargs]; rfl,by simp [hl],?_⟩
        intro k a' b' hk hk'
        cases k with
        | zero =>
          obtain rfl : a = a' := by simpa using hk
          obtain rfl : b = b' := by simpa using hk'
          exact hc
        | succ k => exact hcarry k a' b' (by simpa using hk) (by simpa using hk')
      · refine .inr ⟨k+1,b',by simpa using hk,hb',?_,by rw [hcons,ha,he]; rfl⟩
        intro j b'' hj hjb
        cases j with
        | zero =>
          obtain rfl : b = b'' := by simpa using hjb
          exact hb
        | succ j => exact hbefore j b'' (by omega) (by simpa using hjb)

/-- A text has one reading, and its spans carry everything that is bound: the mappings are the descriptions of
their contents in order, the SQL has the placeholder of each in its place, and the leftmost span that cannot be
described is the error. The values and the arguments of bound SQL are those of its mappings in order. -/
theorem mapMarkers_aligned (s : MarkerScope) (text : List Char) :
    (∃ r : Reading '#', r.source = text ∧ (∀ r' : Reading '#', r'.source = text → r' = r) ∧
      (∀ m, s.mapMarkers text = .ok m →
        m.mappings.length = r.spans.length ∧
        (∀ (i : Nat) (hi : i < r.spans.length), ∃ mapping, m.mappings[i]? = some mapping ∧
          mapping.position = i ∧ s.describe i (r.spans[i].read .drop) = .ok mapping) ∧
        m.text = r.sql fun i =>
          if s.config.dialect.isNumbered then '$' :: Nat.toDigits 10 (i+1) else ['?']) ∧
      (∀ (i : Nat) (hi : i < r.spans.length) (e : Error),
        (∀ (j : Nat) (hj : j < i), ∃ m, s.describe j (r.spans[j].read .drop) = .ok m) →
        s.describe i (r.spans[i].read .drop) = .error e → s.mapMarkers text = .error e) ∧
      ((∀ (i : Nat) (hi : i < r.spans.length), ∃ m, s.describe i (r.spans[i].read .drop) = .ok m) →
        ∃ m, s.mapMarkers text = .ok m)) ∧
    ∀ (b : BoundSql) (c : Configuration), (b.boundValues c).map BoundValue.mapping = b.mappings ∧
      CollectsArguments (b.boundValues c) := by
  refine ⟨?_,fun b c => ⟨?_,collectsArguments _⟩⟩
  · obtain ⟨r,rfl⟩ := Reading.exists_source (x := '#') (by decide) text
    have hlen : (r.contents .drop).length = r.spans.length := by simp [Reading.contents]
    have hcontent (i : Nat) (hi : i < r.spans.length) (hi' : i < (r.contents .drop).length) :
        (r.contents .drop)[i] = r.spans[i].read .drop := by
      simp [Reading.contents]
    refine ⟨r,rfl,fun r' h => Reading.source_injective (by decide) (by decide) h,?_,?_,?_⟩
    · intro m hm
      rw [s.mapMarkers_source] at hm
      cases hd : s.describeAll 0 (r.contents .drop) with
      | error e => simp [hd,Except.map] at hm
      | ok mappings =>
        rw [hd] at hm
        obtain rfl := Except.ok.inj hm
        obtain ⟨hl,hall⟩ := MarkerScope.describeAll_ok hd
        refine ⟨hl.trans hlen,?_,s.config.dialect.place_tokens r⟩
        intro i hi
        have hi' : i < (r.contents .drop).length := by omega
        obtain ⟨m,hg,hdm⟩ := hall i hi'
        rw [hcontent i hi hi',Nat.zero_add] at hdm
        exact ⟨m,hg,MarkerScope.position_of_describe hdm,hdm⟩
    · intro i hi e hbefore he
      have hi' : i < (r.contents .drop).length := by omega
      have hd : s.describeAll 0 (r.contents .drop) = .error e := by
        refine MarkerScope.describeAll_error hi' ?_ ?_
        · intro j hj
          rw [hcontent j (by omega) (by omega),Nat.zero_add]
          exact hbefore j hj
        · rwa [hcontent i hi hi',Nat.zero_add]
      rw [s.mapMarkers_source,hd]
      rfl
    · intro hall
      have hd : ∃ mappings, s.describeAll 0 (r.contents .drop) = .ok mappings := by
        refine MarkerScope.describeAll_total ?_
        intro i hi
        rw [hcontent i (by omega) hi,Nat.zero_add]
        exact hall i (by omega)
      obtain ⟨mappings,hd⟩ := hd
      exact ⟨_,by rw [s.mapMarkers_source,hd]; rfl⟩
  · simp [BoundSql.boundValues,BoundSql.boundValue,Function.comp_def]

end SqlTemplate
