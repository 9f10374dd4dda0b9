import Mathlib.Data.List.Forall2
import Mathlib.Data.List.Nodup
import SqlTemplate.Proofs.Lexical.Scope
import SqlTemplate.Proofs.Marker.Statements
import SqlTemplate.Proofs.Placeholder.Settled
/-!
# Writing markers

A path, perhaps a type, and options can be written as a marker, with any blanks around each of them. Reading the
marker gives them back, in their order. For what the marker is described by the order does not matter, nor whether
the type stands behind a colon or is an option, as long as no attribute is stated twice.
-/
namespace SqlTemplate
open Text

namespace Text

def Padded (cs written : List Char) : Prop :=
  ∃ before after, allBlank before = true ∧ allBlank after = true ∧ written = before ++ (cs ++ after)

theorem Padded.refl (cs : List Char) : Padded cs cs := ⟨[],[],rfl,rfl,by simp⟩

private theorem Padded.trim_eq {cs written : List Char} (h : Padded cs written) (ht : trim cs = cs) :
    trim written = cs := by
  obtain ⟨before,after,hb,ha,rfl⟩ := h
  exact trim_padded hb ha ht

theorem Padded.not_mem {cs written : List Char} (h : Padded cs written) {c : Char} (hc : isBlank c = false)
    (hm : c ∉ cs) : c ∉ written := by
  obtain ⟨before,after,hb,ha,rfl⟩ := h
  simp [not_mem_of_allBlank hb hc,not_mem_of_allBlank ha hc,hm]

end Text

namespace Marker

/-- A text as it stands between two commas of a marker, without the blanks at its ends. -/
structure IsWord (cs : List Char) : Prop where
  trimmed : trim cs = cs
  comma : ',' ∉ cs

instance (cs : List Char) : Decidable (IsWord cs) :=
  decidable_of_iff (trim cs = cs ∧ ',' ∉ cs) ⟨fun h => ⟨h.1,h.2⟩,fun h => ⟨h.trimmed,h.comma⟩⟩

/-- A path, perhaps a type, and options, such that a marker can state them. -/
structure Form where
  path : List Char
  type? : Option (List Char)
  options : List (List Char × List Char)
  path_word : IsWord path
  path_ne : path ≠ []
  path_colon : ':' ∉ path
  path_start : path.head? ≠ some '('
  type_word : ∀ type ∈ type?, IsWord type ∧ type ≠ []
  name_word : ∀ option ∈ options, IsWord option.1 ∧ option.1 ≠ [] ∧ '=' ∉ option.1
  value_word : ∀ option ∈ options, IsWord option.2
  names_nodup : (options.map Prod.fst).Nodup
  /-- No option takes the place of the path, or of the type if there is one. -/
  name_free : ∀ option ∈ options, option.1 ≠ Attribute.property.name.toList ∧
    (type? ≠ none → option.1 ≠ Attribute.sqlType.name.toList)

def WritesOption (option : List Char × List Char) (written : List Char) : Prop :=
  ∃ name value, Padded option.1 name ∧ Padded option.2 value ∧ written = name ++ '=' :: value

private theorem WritesOption.statement {option : List Char × List Char} {written : List Char}
    (h : WritesOption option written) (hname : IsWord option.1 ∧ option.1 ≠ [] ∧ '=' ∉ option.1)
    (hvalue : IsWord option.2) : ',' ∉ written ∧
      statement? written = some (String.ofList option.1,String.ofList option.2) := by
  obtain ⟨name,value,hn,hv,rfl⟩ := h
  obtain ⟨hword,hne,hequals⟩ := hname
  constructor
  · have hleft := hn.not_mem (c := ',') (by decide) hword.comma
    have hright := hv.not_mem (c := ',') (by decide) hvalue.comma
    simp [hleft,hright]
  · have hbefore := hn.not_mem (c := '=') (by decide) hequals
    have hkey := hn.trim_eq hword.trimmed
    rw [statement?_append hbefore,hkey,hv.trim_eq hvalue.trimmed,if_neg hne]

private theorem mapM_statement? {options : List (List Char × List Char)} {written : List (List Char)}
    (h : List.Forall₂ WritesOption options written)
    (hname : ∀ option ∈ options, IsWord option.1 ∧ option.1 ≠ [] ∧ '=' ∉ option.1)
    (hvalue : ∀ option ∈ options, IsWord option.2) : (∀ part ∈ written, ',' ∉ part) ∧
      written.mapM statement? =
        some (options.map fun option => (String.ofList option.1,String.ofList option.2)) := by
  induction h with
  | nil => exact ⟨by simp,rfl⟩
  | cons hw _ ih =>
    obtain ⟨hcomma,hstated⟩ := hw.statement (hname _ (by simp)) (hvalue _ (by simp))
    obtain ⟨hcommas,hrest⟩ := ih (fun o ho => hname o (List.mem_cons_of_mem _ ho))
      fun o ho => hvalue o (List.mem_cons_of_mem _ ho)
    constructor
    · simpa using ⟨hcomma,hcommas⟩
    · rw [List.mapM_cons,hstated,hrest]
      rfl

namespace Form
variable {f : Form} {content : List Char}

def WritesHead (f : Form) (head : List Char) : Prop :=
  ∃ path, Padded f.path path ∧ match f.type? with
    | none => head = path
    | some type => ∃ written, Padded type written ∧ head = path ++ ':' :: written

/-- The content has the path and the type in front and then the options, each behind a comma. -/
def Writes (f : Form) (content : List Char) : Prop :=
  ∃ head options, f.WritesHead head ∧ List.Forall₂ WritesOption f.options options ∧
    content = [','].intercalate (head :: options)

def stated (f : Form) : List (String × String) :=
  (f.type?.map fun type => (Attribute.sqlType.name,String.ofList type)).toList ++
    f.options.map fun option => (String.ofList option.1,String.ofList option.2)

def attributes (f : Form) : MarkerAttributes :=
  (Attribute.property.name,String.ofList f.path) :: f.stated

private theorem WritesHead.comma {head : List Char} (h : f.WritesHead head) : ',' ∉ head := by
  obtain ⟨path,hp,hhead⟩ := h
  have hpath := hp.not_mem (c := ',') (by decide) f.path_word.comma
  cases ht : f.type? with
  | none =>
    rw [ht] at hhead
    exact hhead ▸ hpath
  | some type =>
    rw [ht] at hhead
    obtain ⟨written,hw,rfl⟩ := hhead
    have htype := hw.not_mem (c := ',') (by decide) (f.type_word type ht).1.comma
    simp [hpath,htype]

private theorem WritesHead.statements {head : List Char} (h : f.WritesHead head) : headStatements? head =
    some ((Attribute.property.name,String.ofList f.path) ::
      (f.type?.map fun type => (Attribute.sqlType.name,String.ofList type)).toList) := by
  obtain ⟨path,⟨before,after,hb,ha,rfl⟩,hhead⟩ := h
  have hcolon : ':' ∉ f.path ++ after := by
    simp [f.path_colon,not_mem_of_allBlank ha (c := ':') (by decide)]
  have hpath : trim (f.path ++ after) = f.path := by
    simpa using trim_padded allBlank_nil ha f.path_word.trimmed
  obtain ⟨c,cs,hcs⟩ := List.exists_cons_of_ne_nil f.path_ne
  -- what is left of the head when the blanks in front are gone begins with the path
  have hbody (rest : List Char) : trimStart (before ++ ((f.path ++ after) ++ rest)) = (f.path ++ after) ++ rest := by
    rw [trimStart_blanks hb]
    apply trimStart_eq_self
    intro d hd
    apply head?_of_trim f.path_word.trimmed
    simpa [hcs] using hd
  have hstart (rest : List Char) : ((f.path ++ after) ++ rest).head? ≠ some '(' := by
    have hhead := f.path_start
    simpa [hcs] using hhead
  have hproperty : ofProperty f.path = [(Attribute.property.name,String.ofList f.path)] := by
    simp [ofProperty,f.path_ne]
  unfold headStatements?
  cases ht : f.type? with
  | none =>
    rw [ht] at hhead
    have hbare := hbody []
    have hbegin := hstart []
    rw [List.append_nil] at hbare hbegin
    obtain ⟨htake,hdrop⟩ := span_ne (List.append_nil (f.path ++ after)).symm hcolon (by simp)
    simp only [hhead,hbare,hbegin,ite_false,htake,hdrop,hpath,hproperty]
    rfl
  | some type =>
    rw [ht] at hhead
    obtain ⟨written,hw,rfl⟩ := hhead
    obtain ⟨hword,hne⟩ := f.type_word type ht
    rw [List.append_assoc]
    obtain ⟨htake,hdrop⟩ := span_ne (rfl : f.path ++ after ++ ':' :: written = _) hcolon (by simp)
    simp only [hbody,hstart,ite_false,htake,hdrop,hpath,hproperty,hw.trim_eq hword.trimmed,hne]
    rfl

/-- A marker states what was written. -/
theorem Writes.statements (h : f.Writes content) : statements? content = some f.attributes := by
  obtain ⟨head,options,hhead,hoptions,rfl⟩ := h
  obtain ⟨hcommas,hstated⟩ := mapM_statement? hoptions f.name_word f.value_word
  have hparts : ∀ part ∈ head :: options, ',' ∉ part := by
    intro part hp
    rcases List.mem_cons.mp hp with rfl | hp
    · exact hhead.comma
    · exact hcommas part hp
  rw [statements?,List.splitOn_intercalate _ hparts (by simp),statementsOf?,hhead.statements,Option.bind_some,hstated]
  rfl

private theorem nodup_names (f : Form) : (f.attributes.map Prod.fst).Nodup := by
  have hoptions : (f.options.map fun option => String.ofList option.1).Nodup := by
    have hnames := List.Nodup.map (fun _ _ => String.ofList_injective) f.names_nodup
    rwa [List.map_map] at hnames
  have hfree (name : String) (hn : ∀ option ∈ f.options, option.1 ≠ name.toList) :
      name ∉ f.options.map fun option => String.ofList option.1 := by
    intro hm
    obtain ⟨option,ho,rfl⟩ := List.mem_map.mp hm
    exact hn option ho (String.toList_ofList).symm
  have hproperty := hfree Attribute.property.name fun option ho => (f.name_free option ho).1
  cases ht : f.type? with
  | none =>
    simp only [attributes,stated,ht,Option.map_none,Option.toList_none,List.nil_append,List.map_cons,List.map_map]
    exact List.nodup_cons.mpr ⟨hproperty,hoptions⟩
  | some type =>
    have htype := hfree Attribute.sqlType.name fun option ho => (f.name_free option ho).2 (by simp [ht])
    simp only [attributes,stated,ht,Option.map_some,Option.toList_some,List.singleton_append,List.map_cons,
      List.map_map]
    have hne : Attribute.property.name ≠ Attribute.sqlType.name := by decide
    exact List.nodup_cons.mpr ⟨fun hm => (List.mem_cons.mp hm).elim hne hproperty,
      List.nodup_cons.mpr ⟨htype,hoptions⟩⟩

end Form

private theorem foldl_addStatement {attributes : MarkerAttributes} {stated : List (String × String)}
    (h : ((attributes ++ stated).map Prod.fst).Nodup) :
    stated.foldl addStatement attributes = attributes ++ stated := by
  induction stated generalizing attributes with
  | nil => simp
  | cons e stated ih =>
    have hnew : e.1 ∉ attributes.map Prod.fst := by
      rw [List.map_append,List.map_cons,List.nodup_append] at h
      intro hm
      exact h.2.2 e.1 hm e.1 (by simp) rfl
    have hadd : addStatement attributes e = attributes ++ [e] := by
      have hhas : Entries.has attributes e.1 = false := by simp [Entries.has,Entries.get?_eq_none.mpr hnew]
      simp [addStatement,hhas,Entries.put_of_not_mem hnew]
    have happend : attributes ++ e :: stated = (attributes ++ [e]) ++ stated := by simp
    rw [happend] at h ⊢
    rw [List.foldl_cons,hadd,ih h]

namespace Form
open MarkerAttributes
variable {f g : Form} {content content' : List Char}

theorem Writes.parse (h : f.Writes content) : Marker.parse content = .ok f.attributes := by
  have hnodup : (([] ++ f.attributes).map Prod.fst).Nodup := f.nodup_names
  have hfold := foldl_addStatement hnodup
  rw [parse_ok_iff,h.statements,Option.map_some,hfold,List.nil_append]

private theorem values_attributes {a : Attribute} (h : a ≠ .property) : values a f.attributes = values a f.stated := by
  have hname : Attribute.ofName? Attribute.property.name = some .property := by decide
  simp [values,attributes,hname,Ne.symm h]

/-- Reading a marker gives back the path, the type and the options that were written, in this order. When no
attribute is stated twice, the marker is described like every other one with the same path and the same statements
in any order, the type standing behind a colon or among the options. -/
theorem written_marker (h : f.Writes content) : Marker.parse content = .ok f.attributes ∧
    ∀ (g : Form) (content' : List Char), g.Writes content' → g.path = f.path → f.stated.Perm g.stated →
      Unambiguous f.stated → ∀ (s : MarkerScope) (n : Nat),
        (s.describe n content).toOption = (s.describe n content').toOption := by
  refine ⟨h.parse,?_⟩
  intro g content' hg hpath hperm hu s n
  rw [s.describe_toOption,s.describe_toOption,h.parse,hg.parse]
  change s.describe? n f.attributes = s.describe? n g.attributes
  apply MarkerScope.describe?_of_values
  · simp [attributes,Entries.get?,hpath]
  · have hsupported := supported_perm hperm
    simp only [supported,attributes,List.all_cons] at hsupported ⊢
    rw [hsupported]
  · intro a ha
    rw [values_attributes ha,values_attributes ha,values_perm hperm hu]

theorem written_marker_reordered : ∃ f g : Form,
    let content := " id : DECIMAL , mode = OUT, numericScale=2".toList
    let content' := "id,numericScale=2,mode=OUT,sqlType=DECIMAL".toList
    let s : MarkerScope := ⟨.standard,.int,none⟩
    f.Writes content ∧ g.Writes content' ∧ g.path = f.path ∧ f.stated.Perm g.stated ∧ Unambiguous f.stated ∧
      Marker.parse content =
        .ok [("property","id"),("sqlType","DECIMAL"),("mode","OUT"),("numericScale","2")] ∧
      (s.describe 0 content).toOption = (s.describe 0 content').toOption ∧
      (s.describe 0 content).toOption.isSome = true := by
  let options := [("mode".toList,"OUT".toList),("numericScale".toList,"2".toList)]
  let options' := [("numericScale".toList,"2".toList),("mode".toList,"OUT".toList),("sqlType".toList,"DECIMAL".toList)]
  let f : Form := ⟨"id".toList,some "DECIMAL".toList,options,by decide,by decide,by decide,by decide,by decide,
    by decide,by decide,by decide,by decide⟩
  let g : Form := ⟨"id".toList,none,options',by decide,by decide,by decide,by decide,by decide,by decide,
    by decide,by decide,by decide⟩
  have hf : f.Writes " id : DECIMAL , mode = OUT, numericScale=2".toList :=
    ⟨" id : DECIMAL ".toList,[" mode = OUT".toList," numericScale=2".toList],
      ⟨" id ".toList,⟨[' '],[' '],rfl,rfl,rfl⟩," DECIMAL ".toList,⟨[' '],[' '],rfl,rfl,rfl⟩,rfl⟩,
      .cons ⟨" mode ".toList," OUT".toList,⟨[' '],[' '],rfl,rfl,rfl⟩,⟨[' '],[],rfl,rfl,rfl⟩,rfl⟩
        (.cons ⟨" numericScale".toList,"2".toList,⟨[' '],[],rfl,rfl,rfl⟩,.refl _,rfl⟩ .nil),rfl⟩
  have hg : g.Writes "id,numericScale=2,mode=OUT,sqlType=DECIMAL".toList :=
    ⟨"id".toList,["numericScale=2".toList,"mode=OUT".toList,"sqlType=DECIMAL".toList],
      ⟨"id".toList,.refl _,rfl⟩,
      .cons ⟨"numericScale".toList,"2".toList,.refl _,.refl _,rfl⟩
        (.cons ⟨"mode".toList,"OUT".toList,.refl _,.refl _,rfl⟩
          (.cons ⟨"sqlType".toList,"DECIMAL".toList,.refl _,.refl _,rfl⟩ .nil)),rfl⟩
  have hperm : f.stated.Perm g.stated := by decide
  have hu : Unambiguous f.stated := by
    simp only [Unambiguous,f,stated,options]
    decide
  obtain ⟨hparse,hdescribe⟩ := written_marker hf
  exact ⟨f,g,hf,hg,rfl,hperm,hu,hparse,hdescribe g _ hg rfl hperm hu _ 0,by decide +kernel⟩

end Form
end Marker
end SqlTemplate
