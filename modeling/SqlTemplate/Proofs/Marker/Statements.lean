import SqlTemplate.Parameter.Marker
import SqlTemplate.Proofs.Text.Trim
/-!
# What a marker states

A content is cut at its commas: in front stand the path and the type, behind them the options. Each of these parts
states something by itself, and the attributes are what comes of the statements one after the other.
-/
namespace SqlTemplate
open Text

namespace Marker

/-- What an option states: a name and a value, without the blanks around them. -/
def statement? (option : List Char) : Option (String × String) :=
  match option.dropWhile (· ≠ '=') with
  | [] => none
  | _ :: value =>
    let key := String.ofList (trim (option.takeWhile (· ≠ '=')))
    if key = "" then none else some (key,String.ofList (trim value))

theorem statement?_append {name : List Char} (h : '=' ∉ name) (value : List Char) :
    statement? (name ++ '=' :: value) = if trim name = [] then none
      else some (String.ofList (trim name),String.ofList (trim value)) := by
  have hempty (cs : List Char) : String.ofList cs = "" ↔ cs = [] := by simp
  obtain ⟨htake,hdrop⟩ := span_ne (rfl : name ++ '=' :: value = _) h (by simp)
  simp only [statement?,htake,hdrop,hempty]

theorem statement?_of_not_mem {option : List Char} (h : '=' ∉ option) : statement? option = none := by
  rw [statement?,(span_ne (List.append_nil option).symm h (by simp)).2]

/-- What stands in front of the options: a path that may be missing, and perhaps a type behind a colon. -/
def headStatements? (head : List Char) : Option (List (String × String)) :=
  let body := trimStart head
  let path := ofProperty (trim (body.takeWhile (· ≠ ':')))
  if body.head? = some '(' then none
  else match body.dropWhile (· ≠ ':') with
    | [] => some path
    | _ :: type =>
      if trim type = [] then none
      else some (path ++ [(Attribute.sqlType.name,String.ofList (trim type))])

def statementsOf? : List (List Char) → Option (List (String × String))
  | [] => none
  | head :: options => (headStatements? head).bind fun stated => (options.mapM statement?).map (stated ++ ·)

def statements? (content : List Char) : Option (List (String × String)) :=
  statementsOf? (List.splitOn ',' content)

section Map
variable {f : List Char → List Char} {g : String × String → String × String}

private theorem mapM_statement?_map {options : List (List Char)}
    (h : ∀ option ∈ options, statement? (f option) = (statement? option).map g) :
    (options.map f).mapM statement? = (options.mapM statement?).map (List.map g) := by
  induction options with
  | nil => rfl
  | cons option options ih =>
    have hrest := ih fun o ho => h o (List.mem_cons_of_mem option ho)
    rw [List.map_cons,List.mapM_cons,List.mapM_cons,h option (by simp),hrest]
    cases statement? option with
    | none => rfl
    | some stated => cases options.mapM statement? <;> rfl

theorem statementsOf?_map {head head' : List Char} {options : List (List Char)}
    (hh : headStatements? head' = (headStatements? head).map (List.map g))
    (ho : ∀ option ∈ options, statement? (f option) = (statement? option).map g) :
    statementsOf? (head' :: options.map f) = (statementsOf? (head :: options)).map (List.map g) := by
  rw [statementsOf?,statementsOf?,hh,mapM_statement?_map ho]
  cases headStatements? head with
  | none => rfl
  | some stated => cases options.mapM statement? <;> simp

end Map

/-- The attributes with one more statement. A path that is stated already stays. -/
def addStatement (attributes : MarkerAttributes) (stated : String × String) : MarkerAttributes :=
  if stated.1 = Attribute.property.name ∧ Entries.has attributes stated.1 then attributes
  else Entries.put attributes stated.1 stated.2

private theorem addOption_toOption (content : String) (attributes : MarkerAttributes) (option : List Char) :
    (addOption content attributes option).toOption = (statement? option).map (addStatement attributes) := by
  unfold addOption statement?
  cases option.dropWhile (· ≠ '=') with
  | nil => rfl
  | cons c value =>
    by_cases he : String.ofList (trim (option.takeWhile (· ≠ '='))) = ""
    · simp only [he,ite_true]
      rfl
    · simp only [he,ite_false,Option.map_some,addStatement]
      split <;> rfl

private theorem foldlM_addOption_toOption (content : String) (attributes : MarkerAttributes)
    (options : List (List Char)) : (options.foldlM (addOption content) attributes).toOption =
      (options.mapM statement?).map (·.foldl addStatement attributes) := by
  induction options generalizing attributes with
  | nil => rfl
  | cons option options ih =>
    rw [List.foldlM_cons,List.mapM_cons,toOption_bind,addOption_toOption]
    cases statement? option with
    | none => rfl
    | some stated =>
      simp only [Option.map_some,Option.bind_some,Option.bind_eq_bind]
      rw [ih]
      cases options.mapM statement? <;> rfl

private theorem addOptions_nil_toOption (content : String) (attributes : MarkerAttributes) :
    (addOptions content attributes []).toOption = some attributes := rfl

section Head
variable {head : List Char} (hh : ',' ∉ head)

def IsTail (tail : List Char) : Prop := ∀ c, tail.head? = some c → c = ','

variable {tail : List Char} (ht : IsTail tail)
include hh ht

private theorem takeWhile_head : (head ++ tail).takeWhile (· ≠ ',') = head := by
  rw [List.takeWhile_append_of_pos]
  · cases tail with
    | nil => simp
    | cons c tail => simp [ht c rfl]
  · intro c hc
    have hne : c ≠ ',' := by
      rintro rfl
      exact hh hc
    simpa using hne

private theorem dropWhile_head : (head ++ tail).dropWhile (· ≠ ',') = tail := by
  have hsplit := List.takeWhile_append_dropWhile (p := (· ≠ ',')) (l := head ++ tail)
  rw [takeWhile_head hh ht] at hsplit
  exact List.append_cancel_left hsplit

theorem takeWhile_property : (head ++ tail).takeWhile (!endsProperty ·) = head.takeWhile (· ≠ ':') := by
  induction head with
  | nil =>
    cases tail with
    | nil => rfl
    | cons c tail => simp [ht c rfl,endsProperty]
  | cons c head ih =>
    simp only [List.mem_cons,not_or] at hh
    by_cases hc : c = ':'
    · simp [hc,endsProperty]
    · have hends : endsProperty c = false := by simp [endsProperty,hc,Ne.symm hh.1]
      rw [List.cons_append,List.takeWhile_cons_of_pos (by simp [hends]),ih hh.2,
        List.takeWhile_cons_of_pos (by simp [hc])]

theorem dropWhile_property :
    (head ++ tail).dropWhile (!endsProperty ·) = head.dropWhile (· ≠ ':') ++ tail := by
  have hsplit := List.takeWhile_append_dropWhile (p := (!endsProperty ·)) (l := head ++ tail)
  have hhead := List.takeWhile_append_dropWhile (p := (· ≠ ':')) (l := head)
  have hsame : head.takeWhile (· ≠ ':') ++ (head ++ tail).dropWhile (!endsProperty ·) =
      head.takeWhile (· ≠ ':') ++ (head.dropWhile (· ≠ ':') ++ tail) := by
    rw [← takeWhile_property hh ht,hsplit,takeWhile_property hh ht,← List.append_assoc,hhead]
  exact List.append_cancel_left hsame

omit hh in
private theorem trimStart_head : trimStart (head ++ tail) = trimStart head ++ tail := by
  cases tail with
  | nil => simp
  | cons c tail =>
    obtain rfl := ht c rfl
    exact trimStart_append (by decide) head tail

private theorem parse_head : (parse (head ++ tail)).toOption = (headStatements? head).bind fun stated =>
    (addOptions (String.ofList (head ++ tail)) (stated.foldl addStatement []) tail).toOption := by
  have hbody : ',' ∉ trimStart head := fun hm => hh ((List.dropWhile_sublist _).mem hm)
  have hparenthesis : (trimStart head ++ tail).head? = some '(' ↔ (trimStart head).head? = some '(' := by
    cases trimStart head with
    | nil =>
      cases tail with
      | nil => rfl
      | cons c tail => simp [ht c rfl]
    | cons c body => rfl
  unfold parse headStatements?
  simp only [trimStart_head ht,hparenthesis,takeWhile_property hbody ht,dropWhile_property hbody ht]
  by_cases hp : (trimStart head).head? = some '('
  · simp only [hp,ite_true]
    rfl
  · simp only [hp,ite_false]
    have hpath (path : List Char) : (ofProperty path).foldl addStatement [] = ofProperty path := by
      unfold ofProperty
      split <;> rfl
    cases hd : (trimStart head).dropWhile (· ≠ ':') with
    | nil =>
      simp only [List.nil_append,Option.bind_some,hpath]
      cases tail with
      | nil => rfl
      | cons c tail =>
        obtain rfl := ht c rfl
        rfl
    | cons c type =>
      obtain rfl : c = ':' := by
        have hfirst := List.head?_dropWhile_not (· ≠ ':') (trimStart head)
        rw [hd] at hfirst
        simpa using hfirst
      have htype : ',' ∉ type := by
        intro hm
        have hmem : ',' ∈ (trimStart head).dropWhile (· ≠ ':') := by
          rw [hd]
          exact List.mem_cons_of_mem _ hm
        exact hbody ((List.dropWhile_sublist _).mem hmem)
      simp only [List.cons_append,addTypeAndOptions,takeWhile_head htype ht,dropWhile_head htype ht]
      by_cases hblank : trim type = []
      · simp only [hblank,ite_true]
        rfl
      · have hput : (ofProperty (trim ((trimStart head).takeWhile (· ≠ ':'))) ++
            [(Attribute.sqlType.name,String.ofList (trim type))]).foldl addStatement [] =
              Entries.put (ofProperty (trim ((trimStart head).takeWhile (· ≠ ':')))) Attribute.sqlType.name
                (String.ofList (trim type)) := by
          rw [List.foldl_append,hpath]
          rfl
        simp only [hblank,ite_false,Option.bind_some,hput]

end Head

/-- The attributes of a content are what comes of its statements; it has none when a part states nothing. -/
theorem parse_toOption (content : List Char) :
    (parse content).toOption = (statements? content).map (·.foldl addStatement []) := by
  by_cases hc : ',' ∈ content
  · obtain ⟨head,options,rfl,hh⟩ := List.eq_append_cons_of_mem hc
    have htail : IsTail (',' :: options) := by simp [IsTail]
    rw [parse_head hh htail,statements?,List.splitOn_append_cons_self_of_not_mem hh,statementsOf?]
    cases headStatements? head with
    | none => rfl
    | some stated =>
      simp only [Option.bind_some]
      change (((List.splitOn ',' options).foldlM (addOption _) _)).toOption = _
      rw [foldlM_addOption_toOption,Option.map_map]
      simp [Function.comp_def]
  · have htail : IsTail [] := by simp [IsTail]
    have hparse := parse_head hc htail
    rw [List.append_nil] at hparse
    rw [hparse,statements?,List.splitOn_eq_singleton hc,statementsOf?]
    cases headStatements? content with
    | none => rfl
    | some stated => simp [addOptions_nil_toOption]

theorem parse_ok_iff {content : List Char} {attributes : MarkerAttributes} :
    parse content = .ok attributes ↔ (statements? content).map (·.foldl addStatement []) = some attributes := by
  rw [← parse_toOption,toOption_eq_some]

end Marker
end SqlTemplate
