import SqlTemplate.Proofs.Lexical.Renaming
/-!
# Markers of a variable

A marker refers to a variable when its path has the variable for its root. An iteration looks at the text of the marker
instead: it has to begin with the variable, which must not go on as a name. A root ends at a dot or a bracket only, so
the two differ where the root goes on behind the variable with a character of neither kind: `user-id` is the root of its
path, but it is renamed for `user`.
-/
namespace SqlTemplate
open Text

private theorem continuesName_takeWhile {p : Char → Bool} (hp : ∀ c, isNameChar c = true → p c = true)
    (cs : List Char) :
    continuesName (cs.takeWhile p) = continuesName cs := by
  cases cs with
  | nil => rfl
  | cons c cs =>
    cases hc : isNameChar c with
    | true =>
      rw [List.takeWhile_cons_of_pos (hp c hc)]
      rfl
    | false =>
      have hstop : continuesName (c :: cs) = false := hc
      rw [hstop]
      by_cases hpc : p c = true
      · rw [List.takeWhile_cons_of_pos hpc]
        exact hc
      · rw [List.takeWhile_cons_of_neg hpc]
        rfl

private theorem continuesName_trimEnd (cs : List Char) : continuesName (Text.trimEnd cs) = continuesName cs := by
  cases cs with
  | nil => rfl
  | cons c cs =>
    cases hc : isNameChar c with
    | true =>
      have hkeep := Text.trimEnd_append (isBlank_of_isNameChar hc) [] cs
      simp only [List.nil_append] at hkeep
      rw [hkeep]
      rfl
    | false =>
      have hstop : continuesName (c :: cs) = false := hc
      rw [hstop]
      obtain ⟨blanks,hblanks⟩ := trimEnd_prefix (c :: cs)
      cases ht : Text.trimEnd (c :: cs) with
      | nil => rfl
      | cons d ds =>
        rw [ht] at hblanks
        obtain rfl : d = c := (List.cons.inj hblanks).1
        exact hc

private theorem continuesName_root (rest : List Char) :
    continuesName ((Leads.more rest).takeWhile (!Path.endsName ·)) = continuesName rest := by
  rw [continuesName_takeWhile fun c hc => by simp [endsName_of_isNameChar hc],Leads.more,continuesName_trimEnd,
    continuesName_takeWhile fun c hc => by simp [endsProperty_of_isNameChar hc]]

private theorem Marker.root_prefix (content : List Char) :
    Path.root (Marker.path content) <+: Text.trimStart content := by
  have hroot : Path.root (Marker.path content) <+: Marker.path content := by
    rw [Path.root,Marker.path,trim_trim]
    exact List.takeWhile_prefix _
  have hpath : Marker.path content <+: (Text.trimStart content).takeWhile (!endsProperty ·) := by
    rw [path_eq_trimEnd]
    exact trimEnd_prefix _
  exact (hroot.trans hpath).trans (List.takeWhile_prefix _)

namespace Repetition
variable {name : String}

private theorem isSome_renameVariable?_iff (n : Nat) (content : List Char) (name : String) :
    (renameVariable? n content name).isSome = true ↔
      ∃ rest, trimStart content = name.toList ++ rest ∧ continuesName rest = false := by
  constructor
  · intro h
    obtain ⟨renamed,hr⟩ := Option.isSome_iff_exists.mp h
    obtain ⟨rest,hstart,hends,-⟩ := renameVariable?_eq_some hr
    exact ⟨rest,hstart,hends⟩
  · intro h
    obtain ⟨rest,hstart,hends⟩ := h
    simp [renameVariable?,hstart,hends]

private theorem starts_iff_root (h : IsName name.toList) (content : List Char) :
    (∃ rest, trimStart content = name.toList ++ rest ∧ continuesName rest = false) ↔
      ∃ more, Path.root (Marker.path content) = name.toList ++ more ∧ continuesName more = false := by
  constructor
  · intro hstarts
    obtain ⟨rest,hstart,hends⟩ := hstarts
    refine ⟨(Leads.more rest).takeWhile (!Path.endsName ·),?_,?_⟩
    · rw [h.path_eq hstart,h.root_path]
    · rw [continuesName_root,hends]
  · intro hroots
    obtain ⟨more,hroot,hends⟩ := hroots
    obtain ⟨behind,hbehind⟩ := Marker.root_prefix content
    have hstart : trimStart content = name.toList ++ (more ++ behind) := by
      rw [← hbehind,hroot,List.append_assoc]
    have hmore : more = (Leads.more (more ++ behind)).takeWhile (!Path.endsName ·) := by
      rw [h.path_eq hstart,h.root_path] at hroot
      exact (List.append_cancel_left hroot).symm
    refine ⟨more ++ behind,hstart,?_⟩
    rw [← continuesName_root,← hmore,hends]

/-- A renamed marker has the attributes that it had, but for the path, which begins with the manufactured name. -/
theorem parse_renamed (h : IsName name.toList) (n : Nat) {content rest : List Char}
    (hs : trimStart content = name.toList ++ rest) :
    let made := (manufactured name n).toList
    (Marker.parse (made ++ rest)).toOption = (Marker.parse content).toOption.map fun attributes =>
      Entries.put attributes Attribute.property.name (String.ofList (made ++ Leads.more rest)) := by
  intro made
  have hmade : IsName made := isName_manufactured h n
  obtain ⟨o,ho⟩ := Marker.addTypeAndOptions_property (rest.dropWhile (!Marker.endsProperty ·))
  rw [h.parse_eq hs,hmade.parse_eq (hmade.trimStart_append rest),ho,ho]
  cases o with
  | none => rfl
  | some others => simp [Entries.put]

private theorem property_of_parse (h : IsName name.toList) {content rest : List Char} {attributes : MarkerAttributes}
    (hs : trimStart content = name.toList ++ rest) (hp : Marker.parse content = .ok attributes) :
    Entries.get? attributes Attribute.property.name = some (String.ofList (Marker.path content)) := by
  obtain ⟨o,ho⟩ := Marker.addTypeAndOptions_property (rest.dropWhile (!Marker.endsProperty ·))
  have hattributes := congrArg Except.toOption hp
  rw [h.parse_eq hs,ho] at hattributes
  cases o with
  | none => contradiction
  | some others =>
    obtain rfl : _ = attributes := Option.some.inj hattributes
    rw [h.path_eq hs]
    rfl

/-- A marker is renamed when the root of its path begins with the variable and does not go on as a name. So it is
renamed exactly when it refers to the variable, unless its root goes on behind the variable with a character that no
name has. A renamed marker is read as it was, with the manufactured name in the place of the variable; where the
variable is the root of the path, the manufactured name is the new root and the path goes on as before. -/
theorem rename_iff_refers (h : IsName name.toList) (n : Nat) (content : List Char) :
    let root := Path.root (Marker.path content)
    let made := (manufactured name n).toList
    ((renameVariable? n content name).isSome = true ↔
      ∃ more, root = name.toList ++ more ∧ continuesName more = false) ∧
    (((renameVariable? n content name).isSome = true ↔ root = name.toList) ↔
      ∀ c more, root = name.toList ++ c :: more → isNameChar c = true) ∧
    ∀ renamed, renameVariable? n content name = some renamed → ∃ more,
      Marker.path content = name.toList ++ more ∧ continuesName more = false ∧ Marker.path renamed = made ++ more ∧
      (Marker.parse renamed).toOption = (Marker.parse content).toOption.map (fun attributes =>
        Entries.put attributes Attribute.property.name (String.ofList (made ++ more))) ∧
      (∀ attributes, Marker.parse content = .ok attributes →
        Entries.get? attributes Attribute.property.name = some (String.ofList (Marker.path content))) ∧
      (root = name.toList → Path.root (Marker.path renamed) = made ∧
        Path.afterRoot (Marker.path renamed) = Path.afterRoot (Marker.path content)) := by
  intro root made
  have hrenamed : (renameVariable? n content name).isSome = true ↔
      ∃ more, root = name.toList ++ more ∧ continuesName more = false :=
    (isSome_renameVariable?_iff n content name).trans (starts_iff_root h content)
  refine ⟨hrenamed,?_,?_⟩
  · constructor
    · intro hiff c more hroot
      cases hc : isNameChar c with
      | true => rfl
      | false =>
        have hrefers : root = name.toList := hiff.mp (hrenamed.mpr ⟨c :: more,hroot,hc⟩)
        rw [hrefers] at hroot
        simp at hroot
    · intro hgoes
      refine ⟨?_,fun hrefers => hrenamed.mpr ⟨[],by rw [hrefers,List.append_nil],rfl⟩⟩
      intro hsome
      obtain ⟨more,hroot,hends⟩ := hrenamed.mp hsome
      cases more with
      | nil => rw [hroot,List.append_nil]
      | cons c cs =>
        have hc : isNameChar c = false := hends
        rw [hgoes c cs hroot] at hc
        contradiction
  · intro renamed hr
    obtain ⟨rest,hstart,hends,rfl⟩ := renameVariable?_eq_some hr
    have hmade : IsName made := isName_manufactured h n
    have hpath : Marker.path content = name.toList ++ Leads.more rest := h.path_eq hstart
    have hpath' : Marker.path (made ++ rest) = made ++ Leads.more rest := hmade.path_eq (hmade.trimStart_append rest)
    refine ⟨Leads.more rest,hpath,?_,hpath',parse_renamed h n hstart,?_,?_⟩
    · rw [← continuesName_takeWhile (p := (!Path.endsName ·)) fun c hc => by simp [endsName_of_isNameChar hc],
        continuesName_root,hends]
    · intro attributes
      exact property_of_parse h hstart
    · intro hrefers
      have hroot : Path.root (name.toList ++ Leads.more rest) = name.toList := by
        rw [← hpath]
        exact hrefers
      rw [hpath',hpath]
      exact h.root_path_of_root hmade hroot

theorem rename_iff_refers_typed :
    let content := " user.roles[0] :VARCHAR, mode=IN".toList
    IsName "user".toList ∧
      (renameVariable? 3 content "user").isSome = true ∧
      Path.root (Marker.path content) = "user".toList ∧
      (Marker.parse "__frch_user_3.roles[0] :VARCHAR, mode=IN".toList).toOption =
        some [("property","__frch_user_3.roles[0]"),("sqlType","VARCHAR"),("mode","IN")] := by
  intro content
  have hname : IsName "user".toList := ⟨by decide,List.all_eq_true.mp (by decide +kernel)⟩
  have hroot : Path.root (Marker.path content) = "user".toList := by decide +kernel
  obtain ⟨-,hiff,hread⟩ := rename_iff_refers hname 3 content
  have hsome : (renameVariable? 3 content "user").isSome = true := by
    refine (hiff.mpr ?_).mpr hroot
    intro c more hgoes
    rw [hroot] at hgoes
    simp at hgoes
  have hrenamed : renameVariable? 3 content "user" = some "__frch_user_3.roles[0] :VARCHAR, mode=IN".toList := by
    decide +kernel
  obtain ⟨more,hpath,-,-,hparse,-,-⟩ := hread _ hrenamed
  have hmore : more = ".roles[0]".toList := by
    have hcontent : Marker.path content = "user".toList ++ ".roles[0]".toList := by decide +kernel
    exact List.append_cancel_left (hpath.symm.trans hcontent)
  subst hmore
  exact ⟨hname,hsome,hroot,hparse.trans (by decide +kernel)⟩

/-- The key `user-id` of an argument in a loop over `user`. The marker is read with the key for its root and does not
refer to the loop's variable, but it is renamed, and what it binds is lost. -/
theorem hyphenated_key_renamed :
    let content := "user-id".toList
    let root := Node.repetition ⟨"ids",some "user",none,none,none,none⟩ (.text "#\x7buser-id\x7d")
    let argument : Value := .map [("ids",.list [.int 1]),("user-id",.int 7)]
    "user".toList.all isNameChar = true ∧ (Marker.parse content).toOption = some [("property","user-id")] ∧
      Path.root (Marker.path content) = content ∧ Path.root (Marker.path content) ≠ "user".toList ∧
      renameVariable? 0 content "user" = some "__frch_user_0-id".toList ∧
      (compile .standard root argument).toOption.map (fun b =>
        (b.mappings.map ParameterMapping.path,(b.boundValues .standard).map fun v => v.value.isNull)) =
          some (["__frch_user_0-id"],[true]) := by
  decide +kernel

end Repetition
end SqlTemplate
