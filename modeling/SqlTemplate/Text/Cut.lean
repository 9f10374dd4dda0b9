/-!
# Cutting a text

First occurrences of a delimiter, separators and affixes, on lists of characters. Nothing is lost by a cut:
the parts and what was cut out make up the text again.
-/
namespace SqlTemplate.Text

def afterStart? : List Char → List Char → Option (List Char)
  | [], cs => some cs
  | _ :: _, [] => none
  | d :: ds, c :: cs => if d = c then afterStart? ds cs else none

theorem eq_append_of_afterStart? {ds cs rest : List Char} (h : afterStart? ds cs = some rest) :
    cs = ds ++ rest := by
  fun_induction afterStart? ds cs with
  | case1 cs => simpa using h
  | case2 => simp at h
  | case3 ds c cs ih => simp [ih h]
  | case4 => simp at h

@[simp] theorem afterStart?_append (ds rest : List Char) : afterStart? ds (ds ++ rest) = some rest := by
  induction ds with
  | nil => simp [afterStart?]
  | cons d ds ih => simpa [afterStart?] using ih

def cut? (delim : List Char) : List Char → Option (List Char × List Char)
  | [] => (afterStart? delim []).map (Prod.mk [])
  | c :: cs => match afterStart? delim (c :: cs) with
    | some rest => some ([],rest)
    | none => (cut? delim cs).map fun (before,after) => (c :: before,after)

theorem eq_append_of_cut? {delim cs before after : List Char} (h : cut? delim cs = some (before,after)) :
    cs = before ++ delim ++ after := by
  induction cs generalizing before with
  | nil =>
    simp only [cut?,Option.map_eq_some_iff,Prod.mk.injEq] at h
    obtain ⟨rest,hr,rfl,rfl⟩ := h
    simpa using eq_append_of_afterStart? hr
  | cons c cs ih =>
    rw [cut?] at h
    split at h
    · next rest hr =>
      simp only [Option.some.injEq,Prod.mk.injEq] at h
      obtain ⟨rfl,rfl⟩ := h
      simpa using eq_append_of_afterStart? hr
    · simp only [Option.map_eq_some_iff,Prod.mk.injEq,Prod.exists] at h
      obtain ⟨before',after',hc,rfl,rfl⟩ := h
      simp [ih hc]

theorem length_of_cut? {delim cs before after : List Char} (h : cut? delim cs = some (before,after)) :
    cs.length = before.length+delim.length+after.length := by
  rw [eq_append_of_cut? h]
  simp [Nat.add_assoc]

theorem span_append {p : Char → Bool} {run more : List Char} (hrun : ∀ c ∈ run, p c = true)
    (hmore : ∀ c ∈ more.head?, p c = false) :
    (run ++ more).takeWhile p = run ∧ (run ++ more).dropWhile p = more := by
  have hstop : more.takeWhile p = [] ∧ more.dropWhile p = more := by
    cases more with
    | nil => exact ⟨rfl,rfl⟩
    | cons c cs => simp [hmore c rfl]
  rw [List.takeWhile_append_of_pos hrun,List.dropWhile_append_of_pos hrun,hstop.1,hstop.2,List.append_nil]
  exact ⟨rfl,rfl⟩

theorem span_ne {sep : Char} {cs run more : List Char} (hcs : cs = run ++ more) (hrun : sep ∉ run)
    (hmore : ∀ c ∈ more.head?, c = sep) :
    cs.takeWhile (· ≠ sep) = run ∧ cs.dropWhile (· ≠ sep) = more := by
  rw [hcs]
  apply span_append
  · intro c hc
    simpa using fun h : c = sep => hrun (h ▸ hc)
  · intro c hc
    simpa using hmore c hc

theorem sublist_of_mem_splitOn {sep : Char} {cs part : List Char} (h : part ∈ List.splitOn sep cs) :
    part.Sublist cs := by
  induction cs generalizing part with
  | nil =>
    obtain rfl : part = [] := by simpa using h
    exact List.Sublist.slnil
  | cons c cs ih =>
    rw [List.splitOn_cons_eq_if_modifyHead] at h
    split at h
    · rcases List.mem_cons.mp h with rfl | h
      · exact List.nil_sublist _
      · exact (ih h).cons c
    · cases hs : List.splitOn sep cs with
      | nil => exact absurd hs (List.splitOn_ne_nil sep cs)
      | cons first parts =>
        rw [hs] at h
        rcases List.mem_cons.mp h with rfl | h
        · have hfirst : first.Sublist cs := ih (by simp [hs])
          exact hfirst.cons_cons c
        · exact (ih (by simp [hs,h])).cons c

theorem not_mem_of_mem_splitOn {sep : Char} {cs part : List Char} (h : part ∈ List.splitOn sep cs) : sep ∉ part := by
  induction cs generalizing part with
  | nil =>
    obtain rfl : part = [] := by simpa using h
    simp
  | cons c cs ih =>
    rw [List.splitOn_cons_eq_if_modifyHead] at h
    split at h
    · rcases List.mem_cons.mp h with rfl | h
      · simp
      · exact ih h
    · next hc =>
      cases hs : List.splitOn sep cs with
      | nil => exact absurd hs (List.splitOn_ne_nil sep cs)
      | cons first parts =>
        rw [hs] at h
        rcases List.mem_cons.mp h with rfl | h
        · have hfirst : sep ∉ first := ih (by simp [hs])
          have hne : c ≠ sep := by simpa using hc
          simp [Ne.symm hne,hfirst]
        · exact ih (by simp [hs,h])

def endsWith (tail cs : List Char) : Bool := tail.reverse.isPrefixOf cs.reverse

def upper (cs : List Char) : List Char := cs.map Char.toUpper

def lower (cs : List Char) : List Char := cs.map Char.toLower

/-- Equality of texts up to ASCII case. -/
def sameWord (a b : List Char) : Bool := lower a == lower b

def byteSize (cs : List Char) : Nat := cs.foldl (fun n c => n+c.utf8Size) 0

end SqlTemplate.Text
