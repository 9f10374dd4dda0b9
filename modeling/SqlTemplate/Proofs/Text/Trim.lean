import SqlTemplate.Text.Blank
import SqlTemplate.Text.Letter
/-!
# Trimming and names

How trimming acts on a text with a character in it that is not blank. A character of a name is such a
character.
-/
namespace SqlTemplate.Text

theorem trimStart_append {c : Char} (hc : isBlank c = false) (a b : List Char) :
    trimStart (a ++ c :: b) = trimStart a ++ c :: b := by
  induction a with
  | nil => simp [trimStart_cons,hc]
  | cons d a ih =>
    rw [List.cons_append,trimStart_cons,trimStart_cons]
    split
    · exact ih
    · rfl

theorem trimEnd_append {c : Char} (hc : isBlank c = false) (a b : List Char) :
    trimEnd (a ++ c :: b) = a ++ c :: trimEnd b := by
  have h := trimStart_append hc b.reverse a.reverse
  rw [trimStart] at h
  simp [trimEnd,h,trimStart]

theorem trimEnd_prefix (cs : List Char) : trimEnd cs <+: cs := by
  have h := List.dropWhile_suffix isBlank (l := cs.reverse)
  simpa [trimEnd] using List.reverse_prefix.mpr h

theorem trimEnd_trimEnd (cs : List Char) : trimEnd (trimEnd cs) = trimEnd cs := by
  have hdrop (cs : List Char) : (cs.dropWhile isBlank).dropWhile isBlank = cs.dropWhile isBlank := by
    induction cs with
    | nil => rfl
    | cons c cs ih =>
      by_cases hc : isBlank c
      · simpa [hc] using ih
      · simp [hc]
  simp [trimEnd,hdrop]

theorem isBlank_of_trimStart {cs rest : List Char} {c : Char} (h : trimStart cs = c :: rest) :
    isBlank c = false := by
  induction cs with
  | nil => simp at h
  | cons d cs ih =>
    rw [trimStart_cons] at h
    split at h
    · exact ih h
    · next hd =>
      obtain ⟨rfl,-⟩ := List.cons.inj h
      simpa using hd

theorem trim_trim (cs : List Char) : trim (trim cs) = trim cs := by
  cases hs : trimStart cs with
  | nil => simp [trim,hs]
  | cons c rest =>
    have hc := isBlank_of_trimStart hs
    have hend : trimEnd (c :: rest) = c :: trimEnd rest := trimEnd_append hc [] rest
    have hend' : trimEnd (c :: trimEnd rest) = c :: trimEnd rest := by
      rw [← hend,trimEnd_trimEnd]
    rw [trim,trim,hs,hend,trimStart_cons,hc]
    exact hend'

theorem trimStart_blanks {gap : List Char} (hg : allBlank gap = true) (rest : List Char) :
    trimStart (gap ++ rest) = trimStart rest :=
  List.dropWhile_append_of_pos (List.all_eq_true.mp hg)

theorem trimEnd_blanks {gap : List Char} (hg : allBlank gap = true) (front : List Char) :
    trimEnd (front ++ gap) = trimEnd front := by
  have hreverse : ∀ c ∈ gap.reverse, isBlank c = true := by
    intro c hc
    exact List.all_eq_true.mp hg c (List.mem_reverse.mp hc)
  rw [trimEnd,trimEnd,List.reverse_append,List.dropWhile_append_of_pos hreverse]

theorem trimStart_eq_self {cs : List Char} (h : ∀ c, cs.head? = some c → isBlank c = false) :
    trimStart cs = cs := by
  cases cs with
  | nil => rfl
  | cons c cs => simp [trimStart_cons,h c rfl]

theorem head?_of_trim {cs : List Char} (h : trim cs = cs) :
    ∀ c, cs.head? = some c → isBlank c = false := by
  intro c hc
  cases hs : trimStart cs with
  | nil =>
    have hnil : cs = [] := by rw [← h,trim,hs,trimEnd_nil]
    simp [hnil] at hc
  | cons d rest =>
    have hd := isBlank_of_trimStart hs
    have hkeep : trimEnd (d :: rest) = d :: trimEnd rest := trimEnd_append hd [] rest
    obtain rfl : d = c := by
      rw [← h,trim,hs,hkeep] at hc
      simpa using hc
    exact hd

private theorem trimEnd_eq_self {cs : List Char} (h : ∀ c, cs.getLast? = some c → isBlank c = false) :
    trimEnd cs = cs := by
  have hstart : trimStart cs.reverse = cs.reverse := trimStart_eq_self fun c hc => h c (by simpa using hc)
  rw [trimEnd,← trimStart,hstart,List.reverse_reverse]

theorem isBlank_of_getLast?_trimEnd {cs : List Char} {c : Char} (h : (trimEnd cs).getLast? = some c) :
    isBlank c = false := by
  rw [trimEnd,List.getLast?_reverse,← trimStart] at h
  obtain ⟨rest,hrest⟩ := List.head?_eq_some_iff.mp h
  exact isBlank_of_trimStart hrest

/-- A text is trimmed when its first and its last character are not blank. -/
theorem trim_eq_self_iff {cs : List Char} : trim cs = cs ↔
    (∀ c, cs.head? = some c → isBlank c = false) ∧ ∀ c, cs.getLast? = some c → isBlank c = false := by
  constructor
  · intro h
    refine ⟨head?_of_trim h,fun c hc => ?_⟩
    rw [← h,trim] at hc
    exact isBlank_of_getLast?_trimEnd hc
  · rintro ⟨hhead,hlast⟩
    rw [trim,trimStart_eq_self hhead,trimEnd_eq_self hlast]

theorem trim_append {a b : List Char} (ha : trim a = a) (hb : trim b = b) : trim (a ++ b) = a ++ b := by
  rw [trim_eq_self_iff] at *
  constructor
  · intro c hc
    rw [List.head?_append,Option.or_eq_some_iff] at hc
    exact hc.elim (ha.1 c) fun h => hb.1 c h.2
  · intro c hc
    rw [List.getLast?_append,Option.or_eq_some_iff] at hc
    exact hc.elim (hb.2 c) fun h => ha.2 c h.2

theorem trim_padded {before cs after : List Char} (hb : allBlank before = true) (ha : allBlank after = true)
    (h : trim cs = cs) : trim (before ++ (cs ++ after)) = cs := by
  have hstart : trimStart cs = cs := trimStart_eq_self (head?_of_trim h)
  have hend : trimEnd cs = cs := by
    rw [trim,hstart] at h
    exact h
  rw [trim,trimStart_blanks hb]
  cases cs with
  | nil =>
    have hnil : trimStart after = [] := (trimStart_eq_nil_iff after).mpr ha
    simp [hnil]
  | cons c cs =>
    have hself : trimStart (c :: cs ++ after) = c :: cs ++ after :=
      trimStart_eq_self fun d hd => head?_of_trim h d (by simpa using hd)
    rw [hself,trimEnd_blanks ha,hend]

theorem allBlank_append {a b : List Char} (ha : allBlank a = true) (hb : allBlank b = true) :
    allBlank (a ++ b) = true := by
  rw [allBlank,List.all_append,Bool.and_eq_true]
  exact ⟨ha,hb⟩

theorem allBlank_reverse (cs : List Char) : allBlank cs.reverse = allBlank cs := List.all_reverse

theorem not_mem_of_allBlank {gap : List Char} (h : allBlank gap = true) {c : Char} (hc : isBlank c = false) :
    c ∉ gap := by
  intro hm
  have hblank := List.all_eq_true.mp h c hm
  rw [hc] at hblank
  exact absurd hblank (by decide)

theorem exists_trimStart (cs : List Char) : ∃ gap, cs = gap ++ trimStart cs ∧ allBlank gap = true :=
  ⟨cs.takeWhile isBlank,List.takeWhile_append_dropWhile.symm,List.all_takeWhile⟩

theorem exists_trimEnd (cs : List Char) : ∃ gap, cs = trimEnd cs ++ gap ∧ allBlank gap = true := by
  obtain ⟨gap,hcs,hgap⟩ := exists_trimStart cs.reverse
  refine ⟨gap.reverse,?_,by rwa [allBlank_reverse]⟩
  rw [trimEnd,← trimStart,← List.reverse_append,← hcs,List.reverse_reverse]

theorem exists_trim (cs : List Char) :
    ∃ before after, cs = before ++ (trim cs ++ after) ∧ allBlank before = true ∧ allBlank after = true := by
  obtain ⟨before,hstart,hbefore⟩ := exists_trimStart cs
  obtain ⟨after,hend,hafter⟩ := exists_trimEnd (trimStart cs)
  exact ⟨before,after,by rw [trim,← hend]; exact hstart,hbefore,hafter⟩

theorem trim_eq_nil_iff {cs : List Char} : trim cs = [] ↔ allBlank cs = true := by
  constructor
  · intro h
    obtain ⟨before,after,hcs,hbefore,hafter⟩ := exists_trim cs
    rw [hcs,h]
    exact allBlank_append hbefore hafter
  · intro h
    rw [trim,(trimStart_eq_nil_iff cs).mpr h,trimEnd_nil]

theorem trim_reverse (cs : List Char) : trim cs.reverse = (trim cs).reverse := by
  obtain ⟨before,after,hcs,hbefore,hafter⟩ := exists_trim cs
  have htrimmed : trim (trim cs).reverse = (trim cs).reverse := by
    have h := trim_eq_self_iff.mp (trim_trim cs)
    rw [trim_eq_self_iff]
    exact ⟨fun c hc => h.2 c (by simpa using hc),fun c hc => h.1 c (by simpa using hc)⟩
  have hreverse : cs.reverse = after.reverse ++ ((trim cs).reverse ++ before.reverse) := by
    simpa using congrArg List.reverse hcs
  rw [hreverse]
  exact trim_padded (by rwa [allBlank_reverse]) (by rwa [allBlank_reverse]) htrimmed

theorem trim_trimStart {a b : List Char} (h : trim (a ++ b) = a ++ b) : trim (trimStart b) = trimStart b := by
  rw [trim_eq_self_iff]
  constructor
  · intro c hc
    obtain ⟨rest,hrest⟩ := List.head?_eq_some_iff.mp hc
    exact isBlank_of_trimStart hrest
  · intro c hc
    obtain ⟨gap,hb,-⟩ := exists_trimStart b
    refine (trim_eq_self_iff.mp h).2 c ?_
    rw [hb,← List.append_assoc,List.getLast?_append,hc,Option.some_or]

theorem trim_of_no_blank {cs : List Char} (h : ∀ c ∈ cs, isBlank c = false) : trim cs = cs := by
  have hstart {cs : List Char} (h : ∀ c ∈ cs, isBlank c = false) : cs.dropWhile isBlank = cs := by
    cases cs with
    | nil => rfl
    | cons c cs => simp [h c (by simp)]
  have hreverse : ∀ c ∈ cs.reverse, isBlank c = false := fun c hc => h c (List.mem_reverse.mp hc)
  rw [trim,trimStart,hstart h,trimEnd,hstart hreverse,List.reverse_reverse]

theorem trim_sublist (cs : List Char) : (trim cs).Sublist cs := by
  have hend := trimEnd_prefix (trimStart cs)
  exact hend.sublist.trans (List.dropWhile_sublist _)

theorem length_trim_le (cs : List Char) : (trim cs).length ≤ cs.length := (trim_sublist cs).length_le

private def blanks : List Nat := [9,10,11,12,13,32,0x85,0xA0,0x1680,0x2000,0x2001,0x2002,0x2003,0x2004,0x2005,
  0x2006,0x2007,0x2008,0x2009,0x200A,0x2028,0x2029,0x202F,0x205F,0x3000]

theorem isBlank_of_isNameChar {c : Char} (h : isNameChar c = true) : isBlank c = false := by
  cases hb : isBlank c with
  | false => rfl
  | true =>
    have hmem : c.toNat ∈ blanks := by
      simp only [isBlank,Bool.or_eq_true,Bool.and_eq_true,decide_eq_true_eq] at hb
      simp only [blanks,List.mem_cons,List.not_mem_nil,or_false]
      omega
    have hall : ∀ n ∈ blanks, isNameChar (Char.ofNat n) = false := by decide +kernel
    have hname := hall c.toNat hmem
    rw [Char.ofNat_toNat,h] at hname
    exact absurd hname (by decide)

end SqlTemplate.Text
