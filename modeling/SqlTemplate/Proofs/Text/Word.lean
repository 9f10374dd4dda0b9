import Mathlib
import SqlTemplate.Proofs.Text.Trim
import SqlTemplate.Text.Cut
/-!
# Words at the ends of a text

Words are compared up to ASCII case, in which blanks and signs are only equal to themselves. Of some words, the first
one that a trimmed text begins with is cut off without the blanks at its own ends; what is left is trimmed again.
-/
namespace SqlTemplate.Text

private theorem isBlank_of_isAlpha {c : Char} (h : c.isAlpha = true) : isBlank c = false := by
  apply isBlank_of_isNameChar
  have hlow : c.toNat < 128 := by
    simp only [Char.isAlpha,Char.isUpper,Char.isLower,Bool.or_eq_true,Bool.and_eq_true,decide_eq_true_eq,ge_iff_le,
      UInt32.le_iff_toNat_le] at h
    change c.val.toNat < 128
    have hz : ('z'.val).toNat = 122 := rfl
    have hZ : ('Z'.val).toNat = 90 := rfl
    omega
  simp [isNameChar,isAlphanumeric,hlow,Char.isAlphanum,h]

private theorem toUpper_eq_iff {c d : Char} : c.toUpper = d.toUpper ↔ c.toLower = d.toLower := by
  constructor
  · intro h
    rw [← Char.toLower_toUpper_eq_toLower c,h,Char.toLower_toUpper_eq_toLower]
  · intro h
    rw [← Char.toUpper_toLower_eq_toUpper c,h,Char.toUpper_toLower_eq_toUpper]

private theorem eq_of_toLower_eq {c d : Char} (h : c.toLower = d.toLower) (hd : d.isAlpha = false) : c = d := by
  have hkept {e : Char} (he : e.isAlpha = false) : e.toLower = e := by
    apply Char.toLower_eq_of_not_isUpper
    simp only [Char.isAlpha,Bool.or_eq_false_iff] at he
    simp [he.1]
  have hc : c.isAlpha = false := by rw [← Char.isAlpha_toLower_eq_isAlpha,h,Char.isAlpha_toLower_eq_isAlpha,hd]
  rwa [hkept hc,hkept hd] at h

private theorem isBlank_of_toLower_eq {c d : Char} (h : c.toLower = d.toLower) : isBlank c = isBlank d := by
  cases hd : d.isAlpha with
  | false => rw [eq_of_toLower_eq h hd]
  | true =>
    have hc : c.isAlpha = true := by rw [← Char.isAlpha_toLower_eq_isAlpha,h,Char.isAlpha_toLower_eq_isAlpha,hd]
    rw [isBlank_of_isAlpha hc,isBlank_of_isAlpha hd]

theorem sameWord_iff {a b : List Char} : sameWord a b = true ↔ lower a = lower b := by
  simp [sameWord]

private theorem upper_eq_iff {a b : List Char} : upper a = upper b ↔ sameWord a b = true := by
  rw [sameWord_iff,upper,upper,lower,lower]
  induction a generalizing b with
  | nil => cases b <;> simp
  | cons c a ih => cases b <;> simp [toUpper_eq_iff,ih]

theorem sameWord_length {a b : List Char} (h : sameWord a b = true) : a.length = b.length := by
  have hlength := congrArg List.length (sameWord_iff.mp h)
  simpa [lower] using hlength

private theorem sameWord_reverse {a b : List Char} : sameWord a.reverse b.reverse = sameWord a b := by
  rw [Bool.eq_iff_iff,sameWord_iff,sameWord_iff,lower,lower,List.map_reverse,List.map_reverse,List.reverse_inj]
  rfl

@[simp] theorem sameWord_upper (a b : List Char) : sameWord a (upper b) = sameWord a b := by
  have hlower : Char.toLower ∘ Char.toUpper = Char.toLower := funext Char.toLower_toUpper_eq_toLower
  simp [sameWord,lower,upper,hlower]

private theorem exists_of_sameWord_append {cs a b : List Char} (h : sameWord cs (a ++ b) = true) :
    ∃ x y, cs = x ++ y ∧ sameWord x a = true ∧ sameWord y b = true := by
  rw [sameWord_iff,lower,lower,List.map_append] at h
  obtain ⟨x,y,rfl,hx,hy⟩ := List.map_eq_append_iff.mp h
  exact ⟨x,y,rfl,sameWord_iff.mpr hx,sameWord_iff.mpr hy⟩

private theorem exists_mem_of_sameWord {a b : List Char} {c : Char} (h : sameWord a b = true) (hc : c ∈ a) :
    ∃ d ∈ b, c.toLower = d.toLower := by
  have hlower : c.toLower ∈ lower b := by
    rw [← sameWord_iff.mp h]
    exact List.mem_map_of_mem hc
  obtain ⟨d,hd,hdc⟩ := List.mem_map.mp hlower
  exact ⟨d,hd,hdc.symm⟩

private theorem mem_of_sameWord {a b : List Char} {c : Char} (h : sameWord a b = true) (hc : c.isAlpha = false)
    (hmem : c ∈ a) : c ∈ b := by
  obtain ⟨d,hd,hcd⟩ := exists_mem_of_sameWord h hmem
  rwa [← eq_of_toLower_eq hcd.symm hc]

private theorem allBlank_of_sameWord {a b : List Char} (h : sameWord a b = true) (hb : allBlank b = true) :
    allBlank a = true := by
  rw [allBlank,List.all_eq_true] at *
  intro c hc
  obtain ⟨d,hd,hcd⟩ := exists_mem_of_sameWord h hc
  rw [isBlank_of_toLower_eq hcd]
  exact hb d hd

private theorem trimStart_of_sameWord {a b : List Char} (h : sameWord a b = true)
    (ha : ∀ c, a.head? = some c → isBlank c = false) : trimStart b = b := by
  apply trimStart_eq_self
  intro d hd
  obtain ⟨rest,rfl⟩ := List.head?_eq_some_iff.mp hd
  cases a with
  | nil => simp [sameWord,lower] at h
  | cons c a =>
    have hcd : c.toLower = d.toLower := (List.cons.inj (sameWord_iff.mp h)).1
    rw [← isBlank_of_toLower_eq hcd]
    exact ha c rfl

private theorem trim_upper (cs : List Char) : trim (upper cs) = upper (trim cs) := by
  have hblank : isBlank ∘ Char.toUpper = isBlank := by
    funext c
    exact isBlank_of_toLower_eq (Char.toLower_toUpper_eq_toLower c)
  simp [trim,trimEnd,trimStart,upper,List.dropWhile_map,← List.map_reverse,hblank]

def BeginsWith (text word : List Char) : Prop := ∃ a b, text = a ++ b ∧ sameWord a word = true

def EndsWith (text word : List Char) : Prop := ∃ a b, text = a ++ b ∧ sameWord b word = true

/-- What is cut off for a list of words: the first one that passes, without the blanks at its ends and in the case in
which it is written in the text. It is nothing when no word passes. -/
inductive CutFor (Passes : List Char → Prop) (words : List (List Char)) (cut : List Char) : Prop
  | first (before : List (List Char)) (word : List Char) (after : List (List Char))
      (hwords : words = before ++ word :: after) (hbefore : ∀ w ∈ before, ¬Passes w) (hword : Passes word)
      (hcut : sameWord cut (trim word) = true)
  | none (hwords : ∀ w ∈ words, ¬Passes w) (hcut : cut = [])

@[simp] theorem beginsWith_upper (text word : List Char) : BeginsWith text (upper word) ↔ BeginsWith text word := by
  simp [BeginsWith]

private theorem beginsWith_reverse {text word : List Char} :
    BeginsWith text.reverse word.reverse ↔ EndsWith text word := by
  constructor
  · rintro ⟨a,b,htext,ha⟩
    refine ⟨b.reverse,a.reverse,by simpa using congrArg List.reverse htext,?_⟩
    rwa [← sameWord_reverse,List.reverse_reverse]
  · rintro ⟨a,b,rfl,hb⟩
    exact ⟨b.reverse,a.reverse,by simp,by rwa [sameWord_reverse]⟩

theorem beginsWith_iff {text word : List Char} :
    BeginsWith text word ↔ (upper word).isPrefixOf (upper text) = true := by
  rw [List.isPrefixOf_iff_prefix]
  constructor
  · rintro ⟨a,b,rfl,ha⟩
    rw [← upper_eq_iff.mpr ha]
    exact ⟨upper b,by simp [upper]⟩
  · rintro ⟨rest,hrest⟩
    obtain ⟨a,b,rfl,ha,-⟩ := List.map_eq_append_iff.mp hrest.symm
    exact ⟨a,b,rfl,upper_eq_iff.mp ha⟩

theorem CutFor.upper {text cut : List Char} {words : List (List Char)} (h : CutFor (BeginsWith text) words cut) :
    CutFor (BeginsWith text) (words.map upper) cut := by
  cases h with
  | first before word after hwords hbefore hword hcut =>
    refine .first (before.map Text.upper) (Text.upper word) (after.map Text.upper) (by simp [hwords]) ?_
      (by simpa using hword) (by rw [trim_upper,sameWord_upper,hcut])
    simpa using hbefore
  | none hwords hcut => exact .none (by simpa using hwords) hcut

theorem CutFor.not_mem {Passes : List Char → Prop} {words : List (List Char)} {cut : List Char} {c : Char}
    (h : CutFor Passes words cut) (hc : c.isAlpha = false) (hwords : ∀ w ∈ words, c ∉ w) : c ∉ cut := by
  cases h with
  | first before word after hsplit hbefore hword hcut =>
    intro hmem
    exact hwords word (by simp [hsplit]) ((trim_sublist word).mem (mem_of_sameWord hcut hc hmem))
  | none hnone hcut => simp [hcut]

theorem CutFor.followed {words : List (List Char)} {cut more : List Char}
    (h : CutFor (BeginsWith (cut ++ more)) words cut) (hne : cut ≠ [])
    (hwords : ∀ w ∈ words, ∃ sep, w = trim w ++ [sep] ∧ isBlank sep = true) :
    ∃ w ∈ words, sameWord cut (trim w) = true ∧ more.head? = w.getLast? := by
  cases h with
  | none hnone hcut => exact absurd hcut hne
  | first before word after hsplit hbefore hword hcut =>
    have hmem : word ∈ words := by simp [hsplit]
    refine ⟨word,hmem,hcut,?_⟩
    obtain ⟨sep,hend,hsep⟩ := hwords word hmem
    obtain ⟨a,b,htext,ha⟩ := hword
    rw [hend] at ha
    obtain ⟨x,y,rfl,hx,hy⟩ := exists_of_sameWord_append ha
    obtain ⟨c,rfl⟩ := List.length_eq_one_iff.mp (sameWord_length hy)
    have hc : c = sep := by
      apply eq_of_toLower_eq (List.cons.inj (sameWord_iff.mp hy)).1
      cases hs : sep.isAlpha with
      | false => rfl
      | true => simp [isBlank_of_isAlpha hs] at hsep
    have hlength : cut.length = x.length := (sameWord_length hcut).trans (sameWord_length hx).symm
    rw [List.append_assoc] at htext
    rw [(List.append_inj htext hlength).2,hend,hc]
    simp

theorem CutFor.reverse {text cut : List Char} {words : List (List Char)}
    (h : CutFor (BeginsWith text.reverse) (words.map List.reverse) cut) :
    CutFor (EndsWith text) words cut.reverse := by
  cases h with
  | first before word after hwords hbefore hword hcut =>
    obtain ⟨before,rest,rfl,rfl,hrest⟩ := List.map_eq_append_iff.mp hwords
    obtain ⟨word,after,rfl,rfl,-⟩ := List.map_eq_cons_iff.mp hrest
    refine .first before word after rfl ?_ (beginsWith_reverse.mp hword) ?_
    · intro w hw
      rw [← beginsWith_reverse]
      exact hbefore _ (List.mem_map_of_mem hw)
    · rwa [← sameWord_reverse,List.reverse_reverse,← trim_reverse]
  | none hwords hcut =>
    refine .none ?_ (by simp [hcut])
    intro w hw
    rw [← beginsWith_reverse]
    exact hwords _ (List.mem_map_of_mem hw)

theorem BeginsWith.exists_cut {text word : List Char} (htext : trim text = text) (h : BeginsWith text word) :
    ∃ cut gap rest, text = cut ++ (gap ++ rest) ∧ sameWord cut (trim word) = true ∧ allBlank gap = true := by
  obtain ⟨a,b,rfl,ha⟩ := h
  have hhead : ∀ c, a.head? = some c → isBlank c = false := by
    intro c hc
    exact head?_of_trim htext c (by simp [List.head?_append,hc])
  obtain ⟨gap,hword,hgap⟩ := exists_trimEnd word
  have htrim : trim word = trimEnd word := by rw [trim,trimStart_of_sameWord ha hhead]
  rw [hword,← htrim] at ha
  obtain ⟨x,y,rfl,hx,hy⟩ := exists_of_sameWord_append ha
  exact ⟨x,y,b,by simp,hx,allBlank_of_sameWord hy hgap⟩

/-- A text without the first of the words that it begins with and the blanks behind it. The words are in upper
case. -/
def cutWord (words : List (List Char)) (text : List Char) : List Char :=
  match words.find? fun w => w.isPrefixOf (upper text) with
  | some w => trimStart (text.drop (trim w).length)
  | none => text

/-- What is cut off is the word as it is written in the text, and nothing else but blanks is lost. -/
theorem cutWord_split (words : List (List Char)) {text : List Char} (htext : trim text = text) :
    ∃ cut gap, text = cut ++ (gap ++ cutWord (words.map upper) text) ∧ allBlank gap = true ∧
      CutFor (BeginsWith text) words cut := by
  rw [cutWord]
  cases hfind : (words.map upper).find? fun w => w.isPrefixOf (upper text) with
  | none =>
    refine ⟨[],[],rfl,rfl,.none (fun w hw => ?_) rfl⟩
    rw [beginsWith_iff]
    exact List.find?_eq_none.mp hfind _ (List.mem_map_of_mem hw)
  | some found =>
    obtain ⟨hfound,before,after,hwords,hbefore⟩ := List.find?_eq_some_iff_append.mp hfind
    obtain ⟨before,rest,rfl,rfl,hrest⟩ := List.map_eq_append_iff.mp hwords
    obtain ⟨word,after,rfl,rfl,-⟩ := List.map_eq_cons_iff.mp hrest
    obtain ⟨cut,gap,rest,hsplit,hcut,hgap⟩ := (beginsWith_iff.mpr hfound).exists_cut htext
    obtain ⟨gap',hrest,hgap'⟩ := exists_trimStart rest
    have hdrop : text.drop (trim (upper word)).length = gap ++ rest := by
      rw [trim_upper,upper,List.length_map,← sameWord_length hcut,hsplit,List.drop_left]
    refine ⟨cut,gap ++ gap',?_,allBlank_append hgap hgap',?_⟩
    · calc
        text = cut ++ (gap ++ rest) := hsplit
        _ = cut ++ (gap ++ gap' ++ trimStart (text.drop (trim (upper word)).length)) := by
          rw [hdrop,trimStart_blanks hgap,List.append_assoc,← hrest]
    · refine .first before word after rfl (fun w hw => ?_) (beginsWith_iff.mpr hfound) hcut
      have hpassed := hbefore _ (List.mem_map_of_mem hw)
      rwa [Bool.not_eq_true',← Bool.not_eq_true,← beginsWith_iff] at hpassed

theorem trim_cutWord (words : List (List Char)) {text : List Char} (htext : trim text = text) :
    trim (cutWord words text) = cutWord words text := by
  rw [cutWord]
  cases words.find? fun w => w.isPrefixOf (upper text) with
  | none => exact htext
  | some w =>
    have hsplit := List.take_append_drop (trim w).length text
    exact trim_trimStart (by rwa [hsplit])

def cutWordEnd (words : List (List Char)) (text : List Char) : List Char :=
  (cutWord (words.map List.reverse) text.reverse).reverse

theorem cutWordEnd_split (words : List (List Char)) {text : List Char} (htext : trim text = text) :
    ∃ cut gap, text = cutWordEnd (words.map upper) text ++ (gap ++ cut) ∧ allBlank gap = true ∧
      CutFor (EndsWith text) words cut := by
  have hreverse : trim text.reverse = text.reverse := by rw [trim_reverse,htext]
  have hwords : (words.map upper).map List.reverse = (words.map List.reverse).map upper := by
    simp [upper]
  obtain ⟨cut,gap,hsplit,hgap,hcut⟩ := cutWord_split (words.map List.reverse) hreverse
  refine ⟨cut.reverse,gap.reverse,?_,by simpa [allBlank] using hgap,hcut.reverse⟩
  rw [cutWordEnd,hwords]
  simpa using congrArg List.reverse hsplit

theorem trim_cutWordEnd (words : List (List Char)) {text : List Char} (htext : trim text = text) :
    trim (cutWordEnd words text) = cutWordEnd words text := by
  rw [cutWordEnd,trim_reverse,trim_cutWord _ (by rw [trim_reverse,htext])]

end SqlTemplate.Text
