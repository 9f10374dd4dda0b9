import SqlTemplate.Proofs.Lexical.Marker
import SqlTemplate.Proofs.Scan.Braces
/-!
# Renaming in plain texts

A plain text is scanned into the markers that it is written with. An iteration puts its manufactured name in
front of every marker that refers to one of its variables, and leaves the others as they are. The manufactured
names of different iterations, and of different variables, are different.
-/
namespace SqlTemplate
open Text Token

namespace Scanner
variable {x : Char} {e : Escapes}

private theorem body?_plain {content : List Char} (h : ∀ c ∈ content, isPlain c = true) (rest : List Char) :
    (braces x e).body? (content ++ '}' :: rest) = some (content,rest) := by
  induction content with
  | nil => exact body?_closing rest
  | cons c cs ih =>
    have hc := h c (by simp)
    have hclosing : c ≠ '}' := by
      rintro rfl
      exact absurd hc (by decide)
    have hslash : ¬(c = '\\' ∧ (cs ++ '}' :: rest).head? = some '}') := by
      rintro ⟨rfl,-⟩
      exact absurd hc (by decide)
    have hcs := ih fun d hd => h d (List.mem_cons_of_mem c hd)
    rw [List.cons_append,body?_cons hclosing hslash,hcs]
    rfl

end Scanner

def Token.Plain : Token (List Char) → Prop
  | .char c => isPlain c = true
  | .slot content => ∀ c ∈ content, isPlain c = true

theorem PlainToken.plain {t : Token (List Char)} (h : PlainToken t) : t.Plain := by
  cases t with
  | char c => exact h
  | slot content => exact PlainMarker.plain h

namespace Chunk

/-- A plain chunk is read back from its text. -/
theorem tokens_write {e : Escapes} {ts : Chunk (List Char)} (h : ∀ t ∈ ts, t.Plain) :
    (Scanner.braces '#' e).tokens (write id ts) = ts := by
  induction ts with
  | nil => exact Scanner.tokens_nil
  | cons t ts ih =>
    have hts := ih fun u hu => h u (List.mem_cons_of_mem t hu)
    have ht := h t (by simp)
    cases t with
    | char c =>
      change isPlain c = true at ht
      have hopening : ¬['#','{'] <+: c :: write id ts := by
        intro hp
        obtain rfl : '#' = c := (List.cons_prefix_cons.mp hp).1
        exact absurd ht (by decide)
      have hescaped : ¬['\\','#','{'] <+: c :: write id ts := by
        intro hp
        obtain rfl : '\\' = c := (List.cons_prefix_cons.mp hp).1
        exact absurd ht (by decide)
      change (Scanner.braces '#' e).tokens (c :: write id ts) = _
      rw [Scanner.tokens_cons hopening hescaped,hts]
    | slot content =>
      have hbody := Scanner.body?_plain (x := '#') (e := e) ht (write id ts)
      have hwrite : write id (.slot content :: ts) = '#' :: '{' :: (content ++ '}' :: write id ts) := by
        simp [write]
      rw [hwrite,Scanner.tokens_opening hbody,hts]

theorem tokens_write_of {α : Type} {e : Escapes} {f : α → List Char} {ts : Chunk α}
    (h : ∀ t ∈ ts, (t.map f).Plain) : (Scanner.braces '#' e).tokens (ts.write f) = mapSlots f ts := by
  have hwrite : ts.write f = (mapSlots f ts).write id := by
    rw [write_mapSlots]
    rfl
  rw [hwrite]
  apply tokens_write
  intro t ht
  obtain ⟨u,hu,rfl⟩ := List.mem_map.mp ht
  exact h u hu

/-- Renaming the markers of a plain text renames its slots. -/
theorem renameMarkers_write {α : Type} (r : Repetition) (n : Nat) {f : α → List Char} {ts : Chunk α}
    (h : ∀ t ∈ ts, (t.map f).Plain) :
    r.renameMarkers n (ts.write f) = ts.write (r.renameContent n ∘ f) := by
  have htokens : Scanner.bindMarkers.keepingEscapes.tokens (ts.write f) = mapSlots f ts := by
    rw [keepingEscapes_eq_braces]
    exact tokens_write_of h
  rw [Repetition.renameMarkers,Scanner.replace_eq_fill,htokens,← write_mapSlots]
  rfl

private theorem write_ne {ts : Chunk (List Char)} (h : ∀ t ∈ ts, t.Plain) :
    ∀ c ∈ ts.write id, c ≠ '$' ∧ c ≠ '\\' := by
  have hplain {c : Char} (hc : isPlain c = true) : c ≠ '$' ∧ c ≠ '\\' := by
    constructor <;> rintro rfl <;> exact absurd hc (by decide)
  intro c hc
  obtain ⟨t,ht,hct⟩ := List.mem_flatMap.mp hc
  cases t with
  | char c' =>
    obtain rfl : c = c' := by simpa [Token.write] using hct
    exact hplain (h _ ht)
  | slot content =>
    simp only [Token.write,List.mem_cons,List.mem_append,List.not_mem_nil,or_false] at hct
    rcases hct with rfl | rfl | hct | rfl
    · decide
    · decide
    · exact hplain (h _ ht c hct)
    · decide

theorem hasSubstitution_write {text : String} {ts : Chunk (List Char)} (ht : text.toList = ts.write id)
    (h : ∀ t ∈ ts, t.Plain) : Node.hasSubstitution text = false := by
  have htokens (cs : List Char) (hcs : ∀ c ∈ cs, c ≠ '$' ∧ c ≠ '\\') :
      (Scanner.braces '$' .drop).tokens cs = chars cs := by
    induction cs with
    | nil => exact Scanner.tokens_nil
    | cons c cs ih =>
      have hc := hcs c (by simp)
      have hopening : ¬['$','{'] <+: c :: cs := fun hp => hc.1 (List.cons_prefix_cons.mp hp).1.symm
      have hescaped : ¬['\\','$','{'] <+: c :: cs := fun hp => hc.2 (List.cons_prefix_cons.mp hp).1.symm
      rw [Scanner.tokens_cons hopening hescaped,ih fun d hd => hcs d (List.mem_cons_of_mem c hd)]
      rfl
  rw [Node.hasSubstitution,Scanner.hasSpan,Scanner.spans_eq_slots,substitutions_eq_braces,ht,
    htokens _ (write_ne h),slots_chars]
  rfl

end Chunk

namespace Repetition

private theorem append_cons_inj_of_last {d : Char} {a b ds es : List Char} (hd : d ∉ ds) (he : d ∉ es)
    (h : a ++ d :: ds = b ++ d :: es) : a = b ∧ ds = es := by
  rcases List.append_eq_append_iff.mp h with ⟨m,hb,hm⟩ | ⟨m,ha,hm⟩
  · cases m with
    | nil => exact ⟨by simpa using hb.symm,(List.cons.inj hm).2⟩
    | cons c cs =>
      have hmem : d ∈ ds := by simp [(List.cons.inj hm).2]
      exact absurd hmem hd
  · cases m with
    | nil => exact ⟨by simpa using ha,(List.cons.inj hm).2.symm⟩
    | cons c cs =>
      have hmem : d ∈ es := by simp [(List.cons.inj hm).2]
      exact absurd hmem he

private theorem toList_manufactured (name : String) (n : Nat) :
    (manufactured name n).toList = "__frch_".toList ++ (name.toList ++ '_' :: Nat.toDigits 10 n) := by
  simp [manufactured]

theorem manufactured_inj {x y : String} {m n : Nat} (h : manufactured x m = manufactured y n) :
    x = y ∧ m = n := by
  have hlist := congrArg String.toList h
  rw [toList_manufactured,toList_manufactured] at hlist
  have hsplit := append_cons_inj_of_last Nat.underscore_not_in_toDigits Nat.underscore_not_in_toDigits
    (List.append_cancel_left hlist)
  have hdigits := congrArg (Nat.ofDigitChars 10 · 0) hsplit.2
  simp only [Nat.ofDigitChars_ten_toDigits] at hdigits
  exact ⟨String.toList_inj.mp hsplit.1,hdigits⟩

theorem isReserved_manufactured (name : String) (n : Nat) : IsReserved (manufactured name n).toList := by
  rw [toList_manufactured]
  exact List.prefix_append _ _

private theorem isNameChar_of_mem_reserved : ∀ c ∈ "__frch_".toList, isNameChar c = true :=
  List.all_eq_true.mp (by decide)

theorem isNameChar_of_mem_manufactured {name : String} (h : ∀ c ∈ name.toList, isNameChar c = true) (n : Nat) :
    ∀ c ∈ (manufactured name n).toList, isNameChar c = true := by
  intro c hc
  rw [toList_manufactured] at hc
  simp only [List.mem_append,List.mem_cons] at hc
  rcases hc with hc | hc | rfl | hc
  · exact isNameChar_of_mem_reserved c hc
  · exact h c hc
  · decide
  · have hdigit := Nat.isDigit_of_mem_toDigits (by decide) (by decide) hc
    have hlt : c.toNat < 128 := by
      simp only [Char.isDigit,Bool.and_eq_true,decide_eq_true_eq] at hdigit
      have hle : c.val.toNat ≤ 57 := hdigit.2
      exact Nat.lt_of_le_of_lt hle (by decide)
    simp [isNameChar,isAlphanumeric,hlt,Char.isAlphanum,hdigit]

theorem isName_manufactured {name : String} (h : IsName name.toList) (n : Nat) :
    IsName (manufactured name n).toList := by
  refine ⟨?_,isNameChar_of_mem_manufactured h.2 n⟩
  rw [toList_manufactured]
  simp

theorem original_manufactured {name : String} (h : IsName name.toList) (n : Nat) {more : List Char}
    (hm : continuesName more = false) :
    Path.original ((manufactured name n).toList ++ more) = name.toList ++ more := by
  have hdigit {c : Char} (hc : c ∈ Nat.toDigits 10 n) : c.isDigit = true :=
    Nat.isDigit_of_mem_toDigits (by decide) (by decide) hc
  have hnumbered : ∀ c ∈ name.toList ++ '_' :: Nat.toDigits 10 n, isNameChar c = true := by
    intro c hc
    refine (isName_manufactured h n).2 c ?_
    rw [toList_manufactured]
    exact List.mem_append_right _ hc
  have htake : (name.toList ++ '_' :: Nat.toDigits 10 n ++ more).takeWhile isNameChar =
      name.toList ++ '_' :: Nat.toDigits 10 n := by
    rw [List.takeWhile_append_of_pos hnumbered,takeWhile_isNameChar hm,List.append_nil]
  have hdrop : (name.toList ++ '_' :: Nat.toDigits 10 n ++ more).dropWhile isNameChar = more := by
    rw [List.dropWhile_append_of_pos hnumbered,dropWhile_isNameChar hm]
  have hvariable : ((name.toList ++ '_' :: Nat.toDigits 10 n).reverse.dropWhile Char.isDigit) =
      '_' :: name.toList.reverse := by
    have hreverse : (name.toList ++ '_' :: Nat.toDigits 10 n).reverse =
        (Nat.toDigits 10 n).reverse ++ '_' :: name.toList.reverse := by simp
    rw [hreverse,List.dropWhile_append_of_pos fun c hc => hdigit (List.mem_reverse.mp hc)]
    rfl
  rw [Path.original,toList_manufactured,List.append_assoc,afterStart?_append]
  simp only [htake,hdrop,hvariable]
  simp

theorem renameVariable?_eq_some {n : Nat} {content renamed : List Char} {name : String}
    (h : renameVariable? n content name = some renamed) : ∃ rest, trimStart content = name.toList ++ rest ∧
      continuesName rest = false ∧ renamed = (manufactured name n).toList ++ rest := by
  unfold renameVariable? at h
  split at h
  · next rest hrest =>
    cases hc : continuesName rest with
    | true => simp [hc] at h
    | false =>
      simp only [hc,Bool.false_eq_true,ite_false,Option.some.injEq] at h
      exact ⟨rest,eq_append_of_afterStart? hrest,hc,h.symm⟩
  · contradiction

/-- A marker refers to the name that its path begins with, and to no other. -/
theorem renameVariable?_eq {content root rest : List Char} (h : Leads content root rest) {name : String}
    (hn : IsName name.toList) (n : Nat) : renameVariable? n content name =
      if name.toList = root then some ((manufactured name n).toList ++ rest) else none := by
  rw [renameVariable?,h.start]
  by_cases hname : name.toList = root
  · subst hname
    simp [h.ends]
  · rw [if_neg hname]
    cases ha : afterStart? name.toList (root ++ rest) with
    | none => rfl
    | some rest' =>
      simp only
      cases hc : continuesName rest' with
      | true => rfl
      | false =>
        have heq := hn.eq_of_append_eq h.is_name hc h.ends (eq_append_of_afterStart? ha).symm
        exact absurd heq.1 hname

theorem renameContent_eq {r : Repetition} {content root rest : List Char} (h : Leads content root rest)
    (hr : ∀ x ∈ r.names, IsName x.toList) (n : Nat) : r.renameContent n content =
      if String.ofList root ∈ r.names then (manufactured (String.ofList root) n).toList ++ rest
      else content := by
  have hone (name : Option String) (hname : ∀ x ∈ name.toList, IsName x.toList) :
      name.bind (renameVariable? n content) = if String.ofList root ∈ name.toList then
        some ((manufactured (String.ofList root) n).toList ++ rest) else none := by
    cases name with
    | none => rfl
    | some x =>
      have hx := renameVariable?_eq h (hname x (by simp)) n
      by_cases hroot : x.toList = root
      · subst hroot
        simpa using hx
      · have hne : String.ofList root ≠ x := by
          rintro rfl
          exact hroot (by simp)
        simp [hx,hroot,hne]
  rw [renameContent,hone r.item fun x hx => hr x (by simp [names,hx]),
    hone r.index fun x hx => hr x (by simp [names,hx])]
  by_cases hitem : String.ofList root ∈ r.item.toList
  · simp [names,hitem]
  · by_cases hindex : String.ofList root ∈ r.index.toList <;> simp [names,hitem,hindex]

theorem renameContent_plain {r : Repetition} {content root rest : List Char} (h : Leads content root rest)
    (hr : ∀ x ∈ r.names, IsName x.toList) (hp : ∀ c ∈ content, isPlain c = true) (n : Nat) :
    ∀ c ∈ r.renameContent n content, isPlain c = true := by
  rw [renameContent_eq h hr]
  split
  · next hroot =>
    intro c hc
    rcases List.mem_append.mp hc with hc | hc
    · exact isPlain_of_isNameChar ((isName_manufactured (hr _ hroot) n).2 c hc)
    · have hstart : c ∈ trimStart content := by
        rw [h.start]
        exact List.mem_append_right root hc
      exact hp c ((List.dropWhile_sublist Text.isBlank).mem hstart)
  · exact hp

end Repetition
end SqlTemplate
