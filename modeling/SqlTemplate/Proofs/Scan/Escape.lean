import SqlTemplate.Proofs.Scan.Braces
/-!
# Escaped delimiters

Where a delimiter stands in a text without a backslash before it, and a text with the backslashes before its
delimiters dropped.
-/
namespace SqlTemplate
open Text Token

def Unescaped (d cs : List Char) : Prop := ∃ a b, cs = a ++ (d ++ b) ∧ endsInBackslash a = false

/-- Is there an unescaped delimiter? `escaped` says that a backslash stands right before the text. -/
def hasUnescaped (d : List Char) (escaped : Bool) : List Char → Bool
  | [] => !escaped && d.isPrefixOf []
  | c :: cs => (!escaped && d.isPrefixOf (c :: cs)) || hasUnescaped d (c = '\\') cs

/-- The text without the backslashes that escape a delimiter. -/
def dropEscapes (d : List Char) : List Char → List Char
  | [] => []
  | c :: cs => if c = '\\' ∧ d <+: cs then dropEscapes d cs else c :: dropEscapes d cs

def Escapes.read (e : Escapes) (d cs : List Char) : List Char :=
  match e with
  | .keep => cs
  | .drop => dropEscapes d cs

structure Unslashed (d : List Char) : Prop where
  ne_nil : d ≠ []
  not_mem : '\\' ∉ d

theorem unslashed_closing : Unslashed ['}'] := ⟨by simp,by simp⟩

theorem unslashed_opening {x : Char} (hx : x ≠ '\\') : Unslashed [x,'{'] :=
  ⟨by simp,by simpa using Ne.symm hx⟩

@[simp] theorem endsInBackslash_nil : endsInBackslash [] = false := rfl

theorem endsInBackslash_append {a b : List Char} (h : b ≠ []) :
    endsInBackslash (a ++ b) = endsInBackslash b := by
  simp [endsInBackslash,List.getLast?_append,List.getLast?_eq_some_getLast h]

theorem endsInBackslash_cons {c : Char} {cs : List Char} (h : cs ≠ []) :
    endsInBackslash (c :: cs) = endsInBackslash cs :=
  endsInBackslash_append (a := [c]) h

theorem endsInBackslash_right {a b : List Char} (h : endsInBackslash (a ++ b) = false) :
    endsInBackslash b = false := by
  cases b with
  | nil => rfl
  | cons c b => rwa [endsInBackslash_append (by simp)] at h

theorem endsInBackslash_of_not_mem {cs : List Char} (h : '\\' ∉ cs) : endsInBackslash cs = false := by
  simp only [endsInBackslash,decide_eq_false_iff_not]
  intro hl
  exact h (List.mem_of_getLast? hl)

namespace Unescaped
variable {d : List Char}

theorem append_right {a : List Char} (h : Unescaped d a) (b : List Char) : Unescaped d (a ++ b) := by
  obtain ⟨u,v,rfl,hu⟩ := h
  exact ⟨u,v ++ b,by simp,hu⟩

theorem append_left {b : List Char} (a : List Char) (h : Unescaped d b)
    (ha : endsInBackslash a = false) : Unescaped d (a ++ b) := by
  obtain ⟨u,v,rfl,hu⟩ := h
  refine ⟨a ++ u,v,by simp,?_⟩
  cases u with
  | nil => simpa using ha
  | cons c u => rwa [endsInBackslash_append (by simp)]

theorem of_append {c : Char} {tail a b : List Char} (h : Unescaped (c :: tail) (a ++ b)) (ha : c ∉ a) :
    Unescaped (c :: tail) b := by
  obtain ⟨u,v,huv,hu⟩ := h
  rcases List.append_eq_append_iff.mp huv with ⟨m,hm,hb⟩ | ⟨m,hm,hb⟩
  · refine ⟨m,v,hb,?_⟩
    rw [hm] at hu
    exact endsInBackslash_right hu
  · cases m with
    | nil => exact ⟨[],v,by simpa using hb.symm,rfl⟩
    | cons d m =>
      obtain rfl : c = d := (List.cons.inj hb).1
      exact absurd (by simp [hm]) ha

theorem of_append_left {c : Char} {init a b : List Char} (h : Unescaped (init ++ [c]) (a ++ b)) (hb : c ∉ b) :
    Unescaped (init ++ [c]) a := by
  obtain ⟨u,v,huv,hu⟩ := h
  rw [← List.append_assoc] at huv
  rcases List.append_eq_append_iff.mp huv with ⟨m,hm,hmv⟩ | ⟨m,hm,-⟩
  · rcases List.eq_nil_or_concat m with rfl | ⟨m,d,rfl⟩
    · exact ⟨u,[],by simpa using hm.symm,hu⟩
    · have hlast : (u ++ init) ++ [c] = (a ++ m) ++ [d] := by simpa using hm
      obtain rfl : c = d := by simpa using (List.append_inj' hlast rfl).2
      exact absurd (by simp [hmv]) hb
  · exact ⟨u,m,by simpa using hm,hu⟩

theorem first {cs : List Char} (hd : Unslashed d) (h : Unescaped d cs) :
    ∃ a b, cs = a ++ (d ++ b) ∧ endsInBackslash a = false ∧ ¬Unescaped d a := by
  obtain ⟨a,b,rfl,ha⟩ := h
  induction hn : a.length using Nat.strongRecOn generalizing a b with
  | ind n ih =>
    subst hn
    by_cases hu : Unescaped d a
    · obtain ⟨u,v,rfl,hu⟩ := hu
      have hlt : u.length < (u ++ (d ++ v)).length := by
        have := List.length_pos_iff.mpr hd.ne_nil
        simp only [List.length_append]
        omega
      simpa using ih u.length hlt u (v ++ (d ++ b)) hu rfl
    · exact ⟨a,b,rfl,ha,hu⟩

theorem of_cons {c : Char} {cs : List Char} (h : Unescaped d cs) (he : ¬ '\\' :: d <+: c :: cs) :
    Unescaped d (c :: cs) := by
  obtain ⟨a,b,rfl,ha⟩ := h
  refine ⟨c :: a,b,by simp,?_⟩
  cases a with
  | nil =>
    have hc : c ≠ '\\' := by
      rintro rfl
      exact he ⟨b,by simp⟩
    simpa [endsInBackslash] using hc
  | cons a as => rwa [endsInBackslash_cons (by simp)]

theorem of_escaped {cs : List Char} (hd : Unslashed d) (h : Unescaped d cs) :
    Unescaped d ('\\' :: (d ++ cs)) :=
  h.append_left ('\\' :: d) (by rw [endsInBackslash_cons hd.ne_nil,endsInBackslash_of_not_mem hd.not_mem])

theorem of_start {cs : List Char} (h : d <+: cs) : Unescaped d cs := by
  obtain ⟨b,rfl⟩ := h
  exact ⟨[],b,rfl,rfl⟩

end Unescaped

private theorem hasUnescaped_iff (d : List Char) (escaped : Bool) (cs : List Char) :
    hasUnescaped d escaped cs = true ↔
      ∃ a b, cs = a ++ (d ++ b) ∧ endsInBackslash a = false ∧ (escaped = true → a ≠ []) := by
  induction cs generalizing escaped with
  | nil =>
    simp only [hasUnescaped,Bool.and_eq_true,Bool.not_eq_true',List.isPrefixOf_iff_prefix,
      List.prefix_nil]
    constructor
    · rintro ⟨he,rfl⟩
      exact ⟨[],[],rfl,rfl,by simp [he]⟩
    · rintro ⟨a,b,hab,-,he⟩
      obtain ⟨rfl,hdb⟩ := List.append_eq_nil_iff.mp hab.symm
      exact ⟨by simpa using he,(List.append_eq_nil_iff.mp hdb).1⟩
  | cons c cs ih =>
    simp only [hasUnescaped,Bool.or_eq_true,Bool.and_eq_true,Bool.not_eq_true',
      List.isPrefixOf_iff_prefix,ih,decide_eq_true_eq]
    constructor
    · rintro (⟨he,b,hb⟩ | ⟨a,b,rfl,ha,hc⟩)
      · exact ⟨[],b,hb.symm,rfl,by simp [he]⟩
      · refine ⟨c :: a,b,rfl,?_,by simp⟩
        cases a with
        | nil => simpa [endsInBackslash] using hc
        | cons a as => rwa [endsInBackslash_cons (by simp)]
    · rintro ⟨a,b,hab,ha,he⟩
      cases a with
      | nil => exact .inl ⟨by simpa using he,b,hab.symm⟩
      | cons a as =>
        obtain ⟨rfl,rfl⟩ := List.cons.inj hab
        refine .inr ⟨as,b,rfl,endsInBackslash_right (a := [c]) ha,?_⟩
        rintro rfl rfl
        simp [endsInBackslash] at ha

theorem hasUnescaped_weaken {d cs : List Char} {escaped : Bool}
    (h : hasUnescaped d escaped cs = true) : hasUnescaped d false cs = true := by
  obtain ⟨a,b,hab,ha,-⟩ := (hasUnescaped_iff d escaped cs).mp h
  exact (hasUnescaped_iff d false cs).mpr ⟨a,b,hab,ha,by simp⟩

theorem unescaped_iff {d cs : List Char} : Unescaped d cs ↔ hasUnescaped d false cs = true := by
  rw [hasUnescaped_iff]
  simp [Unescaped]

instance (d cs : List Char) : Decidable (Unescaped d cs) := decidable_of_iff _ unescaped_iff.symm

/-- Induction along a text, an escaped delimiter at a time. -/
theorem escapeInduction (d : List Char) {P : List Char → Prop} (nil : P [])
    (escaped : ∀ cs, P cs → P ('\\' :: (d ++ cs)))
    (other : ∀ c cs, ¬ '\\' :: d <+: c :: cs → P cs → P (c :: cs)) (cs : List Char) : P cs := by
  induction hn : cs.length using Nat.strongRecOn generalizing cs with
  | ind n ih =>
    subst hn
    cases cs with
    | nil => exact nil
    | cons c cs =>
      by_cases h : '\\' :: d <+: c :: cs
      · obtain ⟨rest,hr⟩ := h
        obtain ⟨rfl,rfl⟩ := List.cons.inj hr
        have hlt : rest.length < ('\\' :: (d ++ rest)).length := by
          simp only [List.length_cons,List.length_append]
          omega
        exact escaped rest (ih _ hlt rest rfl)
      · exact other c cs h (ih _ (by simp) cs rfl)

section dropEscapes
variable {d : List Char}

@[simp] theorem dropEscapes_nil : dropEscapes d [] = [] := rfl

theorem dropEscapes_cons {c : Char} {cs : List Char} (h : ¬ '\\' :: d <+: c :: cs) :
    dropEscapes d (c :: cs) = c :: dropEscapes d cs := by
  have hc : ¬(c = '\\' ∧ d <+: cs) := by
    rintro ⟨rfl,hcs⟩
    exact h (List.cons_prefix_cons.mpr ⟨rfl,hcs⟩)
  rw [dropEscapes,if_neg hc]

theorem dropEscapes_append {a : List Char} (h : '\\' ∉ a) (cs : List Char) :
    dropEscapes d (a ++ cs) = a ++ dropEscapes d cs := by
  induction a with
  | nil => rfl
  | cons c a ih =>
    simp only [List.mem_cons,not_or] at h
    rw [List.cons_append,dropEscapes,if_neg (fun hc => h.1 hc.1.symm),ih h.2,List.cons_append]

theorem dropEscapes_escaped (hd : Unslashed d) (cs : List Char) :
    dropEscapes d ('\\' :: (d ++ cs)) = d ++ dropEscapes d cs := by
  rw [dropEscapes,if_pos ⟨rfl,List.prefix_append d cs⟩,dropEscapes_append hd.not_mem]

end dropEscapes

namespace Escapes
variable {d : List Char}

@[simp] theorem read_nil (e : Escapes) : e.read d [] = [] := by cases e <;> rfl

theorem read_cons (e : Escapes) {c : Char} {cs : List Char} (h : ¬ '\\' :: d <+: c :: cs) :
    e.read d (c :: cs) = c :: e.read d cs := by
  cases e with
  | keep => rfl
  | drop => exact dropEscapes_cons h

theorem read_escaped (e : Escapes) (hd : Unslashed d) (cs : List Char) :
    e.read d ('\\' :: (d ++ cs)) = e.mark ++ d ++ e.read d cs := by
  cases e with
  | keep => simp [read,mark]
  | drop => simpa [read,mark] using dropEscapes_escaped hd cs

end Escapes

namespace Scanner
variable {x : Char} {e : Escapes}

theorem body?_append {content : List Char} (h : ¬Unescaped ['}'] content)
    (hl : endsInBackslash content = false) (rest : List Char) :
    (braces x e).body? (content ++ '}' :: rest) = some (e.read ['}'] content,rest) := by
  induction content using escapeInduction ['}'] with
  | nil => simpa using body?_closing rest
  | escaped cs ih =>
    have hc := ih (fun hu => h (hu.of_escaped unslashed_closing)) (endsInBackslash_right (a := ['\\','}']) hl)
    change (braces x e).body? ('\\' :: '}' :: (cs ++ '}' :: rest)) = _
    rw [body?_escaped,hc,e.read_escaped unslashed_closing]
    simp
  | other c cs he ih =>
    have hc : c ≠ '}' := by
      rintro rfl
      exact h (.of_start ⟨cs,rfl⟩)
    have hhead : ¬(c = '\\' ∧ (cs ++ '}' :: rest).head? = some '}') := by
      rintro ⟨rfl,hh⟩
      cases cs with
      | nil => simp [endsInBackslash] at hl
      | cons b cs =>
        obtain rfl : b = '}' := by simpa using hh
        exact he ⟨cs,rfl⟩
    rw [List.cons_append,body?_cons hc hhead,ih (fun hu => h (hu.of_cons he))
      (endsInBackslash_right (a := [c]) hl),e.read_cons he]
    simp

theorem body?_eq_none {cs : List Char} (h : ¬Unescaped ['}'] cs) : (braces x e).body? cs = none := by
  induction cs using escapeInduction ['}'] with
  | nil => exact body?_nil
  | escaped cs ih =>
    change (braces x e).body? ('\\' :: '}' :: cs) = none
    rw [body?_escaped,ih (fun hu => h (hu.of_escaped unslashed_closing))]
    rfl
  | other c cs he ih =>
    have hc : c ≠ '}' := by
      rintro rfl
      exact h (.of_start ⟨cs,rfl⟩)
    have hhead : ¬(c = '\\' ∧ cs.head? = some '}') := by
      rintro ⟨rfl,hh⟩
      obtain ⟨cs,rfl⟩ := List.head?_eq_some_iff.mp hh
      exact he ⟨cs,rfl⟩
    rw [body?_cons hc hhead,ih (fun hu => h (hu.of_cons he))]
    rfl

/-- A text without an unescaped opening delimiter stands for itself, up to its escapes. What follows begins
a span of its own: it does not go on with a delimiter that the text has begun. -/
theorem tokens_append (hx : x ≠ '\\') (hx' : x ≠ '{') {cs : List Char} (h : ¬Unescaped [x,'{'] cs)
    {rest : List Char} (hr : rest = [] ∨ [x,'{'] <+: rest ∧ endsInBackslash cs = false) :
    (braces x e).tokens (cs ++ rest) = chars (e.read [x,'{'] cs) ++ (braces x e).tokens rest := by
  have hd := unslashed_opening hx
  induction cs using escapeInduction [x,'{'] with
  | nil => simp
  | escaped cs ih =>
    have hr' : rest = [] ∨ [x,'{'] <+: rest ∧ endsInBackslash cs = false :=
      hr.imp_right fun hp => ⟨hp.1,endsInBackslash_right (a := '\\' :: [x,'{']) hp.2⟩
    change (braces x e).tokens ('\\' :: x :: '{' :: (cs ++ rest)) = _
    rw [tokens_escaped hx,ih (fun hu => h (hu.of_escaped hd)) hr',e.read_escaped hd]
    simp
  | other c cs he ih =>
    have hr' : rest = [] ∨ [x,'{'] <+: rest ∧ endsInBackslash cs = false :=
      hr.imp_right fun hp => ⟨hp.1,endsInBackslash_right (a := [c]) hp.2⟩
    have hno : ¬[x,'{'] <+: c :: cs := fun hp => h (.of_start hp)
    have hopen : ¬[x,'{'] <+: c :: (cs ++ rest) := by
      rcases hr with rfl | ⟨⟨t,rfl⟩,-⟩
      · simpa using hno
      · cases cs with
        | nil => simp [Ne.symm hx']
        | cons b cs => simpa using hno
    have hesc : ¬['\\',x,'{'] <+: c :: (cs ++ rest) := by
      rcases hr with rfl | ⟨⟨t,rfl⟩,hl⟩
      · simpa using he
      · match cs, he, hl with
        | [], _, hl => simpa [endsInBackslash,eq_comm] using hl
        | [b], _, _ => simp [Ne.symm hx']
        | b :: b' :: cs, he, _ => simpa using he
    rw [List.cons_append,tokens_cons hopen hesc,ih (fun hu => h (hu.of_cons he)) hr',e.read_cons he]
    simp

end Scanner
end SqlTemplate
