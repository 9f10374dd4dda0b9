import SqlTemplate.Node.Repetition
import SqlTemplate.Node.Trim
import SqlTemplate.Proofs.Scan.Tokens
import SqlTemplate.Proofs.Text.Trim
/-!
# Chunks of characters and markers

What a node writes, with every bind marker as one token. Blankness, trimming and separators are read off the
tokens, and a marker is never blank and never part of a word. Writing the markers out as `#{…}` carries these
operations over to the operations on texts, and so does replacing what a marker holds.
-/
namespace SqlTemplate
open Text

namespace Token
variable {α β : Type}

def map (f : α → β) : Token α → Token β
  | .char c => .char c
  | .slot a => .slot (f a)

def isBlank : Token α → Bool
  | .char c => Text.isBlank c
  | .slot _ => false

def isUpper (w : Char) : Token α → Bool
  | .char c => w = c.toUpper
  | .slot _ => false

@[simp] theorem isBlank_map (f : α → β) (t : Token α) : (t.map f).isBlank = t.isBlank := by
  cases t <;> rfl

@[simp] theorem isUpper_map (f : α → β) (w : Char) (t : Token α) : (t.map f).isUpper w = t.isUpper w := by
  cases t <;> rfl

end Token

abbrev Chunk (α : Type) := List (Token α)

namespace Chunk
variable {α β : Type}

def mapSlots (f : α → β) (ts : Chunk α) : Chunk β := List.map (Token.map f) ts

def isBlank (ts : Chunk α) : Bool := ts.all Token.isBlank

def trimStart (ts : Chunk α) : Chunk α := ts.dropWhile Token.isBlank

def trimEnd (ts : Chunk α) : Chunk α := (ts.reverse.dropWhile Token.isBlank).reverse

def trim (ts : Chunk α) : Chunk α := trimEnd (trimStart ts)

def beginsWith : List Char → Chunk α → Bool
  | [], _ => true
  | _ :: _, [] => false
  | w :: ws, t :: ts => t.isUpper w && beginsWith ws ts

def endsWith (word : List Char) (ts : Chunk α) : Bool := beginsWith word.reverse ts.reverse

def stripFront (words : List String) (body : Chunk α) : Chunk α :=
  match words.find? fun w => beginsWith w.toList body with
  | some w => trimStart (body.drop (Text.trim w.toList).length)
  | none => body

def stripBack (words : List String) (body : Chunk α) : Chunk α :=
  match words.find? fun w => endsWith w.toList body with
  | some w => trimEnd (body.take (body.length-(Text.trim w.toList).length))
  | none => body

def join : List (Chunk α) → Chunk α
  | [] => []
  | [part] => part
  | part :: parts => part ++ .char ' ' :: join parts

def finish (t : Trim) (front back contents : Chunk α) : Chunk α :=
  let body := trim contents
  if body.isEmpty then []
  else
    let body := stripBack t.backOverrides (stripFront t.frontOverrides body)
    join ([front,body,back].filter (!·.isEmpty))

def separate (separator : Chunk α) : List (Chunk α) → List (Chunk α)
  | [] => []
  | chunk :: chunks =>
    if chunk.isBlank then chunk :: separate separator chunks else separator :: chunk :: chunks

def place (separator : Option (Chunk α)) (started : Bool) (chunks : List (Chunk α)) : List (Chunk α) :=
  if started then separator.elim chunks fun s => separate s chunks else chunks

section mapSlots
variable (f : α → β)

@[simp] theorem mapSlots_append (a b : Chunk α) : mapSlots f (a ++ b) = mapSlots f a ++ mapSlots f b :=
  List.map_append

@[simp] theorem mapSlots_chars (cs : List Char) : mapSlots f (Token.chars cs) = Token.chars cs := by
  simp [mapSlots,Token.chars,Token.map]

theorem mapSlots_flatMap {γ : Type} (g : γ → Chunk α) (as : List γ) :
    mapSlots f (as.flatMap g) = as.flatMap fun a => mapSlots f (g a) :=
  List.map_flatMap

theorem fill_mapSlots (g : β → List Char) (ts : Chunk α) :
    Token.fill g (mapSlots f ts) = Token.fill (fun a => g (f a)) ts := by
  induction ts with
  | nil => rfl
  | cons t ts ih =>
    cases t with
    | char c => exact congrArg (c :: ·) ih
    | slot a => exact congrArg (g (f a) ++ ·) ih

theorem slots_mapSlots (ts : Chunk α) : Token.slots (mapSlots f ts) = (Token.slots ts).map f := by
  induction ts with
  | nil => rfl
  | cons t ts ih => cases t <;> simpa [mapSlots,Token.map] using ih

theorem mapSlots_eq_self {f : α → α} {ts : Chunk α} (h : ∀ a ∈ Token.slots ts, f a = a) : mapSlots f ts = ts := by
  induction ts with
  | nil => rfl
  | cons t ts ih =>
    cases t with
    | char c => exact congrArg (.char c :: ·) (ih h)
    | slot a =>
      have hrest := ih fun b hb => h b (List.mem_cons_of_mem a hb)
      have ha : f a = a := h a (by simp)
      change Token.slot (f a) :: mapSlots f ts = _
      rw [ha,hrest]

theorem isBlank_mapSlots (ts : Chunk α) : isBlank (mapSlots f ts) = isBlank ts := by
  simp [isBlank,mapSlots,Function.comp_def]

private theorem trimStart_mapSlots (ts : Chunk α) : trimStart (mapSlots f ts) = mapSlots f (trimStart ts) := by
  simp [trimStart,mapSlots,List.dropWhile_map,Function.comp_def]

private theorem trimEnd_mapSlots (ts : Chunk α) : trimEnd (mapSlots f ts) = mapSlots f (trimEnd ts) := by
  simp [trimEnd,mapSlots,← List.map_reverse,List.dropWhile_map,Function.comp_def]

theorem trim_mapSlots (ts : Chunk α) : trim (mapSlots f ts) = mapSlots f (trim ts) := by
  rw [trim,trimStart_mapSlots,trimEnd_mapSlots,trim]

private theorem beginsWith_mapSlots (word : List Char) (ts : Chunk α) :
    beginsWith word (mapSlots f ts) = beginsWith word ts := by
  induction word generalizing ts with
  | nil => rfl
  | cons w ws ih =>
    cases ts with
    | nil => rfl
    | cons t ts =>
      have h := ih ts
      rw [mapSlots] at h
      simp [mapSlots,beginsWith,h]

private theorem stripFront_mapSlots (words : List String) (ts : Chunk α) :
    stripFront words (mapSlots f ts) = mapSlots f (stripFront words ts) := by
  simp only [stripFront,beginsWith_mapSlots]
  cases words.find? fun w => beginsWith w.toList ts with
  | none => rfl
  | some w =>
    simp only
    rw [← trimStart_mapSlots,mapSlots,mapSlots,List.map_drop]

private theorem stripBack_mapSlots (words : List String) (ts : Chunk α) :
    stripBack words (mapSlots f ts) = mapSlots f (stripBack words ts) := by
  have hends (w : String) : endsWith w.toList (mapSlots f ts) = endsWith w.toList ts := by
    rw [endsWith,endsWith,← beginsWith_mapSlots f w.toList.reverse,mapSlots,mapSlots,List.map_reverse]
  simp only [stripBack,hends]
  cases words.find? fun w => endsWith w.toList ts with
  | none => rfl
  | some w =>
    simp only
    rw [← trimEnd_mapSlots,mapSlots,mapSlots,List.map_take,List.length_map]

private theorem join_mapSlots (parts : List (Chunk α)) :
    join (parts.map (mapSlots f)) = mapSlots f (join parts) := by
  induction parts with
  | nil => rfl
  | cons part parts ih =>
    cases parts with
    | nil => rfl
    | cons p ps =>
      simp only [List.map_cons] at ih
      simp only [List.map_cons,join,ih,mapSlots_append]
      rfl

theorem finish_mapSlots (t : Trim) (front back contents : Chunk α) :
    finish t (mapSlots f front) (mapSlots f back) (mapSlots f contents) =
      mapSlots f (finish t front back contents) := by
  have hempty (ts : Chunk α) : (mapSlots f ts).isEmpty = ts.isEmpty := by cases ts <;> rfl
  simp only [finish,trim_mapSlots,hempty]
  split
  · rfl
  · rw [stripFront_mapSlots,stripBack_mapSlots,← join_mapSlots]
    have hfilter (parts : List (Chunk α)) : (parts.map (mapSlots f)).filter (!·.isEmpty) =
        (parts.filter (!·.isEmpty)).map (mapSlots f) := by
      rw [List.filter_map]
      simp [Function.comp_def,hempty]
    exact congrArg join (hfilter [front,stripBack t.backOverrides
      (stripFront t.frontOverrides (trim contents)),back])

theorem place_mapSlots (separator : Option (Chunk α)) (started : Bool) (chunks : List (Chunk α)) :
    place (separator.map (mapSlots f)) started (chunks.map (mapSlots f)) =
      (place separator started chunks).map (mapSlots f) := by
  cases started with
  | false => rfl
  | true =>
    cases separator with
    | none => rfl
    | some s =>
      simp only [place,Option.map_some,Option.elim_some,ite_true]
      induction chunks with
      | nil => rfl
      | cons chunk chunks ih =>
        simp only [List.map_cons,separate,isBlank_mapSlots,ih]
        split <;> rfl

end mapSlots

section fill
variable {g : α → List Char}

private theorem dropWhile_fill (hg : ∀ a, ∃ x rest, g a = x :: rest ∧ Text.isBlank x = false) (ts : Chunk α) :
    (Token.fill g ts).dropWhile Text.isBlank = Token.fill g (ts.dropWhile Token.isBlank) := by
  induction ts with
  | nil => rfl
  | cons t ts ih =>
    cases t with
    | char c =>
      rw [Token.fill_char,List.dropWhile_cons,List.dropWhile_cons]
      by_cases hc : Text.isBlank c
      · simpa [Token.isBlank,hc] using ih
      · simp [Token.isBlank,hc]
    | slot a =>
      obtain ⟨x,rest,ha,hx⟩ := hg a
      simp [Token.isBlank,ha,hx]

private theorem reverse_fill (g : α → List Char) (ts : Chunk α) :
    (Token.fill g ts).reverse = Token.fill (fun a => (g a).reverse) ts.reverse := by
  induction ts with
  | nil => rfl
  | cons t ts ih => cases t <;> simp [ih]

private theorem beginsWith_fill {word : List Char}
    (hg : ∀ a, ∃ x rest, g a = x :: rest ∧ x.toUpper ∉ word) (ts : Chunk α) :
    word.isPrefixOf (upper (Token.fill g ts)) = beginsWith word ts := by
  induction word generalizing ts with
  | nil => rfl
  | cons w ws ih =>
    have hws : ∀ a, ∃ x rest, g a = x :: rest ∧ x.toUpper ∉ ws := by
      intro a
      obtain ⟨x,rest,ha,hx⟩ := hg a
      exact ⟨x,rest,ha,fun hm => hx (List.mem_cons_of_mem w hm)⟩
    cases ts with
    | nil => rfl
    | cons t ts =>
      cases t with
      | char c =>
        have h := ih hws ts
        change (w == c.toUpper && ws.isPrefixOf (upper (Token.fill g ts))) = _
        rw [h]
        rfl
      | slot a =>
        obtain ⟨x,rest,ha,hx⟩ := hg a
        have hw : w ≠ x.toUpper := by
          rintro rfl
          exact hx (by simp)
        have hbeq : (w == x.toUpper) = false := by simpa using hw
        rw [Token.fill_slot,ha]
        change (w == x.toUpper && _) = _
        rw [hbeq]
        rfl

private theorem drop_fill {word : List Char} {ts : Chunk α} (h : beginsWith word ts = true) {n : Nat}
    (hn : n ≤ word.length) : (Token.fill g ts).drop n = Token.fill g (ts.drop n) := by
  induction n generalizing word ts with
  | zero => rfl
  | succ n ih =>
    cases word with
    | nil => simp at hn
    | cons w ws =>
      cases ts with
      | nil => simp [beginsWith] at h
      | cons t ts =>
        simp only [beginsWith,Bool.and_eq_true] at h
        cases t with
        | char c =>
          have hrest := ih h.2 (by simpa using hn)
          simpa using hrest
        | slot a => simp [Token.isUpper] at h

end fill

/-- A chunk as the text that it stands for. -/
def write (f : α → List Char) (ts : Chunk α) : List Char :=
  Token.fill (fun a => '#' :: '{' :: (f a ++ ['}'])) ts

section write
variable (f : α → List Char)

@[simp] theorem write_nil : write f [] = [] := rfl

@[simp] theorem write_append (a b : Chunk α) : write f (a ++ b) = write f a ++ write f b :=
  Token.fill_append _ a b

theorem write_mapSlots (k : β → α) (ts : Chunk β) : write f (mapSlots k ts) = write (f ∘ k) ts :=
  fill_mapSlots k _ ts

private theorem isEmpty_write (ts : Chunk α) : (write f ts).isEmpty = ts.isEmpty := by
  cases ts with
  | nil => rfl
  | cons t ts => cases t <;> rfl

theorem allBlank_write (ts : Chunk α) : allBlank (write f ts) = ts.isBlank := by
  induction ts with
  | nil => rfl
  | cons t ts ih =>
    simp only [allBlank,isBlank,write] at ih
    cases t with
    | char c => simp [write,allBlank,isBlank,Token.isBlank,ih]
    | slot a =>
      have hx : Text.isBlank '#' = false := by decide
      simp [write,allBlank,isBlank,Token.isBlank,hx]

private theorem trimStart_write (ts : Chunk α) : Text.trimStart (write f ts) = write f (trimStart ts) :=
  dropWhile_fill (fun a => ⟨'#','{' :: (f a ++ ['}']),rfl,by decide⟩) ts

private theorem trimEnd_write (ts : Chunk α) : Text.trimEnd (write f ts) = write f (trimEnd ts) := by
  have hback (a : α) : ∃ x rest, ('#' :: '{' :: (f a ++ ['}'])).reverse = x :: rest ∧ Text.isBlank x = false :=
    ⟨'}',('#' :: '{' :: f a).reverse,by simp,by decide⟩
  have hdrop := dropWhile_fill hback ts.reverse
  rw [Text.trimEnd,write,reverse_fill,hdrop,reverse_fill]
  simp [write,trimEnd]

theorem trim_write (ts : Chunk α) : Text.trim (write f ts) = write f (trim ts) := by
  rw [Text.trim,trimStart_write,trimEnd_write,trim]

def IsWord (w : String) : Prop := '#' ∉ w.toList ∧ '{' ∉ w.toList ∧ '}' ∉ w.toList

private theorem find?_congr {p q : α → Bool} {as : List α} (h : ∀ a ∈ as, p a = q a) :
    as.find? p = as.find? q := by
  induction as with
  | nil => rfl
  | cons a as ih =>
    have hrest := ih fun b hb => h b (List.mem_cons_of_mem a hb)
    rw [List.find?_cons,List.find?_cons,h a (by simp),hrest]

private theorem stripFront_write (t : Trim) (h : ∀ w ∈ t.frontOverrides, IsWord w) (ts : Chunk α) :
    t.stripFront (write f ts) = write f (stripFront t.frontOverrides ts) := by
  have hfind : (t.frontOverrides.find? fun w => w.toList.isPrefixOf (upper (write f ts))) =
      t.frontOverrides.find? fun w => beginsWith w.toList ts := by
    apply find?_congr
    intro w hw
    exact beginsWith_fill (fun a => ⟨'#','{' :: (f a ++ ['}']),rfl,(h w hw).1⟩) ts
  rw [Trim.stripFront,hfind,stripFront]
  cases hw : t.frontOverrides.find? fun w => beginsWith w.toList ts with
  | none => rfl
  | some w =>
    have hbegins : beginsWith w.toList ts = true := by
      have hp := List.find?_some hw
      exact hp
    have hdrop := drop_fill (g := fun a => '#' :: '{' :: (f a ++ ['}'])) hbegins (length_trim_le w.toList)
    simp only
    rw [← trimStart_write]
    exact congrArg Text.trimStart hdrop

private theorem stripBack_write (t : Trim) (h : ∀ w ∈ t.backOverrides, IsWord w) (ts : Chunk α) :
    t.stripBack (write f ts) = write f (stripBack t.backOverrides ts) := by
  have hreverse : (write f ts).reverse = Token.fill (fun a => ('#' :: '{' :: (f a ++ ['}'])).reverse) ts.reverse :=
    reverse_fill _ ts
  have hends (w : String) (hw : IsWord w) :
      Text.endsWith w.toList (upper (write f ts)) = endsWith w.toList ts := by
    have hback (a : α) : ∃ x rest, ('#' :: '{' :: (f a ++ ['}'])).reverse = x :: rest ∧
        x.toUpper ∉ w.toList.reverse :=
      ⟨'}',('#' :: '{' :: f a).reverse,by simp,by simpa using hw.2.2⟩
    rw [Text.endsWith,endsWith,← beginsWith_fill hback,← hreverse,upper,upper,List.map_reverse]
  have hfind : (t.backOverrides.find? fun w => Text.endsWith w.toList (upper (write f ts))) =
      t.backOverrides.find? fun w => endsWith w.toList ts :=
    find?_congr fun w hw => hends w (h w hw)
  rw [Trim.stripBack,hfind,stripBack]
  cases hw : t.backOverrides.find? fun w => endsWith w.toList ts with
  | none => rfl
  | some w =>
    have hbegins : beginsWith w.toList.reverse ts.reverse = true := by
      have hp := List.find?_some hw
      exact hp
    have hn : (Text.trim w.toList).length ≤ w.toList.reverse.length := by
      simpa using length_trim_le w.toList
    have hdrop := drop_fill (g := fun a => ('#' :: '{' :: (f a ++ ['}'])).reverse) hbegins hn
    rw [← hreverse,List.drop_reverse,List.drop_reverse,← List.reverse_inj,List.reverse_reverse,
      reverse_fill,List.reverse_reverse] at hdrop
    simp only [List.reverse_reverse] at hdrop
    simp only
    rw [← trimEnd_write]
    exact congrArg Text.trimEnd hdrop

private theorem join_write (parts : List (Chunk α)) :
    [' '].intercalate (parts.map (write f)) = write f (join parts) := by
  induction parts with
  | nil => rfl
  | cons part parts ih =>
    cases parts with
    | nil => simp [join]
    | cons p ps =>
      simp only [List.map_cons] at ih
      simp only [List.map_cons,List.intercalate_cons_cons,join,ih,write_append]
      simp [write]

theorem finish_write (t : Trim) (hf : ∀ w ∈ t.frontOverrides, IsWord w)
    (hb : ∀ w ∈ t.backOverrides, IsWord w) {front back : Chunk α}
    (hfront : (t.front.getD "").toList = write f front) (hback : (t.back.getD "").toList = write f back)
    (contents : Chunk α) : t.finish (write f contents) = write f (finish t front back contents) := by
  have hempty (ts : Chunk α) : write f ts = [] ↔ ts.isEmpty = true := by
    rw [← isEmpty_write f ts,List.isEmpty_iff]
  simp only [Trim.finish,finish,trim_write,hempty]
  split
  · rfl
  · have hfilter (parts : List (Chunk α)) : (parts.map (write f)).filter (!·.isEmpty) =
        (parts.filter (!·.isEmpty)).map (write f) := by
      rw [List.filter_map]
      simp [Function.comp_def,isEmpty_write]
    rw [stripFront_write f t hf,stripBack_write f t hb,hfront,hback,← join_write,← hfilter]
    rfl

theorem place_write (r : Repetition) {separator : Option (Chunk α)}
    (h : r.separator.map String.toList = separator.map (write f)) (started : Bool)
    (chunks : List (Chunk α)) :
    r.place started (chunks.map (write f)) = (place separator started chunks).map (write f) := by
  cases started with
  | false => rfl
  | true =>
    cases hs : r.separator with
    | none =>
      obtain rfl : separator = none := by
        cases separator with
        | none => rfl
        | some sep => simp [hs] at h
      simp [Repetition.place,hs,place]
    | some s =>
      obtain ⟨sep,rfl⟩ : ∃ sep, separator = some sep := by
        cases separator with
        | none => simp [hs] at h
        | some sep => exact ⟨sep,rfl⟩
      have hsep : s.toList = write f sep := by simpa [hs] using h
      simp only [Repetition.place,hs,place,Option.elim_some,ite_true]
      induction chunks with
      | nil => rfl
      | cons chunk chunks ih =>
        simp only [List.map_cons,Repetition.separate,separate,allBlank_write,ih]
        split
        · rfl
        · simp [hsep]

end write

end Chunk
end SqlTemplate
