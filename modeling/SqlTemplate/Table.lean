/-!
# Insertion-ordered tables

Entries are found by their key: the first one with it counts. A key keeps the place where it first came in, as putting
it again replaces its entry there. A table is a list of entries in which no key stands twice.
-/
namespace SqlTemplate

abbrev Entries (κ α : Type) := List (κ × α)

namespace Entries
variable {κ α : Type} [DecidableEq κ]

def get? : Entries κ α → κ → Option α
  | [], _ => none
  | (k,a) :: t, key => if k = key then some a else get? t key

def put : Entries κ α → κ → α → Entries κ α
  | [], key, a => [(key,a)]
  | (k,b) :: t, key, a => if k = key then (k,a) :: t else (k,b) :: put t key a

def erase : Entries κ α → κ → Entries κ α
  | [], _ => []
  | (k,a) :: t, key => if k = key then t else (k,a) :: erase t key

def has (t : Entries κ α) (key : κ) : Bool := (get? t key).isSome

def ofList (entries : List (κ × α)) : Entries κ α := entries.foldl (fun t e => put t e.1 e.2) []

@[simp] theorem get?_nil (key : κ) : get? ([] : Entries κ α) key = none := rfl

@[simp] theorem get?_put (t : Entries κ α) (k key : κ) (a : α) :
    get? (put t k a) key = if k = key then some a else get? t key := by
  induction t with
  | nil => simp [put,get?]
  | cons e t ih =>
    obtain ⟨k',b⟩ := e
    simp only [put]
    split
    · subst k'
      by_cases h : k = key <;> simp [get?,h]
    · by_cases h : k' = key
      · subst h
        have : k ≠ k' := by rintro rfl; simp at *
        simp [get?,this]
      · simp [get?,h,ih]

theorem put_put (t : Entries κ α) (key : κ) (a b : α) : put (put t key a) key b = put t key b := by
  induction t with
  | nil => simp [put]
  | cons e t ih =>
    obtain ⟨k,c⟩ := e
    by_cases hk : k = key
    · simp [put,hk]
    · simp [put,hk,ih]

theorem keys_put (t : Entries κ α) (key : κ) (a : α) : (put t key a).map Prod.fst =
    if has t key then t.map Prod.fst else t.map Prod.fst ++ [key] := by
  induction t with
  | nil => simp [put,has]
  | cons e t ih =>
    obtain ⟨k,b⟩ := e
    by_cases h : k = key
    · simp [put,has,get?,h]
    · simp only [put,h,ite_false,List.map_cons,ih,has,get?]
      by_cases hk : (get? t key).isSome <;> simp [hk]

theorem put_of_not_mem {t : Entries κ α} {key : κ} (h : key ∉ t.map Prod.fst) (a : α) :
    put t key a = t ++ [(key,a)] := by
  induction t with
  | nil => rfl
  | cons e t ih =>
    obtain ⟨k,b⟩ := e
    simp only [List.map_cons,List.mem_cons,not_or] at h
    simp [put,Ne.symm h.1,ih h.2]

theorem mem_of_get? {t : Entries κ α} {key : κ} {a : α} (h : get? t key = some a) : (key,a) ∈ t := by
  induction t with
  | nil => simp at h
  | cons e t ih =>
    obtain ⟨k,b⟩ := e
    rw [get?] at h
    split at h
    · next hk =>
      obtain rfl := Option.some.inj h
      simp [hk]
    · exact List.mem_cons_of_mem _ (ih h)

private theorem get?_erase_of_ne (t : Entries κ α) {k key : κ} (h : k ≠ key) :
    get? (erase t k) key = get? t key := by
  induction t with
  | nil => rfl
  | cons e t ih =>
    obtain ⟨k',b⟩ := e
    by_cases hk : k' = k
    · subst hk
      simp [erase,get?,h]
    · simp only [erase,hk,ite_false,get?,ih]

theorem get?_eq_none {t : Entries κ α} {key : κ} : get? t key = none ↔ key ∉ t.map Prod.fst := by
  induction t with
  | nil => simp
  | cons e t ih =>
    obtain ⟨k,a⟩ := e
    by_cases hk : k = key
    · simp [get?,hk]
    · simp [get?,hk,ih,Ne.symm hk]

theorem has_iff {t : Entries κ α} {key : κ} : has t key = true ↔ key ∈ t.map Prod.fst := by
  rw [has,Option.isSome_iff_ne_none,Ne,get?_eq_none,Decidable.not_not]

theorem nodup_put {t : Entries κ α} (h : (t.map Prod.fst).Nodup) (key : κ) (a : α) :
    ((put t key a).map Prod.fst).Nodup := by
  rw [keys_put]
  split
  · exact h
  · next hh =>
    have hkey : key ∉ t.map Prod.fst := get?_eq_none.mp (by simpa [has] using hh)
    rw [List.nodup_append]
    refine ⟨h,by simp,?_⟩
    intro k hk k' hk'
    obtain rfl : k' = key := by simpa using hk'
    intro heq
    exact hkey (heq ▸ hk)

private theorem erase_sublist (t : Entries κ α) (key : κ) : (erase t key).Sublist t := by
  induction t with
  | nil => exact List.Sublist.slnil
  | cons e t ih =>
    obtain ⟨k,a⟩ := e
    by_cases hk : k = key
    · simp [erase,hk]
    · simpa [erase,hk] using ih

private theorem nodup_erase {t : Entries κ α} (h : (t.map Prod.fst).Nodup) (key : κ) :
    ((erase t key).map Prod.fst).Nodup :=
  List.Nodup.sublist ((erase_sublist t key).map Prod.fst) h

private theorem get?_erase_self {t : Entries κ α} (h : (t.map Prod.fst).Nodup) (key : κ) :
    get? (erase t key) key = none := by
  induction t with
  | nil => rfl
  | cons e t ih =>
    obtain ⟨k,a⟩ := e
    rw [List.map_cons,List.nodup_cons] at h
    by_cases hk : k = key
    · subst hk
      simp only [erase,ite_true]
      exact get?_eq_none.mpr h.1
    · simp [erase,get?,hk,ih h.2]

private theorem nodup_ofList (entries : List (κ × α)) : ((ofList entries).map Prod.fst).Nodup := by
  suffices h : ∀ t : Entries κ α, (t.map Prod.fst).Nodup →
      ((entries.foldl (fun t e => put t e.1 e.2) t).map Prod.fst).Nodup from h [] .nil
  induction entries with
  | nil => exact fun _ ht => ht
  | cons e entries ih => exact fun t ht => ih _ (nodup_put ht e.1 e.2)

end Entries

structure Table (κ α : Type) where
  entries : Entries κ α
  distinct : (entries.map Prod.fst).Nodup

namespace Table
variable {κ α : Type} [DecidableEq κ]

def empty : Table κ α := ⟨[],.nil⟩

def get? (t : Table κ α) (key : κ) : Option α := Entries.get? t.entries key

def put (t : Table κ α) (key : κ) (a : α) : Table κ α :=
  ⟨Entries.put t.entries key a,Entries.nodup_put t.distinct key a⟩

def erase (t : Table κ α) (key : κ) : Table κ α :=
  ⟨Entries.erase t.entries key,Entries.nodup_erase t.distinct key⟩

def ofList (entries : List (κ × α)) : Table κ α := ⟨Entries.ofList entries,Entries.nodup_ofList entries⟩

@[simp] theorem get?_empty (key : κ) : (empty : Table κ α).get? key = none := rfl

@[simp] theorem get?_put (t : Table κ α) (k key : κ) (a : α) :
    (t.put k a).get? key = if k = key then some a else t.get? key := Entries.get?_put t.entries k key a

@[simp] theorem get?_erase (t : Table κ α) (k key : κ) :
    (t.erase k).get? key = if k = key then none else t.get? key := by
  by_cases h : k = key
  · subst h
    rw [if_pos rfl]
    exact Entries.get?_erase_self t.distinct k
  · rw [if_neg h]
    exact Entries.get?_erase_of_ne t.entries h

theorem put_put (t : Table κ α) (key : κ) (a b : α) : (t.put key a).put key b = t.put key b := by
  simp only [put,Entries.put_put]

theorem ofList_concat (entries : List (κ × α)) (e : κ × α) :
    ofList (entries ++ [e]) = (ofList entries).put e.1 e.2 := by
  simp [ofList,put,Entries.ofList]

end Table
end SqlTemplate
