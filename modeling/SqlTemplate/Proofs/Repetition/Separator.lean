import SqlTemplate.Context
import SqlTemplate.Proofs.Node.Actions
/-!
# Separators

A separator stands in front of the first chunk of an iteration that is not blank, exactly when an earlier iteration has
written such a chunk. So there is one separator less than there are iterations that write something other than blanks,
and each stands between two of them.
-/
namespace SqlTemplate
open Text

namespace Repetition

def writes (chunks : List (List Char)) : Bool := chunks.any (!allBlank ·)

/-- The chunks of an iteration with their separator, which `none` stands for. -/
def separated (started : Bool) (chunks : List (List Char)) : List (Option (List Char)) :=
  if started && writes chunks then
    (chunks.takeWhile allBlank).map some ++ none :: (chunks.dropWhile allBlank).map some
  else chunks.map some

/-- The chunks of iterations with their separators; `started` says that something was written before them. -/
def joined (started : Bool) (iterations : List (List (List Char))) : List (Option (List Char)) :=
  (iterations.mapIdx fun i chunks => separated (started || (iterations.take i).any writes) chunks).flatten

/-- The renamed chunks of each iteration from a position on, up to the first iteration that fails. -/
def iterationChunks (r : Repetition) (body : Environment → Rendered) :
    List Entry → Nat → Environment → List (List (List Char))
  | [], _, _ => []
  | e :: es, position, env =>
    let rendered := body (r.enter position e env)
    rendered.chunks.map (r.renameMarkers env.counter) :: match rendered.outcome with
      | .error _ => []
      | .ok _ => r.iterationChunks body es (position+1) rendered.env

private theorem exists_of_writes {chunks : List (List Char)} (h : writes chunks = true) :
    ∃ chunk rest, chunks.dropWhile allBlank = chunk :: rest ∧ allBlank chunk = false := by
  induction chunks with
  | nil => contradiction
  | cons chunk chunks ih =>
    cases hb : allBlank chunk with
    | false => exact ⟨chunk,chunks,by simp [hb],hb⟩
    | true =>
      rw [List.dropWhile_cons_of_pos hb]
      apply ih
      simpa [writes,hb] using h

private theorem separate_eq (separator : List Char) (chunks : List (List Char)) : separate separator chunks =
    if writes chunks then chunks.takeWhile allBlank ++ separator :: chunks.dropWhile allBlank else chunks := by
  induction chunks with
  | nil => rfl
  | cons chunk chunks ih =>
    cases hb : allBlank chunk with
    | false => simp [separate,writes,hb]
    | true =>
      have hw : writes (chunk :: chunks) = writes chunks := by simp [writes,hb]
      rw [separate,if_pos hb,ih,hw,List.takeWhile_cons_of_pos hb,List.dropWhile_cons_of_pos hb]
      cases writes chunks <;> rfl

private theorem place_eq {r : Repetition} {s : String} (hs : r.separator = some s) (started : Bool)
    (chunks : List (List Char)) :
    r.place started chunks = (separated started chunks).map (·.getD s.toList) := by
  have hkeep (chunks : List (List Char)) : (chunks.map some).map (·.getD s.toList) = chunks := by
    rw [List.map_map]
    exact List.map_id' chunks
  cases started with
  | false => exact (hkeep chunks).symm
  | true =>
    change (r.separator.elim chunks fun s => separate s.toList chunks) = _
    rw [hs,Option.elim_some,separate_eq,separated,Bool.true_and]
    split
    · rw [List.map_append,List.map_cons,hkeep,hkeep]
      rfl
    · exact (hkeep chunks).symm

private theorem joined_cons (started : Bool) (chunks : List (List Char)) (iterations : List (List (List Char))) :
    joined started (chunks :: iterations) =
      separated started chunks ++ joined (started || writes chunks) iterations := by
  simp [joined,List.mapIdx_cons,Bool.or_assoc]

/-- What the iterations write, one after the other, is their chunks with the separators among them. -/
theorem chunks_iterate {r : Repetition} {s : String} (hs : r.separator = some s) (body : Environment → Rendered)
    (entries : List Entry) (position : Nat) (started : Bool) (env : Environment) :
    (r.iterate body entries position started env).chunks =
      (joined started (r.iterationChunks body entries position env)).map (·.getD s.toList) := by
  induction entries generalizing position started env with
  | nil => rfl
  | cons e es ih =>
    let rendered := body (r.enter position e env)
    let chunks := rendered.chunks.map (r.renameMarkers env.counter)
    have hplace := place_eq hs started chunks
    cases ho : rendered.outcome with
    | error failure =>
      -- what the iteration wrote before it failed stays, with its separator, and it is the last one
      have hiterate : (r.iterate body (e :: es) position started env).chunks = r.place started chunks := by
        simp only [iterate,Rendered.andThen,Rendered.mapChunks]
        rw [ho]
      have hchunks : r.iterationChunks body (e :: es) position env = [chunks] := by
        simp only [iterationChunks]
        rw [ho]
      rw [hiterate,hchunks,joined_cons,hplace]
      simp [joined]
    | ok produced =>
      have hiterate : (r.iterate body (e :: es) position started env).chunks = r.place started chunks ++
          (r.iterate body es (position+1) (started || writes chunks) rendered.env).chunks := by
        simp only [iterate,Rendered.andThen,Rendered.mapChunks]
        rw [ho]
        rfl
      have hchunks : r.iterationChunks body (e :: es) position env =
          chunks :: r.iterationChunks body es (position+1) rendered.env := by
        simp only [iterationChunks]
        rw [ho]
      rw [hiterate,hchunks,joined_cons,hplace,ih,List.map_append]

private theorem length_iterationChunks {r : Repetition} {body : Environment → Rendered} {entries : List Entry}
    {position : Nat} {started : Bool} {env : Environment} {produced : Bool}
    (h : (r.iterate body entries position started env).outcome = .ok produced) :
    (r.iterationChunks body entries position env).length = entries.length := by
  induction entries generalizing position started env with
  | nil => rfl
  | cons e es ih =>
    obtain ⟨⟨first,hfirst⟩,hrest⟩ := Rendered.andThen_ok h
    have hrendered : (body (r.enter position e env)).outcome = .ok first := hfirst
    simp only [iterationChunks]
    rw [hrendered,List.length_cons,List.length_cons]
    exact congrArg (·+1) (ih hrest)

private theorem filterMap_separated (started : Bool) (chunks : List (List Char)) :
    (separated started chunks).filterMap id = chunks := by
  unfold separated
  split
  · simp [List.filterMap_append,List.filterMap_map]
  · simp [List.filterMap_map]

private theorem filterMap_joined (started : Bool) (iterations : List (List (List Char))) :
    (joined started iterations).filterMap id = iterations.flatten := by
  induction iterations generalizing started with
  | nil => rfl
  | cons chunks iterations ih => rw [joined_cons,List.filterMap_append,filterMap_separated,ih,List.flatten_cons]

private theorem countP_separated (started : Bool) (chunks : List (List Char)) :
    (separated started chunks).countP Option.isNone = if started && writes chunks then 1 else 0 := by
  have hnone (chunks : List (List Char)) : (chunks.map some).countP Option.isNone = 0 := by
    simp [List.countP_eq_zero]
  unfold separated
  split
  · rw [List.countP_append,List.countP_cons,hnone,hnone]
    rfl
  · exact hnone chunks

private theorem countP_joined (started : Bool) (iterations : List (List (List Char))) :
    (joined started iterations).countP Option.isNone =
      iterations.countP writes-(if started then 0 else 1) := by
  induction iterations generalizing started with
  | nil => simp [joined]
  | cons chunks iterations ih =>
    rw [joined_cons,List.countP_append,countP_separated,ih,List.countP_cons]
    cases started <;> cases writes chunks <;> simp
    omega

private theorem append_split {α : Type} {xs ys before after : List α} {a : α} (h : xs ++ ys = before ++ a :: after) :
    (∃ m, before = xs ++ m ∧ ys = m ++ a :: after) ∨ ∃ m, xs = before ++ a :: m ∧ after = m ++ ys := by
  rcases List.append_eq_append_iff.mp h with ⟨m,hbefore,hys⟩ | ⟨m,hxs,hafter⟩
  · exact .inl ⟨m,hbefore,hys⟩
  · cases m with
    | nil => exact .inl ⟨[],by simpa using hxs.symm,by simpa using hafter.symm⟩
    | cons b m =>
      obtain ⟨rfl,hrest⟩ := List.cons.inj hafter
      exact .inr ⟨m,hxs,hrest⟩

private theorem separated_split {started : Bool} {chunks : List (List Char)} {before after : List (Option (List Char))}
    (h : separated started chunks = before ++ none :: after) :
    started = true ∧ ∃ chunk rest, after = some chunk :: rest ∧ allBlank chunk = false := by
  have hsome {chunks : List (List Char)} {before after : List (Option (List Char))}
      (h : chunks.map some = before ++ none :: after) : False := by
    have hmem : none ∈ chunks.map some := by simp [h]
    simp at hmem
  unfold separated at h
  split at h
  · next hboth =>
    rw [Bool.and_eq_true] at hboth
    obtain ⟨chunk,rest,hdrop,hb⟩ := exists_of_writes hboth.2
    rcases append_split h with ⟨m,-,hm⟩ | ⟨m,hm,-⟩
    · cases m with
      | nil =>
        refine ⟨hboth.1,chunk,rest.map some,?_,hb⟩
        rw [← (List.cons.inj hm).2,hdrop,List.map_cons]
      | cons x xs => exact (hsome (List.cons.inj hm).2).elim
    · exact (hsome hm).elim
  · exact (hsome h).elim

private theorem joined_split {started : Bool} {iterations : List (List (List Char))}
    {before after : List (Option (List Char))} (h : joined started iterations = before ++ none :: after) :
    (started = true ∨ writes (before.filterMap id) = true) ∧
      ∃ chunk rest, after = some chunk :: rest ∧ allBlank chunk = false := by
  induction iterations generalizing started before with
  | nil => simp [joined] at h
  | cons chunks iterations ih =>
    rw [joined_cons] at h
    rcases append_split h with ⟨m,hbefore,hrest⟩ | ⟨m,hfirst,hafter⟩
    · obtain ⟨hearlier,hfollows⟩ := ih hrest
      have hwrites : writes (before.filterMap id) = (writes chunks || writes (m.filterMap id)) := by
        rw [hbefore,List.filterMap_append,filterMap_separated,writes,List.any_append]
        rfl
      rw [Bool.or_eq_true,or_assoc] at hearlier
      rw [hwrites,Bool.or_eq_true]
      exact ⟨hearlier,hfollows⟩
    · obtain ⟨hstarted,chunk,rest,hm,hb⟩ := separated_split hfirst
      refine ⟨.inl hstarted,chunk,rest ++ joined (started || writes chunks) iterations,?_,hb⟩
      rw [hafter,hm,List.cons_append]

private theorem chunks_renderEntries {r : Repetition} {body : Environment → Rendered} {entries : List Entry}
    {env : Environment} {produced : Bool} (hne : entries ≠ [])
    (h : (r.renderEntries body entries env).outcome = .ok produced) :
    (∃ looped, (r.iterate body entries 0 false env).outcome = .ok looped) ∧
      (r.renderEntries body entries env).chunks = r.opening.toList.map String.toList ++
        (r.iterate body entries 0 false env).chunks ++ r.closing.toList.map String.toList := by
  have hempty : ¬entries.isEmpty = true := by simpa using hne
  rw [renderEntries,if_neg hempty] at h ⊢
  obtain ⟨⟨looped,hlooped⟩,-⟩ := Rendered.andThen_ok h
  rw [Rendered.outcome_write?_andThen] at hlooped
  refine ⟨⟨looped,hlooped⟩,?_⟩
  rw [Rendered.andThen_assoc,Rendered.chunks_write?_andThen,Rendered.chunks_andThen hlooped,
    Rendered.chunks_write?_andThen,List.append_assoc]
  simp [Rendered.done]

end Repetition

/-- What a repetition with a separator appends, when it succeeds. Over no elements that is nothing, and the context
stays as it is. Over some it is the opening text, the chunks of all iterations in their order with separators among
them, and the closing text. An iteration has a separator exactly when it writes something other than blanks and an
earlier one has, in front of its first chunk that is not blank. So there is one separator less than there are such
iterations, and each stands behind a chunk that is not blank and right in front of another. -/
theorem Context.apply_repetition_separators (c : Configuration) {r : Repetition} {s : String}
    (hs : r.separator = some s) (body : Node) (context : Context) {produced : Bool}
    (h : (context.apply c (.repetition r body)).2 = .ok produced) :
    ∃ entries, c.evaluator.collect r.collection context.bindings = .ok entries ∧
      (entries = [] → context.apply c (.repetition r body) = (context,.ok true) ∧
        ((Node.repetition r body).render c context.env).chunks = []) ∧
      (entries ≠ [] →
        let iterations := r.iterationChunks (body.render c) entries 0 context.env
        let sequence := Repetition.joined false iterations
        let chunks := r.opening.toList.map String.toList ++ sequence.map (·.getD s.toList) ++
          r.closing.toList.map String.toList
        iterations.length = entries.length ∧
          ((Node.repetition r body).render c context.env).chunks = chunks ∧
          (context.apply c (.repetition r body)).1.written = context.written ++ chunks.flatten ∧
          sequence.filterMap id = iterations.flatten ∧
          sequence.countP Option.isNone = iterations.countP Repetition.writes-1 ∧
          ∀ before after, sequence = before ++ none :: after → Repetition.writes (before.filterMap id) = true ∧
            ∃ chunk rest, after = some chunk :: rest ∧ allBlank chunk = false) := by
  cases hc : c.evaluator.collect r.collection context.env.bindings with
  | error e =>
    have hfailed : ((Node.repetition r body).render c context.env).outcome =
        .error (.expression r.collection e) := by
      rw [Node.render,Node.renderRepetition,hc]
      rfl
    have hok : ((Node.repetition r body).render c context.env).outcome = .ok produced := h
    rw [hfailed] at hok
    contradiction
  | ok entries =>
    have hrender : (Node.repetition r body).render c context.env =
        r.renderEntries (body.render c) entries context.env := by
      rw [Node.render,Node.renderRepetition,hc]
    refine ⟨entries,hc,?_,?_⟩
    · intro hempty
      rw [Context.apply,hrender,hempty]
      simp [Repetition.renderEntries,Rendered.done,Rendered.text]
    · intro hne iterations sequence chunks
      have hok : (r.renderEntries (body.render c) entries context.env).outcome = .ok produced := by
        rw [← hrender]
        exact h
      obtain ⟨⟨looped,hlooped⟩,hchunks⟩ := Repetition.chunks_renderEntries hne hok
      rw [Repetition.chunks_iterate hs,← hrender] at hchunks
      refine ⟨Repetition.length_iterationChunks hlooped,hchunks,?_,?_,?_,?_⟩
      · rw [Context.apply,Rendered.text,hchunks]
      · exact Repetition.filterMap_joined false iterations
      · exact Repetition.countP_joined false iterations
      · intro before after hsplit
        obtain ⟨hearlier,hfollows⟩ := Repetition.joined_split hsplit
        exact ⟨by simpa using hearlier,hfollows⟩

theorem Context.apply_repetition_separators_blank :
    let r : Repetition := ⟨"ids",some "x",none,some "(",some ")",some ","⟩
    let body := Node.sequence [.text " ",.conditional "x > 1" (.text "#\x7bx\x7d")]
    let argument : Value := .map [("ids",.list [.int 1,.int 2,.int 0,.int 3])]
    let context := Context.ofArgument argument none
    (context.apply .standard (.repetition r body)).2 = .ok true ∧
      ((Node.repetition r body).render .standard context.env).chunks = List.map String.toList
        ["("," "," ","#\x7b__frch_x_1\x7d"," "," ",",","#\x7b__frch_x_3\x7d",")"] := by
  intro r body argument context
  have hok : (context.apply .standard (.repetition r body)).2 = .ok true := toOption_eq_some.mp (by decide +kernel)
  refine ⟨hok,?_⟩
  obtain ⟨entries,hcollect,-,hsome⟩ := apply_repetition_separators .standard rfl body context hok
  let found := (Configuration.standard.evaluator.collect r.collection context.bindings).toOption.getD []
  obtain rfl : found = entries := by
    change (Except.toOption _).getD [] = entries
    rw [hcollect]
    rfl
  have hfound : found ≠ [] := by
    have hlength : found.length = 4 := by decide +kernel
    intro hempty
    rw [hempty] at hlength
    contradiction
  obtain ⟨-,hchunks,-⟩ := hsome hfound
  have hjoined : Repetition.joined false (r.iterationChunks (body.render .standard) found 0 context.env) =
      [some [' '],some [' '],some "#\x7b__frch_x_1\x7d".toList,some [' '],some [' '],none,
        some "#\x7b__frch_x_3\x7d".toList] := by decide +kernel
  rw [hchunks,hjoined]
  rfl

end SqlTemplate
