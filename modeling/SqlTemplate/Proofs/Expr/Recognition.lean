import SqlTemplate.Proofs.Expr.Printing
/-!
# The reader recognises its grammar

An expression is read from a text exactly when the grammar derives it from lexemes that the text spells, and a
tree that is written with parentheses where its levels ask for them is read back. A variable named `not` is
left out where a reading is promised, since a sign of that name is tried before it.
-/
namespace SqlTemplate.Expr
open Text

/-- Every layout of a derivation is read as the derived tree; so is every tree of the grammar in every layout of
the lexemes that it is written as; and whatever is read, the whole text derives. -/
theorem parse_recognises_grammar :
    (∀ (text : String) ts e, Derives (.binary .or) ts e → Layout ts text.toList → NotFree e → parse text = .ok e) ∧
    (∀ (text : String) ts e, Derives (.binary .or) ts e → Layout ts text.toList → NotFree e →
      ∃ style : Style, style.Writable e) ∧
    (∀ (style : Style) e, style.Writable e →
      Layout (style.lexemes e) (spaced (style.lexemes e)) ∧
      ∀ text : String, Layout (style.lexemes e) text.toList → parse text = .ok e) ∧
    (∀ (text : String) e, parse text = .ok e → ∃ ts, Derives (.binary .or) ts e ∧ Layout ts text.toList) := by
  refine ⟨?_,?_,?_,?_⟩
  · intro text ts e hts htext hnot
    exact parse_of_derives hts htext hnot
  · intro text ts e hts htext hnot
    exact ⟨Style.complete,writable_of_derives hts htext.wellFormed hnot⟩
  · intro style e he
    have hts : Derives (.binary .or) (style.lexemes e) e := (Style.derives_lexemes he).loosen (Nat.zero_le _)
    refine ⟨layout_spaced (Style.wellFormed_lexemes he),fun text htext => ?_⟩
    exact parse_of_derives hts htext (Style.notFree_of_writable he)
  · intro text e h
    exact derives_of_parse h

def difference : Expr :=
  .binary (.binary (.binary (.variable "a") (.arithmetic .sub) (.variable "b")) (.arithmetic .sub)
    (.literal (.int 1))) .or (.not (.variable "y"))

def differenceLexemes : List Lexeme :=
  [.name ['a'],.mark minus,.name ['b'],.mark minus,.digits ['1'],.mark (.word ['o','r']),
    .mark (.word ['n','o','t']),.mark opening,.name ['y'],.mark closing]

private theorem derives_difference : Derives (.binary .or) differenceLexemes difference := by
  have hname (c : Char) (name : String) (hc : String.ofList [c] = name) :
      Derives .primary [.name [c]] (.variable name) := by
    rw [← hc]
    exact .identifier (by simp [wordLiterals])
  have hminus {ls rs : List Lexeme} {lhs rhs : Expr} (hl : Derives (.binary .additive) ls lhs)
      (hr : Derives (.binary .multiplicative) rs rhs) :
      Derives (.binary .additive) (ls ++ .mark minus :: rs) (.binary lhs (.arithmetic .sub) rhs) :=
    .binary rfl (by decide) hl hr
  have hfits : Nat.ofDigitChars 10 ['1'] 0 < Nat.pow 2 63 := by decide
  have hone : Derives .primary [.digits ['1']] (.literal (.int 1)) := .integer hfits
  have hleft := hminus (hminus ((hname 'a' "a" rfl).loosen (by decide)) ((hname 'b' "b" rfl).loosen (by decide)))
    (hone.loosen (by decide))
  have hy : Derives (.binary .or) [.name ['y']] (.variable "y") := (hname 'y' "y" rfl).loosen (by decide)
  have hright : Derives .unary [.mark (.word ['n','o','t']),.mark opening,.name ['y'],.mark closing]
      (.not (.variable "y")) := .not (by decide) ((Derives.parenthesised hy).loosen (by decide))
  have hor : Token.word ['o','r'] ∈ BinaryOp.or.spellings := by decide
  exact .binary rfl hor (hleft.loosen (by decide)) (hright.loosen (by decide))

private theorem layout_difference : Layout differenceLexemes "a-b-1 or not(y)".toList := by
  have hspace {ls : List Lexeme} {cs : List Char} (h : Layout ls cs) : Layout ls (' ' :: cs) := by
    have hgap : ∀ c ∈ [' '], isSpace c = true := List.forall_mem_singleton.mpr rfl
    exact h.gap_append hgap
  refine .lexeme (l := .name ['a']) (by decide) (fun _ => rfl) ?_
  refine .lexeme (l := .mark minus) rfl (fun h => nomatch h) ?_
  refine .lexeme (l := .name ['b']) (by decide) (fun _ => rfl) ?_
  refine .lexeme (l := .mark minus) rfl (fun h => nomatch h) ?_
  refine .lexeme (l := .digits ['1']) (by decide) (fun h => nomatch h) (hspace ?_)
  refine .lexeme (l := .mark (.word ['o','r'])) rfl (fun _ => rfl) (hspace ?_)
  refine .lexeme (l := .mark (.word ['n','o','t'])) rfl (fun _ => rfl) ?_
  refine .lexeme (l := .mark opening) rfl (fun h => nomatch h) ?_
  refine .lexeme (l := .name ['y']) (by decide) (fun _ => rfl) ?_
  exact .lexeme (l := .mark closing) rfl (fun h => nomatch h) (.nil (by simp))

theorem parse_recognises_grammar_difference :
    Derives (.binary .or) differenceLexemes difference ∧ Layout differenceLexemes "a-b-1 or not(y)".toList ∧
    NotFree difference ∧ parse "a-b-1 or not(y)" = .ok difference ∧
    (∃ style : Style, style.Writable difference ∧
      parse (String.ofList (spaced (style.lexemes difference))) = .ok difference) ∧
    ∃ ts, Derives (.binary .or) ts difference ∧ Layout ts "a-b-1 or not(y)".toList := by
  obtain ⟨hparse,hwritable,hwritten,hderives⟩ := parse_recognises_grammar
  have hnot : NotFree difference := by simp [difference,NotFree]
  have hread := hparse _ _ _ derives_difference layout_difference hnot
  obtain ⟨style,hstyle⟩ := hwritable _ _ _ derives_difference layout_difference hnot
  obtain ⟨hlayout,hback⟩ := hwritten style difference hstyle
  refine ⟨derives_difference,layout_difference,hnot,hread,⟨style,hstyle,hback _ ?_⟩,hderives _ _ hread⟩
  rwa [String.toList_ofList]

end SqlTemplate.Expr
