import SqlTemplate.Proofs.Expr.Boundary
/-!
# What is derived is read

Where lexemes that derive an expression stand at the front of a text, the reader of the level finds that
expression and stops behind them. A reader of a level that goes on by itself is followed up to the point where
the derivation ends, before it looks at what comes next.
-/
namespace SqlTemplate.Expr
open Text

/-- The reader of a level has come to an expression and a rest, and may go on from there on its level. -/
def Reaches (expr : Parser) : Level → List Char → Expr → List Char → Prop
  | .binary r, cs, e, rest => ∃ fuel, rest.length ≤ fuel ∧ parserAt expr (.binary r) cs =
      chainFrom (parserAt expr r.operand) r.operators fuel e rest
  | .unary, cs, e, rest => ∀ fuel, cs.length ≤ fuel → signed (operand expr) fuel cs = .ok (e,rest)
  | .access, cs, e, rest => ∃ fuel, rest.length ≤ fuel ∧ operand expr cs = .ok (membersFrom expr fuel e rest)
  | .primary, cs, e, rest => atom expr (skip cs) = .ok (e,rest)

theorem member?_eq_none {cs : List Char} (h : symbol? '.' cs = none) : member? cs = none := by
  rw [member?,h]
  rfl

theorem emptyCall?_eq_none {cs : List Char} (h : symbol? '(' cs = none) : emptyCall? cs = none := by
  rw [emptyCall?,h]
  rfl

theorem membersFrom_stop {expr : Parser} {cs : List Char} (hdot : symbol? '.' cs = none)
    (hkey : symbol? '[' cs = none) (fuel : Nat) (e : Expr) : membersFrom expr fuel e cs = (e,cs) := by
  cases fuel with
  | zero => rfl
  | succ fuel => simp [membersFrom,member?_eq_none hdot,key?,hkey]

theorem chainFrom_stop {p : Parser} {operators : List (Token × BinaryOp)} {cs : List Char}
    (h : token? operators cs = none) (fuel : Nat) (e : Expr) : chainFrom p operators fuel e cs = .ok (e,cs) := by
  cases fuel with
  | zero => rfl
  | succ fuel => rw [chainFrom,h]

theorem signed_of_no_sign {p : Parser} {cs : List Char} (h : token? signs cs = none) (fuel : Nat) :
    signed p fuel cs = p cs := by
  cases fuel with
  | zero => rfl
  | succ fuel => rw [signed,h]

private theorem Reaches.parserAt_eq {expr : Parser} {level : Level} {cs rest : List Char} {e : Expr}
    (h : Reaches expr level cs e rest) {us : List Lexeme} (hrest : Layout us rest) (hus : Follows level us) :
    parserAt expr level cs = .ok (e,rest) := by
  cases level with
  | binary r =>
    obtain ⟨fuel,_,hread⟩ := h
    rw [hread]
    exact chainFrom_stop (hus.token?_eq_none hrest) fuel e
  | unary => exact h cs.length (Nat.le_refl _)
  | access =>
    obtain ⟨fuel,_,hread⟩ := h
    have hhead : ∀ l ∈ us.head?, ∀ c ∈ l.text.head?, c ≠ '.' ∧ c ≠ '[' :=
      fun l hl c hc => (hus.head l hl c hc).2 (by decide)
    have hdot := symbol?_eq_none (by decide) hrest fun l hl c hc => (hhead l hl c hc).1
    have hkey := symbol?_eq_none (by decide) hrest fun l hl c hc => (hhead l hl c hc).2
    rw [parserAt,hread,membersFrom_stop hdot hkey]
  | primary => exact h

/-- Wherever the lexemes stand in front of what may follow them, the reader of the level comes to the
expression and stands behind them. -/
def Accepted (depth : Nat) (level : Level) (ts : List Lexeme) (e : Expr) : Prop :=
  ∀ us cs, Layout (ts ++ us) cs → cs.length ≤ depth → Follows level.inner us →
    ∃ rest, Reaches (expression depth) level cs e rest ∧ Layout us rest ∧ rest.length < cs.length

section accepted
variable {depth : Nat} {ts us : List Lexeme} {e : Expr} {cs : List Char}

private theorem Accepted.parserAt_eq {level : Level} (h : Accepted depth level ts e) (hcs : Layout (ts ++ us) cs)
    (hdepth : cs.length ≤ depth) (hus : Follows level us) : ∃ rest,
    parserAt (expression depth) level cs = .ok (e,rest) ∧ Layout us rest ∧ rest.length < cs.length := by
  obtain ⟨rest,hreach,hrest,hlength⟩ := h us cs hcs hdepth hus.inner
  exact ⟨rest,hreach.parserAt_eq hrest hus,hrest,hlength⟩

private theorem expression_of_accepted (h : ∀ depth, Accepted depth (.binary .or) ts e) (hcs : Layout (ts ++ us) cs)
    (hdepth : cs.length < depth) (hus : Follows (.binary .or) us) : ∃ rest,
    expression depth cs = .ok (e,rest) ∧ Layout us rest ∧ rest.length < cs.length := by
  obtain ⟨d,rfl⟩ : ∃ d, depth = d+1 := ⟨depth-1,by omega⟩
  exact (h d).parserAt_eq hcs (by omega) hus

private theorem accepted_operand {r : Rank} (h : Accepted depth r.operand ts e) : Accepted depth (.binary r) ts e := by
  intro us cs hcs hdepth hus
  obtain ⟨rest,hread,hrest,hlength⟩ := h.parserAt_eq hcs hdepth hus
  refine ⟨rest,⟨rest.length,Nat.le_refl _,?_⟩,hrest,hlength⟩
  rw [parserAt_binary,chain,hread]

theorem inner_operand_height (r : Rank) : r.height < (Level.binary r).inner.height := by
  cases r <;> decide

private theorem accepted_binary {r : Rank} {op : BinaryOp} {t : Token} {rs : List Lexeme} {lhs rhs : Expr}
    (hop : op.rank = r) (ht : t ∈ op.spellings) (hl : Accepted depth (.binary r) ts lhs)
    (hr : Accepted depth r.operand rs rhs) (hbegins : ∃ l us, rs = l :: us ∧ l.beginsOperand = true) :
    Accepted depth (.binary r) (ts ++ .mark t :: rs) (.binary lhs op rhs) := by
  intro us cs hcs hdepth hus
  subst hop
  rw [List.append_assoc] at hcs
  have hfollows : Follows (Level.binary op.rank).inner (.mark t :: (rs ++ us)) :=
    .operator (inner_operand_height op.rank) ht
  obtain ⟨mid,⟨fuel,hfuel,hread⟩,hmid,hmidlength⟩ := hl _ cs hcs hdepth hfollows
  obtain ⟨more,hskip,hw,hend,hmore,hmorelength⟩ := Layout.skip_cons hmid
  obtain ⟨l,vs,rfl,hbegins⟩ := hbegins
  have htoken : token? op.rank.operators mid = some (op,skip more) :=
    token?_of_mem op.rank.operators_wellFormed op.rank.operators_pairwise
      (Rank.mem_operators_of_spelled ht) hskip hend (Layout.head_ne_equals hmore hbegins)
  have hskiplength := length_skip_le more
  obtain ⟨rest,hrhs,hrest,hlength⟩ := hr.parserAt_eq hmore.skip (by omega) hus
  obtain ⟨fuel,rfl⟩ : ∃ n, fuel = n+1 := ⟨fuel-1,by omega⟩
  refine ⟨rest,⟨fuel,by omega,?_⟩,hrest,by omega⟩
  rw [hread,chainFrom,htoken]
  simp only [hrhs]

theorem signs_pairwise : signs.Pairwise fun p q => p.1.yields q.1 = true := by
  simp only [signs,List.pairwise_cons,List.forall_mem_cons]
  decide

private theorem accepted_sign {t : Token} {sign : Expr → Expr} (ht : (t,sign) ∈ signs) (h : Accepted depth .unary ts e)
    (hbegins : ∃ l us, ts = l :: us ∧ l.beginsOperand = true) :
    Accepted depth .unary (.mark t :: ts) (sign e) := by
  intro us cs hcs hdepth hus
  obtain ⟨more,hskip,hw,hend,hmore,hmorelength⟩ := Layout.skip_cons hcs
  obtain ⟨l,vs,rfl,hbegins⟩ := hbegins
  have htoken : token? signs cs = some (sign,skip more) :=
    token?_of_mem signs_wellFormed signs_pairwise ht hskip hend (Layout.head_ne_equals hmore hbegins)
  have hskiplength := length_skip_le more
  obtain ⟨rest,hread,hrest,hlength⟩ := h us (skip more) hmore.skip (by omega) hus
  refine ⟨rest,fun fuel hfuel => ?_,hrest,by omega⟩
  obtain ⟨fuel,rfl⟩ : ∃ n, fuel = n+1 := ⟨fuel-1,by omega⟩
  rw [signed,htoken]
  simp only [hread fuel (by omega)]

private theorem accepted_access (h : Accepted depth .access ts e)
    (hbegins : ∃ l us, ts = l :: us ∧ l.beginsAtom = true) :
    Accepted depth .unary ts e := by
  intro us cs hcs hdepth hus
  have hfollows : Follows .access us := hus.mono (Nat.le_refl _) fun h => nomatch h
  obtain ⟨rest,hread,hrest,hlength⟩ := h.parserAt_eq hcs hdepth hfollows
  obtain ⟨l,vs,rfl,hbegins⟩ := hbegins
  have hsigns : token? signs cs = none := token?_signs_of_beginsAtom hcs hbegins
  refine ⟨rest,fun fuel _ => ?_,hrest,hlength⟩
  rw [signed_of_no_sign hsigns]
  exact hread

private theorem accepted_primary (h : Accepted depth .primary ts e) : Accepted depth .access ts e := by
  intro us cs hcs hdepth hus
  obtain ⟨rest,hread,hrest,hlength⟩ := h us cs hcs hdepth hus
  have hskiplength := length_skip_le rest
  refine ⟨skip rest,⟨rest.length,hskiplength,?_⟩,hrest.skip,by omega⟩
  have hatom : atom (expression depth) (skip cs) = .ok (e,rest) := hread
  rw [operand,hatom]

private theorem member?_lexemes {name : List Char} (h : Layout (.mark dot :: .name name :: us) cs) : ∃ rest,
    member? cs = some (String.ofList name,rest) ∧ Layout us rest ∧ rest.length < cs.length := by
  obtain ⟨more,hdot,hmore,hmorelength⟩ := symbol?_mark h
  obtain ⟨rest,hname,hrest,hlength⟩ := name?_lexeme hmore
  rw [skip_skip] at hname
  exact ⟨rest,by rw [member?,hdot,Option.bind_some,hname],hrest,by omega⟩

private theorem accepted_property {name : List Char} (h : Accepted depth .access ts e) :
    Accepted depth .access (ts ++ [.mark dot,.name name]) (.property e (String.ofList name)) := by
  intro us cs hcs hdepth hus
  rw [List.append_assoc] at hcs
  obtain ⟨mid,⟨fuel,hfuel,hread⟩,hmid,hmidlength⟩ := h _ cs hcs hdepth .member
  obtain ⟨rest,hmember,hrest,hlength⟩ := member?_lexemes hmid
  have hcall : emptyCall? rest = none :=
    emptyCall?_eq_none (symbol?_eq_none (by decide) hrest fun l hl c hc => (hus.head l hl c hc).1.1)
  obtain ⟨fuel,rfl⟩ : ∃ n, fuel = n+1 := ⟨fuel-1,by omega⟩
  refine ⟨rest,⟨fuel,by omega,?_⟩,hrest,by omega⟩
  rw [hread,membersFrom,hmember]
  simp only [hcall]

private theorem accepted_call {name : List Char} (h : Accepted depth .access ts e) :
    Accepted depth .access (ts ++ [.mark dot,.name name,.mark opening,.mark closing])
      (.call e (String.ofList name)) := by
  intro us cs hcs hdepth _
  rw [List.append_assoc] at hcs
  obtain ⟨mid,⟨fuel,hfuel,hread⟩,hmid,hmidlength⟩ := h _ cs hcs hdepth .member
  obtain ⟨after,hmember,hafter,hafterlength⟩ := member?_lexemes hmid
  obtain ⟨inside,hopen,hinside,hinsidelength⟩ := symbol?_mark hafter
  obtain ⟨rest,hclose,hrest,hlength⟩ := symbol?_mark hinside
  have hcall : emptyCall? after = some (skip rest) := by rw [emptyCall?,hopen,Option.bind_some,hclose]
  obtain ⟨fuel,rfl⟩ : ∃ n, fuel = n+1 := ⟨fuel-1,by omega⟩
  refine ⟨skip rest,⟨fuel,by omega,?_⟩,hrest,by omega⟩
  rw [hread,membersFrom,hmember]
  simp only [hcall]

private theorem accepted_index {ks : List Lexeme} {key : Expr} (h : Accepted depth .access ts e)
    (hkey : ∀ depth, Accepted depth (.binary .or) ks key) :
    Accepted depth .access (ts ++ .mark openingKey :: (ks ++ [.mark closingKey])) (.index e key) := by
  intro us cs hcs hdepth _
  have hcs' : Layout (ts ++ .mark openingKey :: (ks ++ .mark closingKey :: us)) cs := by simpa using hcs
  obtain ⟨mid,⟨fuel,hfuel,hread⟩,hmid,hmidlength⟩ := h _ cs hcs' hdepth .key
  obtain ⟨inside,hopen,hinside,hinsidelength⟩ := symbol?_mark hmid
  have hnested : (skip inside).length < depth := by omega
  obtain ⟨after,hexpr,hafter,hafterlength⟩ :=
    expression_of_accepted hkey hinside hnested (.closer (by decide))
  obtain ⟨rest,hclose,hrest,hlength⟩ := symbol?_mark hafter
  have hmember : member? mid = none :=
    member?_eq_none (symbol?_eq_none (by decide) hmid (by simp [Lexeme.text,openingKey,Token.text]))
  have hkey' : key? (expression depth) mid = some (key,skip rest) := by
    rw [key?,hopen]
    simp only [hexpr,hclose,Option.map_some]
  obtain ⟨fuel,rfl⟩ : ∃ n, fuel = n+1 := ⟨fuel-1,by omega⟩
  refine ⟨skip rest,⟨fuel,by omega,?_⟩,hrest,by omega⟩
  rw [hread,membersFrom,hmember]
  simp only [hkey']

private theorem accepted_parenthesised (h : ∀ depth, Accepted depth (.binary .or) ts e) :
    Accepted depth .primary (.mark opening :: (ts ++ [.mark closing])) e := by
  intro us cs hcs hdepth _
  have hcs' : Layout (.mark opening :: (ts ++ .mark closing :: us)) (skip cs) := by simpa using hcs.skip
  have hskiplength := length_skip_le cs
  obtain ⟨inside,hopen,hinside,hinsidelength⟩ := symbol?_mark hcs'
  have hnested : (skip inside).length < depth := by omega
  obtain ⟨after,hexpr,hafter,hafterlength⟩ := expression_of_accepted h hinside hnested (.closer (by decide))
  obtain ⟨rest,hclose,hrest,hlength⟩ := symbol?_mark hafter
  refine ⟨skip rest,?_,hrest,by omega⟩
  change atom (expression depth) (skip cs) = _
  rw [atom,hopen]
  simp only [hexpr,hclose]

end accepted

section atoms
variable {expr : Parser} {depth : Nat} {us : List Lexeme} {cs more : List Char}

theorem number?_digits {ds : List Char} (hds : IsDigits ds) (hmore : ∀ c ∈ more.head?, c.isDigit = false)
    (hpoint : ∀ rest, more = '.' :: rest → ∀ c ∈ rest.head?, c.isDigit = false) :
    number? (ds ++ more) = some (integerAt (ds ++ more) ds more) := by
  obtain ⟨htake,hdrop⟩ := span_append hds.2 hmore
  simp only [number?,htake,hdrop,hds.1,if_false]
  split
  · next rest =>
    have hfraction : rest.takeWhile Char.isDigit = [] := by
      cases rest with
      | nil => rfl
      | cons c rest => simp [hpoint _ rfl c rfl]
    rw [if_pos hfraction]
    rfl
  · rfl

private theorem number?_decimal {whole fraction : List Char} (hw : IsDigits whole) (hf : IsDigits fraction)
    (hmore : ∀ c ∈ more.head?, c.isDigit = false) : number? (whole ++ '.' :: (fraction ++ more)) =
      some (.ok (.literal (.float (decimalValue whole fraction)),more)) := by
  have hpoint : ∀ c ∈ ('.' :: (fraction ++ more)).head?, c.isDigit = false := by
    rintro _ ⟨⟩
    decide
  obtain ⟨htake,hdrop⟩ := span_append hw.2 hpoint
  obtain ⟨htake',hdrop'⟩ := span_append hf.2 hmore
  simp only [number?,htake,hdrop,hw.1,if_false,htake',hdrop',hf.1,decimalValue]

theorem number?_eq_none (h : ∀ c ∈ cs.head?, c.isDigit = false) : number? cs = none := by
  have htake : cs.takeWhile Char.isDigit = [] := by
    cases cs with
    | nil => rfl
    | cons c cs => simp [h c rfl]
  simp [number?,htake]

private theorem string?_quoted {quote : Char} {text : List Char} (hq : quote = '\'' ∨ quote = '"')
    (htext : quote ∉ text) : string? (quote :: (text ++ quote :: more)) = some (String.ofList text,more) := by
  have htext' : ∀ c ∈ text, decide (c ≠ quote) = true := by
    intro c hc
    apply decide_eq_true
    rintro rfl
    exact htext hc
  obtain ⟨htake,hdrop⟩ := span_append htext' (by simp : ∀ c ∈ (quote :: more).head?, decide (c ≠ quote) = false)
  rw [string?,if_pos hq,hdrop,htake]

theorem symbol?_opening_eq_none {l : Lexeme} (h : Layout (l :: us) cs) (hmark : ∀ t, l ≠ .mark t) :
    symbol? '(' cs = none := by
  obtain ⟨_,_,hl,_,_,_⟩ := h.skip_cons
  apply symbol?_eq_none (by decide) h
  rintro _ ⟨⟩ c hc rfl
  exact (hl.head_ne hmark '(' hc).1 (by simp)

theorem atom_name {name : List Char} (hname : IsIdentifier name) (hend : continuesName more = false) :
    atom expr (name ++ more) = .ok (ofName (String.ofList name),more) := by
  have hread := name?_append hname hend
  obtain ⟨c,name,rfl,hc⟩ := hname.head
  have hopening : symbol? '(' (c :: name ++ more) = none := by
    apply symbol?_of_head_ne
    rintro _ ⟨⟩
    refine ⟨not_isSpace_of_isNameChar (isNameChar_of_isNameStart hc),?_⟩
    rintro rfl
    revert hc
    decide
  have hnumber : number? (c :: name ++ more) = none := by
    apply number?_eq_none
    rintro _ ⟨⟩
    exact not_isDigit_of_isNameStart hc
  have hstring : string? (c :: name ++ more) = none := by
    rw [List.cons_append,string?,if_neg]
    rintro (rfl | rfl) <;> revert hc <;> decide
  rw [atom,hopening]
  simp only [hnumber,hstring,hread]

private theorem accepted_integer {ds : List Char} (hfits : Nat.ofDigitChars 10 ds 0 < Nat.pow 2 63) :
    Accepted depth .primary [.digits ds] (.literal (.int (Int64.ofNat (Nat.ofDigitChars 10 ds 0)))) := by
  intro us cs hcs _ hus
  obtain ⟨more,hskip,hds,_,hmore,hlength⟩ := Layout.skip_cons hcs
  refine ⟨more,?_,hmore,hlength⟩
  have hnumber := number?_digits hds (hus.no_digit hmore) fun rest heq => hus.no_fraction (heq ▸ hmore)
  change atom (expression depth) (skip cs) = _
  rw [atom,symbol?_opening_eq_none hcs.skip (by simp),hskip]
  simp only [Lexeme.text,hnumber,integerAt,hfits,if_true]

private theorem accepted_decimal {whole fraction : List Char} :
    Accepted depth .primary [.decimal whole fraction] (.literal (.float (decimalValue whole fraction))) := by
  intro us cs hcs _ hus
  obtain ⟨more,hskip,hl,_,hmore,hlength⟩ := Layout.skip_cons hcs
  refine ⟨more,?_,hmore,hlength⟩
  have hnumber := number?_decimal hl.1 hl.2 (hus.no_digit hmore)
  have htext : (Lexeme.decimal whole fraction).text ++ more = whole ++ '.' :: (fraction ++ more) := by
    simp [Lexeme.text]
  change atom (expression depth) (skip cs) = _
  rw [atom,symbol?_opening_eq_none hcs.skip (by simp),hskip,htext]
  simp only [hnumber]

private theorem accepted_string {quote : Char} {text : List Char} :
    Accepted depth .primary [.quoted quote text] (.literal (.string (String.ofList text))) := by
  intro us cs hcs _ _
  obtain ⟨more,hskip,hl,_,hmore,hlength⟩ := Layout.skip_cons hcs
  refine ⟨more,?_,hmore,hlength⟩
  have htext : (Lexeme.quoted quote text).text ++ more = quote :: (text ++ quote :: more) := by simp [Lexeme.text]
  have hnumber : number? (quote :: (text ++ quote :: more)) = none := by
    apply number?_eq_none
    rintro _ ⟨⟩
    rcases hl.1 with rfl | rfl <;> decide
  change atom (expression depth) (skip cs) = _
  rw [atom,symbol?_opening_eq_none hcs.skip (by simp),hskip,htext]
  simp only [hnumber,string?_quoted hl.1 hl.2]

private theorem accepted_name {name : List Char} :
    Accepted depth .primary [.name name] (ofName (String.ofList name)) := by
  intro us cs hcs _ _
  obtain ⟨more,hskip,hname,hend,hmore,hlength⟩ := Layout.skip_cons hcs
  refine ⟨more,?_,hmore,hlength⟩
  change atom (expression depth) (skip cs) = _
  rw [hskip]
  exact atom_name hname (hend rfl)

end atoms

/-- What the grammar derives, the readers come to. -/
theorem accepted_of_derives {level : Level} {ts : List Lexeme} {e : Expr} (h : Derives level ts e)
    (hnot : NotFree e) (depth : Nat) : Accepted depth level ts e := by
  induction h generalizing depth with
  | operand h ih => exact accepted_operand (ih hnot depth)
  | binary hop ht _ hr ihl ihr =>
    obtain ⟨l,us,hrs,hbegins⟩ := hr.head hnot.2
    exact accepted_binary hop ht (ihl hnot.1 depth) (ihr hnot.2 depth)
      ⟨l,us,hrs,Lexeme.begins_unary hbegins⟩
  | not ht h ih =>
    apply accepted_sign _ (ih hnot depth) (h.head hnot)
    simp only [notSpellings,List.mem_cons,List.not_mem_nil,or_false] at ht
    rcases ht with rfl | rfl <;> simp [signs]
  | negate h ih => exact accepted_sign (by simp [signs,minus]) (ih hnot depth) (h.head hnot)
  | access h ih => exact accepted_access (ih hnot depth) (h.head hnot)
  | property _ ih => exact accepted_property (ih hnot depth)
  | call _ ih => exact accepted_call (ih hnot depth)
  | index _ _ ih ihkey => exact accepted_index (ih hnot.1 depth) (ihkey hnot.2)
  | primary _ ih => exact accepted_primary (ih hnot depth)
  | parenthesised _ ih => exact accepted_parenthesised (ih hnot)
  | integer hfits => exact accepted_integer hfits
  | decimal => exact accepted_decimal
  | string => exact accepted_string
  | word h =>
    rw [← ofName_of_mem h]
    exact accepted_name
  | identifier h =>
    rw [← ofName_of_not_mem h]
    exact accepted_name

/-- A text that spells a derivation is read as its tree. -/
theorem parse_of_derives {text : String} {ts : List Lexeme} {e : Expr} (h : Derives (.binary .or) ts e)
    (htext : Layout ts text.toList) (hnot : NotFree e) : parse text = .ok e := by
  have hcs : Layout (ts ++ []) text.toList := by rwa [List.append_nil]
  obtain ⟨rest,hread,hrest,_⟩ :=
    expression_of_accepted (accepted_of_derives h hnot) hcs (Nat.lt_succ_self _) .nil
  simp only [parse,hread,hrest.skip_nil,if_true]

end SqlTemplate.Expr
