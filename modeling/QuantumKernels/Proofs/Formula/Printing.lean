import QuantumKernels.Proofs.Decimal.Layout
import QuantumKernels.Proofs.Formula.Grammar

/-!
# Printed formulas read again

The printed form of a formula that was read is read as a formula again. It is the same one exactly if no
constant is infinite and no power has a negation for its base: infinity is printed as a name, and a
negation in front of a power takes the whole power.
-/
namespace QuantumKernels.Formula

open Binary64 (HasSign)
open Decimal (EndsNumeral Numeral takeWhile_append_stop)

/-- A text that is one name. -/
def IsName (name : String) : Prop :=
  ∃ c cs, name.toList = c :: cs ∧ isNameStart c ∧ ∀ d ∈ cs, isNameChar d

/-- A token that a text can have: its number has no sign, and its name is one. -/
def Token.Proper : Token → Prop
  | .number v => HasSign .positive v.toModel.unpack
  | .name s => IsName s
  | .plus | .minus | .star | .slash | .caret | .openParen | .closeParen => True

/-- The constants and variables are what tokens stand for. -/
def Proper : Formula → Prop
  | constant v => HasSign .positive v.toModel.unpack
  | symbol name => IsName name ∧ name ≠ "pi" ∧ name ≠ "e" ∧ ∀ f : Func, name ≠ f.name
  | neg e | call _ e => e.Proper
  | binary _ l r => l.Proper ∧ r.Proper

theorem proper_of_signToken? {c : Char} {t : Token} (h : signToken? c = some t) : t.Proper := by
  unfold signToken? at h
  split_ifs at h <;> cases h <;> trivial

theorem Token.proper_of_readFront {c : Char} {rest after : List Char} {t : Token}
    (h : Token.readFront c rest = some (t, after)) : t.Proper := by
  unfold Token.readFront at h
  split_ifs at h with hname hcaret
  · cases h
    exact ⟨c, _, String.toList_ofList, hname, fun _ => List.mem_takeWhile_imp⟩
  · cases h
    trivial
  · cases hsign : signToken? c with
    | some sign =>
      rw [hsign] at h
      cases h
      exact proper_of_signToken? hsign
    | none =>
      rw [hsign] at h
      obtain ⟨⟨n, r⟩, -, hr⟩ := Option.map_eq_some_iff.mp h
      cases hr
      exact Decimal.hasSign_toFloat n.toDecimal

theorem tokens_of_isSpace {c : Char} (h : isSpace c) (rest : List Char) :
    tokens (c :: rest) = tokens rest := by
  rw [tokens, if_pos h]

theorem tokens_of_readFront_none {c : Char} {rest : List Char} (hspace : ¬ isSpace c)
    (h : Token.readFront c rest = none) : tokens (c :: rest) = .error c := by
  rw [tokens, if_neg hspace]
  split
  · rfl
  · rename_i hfront
    cases h.symm.trans hfront

theorem tokens_of_readFront {c : Char} {rest after : List Char} {t : Token} (hspace : ¬ isSpace c)
    (h : Token.readFront c rest = some (t, after)) : tokens (c :: rest) = (tokens after).map (t :: ·) := by
  rw [tokens, if_neg hspace]
  split
  · rename_i hfront
    cases h.symm.trans hfront
  · rename_i hfront
    cases h.symm.trans hfront
    rfl

/-- The tokens of a text are proper. -/
theorem proper_of_tokens {cs : List Char} {ts : List Token} (h : tokens cs = .ok ts) :
    ∀ t ∈ ts, t.Proper := by
  induction cs using tokens.induct generalizing ts with
  | case1 =>
    rw [tokens] at h
    cases h
    simp
  | case2 c rest hspace ih =>
    rw [tokens, if_pos hspace] at h
    exact ih h
  | case3 c rest hspace hnone =>
    rw [tokens_of_readFront_none hspace hnone] at h
    cases h
  | case4 c rest hspace t after hfront ih =>
    rw [tokens_of_readFront hspace hfront] at h
    cases hafter : tokens after with
    | error d =>
      rw [hafter] at h
      cases h
    | ok us =>
      rw [hafter] at h
      cases h
      intro u hu
      rcases List.mem_cons.mp hu with rfl | hu
      · exact Token.proper_of_readFront hfront
      · exact ih hafter u hu

theorem Derives.proper {c : Category} {ts : List Token} {e : Formula} (h : Derives c ts e)
    (hts : ∀ t ∈ ts, t.Proper) : e.Proper := by
  induction h with
  | number v => exact hts _ List.mem_cons_self
  | pi => rfl
  | euler => rfl
  | symbol name ne_pi ne_e ne_func => exact ⟨hts _ List.mem_cons_self, ne_pi, ne_e, ne_func⟩
  | call f _ ih => exact ih fun t ht => hts t (by simp [ht])
  | parens _ ih => exact ih fun t ht => hts t (by simp [ht])
  | atom _ ih | factor _ ih | term _ ih => exact ih hts
  | minus _ ih => exact ih fun t ht => hts t (by simp [ht])
  | plus _ ih => exact ih fun t ht => hts t (by simp [ht])
  | power _ _ ihl ihr | product _ _ ihl ihr | quotient _ _ ihl ihr | add _ _ ihl ihr | sub _ _ ihl ihr =>
    exact ⟨ihl fun t ht => hts t (by simp [ht]), ihr fun t ht => hts t (by simp [ht])⟩

def Operator.token : Operator → Token
  | add => .plus
  | sub => .minus
  | mul => .star
  | div => .slash
  | pow => .caret

/-- The tokens of the printed form. -/
def printTokens : Formula → List Token
  | constant v => [if v.isInf then .name "inf" else .number v]
  | symbol name => [.name name]
  | neg e => .minus :: .openParen :: (e.printTokens ++ [.closeParen])
  | binary op l r => .openParen :: (l.printTokens ++ op.token :: (r.printTokens ++ [.closeParen]))
  | call f e => .name f.name :: .openParen :: (e.printTokens ++ [.closeParen])

/-- What is read of the printed form. -/
def reread : Formula → Formula
  | constant v => if v.isInf then symbol "inf" else constant v
  | symbol name => symbol name
  | neg e => neg e.reread
  | binary .pow (neg a) b => neg (binary .pow a.reread b.reread)
  | binary op l r => binary op l.reread r.reread
  | call f e => call f e.reread

/-- No constant is infinite and no power has a negation for its base. -/
def Faithful : Formula → Prop
  | constant v => v.isInf = false
  | symbol _ => True
  | neg e | call _ e => e.Faithful
  | binary op l r => ¬ (op = .pow ∧ ∃ a, l = neg a) ∧ l.Faithful ∧ r.Faithful

theorem reread_binary {op : Operator} {l r : Formula} (h : ∀ a, op = .pow → l = neg a → False) :
    (binary op l r).reread = binary op l.reread r.reread := by
  rw [reread]
  exact h

/-- Only these are read as themselves. -/
theorem reread_eq_iff (e : Formula) : e.reread = e ↔ e.Faithful := by
  induction e using reread.induct with
  | case1 v hinf => simp [reread, Faithful, hinf]
  | case2 v hinf => simp [reread, Faithful, hinf]
  | case3 name => simp [reread, Faithful]
  | case4 e ih => rw [reread, neg.injEq, ih, Faithful]
  | case5 a b => simp [reread, Faithful]
  | case6 op l r hbase ihl ihr =>
    have hkept : ¬ (op = .pow ∧ ∃ a, l = neg a) := fun ⟨hop, a, ha⟩ => hbase a hop ha
    rw [reread_binary hbase, binary.injEq, ihl, ihr, Faithful]
    simp [hkept]
  | case7 f e ih => rw [reread, call.injEq, ih, Faithful]; simp

/-- The printed form is an atom, unless it is that of a negation. -/
def printCategory : Formula → Category
  | neg _ => .factor
  | _ => .atom

theorem three_le_precedence (e : Formula) : 3 ≤ e.printCategory.precedence := by
  cases e <;> exact Nat.le_refl 3

/-- An operator may follow its left operand, unless it is `^` and the operand is a negation. -/
theorem precedence_lt_follow {op : Operator} {l : Formula} (h : ∀ a, op = .pow → l = neg a → False) :
    op.precedence < l.printCategory.follow := by
  cases l with
  | neg a =>
    change op.precedence < 3
    cases op with
    | pow => exact (h a rfl rfl).elim
    | add | sub | mul | div => decide
  | constant | symbol | binary | call =>
    change op.precedence < 4
    cases op <;> decide

theorem Operator.ofToken?_token (op : Operator) : Operator.ofToken? op.token = some op := by
  cases op <;> rfl

/-- The printed form of a formula derives what is read of it. -/
theorem derives_printTokens {e : Formula} (h : e.Proper) :
    Derives e.printCategory e.printTokens e.reread := by
  induction e using reread.induct with
  | case1 v hinf =>
    rw [printTokens, reread, if_pos hinf, if_pos hinf]
    exact .symbol "inf" (by decide) (by decide) (Func.ofName?_eq_none.mp rfl)
  | case2 v hinf =>
    rw [printTokens, reread, if_neg hinf, if_neg hinf]
    exact .number v
  | case3 name => exact .symbol name h.2.1 h.2.2.1 h.2.2.2
  | case4 e ih =>
    have hsum := (ih h).loosen (Nat.zero_le _)
    exact .minus (.atom (.parens hsum))
  | case5 a b iha ihb =>
    have hbase := Derives.parens ((iha h.1).loosen (Nat.zero_le _))
    have hexponent := (ihb h.2).loosen (three_le_precedence b)
    have hinner := Derives.term (.factor (.minus (.power hbase hexponent)))
    have htokens : (binary .pow (neg a) b).printTokens = .openParen ::
        (.minus :: (.openParen :: (a.printTokens ++ [.closeParen]) ++ .caret :: b.printTokens) ++
          [.closeParen]) := by
      simp [printTokens, Operator.token]
    rw [htokens, reread]
    exact .parens hinner
  | case6 op l r hbase ihl ihr =>
    have hright := (ihr h.2).loosen (op.rightPrecedence_le.trans (three_le_precedence r))
    have hinner := (ihl h.1).apply op.ofToken?_token (precedence_lt_follow hbase) hright
    have htokens : (binary op l r).printTokens =
        .openParen :: ((l.printTokens ++ op.token :: r.printTokens) ++ [.closeParen]) := by
      simp [printTokens]
    rw [htokens, reread_binary hbase]
    exact .parens (hinner.loosen (Nat.zero_le _))
  | case7 f e ih => exact .call f ((ih h).loosen (Nat.zero_le _))

/-- The tokens of a text and what follows it are these and those of what follows. -/
def Lexes (text : List Char) (ts : List Token) (rest : List Char) : Prop :=
  tokens (text ++ rest) = (tokens rest).map (ts ++ ·)

section

variable {xs ys rest : List Char} {ts us : List Token}

theorem Lexes.append (hxs : Lexes xs ts (ys ++ rest)) (hys : Lexes ys us rest) :
    Lexes (xs ++ ys) (ts ++ us) rest := by
  rw [Lexes, List.append_assoc, hxs, hys]
  cases tokens rest with
  | error c => rfl
  | ok vs => simp [Except.map]

theorem lexes_blank (rest : List Char) : Lexes [' '] [] rest := by
  have hblank : tokens ([' '] ++ rest) = tokens rest := tokens_of_isSpace rfl rest
  rw [Lexes, hblank]
  cases tokens rest <;> rfl

theorem lexes_of_readFront {c : Char} {cs : List Char} {t : Token} (hspace : ¬ isSpace c)
    (h : Token.readFront c (cs ++ rest) = some (t, rest)) : Lexes (c :: cs) [t] rest :=
  tokens_of_readFront hspace h

theorem lexes_sign {c : Char} {t : Token} (hspace : ¬ isSpace c) (hstart : ¬ isNameStart c)
    (hsign : signToken? c = some t) (hcaret : c = '*' → rest.head? ≠ some '*') :
    Lexes [c] [t] rest := by
  refine lexes_of_readFront hspace ?_
  rw [List.nil_append, Token.readFront, if_neg hstart, if_neg (fun h => hcaret h.1 h.2), hsign]

theorem not_isSpace {c : Char} (h : isNameChar c) : ¬ isSpace c := by
  intro hspace
  simp only [isSpace, Bool.or_eq_true, beq_iff_eq] at hspace
  rcases hspace with ((rfl | rfl) | rfl) | rfl <;> exact absurd h (by decide)

theorem isNameChar_of_isNameStart {c : Char} (h : isNameStart c) : isNameChar c := by
  simp only [isNameStart, isNameChar, Char.isAlphanum, Bool.or_eq_true] at h ⊢
  tauto

theorem isNameChar_of_isDigit {c : Char} (h : c.isDigit) : isNameChar c := by
  simp [isNameChar, Char.isAlphanum, h]

theorem lexes_name {name : String} (h : IsName name) (hrest : ∀ c ∈ rest.head?, isNameChar c = false) :
    Lexes name.toList [.name name] rest := by
  obtain ⟨c, cs, hname, hc, hcs⟩ := h
  obtain ⟨htake, hdrop⟩ := takeWhile_append_stop hcs hrest
  rw [hname]
  refine lexes_of_readFront (not_isSpace (isNameChar_of_isNameStart hc)) ?_
  rw [Token.readFront, if_pos hc, htake, hdrop, ← hname, String.ofList_toList]

theorem not_isNameStart_of_isDigit {c : Char} (h : c.isDigit) : ¬ isNameStart c := by
  intro hstart
  simp only [isNameStart, Char.isAlpha, Char.isUpper, Char.isLower, Bool.or_eq_true, Bool.and_eq_true,
    decide_eq_true_eq, beq_iff_eq, ge_iff_le, UInt32.le_iff_toNat_le] at hstart
  simp only [Char.isDigit, Bool.and_eq_true, decide_eq_true_eq, ge_iff_le, UInt32.le_iff_toNat_le] at h
  rcases hstart with (hupper | hlower) | rfl
  · simp at h hupper
    omega
  · simp at h hlower
    omega
  · exact absurd h (by decide)

theorem signToken?_of_isDigit {c : Char} (h : c.isDigit) : signToken? c = none := by
  cases hsign : signToken? c with
  | none => rfl
  | some t =>
    unfold signToken? at hsign
    split_ifs at hsign <;> subst c <;> exact absurd h (by decide)

theorem lexes_number {x : Float} (h : Decimal.Unsigned x) (hrest : EndsNumeral rest) :
    Lexes (Decimal.Layout.plain.render x).toList [.number x] rest := by
  obtain ⟨c, cs, htext, hc, hread⟩ := Decimal.readFront_plain h
  obtain ⟨n, hn, hvalue⟩ := hread rest hrest
  have hcaret : ¬ (c = '*' ∧ (cs ++ rest).head? = some '*') := by
    rintro ⟨rfl, -⟩
    exact absurd hc (by decide)
  rw [htext]
  refine lexes_of_readFront (not_isSpace (isNameChar_of_isDigit hc)) ?_
  rw [Token.readFront, if_neg (not_isNameStart_of_isDigit hc), if_neg hcaret, signToken?_of_isDigit hc,
    hn, ← hvalue]
  rfl

end

/-- A formula ends where a blank, a closing parenthesis or nothing follows. -/
def Ends (rest : List Char) : Prop := ∀ c ∈ rest.head?, c = ' ' ∨ c = ')'

section

variable {rest : List Char}

theorem Ends.numeral (h : Ends rest) : EndsNumeral rest := by
  intro c hc
  rcases h c hc with rfl | rfl <;> rfl

theorem Ends.name (h : Ends rest) : ∀ c ∈ rest.head?, isNameChar c = false := by
  intro c hc
  rcases h c hc with rfl | rfl <;> rfl

theorem ends_cons {c : Char} (h : c = ' ' ∨ c = ')') (after : List Char) : Ends (c :: after) := by
  rintro d ⟨⟩
  exact h

theorem lexes_open : Lexes ['('] [.openParen] rest := lexes_sign (by decide) (by decide) rfl (by simp)

theorem lexes_close : Lexes [')'] [.closeParen] rest := lexes_sign (by decide) (by decide) rfl (by simp)

/-- An operator stands between blanks. -/
theorem lexes_operator (op : Operator) : Lexes (' ' :: (op.sign.toList ++ [' '])) [op.token] rest := by
  have hsign : Lexes op.sign.toList [op.token] ([' '] ++ rest) := by
    cases op <;> exact lexes_sign (by decide) (by decide) rfl (by simp)
  exact (lexes_blank _).append (hsign.append (lexes_blank rest))

theorem isName_name (f : Func) : IsName f.name := by
  cases f <;> exact ⟨_, _, rfl, rfl, List.all_eq_true.mp rfl⟩

theorem lexes_constant {v : Float} (h : HasSign .positive v.toModel.unpack) (hrest : Ends rest) :
    Lexes (constant v).print.toList (constant v).printTokens rest := by
  rcases Decimal.unsigned_or_infinite h with hv | hinf
  · rw [print, printTokens, hv.kind.2]
    exact lexes_number hv hrest.numeral
  · rw [print, printTokens, if_pos hinf, Decimal.render_plain_infinite h hinf]
    have hname : IsName "inf" := ⟨_, _, rfl, rfl, List.all_eq_true.mp rfl⟩
    exact lexes_name hname hrest.name

/-- The printed form has the tokens of the formula. -/
theorem lexes_print {e : Formula} (h : e.Proper) (hrest : Ends rest) :
    Lexes e.print.toList e.printTokens rest := by
  induction e generalizing rest with
  | constant v => exact lexes_constant h hrest
  | symbol name => exact lexes_name h.1 hrest.name
  | neg e ih =>
    have htext : (neg e).print.toList = ['-'] ++ (['('] ++ (e.print.toList ++ [')'])) := by simp [print]
    have hminus : Lexes ['-'] [.minus] ((['('] ++ (e.print.toList ++ [')'])) ++ rest) :=
      lexes_sign (by decide) (by decide) rfl (by simp)
    rw [htext]
    exact hminus.append (lexes_open.append ((ih h (ends_cons (.inr rfl) rest)).append lexes_close))
  | binary op l r ihl ihr =>
    have htext : (binary op l r).print.toList =
        ['('] ++ (l.print.toList ++ (' ' :: (op.sign.toList ++ [' ']) ++ (r.print.toList ++ [')']))) := by
      simp [print]
    rw [htext]
    exact lexes_open.append ((ihl h.1 (ends_cons (.inl rfl) _)).append
      ((lexes_operator op).append ((ihr h.2 (ends_cons (.inr rfl) rest)).append lexes_close)))
  | call f e ih =>
    have htext : (call f e).print.toList = f.name.toList ++ (['('] ++ (e.print.toList ++ [')'])) := by
      simp [print]
    have hname : Lexes f.name.toList [.name f.name] ((['('] ++ (e.print.toList ++ [')'])) ++ rest) := by
      refine lexes_name (isName_name f) ?_
      rintro c ⟨⟩
      rfl
    rw [htext]
    exact hname.append (lexes_open.append ((ih h (ends_cons (.inr rfl) rest)).append lexes_close))

end

/-- The printed form of a formula that is read is read again, as the formula says. It is the same
formula exactly if no constant is infinite and no power has a negation for its base. -/
theorem print_reads_back_iff {source : String} {e : Formula} (h : parse source = .ok e) :
    parse e.print = .ok e.reread ∧ (parse e.print = .ok e ↔ e.Faithful) := by
  have hproper : e.Proper := by
    rw [parse] at h
    cases htokens : tokens source.toList with
    | error c =>
      rw [htokens] at h
      cases h
    | ok ts =>
      rw [htokens] at h
      exact (ofTokens_eq_ok_iff_derives.mp h).proper (proper_of_tokens htokens)
  have hread : parse e.print = .ok e.reread := by
    have htokens : tokens e.print.toList = .ok e.printTokens := by
      have hend : Ends [] := by simp [Ends]
      have hlexes := lexes_print hproper hend
      rw [Lexes, List.append_nil, tokens] at hlexes
      rw [hlexes]
      simp [Except.map]
    rw [parse, htokens]
    exact ofTokens_eq_ok_iff_derives.mpr ((derives_printTokens hproper).loosen (Nat.zero_le _))
  refine ⟨hread, ?_⟩
  rw [hread, Except.ok.injEq, reread_eq_iff]

/-- A power of a negation is printed as `(-(x) ^ y)` and read again as the negation of a power. -/
theorem print_reads_back_iff_negatedBase :
    let e := binary .pow (neg (symbol "x")) (symbol "y")
    parse "(-x)^y" = .ok e ∧ parse e.print = .ok (neg (binary .pow (symbol "x") (symbol "y"))) ∧
      parse e.print ≠ .ok e := by
  intro e
  have hx : Derives .atom [.name "x"] (symbol "x") :=
    .symbol "x" (by decide) (by decide) (Func.ofName?_eq_none.mp rfl)
  have hy : Derives .atom [.name "y"] (symbol "y") :=
    .symbol "y" (by decide) (by decide) (Func.ofName?_eq_none.mp rfl)
  have hnegation : Derives .sum [.minus, .name "x"] (neg (symbol "x")) :=
    .term (.factor (.minus (.atom hx)))
  have hderives : Derives .sum [.openParen, .minus, .name "x", .closeParen, .caret, .name "y"] e :=
    .term (.factor (.power (.parens hnegation) (.atom hy)))
  have hsource : parse "(-x)^y" = .ok e := by
    have htokens : tokens "(-x)^y".toList =
        .ok [.openParen, .minus, .name "x", .closeParen, .caret, .name "y"] := by decide +kernel
    rw [parse, htokens]
    exact ofTokens_eq_ok_iff_derives.mpr hderives
  obtain ⟨hread, hfaithful⟩ := print_reads_back_iff hsource
  refine ⟨hsource, hread, fun h => ?_⟩
  exact (hfaithful.mp h).1 ⟨rfl, symbol "x", rfl⟩

end QuantumKernels.Formula
