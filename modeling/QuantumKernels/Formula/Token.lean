import QuantumKernels.Decimal.Numeral
import QuantumKernels.Decimal.Layout
/-!
Tokens of a formula text: numerals, names, operators and parentheses, with blanks between them
passed over. Each token is the longest one at its place.
-/

namespace QuantumKernels.Formula

inductive Token where
  | number (value : Float)
  | name (text : String)
  | plus
  | minus
  | star
  | slash
  | caret
  | openParen
  | closeParen
deriving DecidableEq, Repr

/-- How a token is described in a complaint. -/
def Token.describe : Token → String
  | number v => "Number(" ++ Decimal.Layout.described.render v ++ ")"
  | name s => "Identifier(\"" ++ s ++ "\")"
  | plus => "Plus"
  | minus => "Minus"
  | star => "Star"
  | slash => "Slash"
  | caret => "Caret"
  | openParen => "LParen"
  | closeParen => "RParen"

def isNameStart (c : Char) : Bool := c.isAlpha || c == '_'

def isNameChar (c : Char) : Bool := c.isAlphanum || c == '_'

def isSpace (c : Char) : Bool := c == ' ' || c == '\t' || c == '\r' || c == '\n'

/-- The token that a sign stands for by itself. -/
def signToken? (c : Char) : Option Token :=
  if c = '+' then some .plus
  else if c = '-' then some .minus
  else if c = '*' then some .star
  else if c = '/' then some .slash
  else if c = '^' then some .caret
  else if c = '(' then some .openParen
  else if c = ')' then some .closeParen
  else none

/-- The token at the front of a text, and what follows it. -/
def Token.readFront (c : Char) (rest : List Char) : Option (Token × List Char) :=
  if isNameStart c then
    some (.name (String.ofList (c :: rest.takeWhile isNameChar)), rest.dropWhile isNameChar)
  else if c = '*' ∧ rest.head? = some '*' then some (.caret, rest.tail)
  else match signToken? c with
    | some t => some (t, rest)
    | none => (Decimal.Numeral.readFront (c :: rest)).map fun (n, rest) => (.number n.toFloat, rest)

theorem length_readFront {c : Char} {rest after : List Char} {t : Token}
    (h : Token.readFront c rest = some (t, after)) : after.length ≤ rest.length := by
  unfold Token.readFront at h
  split at h
  · cases h; exact (List.dropWhile_suffix _).length_le
  · split at h
    · cases h; simp
    · split at h
      · cases h; exact Nat.le_refl _
      · obtain ⟨⟨n, r⟩, hn, hr⟩ := Option.map_eq_some_iff.mp h
        cases hr
        have := Decimal.Numeral.length_readFront hn
        simp at this
        omega

/-- The tokens of a text, or the first character at which none starts. -/
def tokens : List Char → Except Char (List Token)
  | [] => .ok []
  | c :: rest =>
    if isSpace c then tokens rest
    else match _h : Token.readFront c rest with
      | none => .error c
      | some (t, after) => (tokens after).map (t :: ·)
termination_by cs => cs.length
decreasing_by
  · exact Nat.lt_succ_self _
  · exact Nat.lt_succ_of_le (length_readFront ‹_›)

end QuantumKernels.Formula
