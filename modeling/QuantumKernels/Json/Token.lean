import QuantumKernels.Json.Number
/-!
Tokens of a document text. The text is scanned character by character; a scan holds the tokens
completed so far and the part of the next one.
-/

namespace QuantumKernels.Json

inductive Token where
  | openList
  | closeList
  | openRecord
  | closeRecord
  | comma
  | colon
  /-- a number, a text or one of the words `true`, `false` and `null` -/
  | atom (value : Json)
  /-- a text with half of a surrogate pair -/
  | brokenText
deriving Repr

/-- A text being read, latest character first. A leading surrogate waits for its partner; one that
waits in vain makes the text unreadable. -/
structure Quoted where
  chars : List Char
  high : Option Nat
  readable : Bool
deriving Repr

def Quoted.start : Quoted := ⟨[], none, true⟩

def Quoted.push (q : Quoted) (c : Char) : Quoted := ⟨c :: q.chars, none, q.readable && q.high.isNone⟩

/-- Adds an escaped code: a character, or one half of a surrogate pair. -/
def Quoted.pushCode (q : Quoted) (code : Nat) : Quoted :=
  if 0xd800 ≤ code ∧ code < 0xdc00 then ⟨q.chars, some code, q.readable && q.high.isNone⟩
  else if 0xdc00 ≤ code ∧ code < 0xe000 then
    match q.high with
    | some high => ⟨Char.ofNat (0x10000 + (high - 0xd800) * 0x400 + (code - 0xdc00)) :: q.chars, none, q.readable⟩
    | none => ⟨q.chars, none, false⟩
  else q.push (Char.ofNat code)

def Quoted.token (q : Quoted) : Token :=
  if q.readable && q.high.isNone then .atom (.text (String.ofList q.chars.reverse)) else .brokenText

/-- The part of a token that is still open. Letters and numeral characters stand latest first. -/
inductive Pending where
  | nothing
  | word (letters : List Char)
  | numeral (chars : List Char)
  | quoted (q : Quoted)
  | escape (q : Quoted)
  /-- `code` is the value of the hexadecimal digits read, `missing` more are to come -/
  | hex (q : Quoted) (code missing : Nat)
deriving Repr

structure Scan where
  done : List Token
  part : Pending
deriving Repr

def isNumeralChar (c : Char) : Bool := c.isDigit || ['+', '-', '.', 'e', 'E'].contains c

def wordValue (letters : List Char) : Option Json :=
  match String.ofList letters with
  | "null" => some .null
  | "true" => some (.bool true)
  | "false" => some (.bool false)
  | _ => none

/-- A character outside texts, numerals and words. -/
def Scan.separate (done : List Token) (c : Char) : Option Scan :=
  if c = ' ' ∨ c = '\n' ∨ c = '\t' ∨ c = '\r' then some ⟨done, .nothing⟩
  else if c = '[' then some ⟨.openList :: done, .nothing⟩
  else if c = ']' then some ⟨.closeList :: done, .nothing⟩
  else if c = '{' then some ⟨.openRecord :: done, .nothing⟩
  else if c = '}' then some ⟨.closeRecord :: done, .nothing⟩
  else if c = ',' then some ⟨.comma :: done, .nothing⟩
  else if c = ':' then some ⟨.colon :: done, .nothing⟩
  else if c = '"' then some ⟨done, .quoted .start⟩
  else if c.isLower then some ⟨done, .word [c]⟩
  else if c = '-' ∨ c.isDigit then some ⟨done, .numeral [c]⟩
  else none

/-- The character that a letter after a backslash stands for. -/
def unescape (c : Char) : Option Char :=
  if c = '"' ∨ c = '\\' ∨ c = '/' then some c
  else if c = 'b' then some '\x08'
  else if c = 'f' then some '\x0c'
  else if c = 'n' then some '\n'
  else if c = 'r' then some '\r'
  else if c = 't' then some '\t'
  else none

def hexValue? (c : Char) : Option Nat :=
  if c.isDigit then some (c.toNat - '0'.toNat)
  else if 'a' ≤ c ∧ c ≤ 'f' then some (c.toNat - 'a'.toNat + 10)
  else if 'A' ≤ c ∧ c ≤ 'F' then some (c.toNat - 'A'.toNat + 10)
  else none

def Scan.step (s : Scan) (c : Char) : Option Scan :=
  match s.part with
  | .nothing => separate s.done c
  | .word letters =>
    if c.isLower then some ⟨s.done, .word (c :: letters)⟩
    else (wordValue letters.reverse).bind fun v => separate (.atom v :: s.done) c
  | .numeral chars =>
    if isNumeralChar c then some ⟨s.done, .numeral (c :: chars)⟩
    else (numberOfChars chars.reverse).bind fun v => separate (.atom v :: s.done) c
  | .quoted q =>
    if c = '"' then some ⟨q.token :: s.done, .nothing⟩
    else if c = '\\' then some ⟨s.done, .escape q⟩
    else if c.toNat < 0x20 then none
    else some ⟨s.done, .quoted (q.push c)⟩
  | .escape q =>
    if c = 'u' then some ⟨s.done, .hex q 0 4⟩
    else (unescape c).map fun c => ⟨s.done, .quoted (q.push c)⟩
  | .hex q code missing =>
    (hexValue? c).map fun d =>
      if missing ≤ 1 then ⟨s.done, .quoted (q.pushCode (16 * code + d))⟩
      else ⟨s.done, .hex q (16 * code + d) (missing - 1)⟩

/-- The tokens of a scan that has reached the end of the text. -/
def Scan.finish (s : Scan) : Option (List Token) :=
  match s.part with
  | .nothing => some s.done.reverse
  | .word letters => (wordValue letters.reverse).map fun v => (.atom v :: s.done).reverse
  | .numeral chars => (numberOfChars chars.reverse).map fun v => (.atom v :: s.done).reverse
  | .quoted _ | .escape _ | .hex .. => none

def tokens (cs : List Char) : Option (List Token) :=
  (cs.foldlM Scan.step ⟨[], .nothing⟩).bind Scan.finish

end QuantumKernels.Json
