import QuantumKernels.Json.Token
/-!
Tokens of a YAML text without anchors, tags, directives and block scalars. The text is scanned
character by character. Indentation becomes tokens: where a column deeper than that of the block
around it holds an entry or a key, a block starts; a column further left ends it. A key is known as
one only when its colon is met, so its tokens are put in afterwards.
-/

namespace QuantumKernels.Yaml

inductive Token where
  | blockList
  | blockRecord
  | blockEnd
  | openList
  | closeList
  | openRecord
  | closeRecord
  | comma
  /-- the dash before an item -/
  | entry
  | key
  | value
  | documentStart
  | documentEnd
  | scalar (text : String) (plain : Bool)
deriving DecidableEq, Repr

/-- Line breaks, after those of several kinds have become line feeds. -/
def isBreak (c : Char) : Bool := c = '\n' || c = '\u2028' || c = '\u2029'

def isBlank (c : Char) : Bool := c = ' ' || c = '\t'

/-- Whether a text has come to an end, a blank or a line break. -/
def atGap : List Char → Bool
  | [] => true
  | c :: _ => isBlank c || isBreak c

def isPrintable (c : Char) : Bool :=
  c = '\t' || c = '\n' || c = '\r' || c = '\u0085' || (' ' ≤ c && c ≤ '~')
    || ('\u00a0' ≤ c && c ≤ '\uffff' && c ≠ '\ufffe' && c ≠ '\uffff') || '\uffff' < c

/-- The breaks of several kinds as line feeds. -/
def unifyBreaks : List Char → List Char
  | '\r' :: '\n' :: rest => '\n' :: unifyBreaks rest
  | c :: rest => (if c = '\r' ∨ c = '\u0085' then '\n' else c) :: unifyBreaks rest
  | [] => []

/-- Blanks and breaks inside a scalar that may still turn out to be its end. -/
structure Gap where
  /-- blanks before any break, latest first -/
  blanks : List Char := []
  /-- whether a break before the others was escaped -/
  escaped : Bool := false
  /-- latest first -/
  breaks : List Char := []
deriving Repr

namespace Gap

/-- Whether the gap goes on in a new line. -/
def isBroken (g : Gap) : Bool := g.escaped || !g.breaks.isEmpty

def isEmpty (g : Gap) : Bool := g.blanks.isEmpty && !g.isBroken

def push (g : Gap) (c : Char) : Gap :=
  if isBreak c then { g with blanks := [], breaks := c :: g.breaks }
  else if g.isBroken then g
  else { g with blanks := c :: g.blanks }

/-- What a gap becomes inside a scalar, latest character first: blanks stay, one line feed becomes a
space, and of several the first goes, as does an escaped one. -/
def fold (g : Gap) : List Char :=
  if g.escaped then g.breaks
  else match g.breaks.reverse with
    | [] => g.blanks
    | '\n' :: [] => [' ']
    | '\n' :: rest => rest.reverse
    | breaks => breaks.reverse

end Gap

/-- A scalar being read, latest character first. -/
structure Scalar where
  chars : List Char := []
  gap : Gap := {}
deriving Repr

/-- Adds a character after what the gap before it becomes. -/
def Scalar.push (s : Scalar) (c : Char) : Scalar := ⟨c :: (s.gap.fold ++ s.chars), {}⟩

def Scalar.text (s : Scalar) : String := String.ofList s.chars.reverse

/-- The part of a token that is still open. -/
inductive Pending where
  | nothing
  | comment
  | plain (s : Scalar)
  | single (s : Scalar)
  | double (s : Scalar)
  | escape (s : Scalar)
  /-- `code` is the value of the hexadecimal digits read, `missing` more are to come -/
  | hex (s : Scalar) (code missing : Nat)
deriving Repr

/-- Where a key may have started: the number of tokens before it and its place in the text. -/
structure KeyStart where
  position : Nat
  line : Nat
  column : Nat
  offset : Nat
  /-- nothing but a key can stand there -/
  required : Bool
deriving Repr

structure Scan where
  line : Nat := 0
  column : Nat := 0
  offset : Nat := 0
  /-- characters that have been dealt with already -/
  skip : Nat := 0
  tokens : List Token := []
  /-- the columns of the blocks around, innermost first -/
  columns : List Nat := []
  /-- for each flow collection around and for the block, innermost first -/
  keys : List (Option KeyStart) := [none]
  keyAllowed : Bool := true
  part : Pending := .nothing
deriving Repr

namespace Scan

/-- Whether the scan is inside a list or record in brackets. -/
def inFlow (s : Scan) : Bool := s.keys.length > 1

def emit (s : Scan) (t : Token) : Scan := { s with tokens := s.tokens ++ [t] }

def insert (s : Scan) (position : Nat) (ts : List Token) : Scan :=
  { s with tokens := s.tokens.take position ++ ts ++ s.tokens.drop position }

/-- Ends the blocks right of a column. -/
def endBlocks (s : Scan) (inside : Nat → Bool) : Scan :=
  if s.inFlow then s
  else
    let ended := s.columns.takeWhile inside
    { s with
      tokens := s.tokens ++ ended.map fun _ => .blockEnd
      columns := s.columns.drop ended.length }

/-- Starts a block if the column is right of the blocks around. -/
def startBlock (s : Scan) (column : Nat) (position : Nat) (t : Token) : Scan :=
  if s.inFlow || s.columns.head?.any (column ≤ ·) then s
  else { s.insert position [t] with columns := column :: s.columns }

/-- Gives up possible keys that are too far back. -/
def dropStale (s : Scan) : Option Scan := do
  let keys ← s.keys.mapM fun key => match key with
    | some k =>
      if k.line < s.line ∨ k.offset + 1024 < s.offset then
        if k.required then none else some none
      else some (some k)
    | none => some none
  return { s with keys }

/-- Gives up the possible key of the innermost collection. -/
def dropKey (s : Scan) : Option Scan :=
  match s.keys with
  | some k :: keys => if k.required then none else some { s with keys := none :: keys }
  | _ => some s

/-- Notes that a key may start here. -/
def markKey (s : Scan) : Option Scan :=
  if s.keyAllowed then
    s.dropKey.map fun s => { s with
      keys := some {
        position := s.tokens.length
        line := s.line
        column := s.column
        offset := s.offset
        required := !s.inFlow && s.columns.head? == some s.column } :: s.keys.tail }
  else some s

def openFlow (s : Scan) (t : Token) : Option Scan :=
  s.markKey.map fun s => { s.emit t with keys := none :: s.keys, keyAllowed := true }

def closeFlow (s : Scan) (t : Token) : Option Scan :=
  s.dropKey.map fun s =>
    { s.emit t with keys := if s.inFlow then s.keys.tail else s.keys, keyAllowed := false }

/-- A dash or a question mark, which may start a block. -/
def indicator (s : Scan) (block t : Token) (keyAfter : Bool) : Option Scan :=
  if s.inFlow ∨ s.keyAllowed then
    (s.startBlock s.column s.tokens.length block).dropKey.map fun s =>
      { s.emit t with keyAllowed := keyAfter }
  else none

/-- A colon: the value of the key that has started, or of an empty one. -/
def colon (s : Scan) : Option Scan :=
  match s.keys with
  | some k :: keys =>
    let s := ({ s with keys := none :: keys }.insert k.position [.key]).startBlock
      k.column k.position .blockRecord
    some { s.emit .value with keyAllowed := false }
  | _ =>
    if s.inFlow then some { s.emit .value with keyAllowed := false }
    else if s.keyAllowed then
      some { (s.startBlock s.column s.tokens.length .blockRecord).emit .value with keyAllowed := true }
    else none

/-- Three dashes or dots. -/
def isMark (s : Scan) (c : Char) (rest : List Char) : Bool :=
  s.column = 0 && (c = '-' || c = '.') && rest.take 2 == [c, c] && atGap (rest.drop 2)

def documentMark (s : Scan) (t : Token) : Option Scan :=
  (s.endBlocks fun _ => true).dropKey.map fun s => { s.emit t with keyAllowed := false, skip := 2 }

/-- Characters that start no plain scalar unless a few of them are followed by a character. -/
def isIndicator (c : Char) : Bool :=
  ['-', '?', ':', ',', '[', ']', '{', '}', '#', '&', '*', '!', '|', '>', '\'', '"', '%', '@', '\x60'].contains c

def beginScalar (s : Scan) (part : Pending) : Option Scan :=
  s.markKey.map fun s => { s with keyAllowed := false, part }

/-- The first character of a token. -/
def begin (s : Scan) (c : Char) (rest : List Char) : Option Scan := do
  let s ← s.dropStale
  let s := s.endBlocks fun column => s.column < column
  if s.isMark c rest then s.documentMark (if c = '-' then .documentStart else .documentEnd)
  else if c = '[' then s.openFlow .openList
  else if c = '{' then s.openFlow .openRecord
  else if c = ']' then s.closeFlow .closeList
  else if c = '}' then s.closeFlow .closeRecord
  else if c = ',' then s.dropKey.map fun s => { s.emit .comma with keyAllowed := true }
  else if c = '-' ∧ atGap rest then s.indicator .blockList .entry true
  else if c = '?' ∧ (s.inFlow ∨ atGap rest) then s.indicator .blockRecord .key (!s.inFlow)
  else if c = ':' ∧ (s.inFlow ∨ atGap rest) then s.colon
  else if c = '\'' then s.beginScalar (.single {})
  else if c = '"' then s.beginScalar (.double {})
  else if isBlank c then none
  else if !isIndicator c ∨ (c = '-' ∧ !atGap rest) ∨ (!s.inFlow ∧ (c = '?' ∨ c = ':') ∧ !atGap rest) then
    s.beginScalar (.plain (({} : Scalar).push c))
  else none

/-- The scan after a scalar; a plain one that has run into a new line leaves room for a key. -/
def endScalar (s : Scan) (scalar : Scalar) (plain : Bool) : Scan :=
  { s.emit (.scalar scalar.text plain) with
    part := .nothing
    keyAllowed := s.keyAllowed || scalar.gap.isBroken }

/-- A character between tokens. -/
def between (s : Scan) (c : Char) (rest : List Char) : Option Scan :=
  if c = ' ' ∨ (c = '\t' ∧ (s.inFlow ∨ !s.keyAllowed)) then some s
  else if c = '#' then some { s with part := .comment }
  else if isBreak c then some { s with keyAllowed := s.keyAllowed || !s.inFlow }
  else s.begin c rest

/-- Whether a character ends a plain scalar. -/
def endsPlain (s : Scan) (scalar : Scalar) (c : Char) (rest : List Char) : Bool :=
  s.isMark c rest
    || (c = ':' && atGap rest)
    || (s.inFlow && [',', '[', ']', '{', '}'].contains c)
    || (!scalar.gap.isEmpty
      && (c = '#' || (!s.inFlow && s.columns.head?.any fun column => s.column ≤ column)))

def inPlain (s : Scan) (scalar : Scalar) (c : Char) (rest : List Char) : Option Scan :=
  if isBlank c ∨ isBreak c then
    if c = '\t' ∧ scalar.gap.isBroken ∧ s.columns.head?.any (s.column ≤ ·) then none
    else some { s with part := .plain { scalar with gap := scalar.gap.push c } }
  else if s.endsPlain scalar c rest then (s.endScalar scalar true).between c rest
  else if s.inFlow ∧ c = ':' ∧ rest.head?.any (['?', ',', '[', ']', '{', '}'].contains ·) then none
  else some { s with part := .plain (scalar.push c) }

/-- The character that a letter after a backslash stands for. -/
def unescape (c : Char) : Option Char :=
  [('0', '\x00'), ('a', '\x07'), ('b', '\x08'), ('t', '\t'), ('\t', '\t'), ('n', '\n'), ('v', '\x0b'),
    ('f', '\x0c'), ('r', '\r'), ('e', '\x1b'), (' ', ' '), ('"', '"'), ('/', '/'), ('\\', '\\'),
    ('N', '\u0085'), ('_', '\u00a0'), ('L', '\u2028'), ('P', '\u2029')].lookup c

/-- One character inside quotes, of which neither is left out. -/
def quotedChar (s : Scan) (scalar : Scalar) (c : Char) (rest : List Char) (part : Scalar → Pending) :
    Option Scan :=
  if s.isMark c rest then none
  else if isBlank c ∨ isBreak c then some { s with part := part { scalar with gap := scalar.gap.push c } }
  else some { s with part := part (scalar.push c) }

/-- The end of a quoted scalar, in which a gap before the quote still counts. -/
def endQuoted (s : Scan) (scalar : Scalar) : Scan :=
  s.endScalar ⟨scalar.gap.fold ++ scalar.chars, {}⟩ false

def afterBackslash (s : Scan) (scalar : Scalar) (c : Char) : Option Scan :=
  if isBreak c then some { s with part := .double ⟨scalar.gap.fold ++ scalar.chars, { escaped := true }⟩ }
  else if c = 'x' then some { s with part := .hex scalar 0 2 }
  else if c = 'u' then some { s with part := .hex scalar 0 4 }
  else if c = 'U' then some { s with part := .hex scalar 0 8 }
  else (unescape c).map fun c => { s with part := .double (scalar.push c) }

/-- One more hexadecimal digit; the code has to be that of a character. -/
def hexDigit (s : Scan) (scalar : Scalar) (code missing : Nat) (c : Char) : Option Scan := do
  let code := 16 * code + (← Json.hexValue? c)
  if 1 < missing then return { s with part := .hex scalar code (missing - 1) }
  else if code.isValidChar then return { s with part := .double (scalar.push (Char.ofNat code)) }
  else none

def read (s : Scan) (c : Char) (rest : List Char) : Option Scan :=
  match s.part with
  | .nothing => s.between c rest
  | .comment => if isBreak c then { s with part := .nothing }.between c rest else some s
  | .plain scalar => s.inPlain scalar c rest
  | .single scalar =>
    if c = '\'' then
      if rest.head? = some '\'' then some { s with part := .single (scalar.push c), skip := 1 }
      else some (s.endQuoted scalar)
    else s.quotedChar scalar c rest .single
  | .double scalar =>
    if c = '"' then some (s.endQuoted scalar)
    else if c = '\\' then some { s with part := .escape scalar }
    else s.quotedChar scalar c rest .double
  | .escape scalar => s.afterBackslash scalar c
  | .hex scalar code missing => s.hexDigit scalar code missing c

/-- The scan one character further on. -/
def advance (s : Scan) (c : Char) : Scan :=
  if isBreak c then { s with line := s.line + 1, column := 0, offset := s.offset + 1 }
  else { s with column := s.column + 1, offset := s.offset + 1 }

def readAll (s : Scan) : List Char → Option Scan
  | [] => some s
  | c :: rest =>
    if 0 < s.skip then ({ s with skip := s.skip - 1 }.advance c).readAll rest
    else (s.read c rest).bind fun s => (s.advance c).readAll rest

/-- The tokens of a text that has come to its end. -/
def finish (s : Scan) : Option (List Token) := do
  let s ← match s.part with
    | .nothing | .comment => some s
    | .plain scalar => some (s.endScalar scalar true)
    | _ => none
  let s ← (s.endBlocks fun _ => true).dropKey
  return s.tokens

end Scan

def tokens (text : String) : Option (List Token) :=
  let chars := unifyBreaks (match text.toList with
    | '\ufeff' :: rest => rest
    | chars => chars)
  if chars.all isPrintable then (Scan.readAll {} chars).bind Scan.finish else none

end QuantumKernels.Yaml
