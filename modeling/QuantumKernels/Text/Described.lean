import QuantumKernels.Text.Invisible
/-!
The notation in which values are described to a reader: texts in quotes, options, lists, and
records with named fields.
-/

namespace QuantumKernels.Text

/-- Quotes, backslashes and what leaves no mark are written as escapes. -/
def describeChar (c : Char) : List Char :=
  if c = '\x00' then ['\\', '0']
  else if c = '\t' then ['\\', 't']
  else if c = '\r' then ['\\', 'r']
  else if c = '\n' then ['\\', 'n']
  else if c = '"' ∨ c = '\\' then ['\\', c]
  else if isInvisible c then '\\' :: 'u' :: '{' :: Nat.toDigits 16 c.toNat ++ ['}']
  else [c]

def describeText (s : String) : String :=
  String.ofList ('"' :: s.toList.flatMap describeChar ++ ['"'])

/-- Paths are written like texts, apostrophes escaped as well. -/
def describePath (s : String) : String :=
  let describe (c : Char) : List Char := if c = '\'' then ['\\', c] else describeChar c
  String.ofList ('"' :: s.toList.flatMap describe ++ ['"'])

def describeOption (f : α → String) : Option α → String
  | none => "None"
  | some a => "Some(" ++ f a ++ ")"

def describeList (f : α → String) (l : List α) : String :=
  "[" ++ ", ".intercalate (l.map f) ++ "]"

/-- The bindings of a map. -/
def describeEntries (f : α → String) (l : List (String × α)) : String :=
  "\x7b" ++ ", ".intercalate (l.map fun e => describeText e.1 ++ ": " ++ f e.2) ++ "\x7d"

/-- A value with named fields; `more` says that some are not shown. -/
def describeRecord (name : String) (fields : List (String × String)) (more : Bool := false) : String :=
  let shown := fields.map (fun e => e.1 ++ ": " ++ e.2) ++ (if more then [".."] else [])
  name ++ " \x7b " ++ ", ".intercalate shown ++ " \x7d"

end QuantumKernels.Text
