/-!
Literals in two spellings. A source may quote texts with either quote and write `True`, `False`
and `None`; `normalize` gives the same literal with double quotes and lower-case words. What stands
inside quotes stays as it is, but for the quotes that need an escape or no longer need one.
-/

namespace QuantumKernels.Wire

/-- Where in a literal a character stands. Letters of a word stand latest first; `mark` is the
quote that closes the text. -/
inductive Context where
  | plain
  | word (letters : List Char)
  | quoted (mark : Char)
  /-- after a backslash, which is still to be written -/
  | escaped (mark : Char)
deriving DecidableEq, Repr

def isWordChar (c : Char) : Bool := c.isAlphanum || c == '_'

/-- The written form of a word. -/
def respell (word : List Char) : List Char :=
  if word = "True".toList then "true".toList
  else if word = "False".toList then "false".toList
  else if word = "None".toList then "null".toList
  else word

/-- A character outside texts that continues no word. -/
def Context.plainStep (c : Char) : List Char × Context :=
  if c = '"' ∨ c = '\'' then (['"'], .quoted c)
  else if c.isAlpha then ([], .word [c])
  else ([c], .plain)

/-- What is written for a character, and where the next one stands. -/
def Context.step (context : Context) (c : Char) : List Char × Context :=
  match context with
  | .plain => plainStep c
  | .word letters =>
    if isWordChar c then ([], .word (c :: letters))
    else
      let (written, next) := plainStep c
      (respell letters.reverse ++ written, next)
  | .quoted mark =>
    if c = '\\' then ([], .escaped mark)
    else if c = mark then (['"'], .plain)
    else if c = '"' then (['\\', '"'], .quoted mark)
    else ([c], .quoted mark)
  | .escaped mark => (if c = '\'' then [c] else ['\\', c], .quoted mark)

/-- What is written at the end of the source. -/
def Context.finish : Context → List Char
  | .plain | .quoted _ => []
  | .word letters => respell letters.reverse
  | .escaped _ => ['\\']

def normalizeFrom (context : Context) : List Char → List Char
  | [] => context.finish
  | c :: rest =>
    let (written, next) := context.step c
    written ++ normalizeFrom next rest

def normalize (source : String) : String := String.ofList (normalizeFrom .plain source.toList)

end QuantumKernels.Wire
