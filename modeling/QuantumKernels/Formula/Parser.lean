import QuantumKernels.Formula.Basic
import QuantumKernels.Formula.Token
/-!
Formulas from text, by how tightly operators bind. An operand is followed by operators that bind
at least as tightly as asked for, each with a right operand of its own; `^` groups to the right and
all others to the left. A minus sign takes the operand after it with all its powers, a plus sign
leaves no trace. Each step returns what it leaves, which is shorter than what it was given.
-/

namespace QuantumKernels.Formula

/-- Why a text is no formula, or a formula has no value. -/
inductive Fault where
  | invalidToken (char : Char)
  | unexpectedEnd
  | unexpected (token : Token)
  | expected (token : Token) (found : Option Token)
  | trailing (token : Token)
  | unbound (name : String)
deriving DecidableEq, Repr

def Fault.message : Fault → String
  | invalidToken c => "invalid token '" ++ c.toString ++ "'"
  | unexpectedEnd => "unexpected end of expression"
  | unexpected t => "unexpected token " ++ t.describe
  | expected t none => "expected " ++ t.describe ++ ", found None"
  | expected t (some found) => "expected " ++ t.describe ++ ", found Some(" ++ found.describe ++ ")"
  | trailing t => "unexpected trailing token " ++ t.describe
  | unbound name => "unknown symbol '" ++ name ++ "'"

/-- A formula read, and the tokens after it, fewer than `bound`. -/
structure Parsed (bound : Nat) where
  tree : Formula
  rest : List Token
  shorter : rest.length < bound

def pi : Float := Float.ofBits 0x400921fb54442d18

def euler : Float := Float.ofBits 0x4005bf0a8b145769

/-- A name that is no function: one of the two constants, or a variable. -/
def ofName (name : String) : Formula :=
  if name = "pi" then constant pi else if name = "e" then constant euler else symbol name

def Operator.ofToken? : Token → Option Operator
  | .plus => some add
  | .minus => some sub
  | .star => some mul
  | .slash => some div
  | .caret => some pow
  | _ => none

def Operator.precedence : Operator → Nat
  | add | sub => 1
  | mul | div => 2
  | pow => 3

/-- The least precedence of an operator in the right operand. -/
def Operator.rightPrecedence : Operator → Nat
  | pow => pow.precedence
  | op => op.precedence + 1

/-- Goes past a token that has to come next. -/
def expect (t : Token) (ts : List Token) : Except Fault {rest : List Token // rest.length < ts.length} :=
  match ts with
  | [] => .error (.expected t none)
  | found :: rest =>
    if found = t then .ok ⟨rest, by simp⟩ else .error (.expected t (some found))

mutual

/-- An operand, and what operators of at least this precedence make of it. -/
def parseBinary (least : Nat) (ts : List Token) : Except Fault (Parsed ts.length) :=
  match parseUnary ts with
  | .error e => .error e
  | .ok ⟨left, rest, h⟩ =>
    match parseOperators least left rest with
    | .error e => .error e
    | .ok ⟨tree, rest', h'⟩ => .ok ⟨tree, rest', by omega⟩
termination_by (ts.length, 2)

/-- Goes on from a left operand, up to an operator of lower precedence. -/
def parseOperators (least : Nat) (left : Formula) (ts : List Token) :
    Except Fault (Parsed (ts.length + 1)) :=
  match ts with
  | [] => .ok ⟨left, [], by simp⟩
  | t :: after =>
    match Operator.ofToken? t with
    | none => .ok ⟨left, t :: after, by simp⟩
    | some op =>
      if op.precedence < least then .ok ⟨left, t :: after, by simp⟩
      else
        match parseBinary op.rightPrecedence after with
        | .error e => .error e
        | .ok ⟨right, rest, h⟩ =>
          match parseOperators least (binary op left right) rest with
          | .error e => .error e
          | .ok ⟨tree, rest', h'⟩ => .ok ⟨tree, rest', by simp only [List.length_cons]; omega⟩
termination_by (ts.length, 0)

/-- An operand with its signs. -/
def parseUnary (ts : List Token) : Except Fault (Parsed ts.length) :=
  match ts with
  | .minus :: after =>
    match parseBinary Operator.pow.precedence after with
    | .error e => .error e
    | .ok ⟨e, rest, h⟩ => .ok ⟨neg e, rest, by simp only [List.length_cons]; omega⟩
  | .plus :: after =>
    match parseUnary after with
    | .error e => .error e
    | .ok ⟨e, rest, h⟩ => .ok ⟨e, rest, by simp only [List.length_cons]; omega⟩
  | ts => parseAtom ts
termination_by (ts.length, 1)

def parseAtom (ts : List Token) : Except Fault (Parsed ts.length) :=
  match ts with
  | [] => .error .unexpectedEnd
  | .number v :: after => .ok ⟨constant v, after, by simp⟩
  | .name s :: after =>
    match Func.ofName? s with
    | none => .ok ⟨ofName s, after, by simp⟩
    | some f =>
      match expect .openParen after with
      | .error e => .error e
      | .ok ⟨inner, h⟩ =>
        match parseBinary 0 inner with
        | .error e => .error e
        | .ok ⟨argument, rest, h'⟩ =>
          match expect .closeParen rest with
          | .error e => .error e
          | .ok ⟨rest', h''⟩ =>
            .ok ⟨call f argument, rest', by simp only [List.length_cons]; omega⟩
  | .openParen :: after =>
    match parseBinary 0 after with
    | .error e => .error e
    | .ok ⟨e, rest, h⟩ =>
      match expect .closeParen rest with
      | .error e => .error e
      | .ok ⟨rest', h'⟩ => .ok ⟨e, rest', by simp only [List.length_cons]; omega⟩
  | t :: _ => .error (.unexpected t)
termination_by (ts.length, 0)

end

/-- The formula that a list of tokens is, all of them used. -/
def ofTokens (ts : List Token) : Except Fault Formula :=
  match parseBinary 0 ts with
  | .error e => .error e
  | .ok ⟨tree, [], _⟩ => .ok tree
  | .ok ⟨_, t :: _, _⟩ => .error (.trailing t)

def parse (source : String) : Except Fault Formula :=
  match tokens source.toList with
  | .error c => .error (.invalidToken c)
  | .ok ts => ofTokens ts

/-- The value, with a variable that is not bound as the cause of failure. -/
def evaluate (bindings : Dictionary Float) (e : Formula) : Except Fault Float :=
  match e.value bindings with
  | .ok v => .ok v
  | .error name => .error (.unbound name)

/-- The variables of a text that is a formula; none of any other text. -/
def variablesOf (source : String) : List String :=
  match parse source with
  | .ok e => e.vars
  | .error _ => []

end QuantumKernels.Formula
