import QuantumKernels.Decimal.Layout
import QuantumKernels.Dictionary
/-!
Arithmetic formulas over named variables: their value, their variables and their printed form.
-/

namespace QuantumKernels

namespace Formula

/-- The functions a formula may apply. -/
inductive Func where
  | sin
  | cos
  | tan
  | exp
  | ln
  | log
  | sqrt
  | abs
deriving DecidableEq, Repr

def Func.all : List Func := [sin, cos, tan, exp, ln, log, sqrt, abs]

def Func.name : Func → String
  | sin => "sin"
  | cos => "cos"
  | tan => "tan"
  | exp => "exp"
  | ln => "ln"
  | log => "log"
  | sqrt => "sqrt"
  | abs => "abs"

def Func.ofName? (name : String) : Option Func := Func.all.find? fun f => f.name == name

/-- `log` has base ten. -/
def Func.apply : Func → Float → Float
  | sin, x => x.sin
  | cos, x => x.cos
  | tan, x => x.tan
  | exp, x => x.exp
  | ln, x => x.log
  | log, x => x.log10
  | sqrt, x => x.sqrt
  | abs, x => x.abs

inductive Operator where
  | add
  | sub
  | mul
  | div
  | pow
deriving DecidableEq, Repr

def Operator.sign : Operator → String
  | add => "+"
  | sub => "-"
  | mul => "*"
  | div => "/"
  | pow => "^"

def Operator.apply : Operator → Float → Float → Float
  | add, x, y => x + y
  | sub, x, y => x - y
  | mul, x, y => x * y
  | div, x, y => x / y
  | pow, x, y => x.pow y

end Formula

inductive Formula where
  | constant (value : Float)
  | symbol (name : String)
  | neg (operand : Formula)
  | binary (op : Formula.Operator) (left right : Formula)
  | call (f : Formula.Func) (argument : Formula)
deriving DecidableEq, Repr

namespace Formula

/-- Adds the names that are not there yet, in order. -/
def addNames (known names : List String) : List String :=
  names.foldl (fun known name => if known.contains name then known else known ++ [name]) known

/-- The variables in order of occurrence, repetitions included. -/
def occurrences : Formula → List String
  | constant _ => []
  | symbol name => [name]
  | neg e | call _ e => e.occurrences
  | binary _ l r => l.occurrences ++ r.occurrences

/-- The variables, each once, in order of first occurrence. -/
def vars (e : Formula) : List String := addNames [] e.occurrences

/-- The value under the given bindings, or else the first variable without one. -/
def value (bindings : Dictionary Float) : Formula → Except String Float
  | constant v => .ok v
  | symbol name => match bindings.get? name with
    | some v => .ok v
    | none => .error name
  | neg e => do return -(← e.value bindings)
  | binary op l r => do
    let x ← l.value bindings
    let y ← r.value bindings
    return op.apply x y
  | call f e => do return f.apply (← e.value bindings)

/-- The printed form, with parentheses around every compound part. -/
def print : Formula → String
  | constant v => Decimal.Layout.plain.render v
  | symbol name => name
  | neg e => "-(" ++ e.print ++ ")"
  | binary op l r => "(" ++ l.print ++ " " ++ op.sign ++ " " ++ r.print ++ ")"
  | call f e => f.name ++ "(" ++ e.print ++ ")"

end Formula

end QuantumKernels
