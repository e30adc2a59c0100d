import QuantumKernels.Kernel.Error
import QuantumKernels.Formula.Parser
import QuantumKernels.Text.Blank
/-!
Operations: a kind applied to bits, with parameters that are numbers, literals or formulas.
-/

namespace QuantumKernels

inductive Parameter where
  | int (value : Int64)
  | real (value : Float)
  | text (value : String)
  | complex (re im : Float)
deriving DecidableEq, Inhabited, Repr

namespace Parameter

/-- Schedule modes look like variables and are none. -/
def isReserved (word : String) : Bool := word == "forward" || word == "reverse"

/-- The free variables of a formula, each once, in order of first occurrence. -/
def vars : Parameter → List String
  | text s => if isReserved (Text.trim s) then [] else Formula.variablesOf s
  | _ => []

def isVariable (p : Parameter) : Bool := !p.vars.isEmpty

def realOfInt (n : Int64) : Float :=
  match n.toInt with
  | .ofNat n => Float.ofNat n
  | .negSucc n => -Float.ofNat (n + 1)

/-- The value of a number. -/
def toReal? : Parameter → Option Float
  | int n => some (realOfInt n)
  | real x => some x
  | _ => none

def toInt? : Parameter → Option Int64
  | int n => some n
  | _ => none

def toText? : Parameter → Option String
  | text s => some s
  | _ => none

def print : Parameter → String
  | int n => toString n.toInt
  | real x => Decimal.Layout.plain.render x
  | text s => s
  | complex re im =>
    "(" ++ Decimal.Layout.plain.render re ++ "," ++ Decimal.Layout.plain.render im ++ ")"

end Parameter

structure Operation where
  name : String
  bits : List Nat := []
  parameters : List Parameter := []
  enabled : Bool := true
  analog : Bool := false
deriving DecidableEq, Inhabited, Repr

namespace Operation

def measureName : String := "Measure"

/-- Reads a qubit into a classical slot. -/
def measure (qubit slot : Nat) : Operation :=
  { name := measureName, bits := [qubit], parameters := [.int (Int64.ofNat slot)] }

def isMeasure (op : Operation) : Bool := op.name == measureName

/-- The slot a measurement reads into: its first parameter, if that is a natural number. -/
def slot? (op : Operation) : Option Nat :=
  if op.isMeasure then
    match op.parameters.head? with
    | some (.int n) => if 0 ≤ n.toInt then some n.toInt.toNat else none
    | _ => none
  else none

/-- The free variables of all parameters, in order, repetitions across parameters included. -/
def vars (op : Operation) : List String := op.parameters.flatMap Parameter.vars

def setParameter (op : Operation) (i : Nat) (p : Parameter) : Except KernelError Operation :=
  if i < op.parameters.length then .ok { op with parameters := op.parameters.set i p }
  else .error (.outOfRange i op.parameters.length op.name)

/-- Name, parameters in parentheses, bits; each part only when there is something to write. -/
def print (op : Operation) : String :=
  op.name
    ++ (if op.parameters.isEmpty then ""
      else "(" ++ ",".intercalate (op.parameters.map Parameter.print) ++ ")")
    ++ (if op.bits.isEmpty then "" else " " ++ ",".intercalate (op.bits.map fun b => s!"q{b}"))

end Operation

end QuantumKernels
