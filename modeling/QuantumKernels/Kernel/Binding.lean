import QuantumKernels.Kernel.Edit
/-!
Binding of variables. Every formula with variables becomes its value; nested blocks are bound to
the same values, and no variable stays declared.
-/

namespace QuantumKernels

/-- A failure names the formula it arose in. -/
def Formula.explained {α : Type} (source : String) (r : Except Formula.Fault α) : Except KernelError α :=
  r.mapError fun e => .formula source e.message

/-- The value of a formula as it is written. -/
def Formula.valueOf (source : String) (bindings : Dictionary Float) : Except KernelError Float := do
  let f ← explained source (parse source)
  explained source (f.evaluate bindings)

/-- A formula with variables becomes a real; any other parameter stays. -/
def Parameter.bind (bindings : Dictionary Float) (p : Parameter) : Except KernelError Parameter :=
  match p with
  | text s => if p.isVariable then (Formula.valueOf s bindings).map real else .ok p
  | p => .ok p

def Operation.bind (bindings : Dictionary Float) (op : Operation) : Except KernelError Operation := do
  return { op with parameters := ← op.parameters.mapM (Parameter.bind bindings) }

namespace Instruction

def bind (bindings : Dictionary Float) : Instruction → Except KernelError Instruction
  | leaf op => do return leaf (← op.bind bindings)
  | block h body => do return block { h with vars := [] } (← bindOf body)
where
  bindOf : List Instruction → Except KernelError (List Instruction)
    | [] => .ok []
    | i :: rest => do
      let first ← i.bind bindings
      return first :: (← bindOf rest)

end Instruction

namespace Kernel

/-- The declared variables with the values given for them, in order. -/
def bindings (k : Kernel) (values : List Float) : Dictionary Float :=
  .ofList (k.header.vars.zip values)

/-- Takes one value for each declared variable. -/
def evaluate (k : Kernel) (values : List Float) : Except KernelError Kernel :=
  if values.length = k.header.vars.length then do
    return ⟨{ k.header with vars := [] }, ← Instruction.bind.bindOf (k.bindings values) k.body⟩
  else .error (.arity k.name "parameters" k.header.vars.length values.length)

end Kernel

end QuantumKernels
