import QuantumKernels.Kernel.Binding
import QuantumKernels.Proofs.Scope
import Mathlib

/-!
# Binding of variables

A kernel that is made from empty ones by edits declares all its variables, so that one value for
each of them is enough to bind it, at any depth and in disabled parts too.
-/
namespace QuantumKernels

namespace Dictionary

variable {α : Type}

/-- Each of different keys is bound to the value at its place. -/
theorem get?_ofList_zip {keys : List String} {values : List α} (hnodup : keys.Nodup)
    (hlen : values.length = keys.length) (start : α) {k : String} (hk : k ∈ keys) :
    (ofList (keys.zip values)).get? k = some (values.getD (keys.idxOf k) start) := by
  -- the pairs are put one after another over what is there, so the start varies along the induction
  suffices h : ∀ m : Dictionary α,
      (m.insertMany (keys.zip values)).get? k = some (values.getD (keys.idxOf k) start) from h empty
  induction keys generalizing values with
  | nil => cases hk
  | cons first rest ih =>
    obtain ⟨hfirst, hrest⟩ := List.nodup_cons.mp hnodup
    obtain _ | ⟨v, vs⟩ := values
    · cases hlen
    intro m
    have hstep : m.insertMany ((first :: rest).zip (v :: vs)) =
        (m.insert first v).insertMany (rest.zip vs) := rfl
    rw [hstep]
    by_cases heq : k = first
    · subst heq
      rw [get?_insertMany_of_notMem, get?_insert, if_pos rfl, List.idxOf_cons_self]
      · rfl
      · rintro e he rfl
        exact hfirst (List.of_mem_zip he).1
    · have hk' : k ∈ rest := (List.mem_cons.mp hk).resolve_left heq
      rw [ih hrest (by simpa using hlen) hk', List.idxOf_cons_ne _ (Ne.symm heq)]
      rfl

end Dictionary

namespace Formula

/-- The value where each variable has the value that `ρ` gives it. -/
def valueAt (ρ : String → Float) : Formula → Float
  | constant v => v
  | symbol name => ρ name
  | neg e => -e.valueAt ρ
  | binary op l r => op.apply (l.valueAt ρ) (r.valueAt ρ)
  | call f e => f.apply (e.valueAt ρ)

/-- A value depends only on the variables that occur. -/
theorem value_eq {bindings : Dictionary Float} {ρ : String → Float} {e : Formula}
    (h : ∀ x ∈ e.occurrences, bindings.get? x = some (ρ x)) : e.value bindings = .ok (e.valueAt ρ) := by
  induction e with
  | constant v => rfl
  | symbol name =>
    rw [value, h name (by simp [occurrences])]
    rfl
  | neg e ih =>
    rw [value, ih h]
    rfl
  | binary op l r ihl ihr =>
    rw [value, ihl fun x hx => h x (by simp [occurrences, hx]),
      ihr fun x hx => h x (by simp [occurrences, hx])]
    rfl
  | call f e ih =>
    rw [value, ih h]
    rfl

theorem mem_vars {e : Formula} {x : String} : x ∈ e.vars ↔ x ∈ e.occurrences := by
  simp [vars, mem_addNames]

theorem valueOf_eq_ok {source : String} {bindings : Dictionary Float} {e : Formula} {v : Float}
    (hparse : parse source = .ok e) (hvalue : e.value bindings = .ok v) :
    valueOf source bindings = .ok v := by
  rw [valueOf, hparse]
  change explained source (e.evaluate bindings) = .ok v
  rw [evaluate, hvalue]
  rfl

end Formula

/-- A text with free variables is a formula, with those variables. -/
theorem Parameter.exists_formula {source : String} (hfree : (text source).isVariable = true) :
    ∃ e, Formula.parse source = .ok e ∧ (text source).vars = e.vars := by
  have hvars : (text source).vars = Formula.variablesOf source := by
    rw [vars]
    split
    · rename_i hreserved
      simp [isVariable, vars, hreserved] at hfree
    · rfl
  rw [isVariable, hvars, Formula.variablesOf] at hfree
  rw [hvars, Formula.variablesOf]
  cases hparse : Formula.parse source with
  | ok e => exact ⟨e, rfl, rfl⟩
  | error fault => simp [hparse] at hfree

/-- What a parameter becomes when each variable takes the value that `ρ` gives it. -/
inductive Parameter.BoundBy (ρ : String → Float) : Parameter → Parameter → Prop
  | value {source : String} {e : Formula} (free : (text source).isVariable = true)
      (reads : Formula.parse source = .ok e) : BoundBy ρ (text source) (real (e.valueAt ρ))
  | same {p : Parameter} (closed : p.isVariable = false) : BoundBy ρ p p

structure Operation.BoundBy (ρ : String → Float) (op op' : Operation) : Prop where
  parameters : List.Forall₂ (Parameter.BoundBy ρ) op.parameters op'.parameters
  rest : op' = { op with parameters := op'.parameters }

theorem Parameter.BoundBy.vars_eq_nil {ρ : String → Float} {p p' : Parameter} (h : p.BoundBy ρ p') :
    p'.vars = [] := by
  cases h with
  | value => rfl
  | same closed => simpa [isVariable] using closed

theorem Operation.BoundBy.vars_eq_nil {ρ : String → Float} {op op' : Operation} (h : op.BoundBy ρ op') :
    op'.vars = [] := by
  refine List.flatMap_eq_nil_iff.mpr fun p' hp' => ?_
  obtain ⟨p, -, hpp'⟩ := exists_mem_of_forall₂ h.parameters hp'
  exact hpp'.vars_eq_nil

section

variable {bindings : Dictionary Float} {ρ : String → Float}

theorem Parameter.exists_bind {p : Parameter} (h : ∀ x ∈ p.vars, bindings.get? x = some (ρ x)) :
    ∃ p', p.bind bindings = .ok p' ∧ p.BoundBy ρ p' := by
  cases p with
  | int n => exact ⟨_, rfl, .same rfl⟩
  | real x => exact ⟨_, rfl, .same rfl⟩
  | complex re im => exact ⟨_, rfl, .same rfl⟩
  | text source =>
    by_cases hfree : (text source).isVariable = true
    · obtain ⟨e, hparse, hvars⟩ := exists_formula hfree
      have hvalue : e.value bindings = .ok (e.valueAt ρ) := by
        refine Formula.value_eq fun x hx => h x ?_
        rw [hvars]
        exact Formula.mem_vars.mpr hx
      refine ⟨_, ?_, .value hfree hparse⟩
      rw [Parameter.bind, if_pos hfree, Formula.valueOf_eq_ok hparse hvalue]
      rfl
    · exact ⟨_, by simp [Parameter.bind, hfree], .same (by simpa using hfree)⟩

theorem Operation.exists_bind {op : Operation} (h : ∀ x ∈ op.vars, bindings.get? x = some (ρ x)) :
    ∃ op', op.bind bindings = .ok op' ∧ op.BoundBy ρ op' := by
  obtain ⟨ps, hps, hbound⟩ := exists_mapM fun p hp => Parameter.exists_bind (p := p) fun x hx =>
    h x (List.mem_flatMap.mpr ⟨p, hp, hx⟩)
  refine ⟨{ op with parameters := ps }, ?_, hbound, rfl⟩
  rw [Operation.bind, hps]
  rfl

namespace Instruction

theorem bindOf_eq (body : List Instruction) : bind.bindOf bindings body = body.mapM (bind bindings) := by
  induction body with
  | nil => rfl
  | cons i rest ih => rw [bind.bindOf, ih, List.mapM_cons]

/-- If all variables below an instruction are bound, binding reaches each of them. -/
theorem exists_bind {i : Instruction}
    (h : ∀ op ∈ i.leaves, ∀ x ∈ op.vars, bindings.get? x = some (ρ x)) :
    ∃ i', i.bind bindings = .ok i' ∧
      i.Alike (fun h => { h with vars := [] }) (Operation.BoundBy ρ) i' := by
  induction i using tree_induction with
  | leaf op =>
    obtain ⟨op', hop', hbound⟩ := Operation.exists_bind (h op (by simp [leaves]))
    refine ⟨leaf op', ?_, .leaf hbound⟩
    rw [bind, hop']
    rfl
  | block hd body ih =>
    have hbody : ∀ i ∈ body, ∃ i', i.bind bindings = .ok i' ∧
        i.Alike (fun h => { h with vars := [] }) (Operation.BoundBy ρ) i' :=
      fun i hi => ih i hi fun op hop => h op (mem_leaves_block.mpr ⟨i, hi, hop⟩)
    obtain ⟨body', hbody', hinside⟩ := exists_mapM hbody
    refine ⟨_, ?_, .block hinside⟩
    rw [bind, bindOf_eq, hbody']
    rfl

end Instruction

end

namespace Instruction

/-- Nothing brings a variable where operations and blocks have been stripped of theirs. -/
theorem Alike.declared_eq_nil {f : Header → Header} {R : Operation → Operation → Prop}
    (hf : ∀ h, (f h).vars = []) (hR : ∀ op op', R op op' → op'.vars = []) {i i' : Instruction}
    (h : i.Alike f R i') : ∀ j ∈ i'.preorder, j.declared = [] := by
  induction i using tree_induction generalizing i' with
  | leaf op =>
    obtain ⟨hop⟩ := h
    intro j hj
    obtain rfl : j = _ := by simpa [preorder] using hj
    exact hR _ _ hop
  | block hd body ih =>
    obtain _ | ⟨hinside⟩ := h
    intro j hj
    rw [preorder, preorderOf_eq] at hj
    rcases List.mem_cons.mp hj with rfl | hj
    · exact hf hd
    · obtain ⟨i', hi', hj⟩ := List.mem_flatMap.mp hj
      obtain ⟨i, hi, hii'⟩ := exists_mem_of_forall₂ hinside hi'
      exact ih i hi hii' j hj

theorem scoped_of_declared_eq_nil {i : Instruction} (h : ∀ j ∈ i.preorder, j.declared = []) :
    i.Scoped := by
  induction i using tree_induction with
  | leaf op => exact .leaf op
  | block hd body ih =>
    obtain ⟨hvars, hbelow⟩ := forall_mem_preorder_block.mp h
    change hd.vars = [] at hvars
    refine .block (by simp [hvars]) (fun i hi => ?_) fun i hi => ih i hi (hbelow i hi)
    rw [hbelow i hi i i.mem_preorder_self]
    exact List.nil_subset _

end Instruction

namespace Kernel

/-- The value given for a declared variable. -/
def assignment (k : Kernel) (values : List Float) (name : String) : Float :=
  values.getD (k.header.vars.idxOf name) 0

/-- A scoped kernel is bound by one value for each of its variables. -/
theorem Scoped.exists_evaluate {k : Kernel} (hk : k.Scoped) {values : List Float}
    (hlen : values.length = k.header.vars.length) : ∃ k', k.evaluate values = .ok k' ∧
      (Instruction.ofKernel k).Alike (fun h => { h with vars := [] })
        (Operation.BoundBy (k.assignment values)) (Instruction.ofKernel k') := by
  have hbound : ∀ op ∈ (Instruction.ofKernel k).leaves, ∀ x ∈ op.vars,
      (k.bindings values).get? x = some (k.assignment values x) := by
    intro op hop x hx
    have hnodup := (Instruction.scoped_block.mp hk).1
    exact Dictionary.get?_ofList_zip hnodup hlen 0 (Instruction.Scoped.vars_subset hk hop hx)
  obtain ⟨i', hi', halike⟩ := Instruction.exists_bind hbound
  rw [Instruction.ofKernel, Instruction.bind] at hi'
  cases hbody : Instruction.bind.bindOf (k.bindings values) k.body with
  | error e =>
    rw [hbody] at hi'
    cases hi'
  | ok body' =>
    rw [hbody] at hi'
    cases hi'
    refine ⟨⟨{ k.header with vars := [] }, body'⟩, ?_, halike⟩
    rw [evaluate, if_pos hlen, hbody]
    rfl

end Kernel

/-- What edits make from empty kernels and any operations: blocks of kernels made so, and
instructions taken from them, disabled or enabled. -/
inductive Instruction.Built : Instruction → Prop
  | operation (op : Operation) : Built (leaf op)
  | named (name : String) (kind : Kind) : Built (ofKernel (.named name kind))
  | tagged {k : Kernel} (tag : String) (hk : Built (ofKernel k)) : Built (ofKernel (k.setTag tag))
  | option {k : Kernel} (key : String) (p : Parameter) (hk : Built (ofKernel k)) :
      Built (ofKernel (k.setOption key p))
  | declare {k : Kernel} (name : String) (hk : Built (ofKernel k)) : Built (ofKernel (k.declare name))
  | push {k : Kernel} {i : Instruction} (hk : Built (ofKernel k)) (hi : Built i) :
      Built (ofKernel (k.push i))
  | insert {k k' : Kernel} {i : Instruction} {position : ℕ} (hk : Built (ofKernel k)) (hi : Built i)
      (h : k.insert position i = .ok k') : Built (ofKernel k')
  | replace {k k' : Kernel} {i old : Instruction} {position : ℕ} (hk : Built (ofKernel k))
      (hi : Built i) (h : k.replace position i = .ok (old, k')) : Built (ofKernel k')
  | remove {k k' : Kernel} {old : Instruction} {position : ℕ} (hk : Built (ofKernel k))
      (h : k.remove position = .ok (old, k')) : Built (ofKernel k')
  | mapBits {k k' : Kernel} {map : List ℕ} (hk : Built (ofKernel k)) (h : k.mapBits map = .ok k') :
      Built (ofKernel k')
  | enableAll {k : Kernel} (hk : Built (ofKernel k)) : Built (ofKernel k.enableAll)
  | view {k : Kernel} (hk : Built (ofKernel k)) : Built (ofKernel k.view)
  | evaluate {k k' : Kernel} {values : List Float} (hk : Built (ofKernel k))
      (h : k.evaluate values = .ok k') : Built (ofKernel k')
  | taken {k : Kernel} {i : Instruction} (hk : Built (ofKernel k)) (hi : i ∈ k.body) : Built i
  | setEnabled {i : Instruction} (on : Bool) (hi : Built i) : Built (i.setEnabled on)

def Kernel.Built (k : Kernel) : Prop := (Instruction.ofKernel k).Built

theorem Kernel.evaluate_eq_error {k : Kernel} {values : List Float}
    (h : values.length ≠ k.header.vars.length) : k.evaluate values =
      .error (.arity k.name "parameters" k.header.vars.length values.length) :=
  if_neg h

theorem Kernel.Scoped.evaluate {k k' : Kernel} {values : List Float} (hk : k.Scoped)
    (h : k.evaluate values = .ok k') : k'.Scoped := by
  by_cases hlen : values.length = k.header.vars.length
  · obtain ⟨k'', hk'', halike⟩ := hk.exists_evaluate hlen
    obtain rfl : k'' = k' := Except.ok.inj (hk''.symm.trans h)
    refine Instruction.scoped_of_declared_eq_nil (halike.declared_eq_nil (fun _ => rfl) ?_)
    exact fun op op' hop => hop.vars_eq_nil
  · rw [evaluate_eq_error hlen] at h
    cases h

theorem Instruction.Built.scoped {i : Instruction} (hi : i.Built) : i.Scoped := by
  -- one case for each edit; a bound kernel declares nothing and needs nothing
  induction hi with
  | operation op => exact .leaf op
  | named name kind => exact Kernel.scoped_named name kind
  | tagged _ _ hk | option _ _ _ hk =>
    obtain ⟨hnodup, hdeclared, hinside⟩ := scoped_block.mp hk
    exact .block hnodup hdeclared hinside
  | declare name _ hk => exact Kernel.Scoped.declare hk name
  | push _ _ hk hi => exact Kernel.Scoped.push hk hi
  | insert _ _ h hk hi => exact Kernel.Scoped.insert hk hi h
  | replace _ _ h hk hi => exact Kernel.Scoped.replace hk hi h
  | remove _ h hk => exact Kernel.Scoped.remove hk h
  | mapBits _ h hk => exact Kernel.Scoped.mapBits hk h
  | enableAll _ hk => exact Kernel.Scoped.enableAll hk
  | view _ hk => exact Kernel.Scoped.view hk
  | evaluate _ h hk => exact Kernel.Scoped.evaluate hk h
  | taken _ hmem hk => exact (scoped_block.mp hk).2.2 _ hmem
  | setEnabled on _ hi => exact hi.setEnabled on

/-- A kernel made by edits declares, each once, the variables of all formulas at any depth. It is
bound exactly by lists of one value for each variable. Then a formula with variables, in disabled
parts too, has become its value where each variable has the value at its place; nothing else is
changed, and no variable is left or declared anywhere. -/
theorem evaluate_binds_declared (k : Kernel) (hk : k.Built) (values : List Float) :
    (k.header.vars.Nodup ∧ ∀ op ∈ k.leaves, op.vars ⊆ k.header.vars) ∧
    ((∃ k', k.evaluate values = .ok k') ↔ values.length = k.header.vars.length) ∧
    match k.evaluate values with
    | .ok k' => (Instruction.ofKernel k).Alike (fun h => { h with vars := [] })
          (Operation.BoundBy (k.assignment values)) (Instruction.ofKernel k') ∧
        ∀ i ∈ (Instruction.ofKernel k').preorder, i.declared = []
    | .error e => e = .arity k.name "parameters" k.header.vars.length values.length := by
  have hscoped : k.Scoped := hk.scoped
  refine ⟨⟨(Instruction.scoped_block.mp hscoped).1, fun op hop => hscoped.vars_subset hop⟩, ?_⟩
  by_cases hlen : values.length = k.header.vars.length
  · obtain ⟨k', hk', halike⟩ := hscoped.exists_evaluate hlen
    simp only [hk', hlen, iff_true]
    refine ⟨⟨k', rfl⟩, halike, halike.declared_eq_nil (fun _ => rfl) ?_⟩
    exact fun op op' hop => hop.vars_eq_nil
  · simp [Kernel.evaluate_eq_error hlen, hlen]

/-- A variable that is declared and not used, and two that are used by a disabled operation. -/
def nestedKernel : Kernel :=
  ((Kernel.named "outer").declare "spare").push (.ofKernel ((Kernel.named "inner").push
    (.leaf { name := "Rx", bits := [1], parameters := [.text "theta/-phi", .text "forward"], enabled := false })))

theorem nestedKernel_vars : nestedKernel.header.vars = ["spare", "theta", "phi"] := by
  have hreserved : Parameter.isReserved (Text.trim "theta/-phi") = false := by decide
  have hformula : (Parameter.text "theta/-phi").vars = ["theta", "phi"] := by
    rw [Parameter.vars, if_neg (by simp [hreserved])]
    cbv
  have hword : (Parameter.text "forward").vars = [] := by cbv
  simp [nestedKernel, Kernel.push, Kernel.declare, Kernel.named, Header.declare, Formula.addNames,
    Instruction.declared, Instruction.ofKernel, Operation.vars, hformula, hword]

theorem evaluate_binds_declared_nestedKernel :
    nestedKernel.Built ∧
    (∃ k', nestedKernel.evaluate [0.5, 0.25, 2] = .ok k' ∧
      ∀ i ∈ (Instruction.ofKernel k').preorder, i.declared = []) ∧
    nestedKernel.evaluate [0.5] = .error (.arity "outer" "parameters" 3 1) := by
  have hbuilt : nestedKernel.Built :=
    .push (.declare _ (.named "outer" .gate)) (.push (.named "inner" .gate) (.operation _))
  refine ⟨hbuilt, ?_, ?_⟩
  · obtain ⟨-, hok, hresult⟩ := evaluate_binds_declared nestedKernel hbuilt [0.5, 0.25, 2]
    obtain ⟨k', hk'⟩ := hok.mpr (by rw [nestedKernel_vars]; rfl)
    rw [hk'] at hresult
    exact ⟨k', hk', hresult.2⟩
  · obtain ⟨-, hok, hresult⟩ := evaluate_binds_declared nestedKernel hbuilt [0.5]
    have hfails : ¬ ∃ k', nestedKernel.evaluate [0.5] = .ok k' := by
      rw [hok, nestedKernel_vars]
      decide
    cases hevaluate : nestedKernel.evaluate [0.5] with
    | ok k' => exact absurd ⟨k', hevaluate⟩ hfails
    | error e =>
      rw [hevaluate, nestedKernel_vars] at hresult
      rw [hresult]
      rfl

end QuantumKernels
