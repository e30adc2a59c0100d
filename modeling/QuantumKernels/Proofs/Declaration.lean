import QuantumKernels.Proofs.Binding

/-!
# Declared variables

A kernel declares the variables of what enters it, and takes none back when something leaves. So
its variables are those of the operations in it together with those of the operations that edits
have taken out, here and in the blocks below.
-/
namespace QuantumKernels

namespace Instruction

/-- What appending, inserting, replacing and removing make of empty kernels and any operations,
enabled or not. The list has the operations that were taken out on the way, also from the blocks
that have entered. -/
inductive Edited : Instruction → List Operation → Prop
  | operation (op : Operation) : Edited (leaf op) []
  | named (name : String) (kind : Kind) : Edited (ofKernel (.named name kind)) []
  | setEnabled {i : Instruction} {gone : List Operation} (on : Bool) (hi : Edited i gone) :
      Edited (i.setEnabled on) gone
  | push {k : Kernel} {i : Instruction} {gone gone' : List Operation} (hk : Edited (ofKernel k) gone)
      (hi : Edited i gone') : Edited (ofKernel (k.push i)) (gone ++ gone')
  | insert {k k' : Kernel} {i : Instruction} {position : ℕ} {gone gone' : List Operation}
      (hk : Edited (ofKernel k) gone) (hi : Edited i gone') (h : k.insert position i = .ok k') :
      Edited (ofKernel k') (gone ++ gone')
  | replace {k k' : Kernel} {i old : Instruction} {position : ℕ} {gone gone' : List Operation}
      (hk : Edited (ofKernel k) gone) (hi : Edited i gone') (h : k.replace position i = .ok (old, k')) :
      Edited (ofKernel k') (gone ++ gone' ++ old.leaves)
  | remove {k k' : Kernel} {old : Instruction} {position : ℕ} {gone : List Operation}
      (hk : Edited (ofKernel k) gone) (h : k.remove position = .ok (old, k')) :
      Edited (ofKernel k') (gone ++ old.leaves)

theorem Edited.built {i : Instruction} {gone : List Operation} (hi : i.Edited gone) : i.Built := by
  induction hi with
  | operation op => exact .operation op
  | named name kind => exact .named name kind
  | setEnabled on _ hi => exact .setEnabled on hi
  | push _ _ hk hi => exact .push hk hi
  | insert _ _ h hk hi => exact .insert hk hi h
  | replace _ _ h hk hi => exact .replace hk hi h
  | remove _ h hk => exact .remove hk h

/-- An instruction brings the variables of the operations below it and of those that are gone. -/
def Accounts (i : Instruction) (gone : List Operation) : Prop :=
  ∀ x, x ∈ i.declared ↔ x ∈ (i.leaves ++ gone).flatMap Operation.vars

/-- One edit: some instructions enter a body, and their variables the header, and some leave it. -/
theorem Accounts.edit {h h' : Header} {body body' entered left : List Instruction}
    {gone gone' : List Operation} (hblock : (block h body).Accounts gone)
    (hvars : ∀ x, x ∈ h'.vars ↔
      x ∈ h.vars ∨ x ∈ (entered.flatMap leaves ++ gone').flatMap Operation.vars)
    (hedit : (body' ++ left).Perm (body ++ entered)) :
    (block h' body').Accounts (gone ++ gone' ++ left.flatMap leaves) := by
  intro x
  have hbefore := hblock x
  have hin := hvars x
  have hmoved : x ∈ ((body' ++ left).flatMap leaves).flatMap Operation.vars ↔
      x ∈ ((body ++ entered).flatMap leaves).flatMap Operation.vars :=
    ((hedit.flatMap_right leaves).flatMap_right Operation.vars).mem_iff
  simp only [declared, leaves, leavesOf_eq, List.flatMap_append, List.mem_append] at hbefore hin hmoved ⊢
  tauto

theorem Accounts.enter {k : Kernel} {i : Instruction} {body' left : List Instruction}
    {gone gone' : List Operation} (hk : (ofKernel k).Accounts gone) (hi : i.Accounts gone')
    (hedit : (body' ++ left).Perm (k.body ++ [i])) :
    (ofKernel ⟨k.header.declare i.declared, body'⟩).Accounts (gone ++ gone' ++ left.flatMap leaves) := by
  refine Accounts.edit hk (fun x => ?_) hedit
  rw [Header.mem_vars_declare, hi x, List.flatMap_singleton]

theorem Edited.accounts {i : Instruction} {gone : List Operation} (hi : i.Edited gone) :
    i.Accounts gone := by
  induction hi with
  | operation op =>
    intro x
    simp [declared, leaves]
  | named name kind =>
    intro x
    simp [declared, leaves, leaves.leavesOf, ofKernel, Kernel.named]
  | @setEnabled i gone on _ hi => cases i <;> exact hi
  | @push k i gone gone' _ _ hk hi =>
    have hedit : (k.body ++ [i] ++ []).Perm (k.body ++ [i]) := by simp
    have hpush := hk.enter hi hedit
    rwa [List.flatMap_nil, List.append_nil] at hpush
  | @insert k k' i position gone gone' _ _ h hk hi =>
    rw [Kernel.insert] at h
    split at h
    · rename_i hlt
      cases h
      have hedit : (k.body.insertIdx position i ++ []).Perm (k.body ++ [i]) := by
        rw [List.append_nil]
        exact (List.perm_insertIdx i k.body hlt.le).trans (List.perm_append_singleton i k.body).symm
      have hinsert := hk.enter hi hedit
      rwa [List.flatMap_nil, List.append_nil] at hinsert
    · cases h
  | @replace k k' i old position gone gone' _ _ h hk hi =>
    rw [Kernel.replace] at h
    split at h
    · rename_i old' hold
      cases h
      obtain ⟨hlt, rfl⟩ := List.getElem?_eq_some_iff.mp hold
      have hset : (k.body.set position i).Perm (i :: k.body.eraseIdx position) :=
        List.set_perm_cons_eraseIdx hlt i
      have hold : (k.body.eraseIdx position ++ [k.body[position]]).Perm k.body :=
        (List.perm_append_singleton _ _).trans (List.getElem_cons_eraseIdx_perm hlt)
      have hedit : (k.body.set position i ++ [k.body[position]]).Perm (k.body ++ [i]) :=
        (hset.append_right _).trans ((hold.cons i).trans (List.perm_append_singleton i k.body).symm)
      have hreplace := hk.enter hi hedit
      rwa [List.flatMap_singleton] at hreplace
    · cases h
  | @remove k k' old position gone _ h hk =>
    rw [Kernel.remove] at h
    split at h
    · rename_i old' hold
      cases h
      obtain ⟨hlt, rfl⟩ := List.getElem?_eq_some_iff.mp hold
      have hedit : (k.body.eraseIdx position ++ [k.body[position]]).Perm (k.body ++ []) := by
        rw [List.append_nil]
        exact (List.perm_append_singleton _ _).trans (List.getElem_cons_eraseIdx_perm hlt)
      have hremove : (ofKernel { k with body := k.body.eraseIdx position }).Accounts
          (gone ++ [] ++ [k.body[position]].flatMap leaves) :=
        Accounts.edit hk (by simp) hedit
      rwa [List.append_nil, List.flatMap_singleton] at hremove
    · cases h

end Instruction

namespace Kernel

/-- The variables in the operations below, each once. -/
def usedVars (k : Kernel) : List String := (k.leaves.flatMap Operation.vars).dedup

theorem mem_usedVars {k : Kernel} {x : String} : x ∈ k.usedVars ↔ ∃ op ∈ k.leaves, x ∈ op.vars := by
  simp [usedVars]

/-- A kernel is bound exactly by lists of one value for each declared variable. -/
theorem Scoped.exists_evaluate_iff {k : Kernel} (hk : k.Scoped) {values : List Float} :
    (∃ k', k.evaluate values = .ok k') ↔ values.length = k.header.vars.length := by
  constructor
  · rintro ⟨k', h⟩
    by_contra hlen
    rw [evaluate_eq_error hlen] at h
    cases h
  · intro hlen
    obtain ⟨k', hk', -⟩ := hk.exists_evaluate hlen
    exact ⟨k', hk'⟩

theorem Scoped.evaluates_used_iff {k : Kernel} (hk : k.Scoped) :
    (∀ values, (∃ k', k.evaluate values = .ok k') ↔ values.length = k.usedVars.length) ↔
      k.header.vars ⊆ k.usedVars := by
  have hnodup := (Instruction.scoped_block.mp hk).1
  have hused : k.usedVars ⊆ k.header.vars := by
    intro x hx
    obtain ⟨op, hop, hx⟩ := mem_usedVars.mp hx
    exact Instruction.Scoped.vars_subset hk hop hx
  have hsub : k.usedVars.Subperm k.header.vars := List.Nodup.subperm (List.nodup_dedup _) hused
  simp only [hk.exists_evaluate_iff]
  constructor
  · intro h
    have hlen := (h (List.replicate k.header.vars.length 0)).mp List.length_replicate
    rw [List.length_replicate] at hlen
    exact (hsub.perm_of_length_le hlen.le).symm.subset
  · intro hdeclared values
    rw [(hnodup.subperm hdeclared).antisymm hsub |>.length_eq]

end Kernel

/-- A kernel that edits have made from empty ones declares, each once, the variables of the operations
in it and of those that have been taken out on the way. So these are the variables in use, and one
value for each variable in use is what binds the kernel, exactly if nothing that is gone had a
variable that is used nowhere now. -/
theorem declared_are_used_iff (k : Kernel) (gone : List Operation)
    (hk : (Instruction.ofKernel k).Edited gone) :
    k.header.vars.Nodup ∧
    (∀ x, x ∈ k.header.vars ↔ x ∈ k.usedVars ∨ ∃ op ∈ gone, x ∈ op.vars) ∧
    ((∀ x, x ∈ k.header.vars ↔ x ∈ k.usedVars) ↔ ∀ op ∈ gone, op.vars ⊆ k.usedVars) ∧
    ((∀ values, (∃ k', k.evaluate values = .ok k') ↔ values.length = k.usedVars.length) ↔
      ∀ op ∈ gone, op.vars ⊆ k.usedVars) := by
  have hscoped : k.Scoped := hk.built.scoped
  have hdeclared : ∀ x, x ∈ k.header.vars ↔ x ∈ k.usedVars ∨ ∃ op ∈ gone, x ∈ op.vars := by
    intro x
    have haccounts : x ∈ k.header.vars ↔ x ∈ (k.leaves ++ gone).flatMap Operation.vars := hk.accounts x
    rw [Kernel.mem_usedVars]
    simpa [or_and_right, exists_or] using haccounts
  have hgone : k.header.vars ⊆ k.usedVars ↔ ∀ op ∈ gone, op.vars ⊆ k.usedVars := by
    constructor
    · exact fun h op hop x hx => h ((hdeclared x).mpr (.inr ⟨op, hop, hx⟩))
    · intro h x hx
      rcases (hdeclared x).mp hx with hx | ⟨op, hop, hx⟩
      · exact hx
      · exact h op hop hx
  refine ⟨(Instruction.scoped_block.mp hscoped).1, hdeclared, ?_, hscoped.evaluates_used_iff.trans hgone⟩
  rw [← hgone]
  exact ⟨fun h x hx => (h x).mp hx, fun h x => ⟨fun hx => h hx, fun hx => (hdeclared x).mpr (.inl hx)⟩⟩

/-- A turn of the first qubit by an angle that is to be given. -/
def turn (gate angle : String) : Operation := { name := gate, bits := [0], parameters := [.text angle] }

theorem turn_vars {gate angle : String} (hfree : Parameter.isReserved (Text.trim angle) = false)
    (hangle : Formula.variablesOf angle = [angle]) : (turn gate angle).vars = [angle] := by
  simp [turn, Operation.vars, Parameter.vars, hfree, hangle]

def twoTurns : Kernel :=
  ((Kernel.named "k").push (.leaf (turn "Rx" "alpha"))).push (.leaf (turn "Ry" "beta"))

/-- Without the second turn, which alone had the second angle, the kernel still asks for two values. -/
theorem declared_are_used_iff_twoTurns :
    ∃ k, twoTurns.remove 1 = .ok (.leaf (turn "Ry" "beta"), k) ∧
      (Instruction.ofKernel k).Edited [turn "Ry" "beta"] ∧ k.usedVars = ["alpha"] ∧
      ¬ (∀ x, x ∈ k.header.vars ↔ x ∈ k.usedVars) ∧
      ¬ (∀ values, (∃ k', k.evaluate values = .ok k') ↔ values.length = k.usedVars.length) ∧
      k.evaluate [0.5] = .error (.arity "k" "parameters" 2 1) := by
  have halpha : (turn "Rx" "alpha").vars = ["alpha"] := turn_vars (by decide) (by cbv)
  have hbeta : (turn "Ry" "beta").vars = ["beta"] := turn_vars (by decide) (by cbv)
  have hturns : (Instruction.ofKernel twoTurns).Edited ([] ++ [] ++ []) :=
    .push (.push (.named "k" .gate) (.operation _)) (.operation _)
  have hremove : twoTurns.remove 1 =
      .ok (.leaf (turn "Ry" "beta"), { twoTurns with body := [.leaf (turn "Rx" "alpha")] }) := by
    simp [Kernel.remove, twoTurns, Kernel.push, Kernel.named]
  have hedited := hturns.remove hremove
  have hused : (Kernel.mk twoTurns.header [.leaf (turn "Rx" "alpha")]).usedVars = ["alpha"] := by
    simp [Kernel.usedVars, Kernel.leaves, Instruction.leaves.leavesOf, Instruction.leaves, halpha]
  have hvars : twoTurns.header.vars = ["alpha", "beta"] := by
    simp [twoTurns, Kernel.push, Kernel.named, Header.declare, Formula.addNames, Instruction.declared,
      halpha, hbeta]
  obtain ⟨-, -, hsame, hevaluates⟩ := declared_are_used_iff _ _ hedited
  have hstale : ¬ ∀ op ∈ [turn "Ry" "beta"], op.vars ⊆ ["alpha"] := by simp [hbeta]
  refine ⟨_, hremove, hedited, hused, ?_, ?_, ?_⟩
  · rw [hsame, hused]
    exact hstale
  · rw [hevaluates, hused]
    exact hstale
  · rw [Kernel.evaluate_eq_error (by simp [hvars]), hvars]
    rfl

end QuantumKernels
