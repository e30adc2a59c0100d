import QuantumKernels.Kernel.Folding
import QuantumKernels.Proofs.Scope

/-!
# Folding by edits

Folding goes over the positions of a kernel, from the last to the first, and edits as it goes. No
edit is refused, since it stands behind all positions still to come. What an edit puts in declares
its variables, so the kernel that is made may declare more of them than before; in all else it is
the folded kernel, and where every variable is declared it is just that.
-/
namespace QuantumKernels

theorem insertIdx_length_append {α : Type} (before after : List α) (a : α) :
    (before ++ after).insertIdx before.length a = before ++ a :: after := by
  induction before with
  | nil => simp
  | cons b rest ih => simp [ih]

namespace Kernel

theorem instruction_at_length (h : Header) (before after : List Instruction) (i : Instruction) :
    (Kernel.mk h (before ++ i :: after)).instruction before.length = .ok i := by
  simp [instruction]

theorem insert_at_length (h : Header) (i : Instruction) (before : List Instruction) {after : List Instruction}
    (hafter : after ≠ []) : (Kernel.mk h (before ++ after)).insert before.length i =
      .ok ⟨h.declare i.declared, before ++ i :: after⟩ := by
  have hlt : before.length < (Kernel.mk h (before ++ after)).size := by
    have := List.length_pos_iff.mpr hafter
    rw [size, List.length_append]
    omega
  rw [insert, if_pos hlt, insertIdx_length_append]

theorem replace_at_length (h : Header) (i old : Instruction) (before after : List Instruction) :
    (Kernel.mk h (before ++ old :: after)).replace before.length i =
      .ok (old, ⟨h.declare i.declared, before ++ i :: after⟩) := by
  simp [replace]

end Kernel

theorem Header.declare_of_subset {h : Header} {names : List String} (hnames : names ⊆ h.vars) :
    h.declare names = h := by
  rw [declare, Formula.addNames_of_subset hnames]

/-- The same header, except that it may declare other variables. -/
def Header.MatchesButVars (h h' : Header) : Prop := h' = { h with vars := h'.vars }

theorem Header.matchesButVars_declare (h : Header) (names : List String) : h.MatchesButVars (h.declare names) := rfl

theorem Header.MatchesButVars.trans {h h' h'' : Header} (hh : h.MatchesButVars h') (hh' : h'.MatchesButVars h'') :
    h.MatchesButVars h'' := by
  rw [MatchesButVars, hh', hh]

namespace Instruction

/-- The same instruction, except that its blocks may declare other variables. -/
inductive MatchesButVars : Instruction → Instruction → Prop
  | leaf (op : Operation) : MatchesButVars (leaf op) (leaf op)
  | block {h h' : Header} {body body' : List Instruction} (header : h.MatchesButVars h')
      (inside : List.Forall₂ MatchesButVars body body') : MatchesButVars (block h body) (block h' body')

/-- The same operations take part. -/
theorem MatchesButVars.operations_eq {i j : Instruction} (h : MatchesButVars i j) : j.operations = i.operations := by
  induction i using tree_induction generalizing j with
  | leaf op =>
    cases h
    rfl
  | block hd body ih =>
    cases h with
    | @block _ hd' _ body' header inside =>
      have henabled : hd'.enabled = hd.enabled := by rw [header]
      have hinside : operations.operationsOf body' = operations.operationsOf body := by
        rw [operationsOf_eq, operationsOf_eq, List.flatMap_def, List.flatMap_def]
        refine congrArg List.flatten (map_eq_map_iff_forall₂.mpr ?_).symm
        exact (forall₂_with_mem inside).imp fun i j hij => (ih i hij.1 hij.2).symm
      rw [operations, operations, henabled, hinside]

theorem fold_foldOf_cons (scale : ℕ) (i : Instruction) (rest : List Instruction) :
    fold.foldOf scale (i :: rest) = i.fold scale ++ fold.foldOf scale rest := rfl

/-- A gate comes in one more copy than are put before it. -/
theorem fold_of_foldable {scale : ℕ} {op : Operation} (hop : op.isFoldable = true) :
    (leaf op).fold scale = List.replicate (scale - 1) (leaf op) ++ [leaf op] := by
  rw [fold, if_pos hop, ← List.replicate_succ']
  congr 1
  omega

/-- Copies are put before what stands at a position, and declare their variables there. -/
theorem insert_copies (h : Header) (i : Instruction) (copies : ℕ) (before : List Instruction)
    {after : List Instruction} (hafter : after ≠ []) : ∃ h' : Header, h.MatchesButVars h' ∧
      (i.declared ⊆ h.vars → h' = h) ∧
      (List.replicate copies i).foldlM (fun k copy => Kernel.insert k before.length copy)
        (Kernel.mk h (before ++ after)) = .ok ⟨h', before ++ (List.replicate copies i ++ after)⟩ := by
  induction copies generalizing h after with
  | zero => exact ⟨h, rfl, fun _ => rfl, rfl⟩
  | succ copies ih =>
    obtain ⟨h', hmatches, hsame, hcopies⟩ := ih (h.declare i.declared) (List.cons_ne_nil i after)
    refine ⟨h', (h.matchesButVars_declare _).trans hmatches, fun hdeclared => ?_, ?_⟩
    · rw [Header.declare_of_subset hdeclared] at hsame
      exact hsame hdeclared
    · have hsplit : List.replicate copies i ++ i :: after = List.replicate (copies + 1) i ++ after := by
        rw [List.replicate_succ', List.append_assoc, List.singleton_append]
      rw [← hsplit, ← hcopies, List.replicate_succ, List.foldlM_cons, Kernel.insert_at_length h i before hafter]
      rfl

/-- Whatever stands before the part that is folded, the edits make the folded part of it. -/
theorem exists_foldFrom {scale : ℕ} {body : List Instruction}
    (inside : ∀ hd inner, block hd inner ∈ body → ∃ j, (block hd inner).foldInPlace scale = .ok j ∧
      MatchesButVars (block hd (fold.foldOf scale inner)) j) (h : Header) (before : List Instruction) :
    ∃ h' after, h.MatchesButVars h' ∧ List.Forall₂ MatchesButVars (fold.foldOf scale body) after ∧
      foldInPlace.foldFrom scale ⟨h, before ++ body⟩ before.length body = .ok ⟨h', before ++ after⟩ := by
  induction body generalizing before with
  | nil => exact ⟨h, [], rfl, .nil, rfl⟩
  | cons i rest ih =>
    -- those behind are folded first, with one more instruction before them
    obtain ⟨h₁, after, hheader, hafter, hrest⟩ :=
      ih (fun hd inner hj => inside hd inner (by simp [hj])) (before ++ [i])
    simp only [List.append_assoc, List.singleton_append, List.length_append, List.length_singleton] at hrest
    have hread := Kernel.instruction_at_length h₁ before after i
    cases i with
    | leaf op =>
      by_cases hop : op.isFoldable = true
      · obtain ⟨h₂, hcopied, -, hcopies⟩ :=
          insert_copies h₁ (leaf op) (scale - 1) before (List.cons_ne_nil (leaf op) after)
        refine ⟨h₂, List.replicate (scale - 1) (leaf op) ++ leaf op :: after, hheader.trans hcopied, ?_, ?_⟩
        · rw [fold_foldOf_cons, fold_of_foldable hop, List.append_assoc, List.singleton_append]
          refine List.rel_append (List.forall₂_same.mpr fun j hj => ?_) (.cons (.leaf op) hafter)
          rw [List.eq_of_mem_replicate hj]
          exact .leaf op
        · refine bind_eq_ok_iff.mpr ⟨_, hrest, bind_eq_ok_iff.mpr ⟨_, hread, ?_⟩⟩
          dsimp only
          rw [if_pos hop, hcopies]
      · refine ⟨h₁, leaf op :: after, hheader, ?_, ?_⟩
        · rw [fold_foldOf_cons, fold, if_neg hop]
          exact .cons (.leaf op) hafter
        · refine bind_eq_ok_iff.mpr ⟨_, hrest, bind_eq_ok_iff.mpr ⟨_, hread, ?_⟩⟩
          dsimp only
          rw [if_neg hop]
          rfl
    | block hd inner =>
      obtain ⟨j, hj, hmatches⟩ := inside hd inner (by simp)
      refine ⟨h₁.declare j.declared, j :: after, hheader.trans (h₁.matchesButVars_declare _), ?_, ?_⟩
      · rw [fold_foldOf_cons, fold]
        exact .cons hmatches hafter
      · have hreplace := Kernel.replace_at_length h₁ j (block hd inner) before after
        exact bind_eq_ok_iff.mpr ⟨_, hrest, bind_eq_ok_iff.mpr ⟨_, hread,
          bind_eq_ok_iff.mpr ⟨_, hj, bind_eq_ok_iff.mpr ⟨_, hreplace, rfl⟩⟩⟩⟩

theorem exists_foldInPlace_block (scale : ℕ) (h : Header) (body : List Instruction) :
    ∃ j, (Instruction.block h body).foldInPlace scale = .ok j ∧
      MatchesButVars (block h (fold.foldOf scale body)) j := by
  generalize hi : Instruction.block h body = i
  induction i using tree_induction generalizing h body with
  | leaf op => cases hi
  | block h' body' ih =>
    cases hi
    obtain ⟨folded, after, hheader, hafter, hbody⟩ :=
      exists_foldFrom (fun hd inner hmem => ih _ hmem hd inner rfl) h' []
    exact ⟨block folded after, map_eq_ok_iff.mpr ⟨_, hbody, rfl⟩, .block hheader hafter⟩

theorem foldFrom_of_declared {scale : ℕ} {h : Header} {body : List Instruction}
    (hdeclared : ∀ i ∈ body, i.declared ⊆ h.vars)
    (inside : ∀ hd inner, block hd inner ∈ body →
      (block hd inner).foldInPlace scale = .ok (block hd (fold.foldOf scale inner)))
    (before : List Instruction) : foldInPlace.foldFrom scale ⟨h, before ++ body⟩ before.length body =
      .ok ⟨h, before ++ fold.foldOf scale body⟩ := by
  induction body generalizing before with
  | nil => rfl
  | cons i rest ih =>
    have hrest := ih (fun j hj => hdeclared j (by simp [hj]))
      (fun hd inner hj => inside hd inner (by simp [hj])) (before ++ [i])
    simp only [List.append_assoc, List.singleton_append, List.length_append, List.length_singleton] at hrest
    have hread := Kernel.instruction_at_length h before (fold.foldOf scale rest) i
    refine bind_eq_ok_iff.mpr ⟨_, hrest, bind_eq_ok_iff.mpr ⟨_, hread, ?_⟩⟩
    rw [fold_foldOf_cons]
    cases i with
    | leaf op =>
      have hop := hdeclared (leaf op) (by simp)
      dsimp only
      split
      · rename_i hfoldable
        obtain ⟨h', -, hsame, hcopies⟩ :=
          insert_copies h (leaf op) (scale - 1) before (List.cons_ne_nil (leaf op) (fold.foldOf scale rest))
        rw [hcopies, hsame hop, fold_of_foldable hfoldable, List.append_assoc, List.singleton_append]
      · rename_i hfoldable
        rw [fold, if_neg hfoldable]
        rfl
    | block hd inner =>
      have hop : (block hd (fold.foldOf scale inner)).declared ⊆ h.vars :=
        hdeclared (block hd inner) (by simp)
      rw [fold, List.singleton_append]
      dsimp only
      rw [inside hd inner (by simp)]
      have hreplace := Kernel.replace_at_length h (block hd (fold.foldOf scale inner)) (block hd inner) before
        (fold.foldOf scale rest)
      rw [Header.declare_of_subset hop] at hreplace
      exact bind_eq_ok_iff.mpr ⟨_, rfl, bind_eq_ok_iff.mpr ⟨_, hreplace, rfl⟩⟩

theorem foldInPlace_block {scale : ℕ} {h : Header} {body : List Instruction}
    (hblock : (Instruction.block h body).Scoped) :
    (Instruction.block h body).foldInPlace scale = .ok (.block h (fold.foldOf scale body)) := by
  generalize hi : Instruction.block h body = i at hblock
  induction i using tree_induction generalizing h body with
  | leaf op => cases hi
  | block h' body' ih =>
    cases hi
    obtain ⟨-, hdeclared, hinside⟩ := scoped_block.mp hblock
    have hbody := foldFrom_of_declared hdeclared (fun hd inner hmem => ih _ hmem rfl (hinside _ hmem)) []
    exact map_eq_ok_iff.mpr ⟨_, hbody, rfl⟩

end Instruction

/-- No edit is refused, and apart from the variables that are declared, the edits make the folded kernel. -/
theorem Kernel.exists_foldInPlace (k : Kernel) (scale : ℕ) :
    ∃ folded, k.foldInPlace scale = .ok folded ∧ k.header.MatchesButVars folded.header ∧
      List.Forall₂ Instruction.MatchesButVars (k.fold scale).body folded.body := by
  obtain ⟨h', after, hheader, hafter, hfolded⟩ := Instruction.exists_foldFrom
    (fun hd inner _ => Instruction.exists_foldInPlace_block scale hd inner) k.header []
  exact ⟨⟨h', after⟩, hfolded, hheader, hafter⟩

/-- The operations that take part are those of the folded kernel, whatever is declared. -/
theorem Kernel.operations_foldInPlace {k folded : Kernel} {scale : ℕ} (h : k.foldInPlace scale = .ok folded) :
    folded.operations = (k.fold scale).operations := by
  obtain ⟨folded', hfolded, -, hbody⟩ := k.exists_foldInPlace scale
  cases h.symm.trans hfolded
  rw [operations_eq, operations_eq, List.flatMap_def, List.flatMap_def]
  exact congrArg List.flatten (map_eq_map_iff_forall₂.mpr (hbody.imp fun i j hij => hij.operations_eq.symm)).symm

/-- Where all variables are declared, the edits make the folded kernel. -/
theorem Kernel.Scoped.foldInPlace {k : Kernel} (hk : k.Scoped) (scale : ℕ) :
    k.foldInPlace scale = .ok (k.fold scale) := by
  obtain ⟨-, hdeclared, hinside⟩ := Instruction.scoped_block.mp hk
  exact Instruction.foldFrom_of_declared hdeclared
    (fun hd inner hmem => Instruction.foldInPlace_block (hinside _ hmem)) []

end QuantumKernels
