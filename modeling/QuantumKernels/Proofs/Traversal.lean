import QuantumKernels.Kernel.Traversal
import QuantumKernels.Proofs.Tree

/-!
# Walks over kernels

A walk holds partly used lists, innermost first. What is still to be visited is what these lists hold, one
after the other, each block before its contents. So at every moment of any use, of copies too, what a walk has
visited and what it has left make up the listing of the kernel.
-/
namespace QuantumKernels

namespace Traversal

variable {pending after : List (List Instruction)} {i : Instruction}

/-- One instruction after the other is taken from what the lists hold. -/
theorem flatMap_preorder_of_advance (h : advance pending = some (i, after)) :
    pending.flatMap Instruction.preorder.preorderOf = i :: after.flatMap Instruction.preorder.preorderOf := by
  fun_induction advance pending with
  | case1 => cases h
  | case2 outer ih => exact ih h
  | case3 op rest outer =>
    cases h
    rfl
  | case4 hd body rest outer =>
    cases h
    simp [Instruction.preorder.preorderOf, Instruction.preorder]

theorem flatMap_preorder_of_none (h : advance pending = none) :
    pending.flatMap Instruction.preorder.preorderOf = [] := by
  fun_induction advance pending with
  | case1 => rfl
  | case2 outer ih => exact ih h
  | case3 => cases h
  | case4 => cases h

/-- A walk visits what its lists hold, the innermost first, each block before its contents. -/
theorem drain_eq (pending : List (List Instruction)) :
    drain pending = pending.flatMap Instruction.preorder.preorderOf := by
  fun_induction drain pending with
  | case1 pending h => exact (flatMap_preorder_of_none h).symm
  | case2 pending i after h hlt ih => rw [flatMap_preorder_of_advance h, ih]

theorem rest_ofKernel (k : Kernel) : (ofKernel k).rest = k.preorder := by
  rw [rest, drain_eq]
  exact List.flatMap_singleton ..

/-- A look at the lists tells whether a search through them will find an instruction. -/
theorem isSome_advance (pending : List (List Instruction)) :
    (advance pending).isSome = pending.any fun l => !l.isEmpty := by
  fun_induction advance pending with
  | case1 => rfl
  | case2 outer ih => simpa using ih
  | case3 => rfl
  | case4 => rfl

/-- How one turn of the search for the next instruction ends. -/
inductive Turn where
  | visits (i : Instruction) (pending : List (List Instruction))
  | again (pending : List (List Instruction))
  | exhausted

/-- The innermost list gives its first instruction, the contents of which come next; a list that is used up
is dropped. -/
def turn : List (List Instruction) → Turn
  | [] => .exhausted
  | [] :: outer => .again outer
  | (i :: rest) :: outer => .visits i ((i.kernel?.map Kernel.body).toList ++ rest :: outer)

/-- The search, given up after a number of turns: what is visited, if anything is left, and the lists then. -/
def search : ℕ → List (List Instruction) → Option (Option Instruction × List (List Instruction))
  | 0, _ => none
  | turns + 1, pending =>
    match turn pending with
    | .visits i after => some (some i, after)
    | .again outer => search turns outer
    | .exhausted => some (none, [])

/-- Every turn but the last drops a list, so the search ends by itself. -/
theorem search_eq {turns : ℕ} (h : pending.length < turns) :
    search turns pending = some (match advance pending with
      | some (i, after) => (some i, after)
      | none => (none, [])) := by
  induction turns generalizing pending with
  | zero => cases h
  | succ turns ih =>
    obtain _ | ⟨_ | ⟨_ | _, rest⟩, outer⟩ := pending
    · rfl
    · exact ih (Nat.lt_of_succ_lt_succ h)
    · rfl
    · rfl

/-- A walk in use, with what it has visited since it started last. -/
structure Progress where
  walk : Traversal
  visited : List Instruction

namespace Progress

def start (k : Kernel) : Progress := ⟨ofKernel k, []⟩

/-- One more instruction is visited, if one is left. -/
def next (w : Progress) : Option Instruction × Progress :=
  match w.walk.next? with
  | some (i, t) => (some i, ⟨t, w.visited ++ [i]⟩)
  | none => (none, { w with walk := w.walk.finished })

/-- What so many calls in a row answer. -/
def nexts : ℕ → Progress → List (Option Instruction)
  | 0, _ => []
  | m + 1, w => w.next.1 :: nexts m w.next.2

def restart (w : Progress) : Progress := ⟨w.walk.reset, []⟩

/-- What was visited and what is left make up the listing of the kernel. -/
structure Over (k : Kernel) (w : Progress) : Prop where
  root : w.walk.root = k.body
  listing : w.visited ++ w.walk.rest = k.preorder

theorem over_start (k : Kernel) : (start k).Over k := ⟨rfl, rest_ofKernel k⟩

theorem Over.restart {k : Kernel} {w : Progress} (h : w.Over k) : w.restart = start k := by
  rw [Progress.restart, reset, h.root]
  rfl

/-- The next instruction is the first of those that are left. -/
theorem next_cases (w : Progress) :
    (∃ i t, w.next = (some i, ⟨t, w.visited ++ [i]⟩) ∧ t.root = w.walk.root ∧ w.walk.rest = i :: t.rest) ∨
      (w.next = (none, ⟨w.walk.finished, w.visited⟩) ∧ w.walk.rest = []) := by
  rw [next, next?]
  cases h : advance w.walk.pending with
  | none => exact .inr ⟨rfl, (drain_eq _).trans (flatMap_preorder_of_none h)⟩
  | some found =>
    obtain ⟨i, after⟩ := found
    refine .inl ⟨i, { w.walk with pending := after }, rfl, rfl, ?_⟩
    rw [rest, rest, drain_eq, drain_eq, flatMap_preorder_of_advance h]

theorem rest_finished (t : Traversal) : t.finished.rest = [] := drain_eq []

theorem Over.next {k : Kernel} {w : Progress} (h : w.Over k) : w.next.2.Over k := by
  obtain ⟨i, t, hnext, hroot, hrest⟩ | ⟨hnext, hrest⟩ := w.next_cases
  · rw [hnext]
    refine ⟨hroot.trans h.root, ?_⟩
    rw [← h.listing, hrest, List.append_assoc, List.singleton_append]
  · rw [hnext]
    refine ⟨h.root, ?_⟩
    rw [← h.listing, hrest, rest_finished]

theorem nexts_eq (m : ℕ) (w : Progress) : w.nexts m = (List.range m).map fun j => w.walk.rest[j]? := by
  induction m generalizing w with
  | zero => rfl
  | succ m ih =>
    rw [nexts, ih, List.range_succ_eq_map, List.map_cons, List.map_map]
    obtain ⟨i, t, hnext, -, hrest⟩ | ⟨hnext, hrest⟩ := w.next_cases
    · rw [hnext, hrest]
      rfl
    · rw [hnext, hrest, rest_finished]
      rfl

/-- No instruction is left once as many have been visited as there are. -/
theorem Over.rest_eq_nil_iff {k : Kernel} {w : Progress} (h : w.Over k) :
    w.walk.rest = [] ↔ w.visited.length = k.preorder.length := by
  rw [← h.listing, List.length_append, ← List.length_eq_zero_iff]
  omega

theorem hasNext_eq_false_iff (w : Progress) : w.walk.hasNext = false ↔ w.walk.rest = [] := by
  rw [hasNext, ← isSome_advance, rest, drain_eq]
  cases h : advance w.walk.pending with
  | none => simp [flatMap_preorder_of_none h]
  | some found => simp [flatMap_preorder_of_advance h]

theorem hasNext_iff (w : Progress) : w.walk.hasNext = true ↔ ∃ i, w.next.1 = some i := by
  rw [hasNext, ← isSome_advance, next, next?]
  cases advance w.walk.pending <;> simp

end Progress

/-- What may be asked of a walk. -/
inductive Call where
  | next
  | hasNext
  | clone
  | reset

/-- A call of one of several walks, which are counted in the order in which they came to be. -/
def perform (walks : List Progress) (call : ℕ × Call) : List Progress :=
  match walks[call.1]?, call.2 with
  | some w, .next => walks.set call.1 w.next.2
  | some w, .reset => walks.set call.1 w.restart
  | some w, .clone => walks ++ [w]
  | some _, .hasNext | none, _ => walks

def performAll (walks : List Progress) (calls : List (ℕ × Call)) : List Progress := calls.foldl perform walks

theorem over_perform {k : Kernel} {walks : List Progress} (h : ∀ w ∈ walks, w.Over k) (call : ℕ × Call) :
    ∀ w ∈ perform walks call, w.Over k := by
  obtain ⟨n, call⟩ := call
  cases hwalk : walks[n]? with
  | none => simpa [perform, hwalk] using h
  | some w =>
    have hw := h w (List.mem_of_getElem? hwalk)
    cases call with
    | next =>
      intro w' hw'
      simp only [perform, hwalk] at hw'
      rcases List.mem_or_eq_of_mem_set hw' with hw' | rfl
      · exact h w' hw'
      · exact hw.next
    | reset =>
      intro w' hw'
      simp only [perform, hwalk] at hw'
      rcases List.mem_or_eq_of_mem_set hw' with hw' | rfl
      · exact h w' hw'
      · exact hw.restart ▸ Progress.over_start k
    | clone =>
      simp only [perform, hwalk]
      exact List.forall_mem_append.mpr ⟨h, by simpa using hw⟩
    | hasNext => simpa [perform, hwalk] using h

theorem over_performAll {k : Kernel} {walks : List Progress} (h : ∀ w ∈ walks, w.Over k) (calls : List (ℕ × Call)) :
    ∀ w ∈ performAll walks calls, w.Over k := by
  induction calls generalizing walks with
  | nil => exact h
  | cons call rest ih => exact ih (over_perform h call)

/-- A call leaves all walks alone but the one that is called. -/
theorem getElem?_perform {walks : List Progress} {n : ℕ} {w : Progress} (h : walks[n]? = some w)
    {call : ℕ × Call} (hne : call.1 ≠ n) : (perform walks call)[n]? = some w := by
  obtain ⟨other, call⟩ := call
  obtain ⟨hlt, -⟩ := List.getElem?_eq_some_iff.mp h
  cases hwalk : walks[other]? with
  | none => simpa [perform, hwalk] using h
  | some w' =>
    cases call with
    | next | reset =>
      simp only [perform, hwalk]
      rw [List.getElem?_set_ne hne, h]
    | clone =>
      simp only [perform, hwalk]
      rw [List.getElem?_append_left hlt, h]
    | hasNext => simpa [perform, hwalk] using h

theorem getElem?_performAll {walks : List Progress} {n : ℕ} {w : Progress} (h : walks[n]? = some w)
    {calls : List (ℕ × Call)} (hne : ∀ call ∈ calls, call.1 ≠ n) : (performAll walks calls)[n]? = some w := by
  induction calls generalizing walks with
  | nil => exact h
  | cons call rest ih =>
    obtain ⟨hfirst, hrest⟩ := List.forall_mem_cons.mp hne
    exact ih (getElem?_perform h hfirst) hrest

end Traversal

/-- The number of instructions in a tree, blocks and their contents counted. -/
def Instruction.nodes : Instruction → ℕ
  | leaf _ => 1
  | block _ body => 1 + nodesOf body
where
  nodesOf : List Instruction → ℕ
    | [] => 0
    | i :: rest => i.nodes + nodesOf rest

def Kernel.nodes (k : Kernel) : ℕ := Instruction.nodes.nodesOf k.body

theorem Instruction.length_preorderOf {body : List Instruction}
    (h : ∀ i ∈ body, i.preorder.length = i.nodes) : (preorder.preorderOf body).length = nodes.nodesOf body := by
  induction body with
  | nil => rfl
  | cons i rest ih =>
    obtain ⟨hfirst, hrest⟩ := List.forall_mem_cons.mp h
    rw [preorder.preorderOf, List.length_append, hfirst, ih hrest, nodes.nodesOf]

theorem Instruction.length_preorder (i : Instruction) : i.preorder.length = i.nodes := by
  induction i using tree_induction with
  | leaf op => rfl
  | block h body ih => rw [preorder, List.length_cons, length_preorderOf ih, nodes, Nat.add_comm]

theorem Kernel.length_preorder (k : Kernel) : k.preorder.length = k.nodes :=
  Instruction.length_preorderOf fun i _ => i.length_preorder

namespace Traversal

/-- Whatever is asked of a walk over a kernel and of copies of it, in any order: what each has visited since it
started last is an initial part of the listing of the kernel, and asked for more it goes on with the rest, and
answers nothing after that. Each search ends after one turn for each list at most, and one more. A walk knows
whether an instruction is left, and none is when as many have been visited as there are in the tree. Restarted it
is as at first; a copy has visited and has left the same, and no call of it changes the walk it was made of. -/
theorem walks_follow_preorder (k : Kernel) (calls : List (ℕ × Call)) :
    let walks := performAll [.start k] calls
    k.preorder.length = k.nodes ∧
    ∀ n w, walks[n]? = some w →
      (w.visited <+: k.preorder ∧ w.walk.rest = k.preorder.drop w.visited.length) ∧
      (∀ m, w.nexts m = (List.range m).map fun j => k.preorder[w.visited.length + j]?) ∧
      (∀ turns, w.walk.pending.length < turns →
        search turns w.walk.pending = some (w.next.1, w.next.2.walk.pending)) ∧
      (w.walk.hasNext = true ↔ ∃ i, w.next.1 = some i) ∧
      (w.walk.hasNext = false ↔ w.visited.length = k.nodes) ∧
      (perform walks (n, .reset))[n]? = some (.start k) ∧
      perform walks (n, .clone) = walks ++ [w] ∧
      ∀ later, (∀ call ∈ later, call.1 ≠ n) → (performAll walks later)[n]? = some w := by
  refine ⟨k.length_preorder, fun n w hwalk => ?_⟩
  have hover : w.Over k :=
    over_performAll (by simpa using Progress.over_start k) calls w (List.mem_of_getElem? hwalk)
  have hrest : w.walk.rest = k.preorder.drop w.visited.length := by
    rw [← hover.listing, List.drop_left]
  refine ⟨⟨⟨_, hover.listing⟩, hrest⟩, fun m => ?_, fun turns hturns => ?_, w.hasNext_iff, ?_, ?_, ?_,
    fun later hne => getElem?_performAll hwalk hne⟩
  · rw [w.nexts_eq, hrest]
    exact List.map_congr_left fun j _ => List.getElem?_drop
  · rw [search_eq hturns, Progress.next, next?]
    cases advance w.walk.pending <;> rfl
  · rw [w.hasNext_eq_false_iff, hover.rest_eq_nil_iff, k.length_preorder]
  · simp only [perform, hwalk]
    rw [List.getElem?_set_self (List.getElem?_eq_some_iff.mp hwalk).1, hover.restart]
  · simp only [perform, hwalk]

/-- An operation, a block with nothing in it, and a block with an operation. -/
def walkedKernel : Kernel where
  header := { name := "outer" }
  body := [.leaf { name := "X", bits := [0] }, .block { name := "empty" } [],
    .block { name := "inner" } [.leaf { name := "CY", bits := [1, 2] }]]

/-- The copy of a walk goes on while the walk is restarted. -/
theorem walks_follow_preorder_copied :
    let walks := performAll [.start walkedKernel] [(0, .next), (0, .next), (0, .clone), (1, .next), (0, .reset)]
    ∃ w, walks[1]? = some w ∧ w.visited.map Instruction.name = ["X", "empty", "inner"] ∧
      w.nexts 2 = [some (.leaf { name := "CY", bits := [1, 2] }), none] ∧ w.visited.length ≠ walkedKernel.nodes ∧
      w.walk.hasNext = true ∧ (performAll walks [(0, .next), (0, .next)])[1]? = some w := by
  refine ⟨_, rfl, rfl, ?_⟩
  obtain ⟨-, hwalks⟩ := walks_follow_preorder walkedKernel
    [(0, .next), (0, .next), (0, .clone), (1, .next), (0, .reset)]
  obtain ⟨-, hnexts, -, -, hend, -, -, hlater⟩ := hwalks 1 _ rfl
  have hlength : 3 ≠ walkedKernel.nodes := by decide
  have hmore := mt hend.mp hlength
  exact ⟨hnexts 2, hlength, by simpa using hmore, hlater [(0, .next), (0, .next)] (by simp)⟩

end Traversal

end QuantumKernels
