import QuantumKernels.Proofs.Scope

/-!
# Edits in place

An edit checks its position, declares the variables of what enters and then changes the list of
instructions, in this order. So one that is refused has changed nothing, and any history of edits
makes of the instructions what the same operations make of a list.
-/
namespace QuantumKernels

/-- The names that are not known yet come after those that are, each at its first occurrence. -/
theorem Formula.addNames_eq (known names : List String) :
    addNames known names = known ++ (names.filter (· ∉ known)).eraseDups := by
  induction names generalizing known with
  | nil => simp [addNames]
  | cons name rest ih =>
    have hstep : addNames known (name :: rest) =
        addNames (if known.contains name then known else known ++ [name]) rest := rfl
    rw [hstep, ih]
    by_cases hknown : name ∈ known
    · simp [hknown]
    · have hfirst : (if known.contains name then known else known ++ [name]) = known ++ [name] := by
        simp [hknown]
      have hrest : rest.filter (· ∉ known ++ [name]) = (rest.filter (· ∉ known)).filter (!· == name) := by
        rw [List.filter_filter]
        refine List.filter_congr fun other _ => ?_
        by_cases hother : other = name <;> simp [hother]
      rw [hfirst, hrest, List.filter_cons_of_pos (by simpa using hknown), List.eraseDups_cons,
        List.append_assoc, List.singleton_append]

/-- A call that edits a kernel. -/
inductive Edit where
  | push (i : Instruction)
  | insert (position : ℕ) (i : Instruction)
  | replace (position : ℕ) (i : Instruction)
  | remove (position : ℕ)

/-- An edit as the kernel's own functions do it, with the instruction it takes out. -/
def Kernel.edit (k : Kernel) : Edit → Except KernelError (Option Instruction × Kernel)
  | .push i => .ok (none, k.push i)
  | .insert position i => (k.insert position i).map fun k' => (none, k')
  | .replace position i => (k.replace position i).map fun (old, k') => (some old, k')
  | .remove position => (k.remove position).map fun (old, k') => (some old, k')

namespace Edit

/-- Work on one kernel; what is changed before a failure stays so. -/
abbrev InPlace := ExceptT KernelError (StateM Kernel)

def checkPosition (position : ℕ) : InPlace Unit := do
  let k ← get
  if k.size ≤ position then throw (k.outOfRange position)

def declare (i : Instruction) : InPlace Unit :=
  modify fun k => { k with header := k.header.declare i.declared }

def rewrite (f : List Instruction → List Instruction) : InPlace Unit :=
  modify fun k => { k with body := f k.body }

/-- One edit, with the instruction it takes out. -/
def perform : Edit → InPlace (Option Instruction)
  | push i => do
    declare i
    rewrite (· ++ [i])
    return none
  | insert position i => do
    checkPosition position
    declare i
    rewrite (·.insertIdx position i)
    return none
  | replace position i => do
    checkPosition position
    declare i
    let old := (← get).body[position]?
    rewrite (·.set position i)
    return old
  | remove position => do
    checkPosition position
    let old := (← get).body[position]?
    rewrite (·.eraseIdx position)
    return old

/-- What a history of edits makes of a kernel. After an edit that fails the next one is tried. -/
def performAll (history : List Edit) (k : Kernel) : Kernel :=
  history.foldl (fun k e => ((perform e).run k).2) k

/-- The position that has to exist. -/
def position? : Edit → Option ℕ
  | push _ => none
  | insert position _ | replace position _ | remove position => some position

/-- The variables that an edit brings. -/
def brings : Edit → List String
  | push i | insert _ i | replace _ i => i.declared
  | remove _ => []

/-- The list operation that is the edit. A position beyond the list changes nothing. -/
def onList (l : List Instruction) : Edit → List Instruction
  | push i => l ++ [i]
  | insert position i => if position < l.length then l.take position ++ i :: l.drop position else l
  | replace position i => if position < l.length then l.take position ++ i :: l.drop (position + 1) else l
  | remove position => l.take position ++ l.drop (position + 1)

/-- The instruction of a list that the edit takes out. -/
def displaced (l : List Instruction) : Edit → Option Instruction
  | push _ | insert .. => none
  | replace position _ | remove position => l[position]?

/-- What comes of an edit, by its position and by what it does to lists: a position that does not
exist is refused, and the header only gains the variables of what enters that are not declared yet. -/
def Outcome (k : Kernel) (e : Edit) : Except KernelError (Option Instruction) × Kernel → Prop
  | (.error error, after) =>
    ∃ position, e.position? = some position ∧ k.size ≤ position ∧
      error = .outOfRange position k.size k.name ∧ after = k
  | (.ok old, after) =>
    (∀ position, e.position? = some position → position < k.size) ∧
    old = e.displaced k.body ∧
    after.body = e.onList k.body ∧
    after.header = { k.header with
      vars := k.header.vars ++ (e.brings.filter (· ∉ k.header.vars)).eraseDups }

/-- Nothing is changed before the position is checked. -/
theorem run_checkPosition_bind {α : Type} (position : ℕ) (work : InPlace α) (k : Kernel) :
    (do checkPosition position; work).run k =
      if position < k.size then work.run k else (.error (k.outOfRange position), k) := by
  let check : InPlace Unit := if k.size ≤ position then throw (k.outOfRange position) else pure ()
  have hcheck : (do checkPosition position; work).run k = (do check; work).run k := rfl
  rw [hcheck]
  by_cases h : k.size ≤ position
  · rw [show check = throw (k.outOfRange position) from if_pos h, if_neg (by omega)]
    rfl
  · rw [show check = pure () from if_neg h, if_pos (by omega)]
    rfl

/-- Working in place comes to the same as the kernel's own functions, and a failure leaves the kernel. -/
theorem run_perform (e : Edit) (k : Kernel) :
    (perform e).run k =
      match k.edit e with
      | .ok (old, k') => (.ok old, k')
      | .error error => (.error error, k) := by
  cases e with
  | push i => rfl
  | insert position i =>
    rw [perform, run_checkPosition_bind, Kernel.edit, Kernel.insert]
    split_ifs <;> rfl
  | replace position i =>
    rw [perform, run_checkPosition_bind, Kernel.edit, Kernel.replace]
    split_ifs with h
    · change (Except.ok k.body[position]?, _) = _
      rw [List.getElem?_eq_getElem h]
      rfl
    · rw [List.getElem?_eq_none (by simpa [Kernel.size] using h)]
      rfl
  | remove position =>
    rw [perform, run_checkPosition_bind, Kernel.edit, Kernel.remove]
    split_ifs with h
    · change (Except.ok k.body[position]?, _) = _
      rw [List.getElem?_eq_getElem h]
      rfl
    · rw [List.getElem?_eq_none (by simpa [Kernel.size] using h)]
      rfl

theorem onList_of_le {e : Edit} {position : ℕ} {l : List Instruction} (hposition : e.position? = some position)
    (h : l.length ≤ position) : e.onList l = l := by
  have hbeyond : ¬ position < l.length := by omega
  cases e <;> cases hposition
  · exact if_neg hbeyond
  · exact if_neg hbeyond
  · rw [onList, List.take_of_length_le h, List.drop_of_length_le (by omega), List.append_nil]

theorem insertIdx_eq_take_drop {α : Type} {l : List α} {position : ℕ} (x : α) (h : position ≤ l.length) :
    l.insertIdx position x = l.take position ++ x :: l.drop position := by
  obtain ⟨before, after, rfl, rfl, hinsert⟩ := List.exists_of_modifyTailIdx (List.cons x) h
  rw [List.take_left, List.drop_left]
  exact hinsert

theorem header_declare_eq (h : Header) (names : List String) :
    h.declare names = { h with vars := h.vars ++ (names.filter (· ∉ h.vars)).eraseDups } := by
  rw [Header.declare, Formula.addNames_eq]

theorem outcome_of_checked {e : Edit} {k k' : Kernel} {position : ℕ} (hposition : e.position? = some position)
    (hbody : position < k.size → k'.body = e.onList k.body) (hheader : k'.header = k.header.declare e.brings) :
    e.Outcome k (if position < k.size then (.ok (e.displaced k.body), k')
      else (.error (k.outOfRange position), k)) := by
  split_ifs with h
  · refine ⟨fun p hp => ?_, rfl, hbody h, hheader.trans (header_declare_eq ..)⟩
    rw [hposition] at hp
    exact Option.some.inj hp ▸ h
  · exact ⟨position, hposition, by omega, rfl, rfl⟩

theorem outcome_perform (e : Edit) (k : Kernel) : e.Outcome k ((perform e).run k) := by
  cases e with
  | push i => exact ⟨nofun, rfl, rfl, header_declare_eq ..⟩
  | insert position i =>
    rw [perform, run_checkPosition_bind]
    refine outcome_of_checked (e := .insert position i) rfl (fun h => ?_) rfl
    exact (insertIdx_eq_take_drop i h.le).trans (if_pos h).symm
  | replace position i =>
    rw [perform, run_checkPosition_bind]
    exact outcome_of_checked (e := .replace position i) rfl (fun _ => List.set_eq_take_append_cons_drop ..) rfl
  | remove position =>
    rw [perform, run_checkPosition_bind]
    exact outcome_of_checked (e := .remove position) rfl (fun _ => List.eraseIdx_eq_take_drop_succ ..) rfl

/-- One edit, refused or not: the list operation, under the same name and with duplicates among the
variables only if there were some. -/
theorem perform_keeps (e : Edit) (k : Kernel) :
    ((perform e).run k).2.body = e.onList k.body ∧ ((perform e).run k).2.name = k.name ∧
      (((perform e).run k).2.header.vars.Nodup ↔ k.header.vars.Nodup) := by
  have houtcome := outcome_perform e k
  generalize (perform e).run k = result at houtcome
  obtain ⟨error | old, after⟩ := result
  · obtain ⟨position, hposition, hsize, -, rfl⟩ := houtcome
    exact ⟨(onList_of_le hposition hsize).symm, rfl, Iff.rfl⟩
  · obtain ⟨-, -, hbody, hheader⟩ := houtcome
    refine ⟨hbody, by rw [Kernel.name, hheader]; rfl, ?_⟩
    rw [hheader]
    refine ⟨List.Nodup.of_append_left, fun h => ?_⟩
    rw [← Formula.addNames_eq]
    exact Formula.nodup_addNames h

theorem performAll_keeps (history : List Edit) (k : Kernel) :
    (performAll history k).body = history.foldl onList k.body ∧ (performAll history k).name = k.name ∧
      ((performAll history k).header.vars.Nodup ↔ k.header.vars.Nodup) := by
  induction history generalizing k with
  | nil => exact ⟨rfl, rfl, Iff.rfl⟩
  | cons e rest ih =>
    obtain ⟨hbody, hname, hnodup⟩ := perform_keeps e k
    obtain ⟨hbodies, hnames, hnodups⟩ := ih ((perform e).run k).2
    exact ⟨hbodies.trans (by rw [hbody, List.foldl_cons]), hnames.trans hname, hnodups.trans hnodup⟩

end Edit

theorem Kernel.instruction_eq (k : Kernel) (position : ℕ) : k.instruction position =
    if h : position < k.body.length then .ok k.body[position]
    else .error (.outOfRange position k.body.length k.name) := by
  rw [instruction]
  split_ifs with h
  · rw [List.getElem?_eq_getElem h]
  · rw [List.getElem?_eq_none (by omega)]
    rfl

/-- Whatever edits came before, accepted or not, the instructions are what the same operations make of
a list, and no variable is declared twice unless one was at first. A position is refused, for reading
as for an edit, exactly if it is not below the number of instructions, and the kernel is then left as
it is. Otherwise an edit gives the instruction it takes out, and declares after the variables there are
those that are new, each at its first occurrence. -/
theorem edits_follow_lists (k : Kernel) (history : List Edit) :
    let now := Edit.performAll history k
    now.body = history.foldl Edit.onList k.body ∧
    (now.header.vars.Nodup ↔ k.header.vars.Nodup) ∧
    (∀ position, now.instruction position =
      if h : position < now.body.length then .ok now.body[position]
      else .error (.outOfRange position now.body.length k.name)) ∧
    ∀ e, e.Outcome now ((Edit.perform e).run now) ∧
      (Edit.perform e).run now =
        match now.edit e with
        | .ok (old, after) => (.ok old, after)
        | .error error => (.error error, now) := by
  obtain ⟨hbody, hname, hnodup⟩ := Edit.performAll_keeps history k
  refine ⟨hbody, hnodup, fun position => ?_, fun e => ⟨e.outcome_perform _, e.run_perform _⟩⟩
  rw [Kernel.instruction_eq, hname]

end QuantumKernels
