import QuantumKernels.Proofs.Accelerator.Batch
import QuantumKernels.Proofs.Simulator.Needs
import QuantumKernels.Proofs.Tree

/-!
# What the local simulator runs

Three tables decide whether a kernel runs: the kinds operations are built from, the widths a plan is
checked against and the gates that states are changed by. For each known kind they agree, so what is
built as its kind runs, and what does not fit its kind is refused. Two things may go wrong beyond them: a
reading whose probability is no number, and a readout error above one. One thing is let through: a kernel
that reads the greatest word as a qubit and has no gates.
-/
namespace QuantumKernels

namespace Plan

variable {op : Operation} {p : Plan}

/-- The register has room for its qubits, and each measurement names a qubit and a slot. -/
structure Plannable (k : Kernel) (size limit : ℕ) : Prop where
  size : Word.wrap (widthOf (k.operations.flatMap Operation.bits)) ≤ size
  limit : Word.wrap (widthOf (k.operations.flatMap Operation.bits)) ≤ limit
  reads : ∀ op ∈ k.operations, op.isMeasure = true → op.slot?.isSome ∧ op.bits ≠ []

theorem readoutOf_ok_iff {kernel : String} : (∃ e, readoutOf kernel op = .ok e) ↔ op.slot?.isSome ∧ op.bits ≠ [] := by
  unfold readoutOf
  cases op.slot? with
  | none => simp
  | some slot => cases op.bits <;> simp

theorem width_le_iff (k : Kernel) (bound : ℕ) : widthOf (k.operations.flatMap Operation.bits) ≤ bound ↔
    ∀ op ∈ k.operations, ∀ q ∈ op.bits, q < bound := by
  rw [widthOf_le_iff]
  simp only [List.mem_flatMap]
  grind

theorem ofKernel_ok_iff {k : Kernel} {size limit : ℕ} :
    (∃ p, ofKernel k size limit = .ok p) ↔ Plannable k size limit := by
  have hreads : (∃ measured, (k.operations.filter Operation.isMeasure).mapM (readoutOf k.name) = .ok measured) ↔
      ∀ op ∈ k.operations, op.isMeasure = true → op.slot?.isSome ∧ op.bits ≠ [] := by
    simp only [mapM_eq_ok_iff, exists_forall₂_iff, readoutOf_ok_iff, List.mem_filter, and_imp]
  unfold ofKernel
  dsimp only
  split
  · rename_i hover
    exact iff_of_false nofun fun h => absurd h.limit (Nat.not_le.mpr hover)
  · rename_i hunder
    split
    · rename_i hover
      exact iff_of_false nofun fun h => absurd h.size (Nat.not_le.mpr hover)
    · rename_i hroom
      constructor
      · rintro ⟨p, h⟩
        obtain ⟨measured, hmeasured, -⟩ := bind_eq_ok_iff.mp h
        exact ⟨Nat.not_lt.mp hroom, Nat.not_lt.mp hunder, hreads.mp ⟨measured, hmeasured⟩⟩
      · intro h
        obtain ⟨measured, hmeasured⟩ := hreads.mpr h.reads
        exact ⟨_, bind_eq_ok_iff.mpr ⟨measured, hmeasured, rfl⟩⟩

/-- How a plan comes from its kernel. It reads something exactly if the kernel has a measurement, or without
one if the register has a qubit. -/
structure Follows (p : Plan) (k : Kernel) : Prop where
  operations : p.operations = k.operations
  qubits : p.qubits = Word.wrap (widthOf (k.operations.flatMap Operation.bits))
  readout : p.readout ≠ [] ↔ (∃ op ∈ k.operations, op.isMeasure = true) ∨ 0 < p.qubits
  terminal : p.terminal = (k.operations.dropWhile fun op => !op.isMeasure).all Operation.isMeasure

theorem ofKernel_follows {k : Kernel} {size limit : ℕ} (h : ofKernel k size limit = .ok p) : p.Follows k := by
  unfold ofKernel at h
  dsimp only at h
  split at h
  · cases h
  · split at h
    · cases h
    · obtain ⟨measured, hmeasured, h⟩ := bind_eq_ok_iff.mp h
      have hlength := (mapM_eq_ok_iff.mp hmeasured).length_eq
      have hmeasures : measured ≠ [] ↔ ∃ op ∈ k.operations, op.isMeasure = true := by
        rw [← List.length_pos_iff, ← hlength, List.length_pos_iff, Ne, List.filter_eq_nil_iff]
        simp
      cases h
      refine ⟨rfl, rfl, ?_, rfl⟩
      rw [← hmeasures]
      cases measured with
      | nil => simp [Nat.pos_iff_ne_zero]
      | cons e rest => simp

theorem Follows.not_terminal {k : Kernel} (h : p.Follows k) (hterminal : p.terminal = false) :
    ∃ op ∈ p.operations, op.isMeasure = true := by
  rw [h.terminal, List.all_eq_false] at hterminal
  by_contra hnone
  rw [h.operations] at hnone
  have hdrop : k.operations.dropWhile (fun op => !op.isMeasure) = [] := by
    refine List.dropWhile_eq_nil_iff.mpr fun op hop => ?_
    simpa using fun hmeasure => hnone ⟨op, hop, hmeasure⟩
  rw [hdrop] at hterminal
  obtain ⟨op, hop, -⟩ := hterminal
  cases hop

end Plan

inductive Parameter.Numeric : Parameter → Prop
  | int (n : Int64) : Numeric (.int n)
  | real (x : Float) : Numeric (.real x)

theorem Parameter.Numeric.toReal? {p : Parameter} (h : p.Numeric) : p.toReal?.isSome := by
  cases h <;> rfl

/-- An operation as the gate family builds it, under a known name and from numbers, on bits that are all
different; a measurement has a slot. -/
structure Operation.Built (op : Operation) : Prop where
  made : ∃ name parameters, (Kind.gate.find? name).isSome ∧ (∀ p ∈ parameters, p.Numeric) ∧
    Kind.gate.build name op.bits parameters = .ok op
  distinct : op.bits.Nodup
  slot : op.isMeasure = true → op.slot?.isSome

/-- A gate that no register takes, or that this one does not. -/
inductive Operation.Faulty (op : Operation) (size limit : ℕ) : Prop
  | outside (q : ℕ) (hq : q ∈ op.bits) (hbound : size ≤ q ∨ limit ≤ q)
  | repeated (kind : OperationKind) (hkind : kind ∈ Kind.table .gate) (hname : kind.name = op.name)
      (htwo : kind.bits = 2) (hbits : ¬ op.bits.Nodup)
  | unknown (hunknown : op.name ∉ (Kind.table .gate).map OperationKind.name)
  | unreal (kind : OperationKind) (hkind : kind ∈ Kind.table .gate) (hname : kind.name = op.name) (i : ℕ)
      (hi : i < kind.parameters) (p : Parameter) (hp : op.parameters[i]? = some p) (hkind' : ¬ p.Numeric)

theorem OperationKind.numeric_of_mem_defaults {kind : OperationKind} (hkind : kind ∈ Kind.table .gate) {p : Parameter}
    (hp : p ∈ kind.defaults) : p.Numeric := by
  have hname : ∀ kind ∈ Kind.table .gate, kind.name ≠ Kind.annealName := by decide
  unfold defaults at hp
  rw [if_neg (hname kind hkind)] at hp
  split at hp
  · rw [List.mem_singleton.mp hp]
    exact .int 0
  · rw [(List.mem_replicate.mp hp).2]
    exact .real 0

theorem Operation.Built.fits {op : Operation} (h : op.Built) : ∃ kind ∈ Kind.table .gate, kind.name = op.name ∧
    op.bits.length = kind.bits ∧ op.parameters.length = kind.parameters ∧ ∀ p ∈ op.parameters, p.Numeric := by
  obtain ⟨name, parameters, hknown, hnumeric, hbuild⟩ := h.made
  obtain ⟨kind, hfind⟩ := Option.isSome_iff_exists.mp hknown
  have hkind : kind ∈ Kind.table .gate := List.mem_of_find?_eq_some hfind
  rw [Kind.build, hfind] at hbuild
  dsimp only at hbuild
  have hgiven : ∀ p ∈ if parameters.isEmpty then kind.defaults else parameters, p.Numeric := by
    split
    · exact fun p hp => OperationKind.numeric_of_mem_defaults hkind hp
    · exact hnumeric
  unfold OperationKind.build at hbuild
  generalize (if parameters.isEmpty then kind.defaults else parameters) = given at hbuild hgiven
  dsimp only at hbuild
  split_ifs at hbuild with hbits hparameters
  have hop := Except.ok.inj hbuild
  refine ⟨kind, hkind, congrArg Operation.name hop, Decidable.not_not.mp hbits, ?_, ?_⟩
  · rw [← hop]
    exact Decidable.not_not.mp hparameters
  · rw [← hop]
    exact hgiven

/-- What is built as its kind applies to every register that has its bits. -/
theorem Operation.Built.applies {op : Operation} (h : op.Built) {qubits : ℕ} (hinside : ∀ q ∈ op.bits, q < qubits) :
    op.Applies qubits := by
  obtain ⟨kind, hkind, hname, hbits, hparameters, hnumeric⟩ := h.fits
  refine ⟨hinside, h.distinct, kind, hkind, hname, hbits, fun i hi => ?_⟩
  rw [← hparameters] at hi
  rw [List.getElem?_eq_getElem hi]
  exact (hnumeric _ (List.getElem_mem hi)).toReal?

/-- A register without qubits has no gates. -/
theorem Operation.Applies.not_empty {op : Operation} (h : op.Applies 0) : False := by
  obtain ⟨kind, hkind, -, hbits, -⟩ := h.known
  have hpositive : ∀ kind ∈ Kind.table .gate, 0 < kind.bits := by decide
  obtain ⟨q, hq⟩ := List.exists_mem_of_length_pos (hbits.symm ▸ hpositive kind hkind)
  exact absurd (h.inside q hq) (Nat.not_lt_zero q)

theorem Operation.Built.bits_ne_nil {op : Operation} (h : op.Built) : op.bits ≠ [] := by
  obtain ⟨kind, hkind, -, hbits, -⟩ := h.fits
  have hpositive : ∀ kind ∈ Kind.table .gate, 0 < kind.bits := by decide
  rw [← List.length_pos_iff, hbits]
  exact hpositive kind hkind

theorem Kind.gate_name_injective {kind kind' : OperationKind} (h : kind ∈ table .gate) (h' : kind' ∈ table .gate)
    (hname : kind.name = kind'.name) : kind = kind' := by
  have htable : ∀ kind ∈ table .gate, ∀ kind' ∈ table .gate, kind.name = kind'.name → kind = kind' := by decide
  exact htable kind h kind' h' hname

/-- A faulty gate does not apply to any register within the bounds, and a faulty measurement has no slot. -/
theorem Operation.Faulty.refused {op : Operation} {size limit qubits : ℕ} (h : op.Faulty size limit)
    (hinside : ∀ q ∈ op.bits, q < size ∧ q < limit) (happlies : op.isMeasure = false → op.Applies qubits) :
    op.isMeasure = true ∧ op.slot? = none := by
  cases h with
  | outside q hq hbound =>
    have hbounds := hinside q hq
    omega
  | repeated kind hkind hname htwo hbits =>
    have hone : ∀ kind ∈ Kind.table .gate, kind.bits = 2 → kind.name ≠ Operation.measureName := by decide
    have hgate : op.isMeasure = false := by
      rw [isMeasure, ← hname]
      exact beq_false_of_ne (hone kind hkind htwo)
    exact absurd (happlies hgate).distinct hbits
  | unknown hunknown =>
    have hgate : op.isMeasure = false := by
      refine beq_false_of_ne fun hname => ?_
      rw [hname] at hunknown
      exact hunknown (by decide)
    obtain ⟨kind, hkind, hname, -⟩ := (happlies hgate).known
    exact absurd (List.mem_map.mpr ⟨kind, hkind, hname⟩) hunknown
  | unreal kind hkind hname i hi p hp hother =>
    have hunreal : p.toReal? = none := by
      cases p with
      | int n => exact absurd (.int n) hother
      | real x => exact absurd (.real x) hother
      | text _ | complex _ _ => rfl
    cases hmeasure : op.isMeasure with
    | false =>
      obtain ⟨kind', hkind', hname', -, hangles⟩ := (happlies hmeasure).known
      obtain rfl : kind' = kind := Kind.gate_name_injective hkind' hkind (hname'.trans hname.symm)
      have hsome := hangles i hi
      rw [hp, Option.bind_some, hunreal] at hsome
      cases hsome
    | true =>
      have hone : ∀ kind ∈ Kind.table .gate, kind.name = Operation.measureName → kind.parameters = 1 := by decide
      obtain rfl : i = 0 := by
        have := hone kind hkind (hname.trans (beq_iff_eq.mp hmeasure))
        omega
      refine ⟨rfl, ?_⟩
      rw [slot?, if_pos hmeasure, List.head?_eq_getElem?, hp]
      cases p with
      | int n => exact absurd (.int n) hother
      | _ => rfl

/-- Nothing but readings, with the greatest word among their qubits. One more than it is no word, so the
register has no qubits. -/
structure Kernel.ReadsGreatest (k : Kernel) : Prop where
  width : widthOf (k.operations.flatMap Operation.bits) = 2 ^ 64
  readings : ∀ op ∈ k.operations, op.isMeasure = true ∧ op.slot?.isSome ∧ op.bits ≠ []

theorem Kernel.ReadsGreatest.terminal {k : Kernel} (h : k.ReadsGreatest) :
    (k.operations.dropWhile fun op => !op.isMeasure).all Operation.isMeasure = true :=
  List.all_eq_true.mpr fun op hop => (h.readings op ((List.dropWhile_sublist _).mem hop)).1

namespace LocalSettings

variable {σ : Type} {s : LocalSettings} {random : RandomSource} {k : Kernel} {b : Buffer}

theorem execute_run (k : Kernel) (b : Buffer) (n : σ) : ((accelerator σ s random).execute k).run (b, n) =
    match s.execute random k b with
      | .ok b' => (.ok (), b', n)
      | .error e => (.error e, b, n) := by
  change (Run.buffer >>= fun _ => _ : Run σ Unit).run (b, n) = _
  rw [run_bind, Run.run_buffer]
  dsimp only
  cases s.execute random k b <;> rfl

theorem execute_ok_iff : (∃ b', s.execute random k b = .ok b') ↔ ∃ p counts,
    Plan.ofKernel k b.size s.maxQubits = .ok p ∧ p.run s.shots s.readoutError (random.stream s.seed) = .ok counts := by
  constructor
  · rintro ⟨b', h⟩
    obtain ⟨p, hp, h⟩ := bind_eq_ok_iff.mp h
    obtain ⟨counts, hcounts, -⟩ := bind_eq_ok_iff.mp h
    exact ⟨p, counts, hp, hcounts⟩
  · rintro ⟨p, counts, hp, hcounts⟩
    exact ⟨_, bind_eq_ok_iff.mpr ⟨p, hp, bind_eq_ok_iff.mpr ⟨counts, hcounts, rfl⟩⟩⟩

/-- What is built as its kind is accepted, as long as the readout error is a probability where a shot reads
anything. -/
theorem execute_ok_of_built (hbuilt : ∀ op ∈ k.operations, op.Built ∧ ∀ q ∈ op.bits, q < b.size ∧ q < s.maxQubits)
    (hheld : widthOf (k.operations.flatMap Operation.bits) ≤ Register.mostHeld)
    (hnumbers : ∀ p x, Plan.ofKernel k b.size s.maxQubits = .ok p →
      p.Computes s.shots s.readoutError (random.stream s.seed) x → x.isNaN = false) :
    (∃ b', s.execute random k b = .ok b') ↔ s.shots = 0 ∨ k.operations = [] ∨ ¬ 1 < s.readoutError := by
  have hword : Word.wrap (widthOf (k.operations.flatMap Operation.bits)) =
      widthOf (k.operations.flatMap Operation.bits) := Word.wrap_of_lt (hheld.trans_lt (by decide))
  obtain ⟨p, hp⟩ := Plan.ofKernel_ok_iff.mpr {
    size := hword.trans_le ((Plan.width_le_iff k b.size).mpr fun op hop q hq => ((hbuilt op hop).2 q hq).1)
    limit := hword.trans_le ((Plan.width_le_iff k s.maxQubits).mpr fun op hop q hq => ((hbuilt op hop).2 q hq).2)
    reads := fun op hop hmeasure => ⟨(hbuilt op hop).1.slot hmeasure, (hbuilt op hop).1.bits_ne_nil⟩ }
  have hfollows := Plan.ofKernel_follows hp
  have hqubits := hfollows.qubits.trans hword
  have hgates : p.GatesApply := by
    intro op hop _
    rw [hfollows.operations] at hop
    refine (hbuilt op hop).1.applies fun q hq => ?_
    rw [hqubits]
    exact lt_widthOf (List.mem_flatMap.mpr ⟨op, hop, hq⟩)
  have hexecute : (∃ b', s.execute random k b = .ok b') ↔ p.Needs s.shots s.readoutError (random.stream s.seed) := by
    rw [execute_ok_iff]
    constructor
    · rintro ⟨p', counts, hp', hcounts⟩
      cases hp.symm.trans hp'
      exact Plan.needs_of_run hcounts
    · intro hneeds
      obtain ⟨counts, hcounts⟩ := Plan.run_of_needs (hqubits.trans_le hheld) hneeds
      exact ⟨p, counts, hp, hcounts⟩
  rw [hexecute]
  constructor
  · intro hneeds
    rcases Nat.eq_zero_or_pos s.shots with hnone | hshots
    · exact .inl hnone
    · refine .inr (List.eq_nil_or_concat' k.operations |>.imp id fun ⟨before, op, hlast⟩ => ?_)
      have hop : op ∈ k.operations := by simp [hlast]
      obtain ⟨q, hq⟩ := List.exists_mem_of_ne_nil _ (hbuilt op hop).1.bits_ne_nil
      have hpositive : 0 < p.qubits := by
        rw [hqubits]
        exact Nat.zero_lt_of_lt (lt_widthOf (List.mem_flatMap.mpr ⟨op, hop, hq⟩))
      cases hterminal : p.terminal with
      | true => exact hneeds.readout hterminal hshots (hfollows.readout.mpr (.inr hpositive))
      | false => exact hneeds.readings hterminal hshots (hfollows.not_terminal hterminal)
  · intro hright
    have herror : 0 < s.shots → k.operations ≠ [] → ¬ 1 < s.readoutError := by
      intro hshots hsome
      exact (hright.resolve_left hshots.ne').resolve_left hsome
    refine ⟨fun _ => hgates, fun x hx => hnumbers p x hp hx, fun _ hshots hreadout => ?_, fun _ hshots hreading => ?_⟩
    · refine herror hshots fun hnone => ?_
      have hempty := hfollows.readout.mp hreadout
      rw [hqubits, hnone] at hempty
      simp [widthOf] at hempty
    · obtain ⟨op, hop, -⟩ := hreading
      rw [hfollows.operations] at hop
      exact herror hshots (List.ne_nil_of_mem hop)

/-- A kernel with a faulty gate is refused, unless its readings hide the fault. -/
theorem execute_ok_of_faulty (hshots : 0 < s.shots) (hfaulty : ∃ op ∈ k.operations, op.Faulty b.size s.maxQubits)
    (hwords : ∀ op ∈ k.operations, ∀ q ∈ op.bits, q < 2 ^ 64) :
    (∃ b', s.execute random k b = .ok b') ↔ k.ReadsGreatest ∧ ¬ 1 < s.readoutError := by
  rw [execute_ok_iff]
  constructor
  · rintro ⟨p, counts, hp, hcounts⟩
    have hplannable := Plan.ofKernel_ok_iff.mp ⟨p, hp⟩
    have hfollows := Plan.ofKernel_follows hp
    have hneeds := Plan.needs_of_run hcounts
    have hgates := hneeds.gates (.inr hshots)
    rw [Plan.GatesApply, hfollows.operations, hfollows.qubits] at hgates
    rcases Nat.lt_or_ge (widthOf (k.operations.flatMap Operation.bits)) (2 ^ 64) with hfits | hfull
    · -- the register is as large as the kernel asks for, so the fault is noticed
      obtain ⟨op, hop, hfaulty⟩ := hfaulty
      have hword := Word.wrap_of_lt hfits
      have hsize := (Plan.width_le_iff k b.size).mp (hword.symm.trans_le hplannable.size)
      have hlimit := (Plan.width_le_iff k s.maxQubits).mp (hword.symm.trans_le hplannable.limit)
      obtain ⟨hmeasure, hslot⟩ := hfaulty.refused (fun q hq => ⟨hsize op hop q hq, hlimit op hop q hq⟩) (hgates op hop)
      have hreads := (hplannable.reads op hop hmeasure).1
      rw [hslot] at hreads
      cases hreads
    · have hwidth := Nat.le_antisymm ((Plan.width_le_iff k (2 ^ 64)).mpr hwords) hfull
      have hempty : Word.wrap (widthOf (k.operations.flatMap Operation.bits)) = 0 := by rw [hwidth]; rfl
      rw [hempty] at hgates
      have hmeasures : ∀ op ∈ k.operations, op.isMeasure = true := by
        intro op hop
        by_contra hnot
        exact (hgates op hop (by simpa using hnot)).not_empty
      have hreads : k.ReadsGreatest := ⟨hwidth, fun op hop =>
        ⟨hmeasures op hop, hplannable.reads op hop (hmeasures op hop)⟩⟩
      refine ⟨hreads, ?_⟩
      obtain ⟨op, hop, -⟩ := hfaulty
      have hterminal := hfollows.terminal.trans hreads.terminal
      exact hneeds.readout hterminal hshots (hfollows.readout.mpr (.inl ⟨op, hop, hmeasures op hop⟩))
  · rintro ⟨hreads, herror⟩
    have hempty : Word.wrap (widthOf (k.operations.flatMap Operation.bits)) = 0 := by rw [hreads.width]; rfl
    obtain ⟨p, hp⟩ := Plan.ofKernel_ok_iff.mpr {
      size := hempty.trans_le (Nat.zero_le b.size)
      limit := hempty.trans_le (Nat.zero_le s.maxQubits)
      reads := fun op hop _ => (hreads.readings op hop).2 }
    have hfollows := Plan.ofKernel_follows hp
    have hterminal := hfollows.terminal.trans hreads.terminal
    have hqubits := hfollows.qubits.trans hempty
    have hneeds : p.Needs s.shots s.readoutError (random.stream s.seed) := {
      gates := fun _ op hop hgate => absurd (hreads.readings op (hfollows.operations ▸ hop)).1 (by simp [hgate])
      numbers := fun x hx => absurd hterminal (by simp [hx.1])
      readout := fun _ _ _ => herror
      readings := fun _ _ _ => herror }
    obtain ⟨counts, hcounts⟩ := Plan.run_of_needs (hqubits.trans_le (Nat.zero_le _)) hneeds
    exact ⟨p, counts, hp, hcounts⟩

/-- A kernel of operations as they are built, on bits that the buffer and the simulator both have, runs
without an error, whatever the random stream, unless a reading in the midst of gates computes a
probability that is no number; a readout error above one is an error where a shot reads anything. With a
shot to take, a kernel with a faulty gate fails and leaves the buffer as it is, unless it reads the greatest
word as a qubit and has no gates. -/
theorem execute_accepts (s : LocalSettings) (random : RandomSource) (k : Kernel) (b : Buffer) (n : σ) :
    ((∀ op ∈ k.operations, op.Built ∧ ∀ q ∈ op.bits, q < b.size ∧ q < s.maxQubits) →
      widthOf (k.operations.flatMap Operation.bits) ≤ Register.mostHeld →
      (∀ p x, Plan.ofKernel k b.size s.maxQubits = .ok p →
        p.Computes s.shots s.readoutError (random.stream s.seed) x → x.isNaN = false) →
      ((∃ b', ((s.accelerator σ random).execute k).run (b, n) = (.ok (), b', n)) ↔
        s.shots = 0 ∨ k.operations = [] ∨ ¬ 1 < s.readoutError)) ∧
    (0 < s.shots → (∃ op ∈ k.operations, op.Faulty b.size s.maxQubits) →
      (∀ op ∈ k.operations, ∀ q ∈ op.bits, q < 2 ^ 64) →
      ((∃ e, ((s.accelerator σ random).execute k).run (b, n) = (.error e, b, n)) ↔
        ¬ (k.ReadsGreatest ∧ ¬ 1 < s.readoutError))) := by
  constructor
  · intro hbuilt hheld hnumbers
    rw [← execute_ok_of_built hbuilt hheld hnumbers, execute_run]
    cases s.execute random k b with
    | error e => exact iff_of_false (fun ⟨_, h⟩ => by cases h) (fun ⟨_, h⟩ => by cases h)
    | ok b' => exact iff_of_true ⟨b', rfl⟩ ⟨b', rfl⟩
  · intro hshots hfaulty hwords
    rw [← execute_ok_of_faulty hshots hfaulty hwords, execute_run]
    cases s.execute random k b with
    | error e => exact iff_of_true ⟨e, rfl⟩ fun ⟨_, h⟩ => by cases h
    | ok b' => exact iff_of_false (fun ⟨_, h⟩ => by cases h) fun hnone => hnone ⟨b', rfl⟩

/-- A qubit is read and turned afterwards, so every shot is run by itself. -/
def turnedBack : Kernel :=
  ⟨{ name := "k" }, [.leaf (.measure 0 1), .leaf { name := "Rx", bits := [0], parameters := [.int 3] }]⟩

def exchangedAlone : Kernel := ⟨{ name := "k" }, [.leaf { name := "Swap", bits := [0, 0] }]⟩

/-- The greatest word is read as a qubit. -/
def greatestRead : Kernel := ⟨{ name := "k" }, [.leaf (.measure (2 ^ 64 - 1) 0)]⟩

theorem execute_accepts_turnedBack :
    (∃ b', ((({ shots := 1 } : LocalSettings).accelerator Unit .mixing).execute turnedBack).run (.new "q" 1, ()) =
      (.ok (), b', ())) ∧
    (∃ e, ((({ shots := 1 } : LocalSettings).accelerator Unit .mixing).execute exchangedAlone).run (.new "q" 1, ()) =
      (.error e, .new "q" 1, ())) ∧
    ¬ ∃ e, ((({ shots := 1 } : LocalSettings).accelerator Unit .mixing).execute greatestRead).run (.new "q" 1, ()) =
      (.error e, .new "q" 1, ()) := by
  have hfind : Kind.gate.find? "rx" = some ⟨"Rx", 1, 1, false⟩ ∧
      Kind.gate.find? "measure" = some ⟨Operation.measureName, 1, 1, false⟩ := by
    simp only [Kind.find?, Text.sameIgnoringCase, Text.lowerAscii, String.map_eq_internal]
    decide +kernel
  have hrotation : ({ name := "Rx", bits := [0], parameters := [.int 3] } : Operation).Built :=
    ⟨⟨"rx", [.int 3], by rw [hfind.1]; rfl, by simpa using .int 3, by rw [Kind.build, hfind.1]; rfl⟩,
      by decide, by decide⟩
  have hmeasurement : (Operation.measure 0 1).Built :=
    ⟨⟨"measure", [.int 1], by rw [hfind.2]; rfl, by simpa using .int 1, by rw [Kind.build, hfind.2]; rfl⟩,
      by decide, by decide⟩
  have hoperations : turnedBack.operations =
      [.measure 0 1, { name := "Rx", bits := [0], parameters := [.int 3] }] := rfl
  have herror : ¬ 1 < ({ shots := 1 } : LocalSettings).readoutError := by decide +kernel
  refine ⟨((execute_accepts { shots := 1 } .mixing turnedBack (.new "q" 1) ()).1 ?_ (by decide) ?_).mpr
      (.inr (.inr herror)),
    ((execute_accepts { shots := 1 } .mixing exchangedAlone (.new "q" 1) ()).2 (by decide) ?_ (by decide)).mpr ?_,
    fun hrefused => ?_⟩
  · rw [hoperations]
    intro op hop
    rcases List.mem_pair.mp hop with rfl | rfl
    · exact ⟨hmeasurement, by decide⟩
    · exact ⟨hrotation, by decide⟩
  · rintro p x hp ⟨-, r', hstarts, register, op, t, hzero, hreaches, hmeasure, rfl⟩
    have hfollows := Plan.ofKernel_follows hp
    have hqubits : p.qubits = 1 := hfollows.qubits
    rw [hqubits, Register.zero_of_held (by decide), Except.ok.injEq] at hzero
    subst hzero
    rw [hfollows.operations, hoperations] at hreaches
    -- the first of the two operations is the only reading
    cases hreaches with
    | here =>
      change ((StateVector.zero 1).probabilityOne 0).isNaN = false
      decide +kernel
    | later _ h =>
      cases h with
      | here => cases hmeasure
      | later _ h => cases h
  · exact ⟨_, List.mem_singleton_self _, .repeated ⟨"Swap", 2, 0, false⟩ (by decide) rfl rfl (by decide)⟩
  · rintro ⟨hreads, -⟩
    exact absurd hreads.width (by decide)
  · have hreads : greatestRead.ReadsGreatest := ⟨rfl, by decide⟩
    refine ((execute_accepts { shots := 1 } .mixing greatestRead (.new "q" 1) ()).2 (by decide) ?_ (by decide)).mp
      hrefused ⟨hreads, herror⟩
    exact ⟨_, List.mem_singleton_self _, .outside (2 ^ 64 - 1) (by simp [Operation.measure]) (.inl (by decide))⟩

end LocalSettings

end QuantumKernels
