import QuantumKernels.Proofs.Wire.RoundTrip
import QuantumKernels.Proofs.Wire.Step

/-!
# Compiled kernels as jobs again

A compiled kernel has no blocks and no disabled operations, so the job written for it has one step
for each of its operations. The kernel comes back if and only if every operation does.
-/
namespace QuantumKernels.Wire

open Text

theorem Step.bounded_of_ofOperation {op : Operation} {s : Step} (h : Step.ofOperation op = .ok s)
    (hbits : ∀ q ∈ op.bits, q < Json.wordLimit)
    (hplain : op.isMeasure = false → ∀ p ∈ op.parameters, ∃ x : Float, p = .real x)
    (hreals : ∀ x : Float, .real x ∈ op.parameters → Json.ReadsBack x) : s.Bounded := by
  rcases Step.ofOperation_eq_ok h with ⟨slot, hslot, rfl⟩ | ⟨hmeasure, xs, hxs, rfl⟩
  · obtain ⟨-, n, -, -, rfl⟩ := slot?_eq_some hslot
    refine ⟨hbits, nofun, fun m hm => ?_⟩
    rw [List.mem_singleton.mp hm]
    have hlimit := n.toInt_lt
    unfold Json.wordLimit
    omega
  · refine ⟨hbits, fun x hx => ?_, nofun⟩
    obtain ⟨p, hp, hpx⟩ := exists_mem_of_forall₂ (mapM_eq_ok_iff.mp hxs) hx
    obtain ⟨y, rfl⟩ := hplain hmeasure p hp
    cases hpx
    exact hreals x hp

theorem length_flatten_le {ops : List Operation} {steps : List Step} {made : List (List Operation)}
    (hwrite : List.Forall₂ (fun op s => Step.ofOperation op = .ok s) ops steps)
    (hread : List.Forall₂ (fun s made => s.operations = .ok made) steps made) :
    made.flatten.length ≤ ops.length := by
  induction hwrite generalizing made with
  | nil =>
    cases hread
    exact le_rfl
  | cons hs _ ih =>
    cases hread with
    | cons hmade hread =>
      rw [List.flatten_cons, List.length_append, List.length_cons, Nat.add_comm]
      exact Nat.add_le_add (ih hread) (length_le_one_of_ofOperation hs hmade)

/-- If the steps of operations make the same operations together, each makes its own: none of them
makes more than one, so none can make less. -/
theorem comesBack_of_flatten_eq {ops : List Operation} {steps : List Step} {made : List (List Operation)}
    (hwrite : List.Forall₂ (fun op s => Step.ofOperation op = .ok s) ops steps)
    (hread : List.Forall₂ (fun s made => s.operations = .ok made) steps made)
    (hflat : made.flatten = ops) : ∀ op ∈ ops, ComesBack op := by
  induction hwrite generalizing made with
  | nil => nofun
  | @cons op s ops steps hs hrest ih =>
    cases hread with
    | @cons _ first _ others hmade hread =>
      rw [List.flatten_cons] at hflat
      have hlength := length_le_one_of_ofOperation hs hmade
      match first, hlength with
      -- without an operation of this step the others would have to make one too many
      | [], _ =>
        have hfew := length_flatten_le hrest hread
        rw [List.nil_append] at hflat
        rw [hflat, List.length_cons] at hfew
        exact absurd hfew (Nat.not_succ_le_self _)
      | [op'], _ =>
        obtain ⟨rfl, hothers⟩ := List.cons.inj hflat
        exact List.forall_mem_cons.mpr ⟨⟨s, hs, hmade⟩, ih hread hothers⟩

theorem exists_makes_of_mapM {steps : List Step} {made : List (List Operation)}
    (h : steps.mapM Step.operations = .ok made) {op : Operation} (hop : op ∈ made.flatten) :
    ∃ s ∈ steps, ∃ ops, s.Makes ops ∧ op ∈ ops := by
  obtain ⟨ops, hops, hop⟩ := List.mem_flatten.mp hop
  obtain ⟨s, hmem, hs⟩ := exists_mem_of_forall₂ (mapM_eq_ok_iff.mp h) hops
  exact ⟨s, hmem, ops, Step.makes_of_operations hs, hop⟩

theorem compiled_of_mapM {steps : List Step} {made : List (List Operation)}
    (h : steps.mapM Step.operations = .ok made) : ∀ op ∈ made.flatten, op.Compiled := fun _ hop =>
  let ⟨_, _, _, hmakes, hop⟩ := exists_makes_of_mapM h hop
  hmakes.compiled hop

theorem Experiment.compile_eq_ok_iff {e : Experiment} {k : Kernel} : e.compile = .ok k ↔
    ∃ made, e.steps.mapM Step.operations = .ok made ∧ k = ⟨{ name := e.name }, made.flatten.map .leaf⟩ := by
  have hpush : ∀ made, e.steps.mapM Step.operations = .ok made →
      (Kernel.named e.name).pushAll (made.flatten.map .leaf) = ⟨{ name := e.name }, made.flatten.map .leaf⟩ :=
    fun made hmade => pushAll_leaves { name := e.name } [] fun op hop => (compiled_of_mapM hmade op hop).vars
  rw [Experiment.compile, bind_eq_ok_iff]
  constructor
  · rintro ⟨made, hmade, hk⟩
    cases hk
    exact ⟨made, hmade, hpush made hmade⟩
  · rintro ⟨made, hmade, rfl⟩
    exact ⟨made, hmade, congrArg Except.ok (hpush made hmade)⟩

theorem exists_experiment_of_compile {source : String} {p : Program} {k : Kernel} (h : compile source = .ok p)
    (hk : k ∈ p.kernels) : ∃ job, Job.parse source = .ok job ∧ ∃ e ∈ job.experiments, e.compile = .ok k := by
  obtain ⟨job, hparse, hjob⟩ := bind_eq_ok_iff.mp h
  obtain ⟨kernels, hkernels, hp⟩ := bind_eq_ok_iff.mp hjob
  cases hp
  exact ⟨job, hparse, exists_mem_of_forall₂ (mapM_eq_ok_iff.mp hkernels) hk⟩

theorem operations_leaves (h : Header) {ops : List Operation} (henabled : ∀ op ∈ ops, op.enabled = true) :
    (Kernel.mk h (ops.map .leaf)).operations = ops := by
  have hleaf : ∀ op ∈ ops, (Instruction.leaf op).operations = [op] := fun op hop => if_pos (henabled op hop)
  rw [Kernel.operations_eq, List.flatMap_map, List.flatMap_congr hleaf, List.flatMap_singleton']

/-- A compiled kernel has no blocks, and all its operations take part; each was made by a step. -/
theorem Experiment.flat_of_compile {e : Experiment} {k : Kernel} (h : e.compile = .ok k) :
    k.flatten = k ∧ k.leaves = k.operations ∧
      ∀ op ∈ k.operations, ∃ s ∈ e.steps, ∃ ops, s.Makes ops ∧ op ∈ ops := by
  obtain ⟨made, hmade, rfl⟩ := Experiment.compile_eq_ok_iff.mp h
  have hoperations := operations_leaves { name := e.name } fun op hop => (compiled_of_mapM hmade op hop).enabled
  refine ⟨?_, ?_, fun op hop => exists_makes_of_mapM hmade (hoperations ▸ hop)⟩
  · rw [Kernel.flatten, hoperations]
    rfl
  · rw [hoperations, Kernel.leaves_eq, List.flatMap_map]
    exact List.flatMap_singleton' _

theorem Experiment.ofKernel_eq_ok {k : Kernel} {e : Experiment} (h : Experiment.ofKernel k = .ok e) :
    ∃ steps, k.operations.mapM Step.ofOperation = .ok steps ∧ e = {
      name := k.name
      memorySlots := widthOf (steps.flatMap Step.memory)
      qubits := widthOf (steps.flatMap Step.qubits)
      steps } := by
  obtain ⟨steps, hsteps, he⟩ := bind_eq_ok_iff.mp h
  cases he
  exact ⟨steps, hsteps, rfl⟩

theorem Experiment.writable_of_ofKernel {k : Kernel} {e : Experiment} (h : Experiment.ofKernel k = .ok e)
    (hbounded : ∀ op ∈ k.operations, ∀ s, Step.ofOperation op = .ok s → s.Bounded) : e.Writable := by
  obtain ⟨steps, hsteps, rfl⟩ := Experiment.ofKernel_eq_ok h
  refine Experiment.writable_of_bounded k.name fun s hs => ?_
  obtain ⟨op, hop, hsop⟩ := exists_mem_of_forall₂ (mapM_eq_ok_iff.mp hsteps) hs
  exact hbounded op hop s hsop

theorem exists_ofKernel_of_translate {c : Compiler} {id text : String} {k : Kernel}
    (h : c.translate id k = .ok text) : ∃ e, Experiment.ofKernel k = .ok e := by
  obtain ⟨job, hjob, -⟩ := bind_eq_ok_iff.mp h
  obtain ⟨experiments, hexperiments, -⟩ := bind_eq_ok_iff.mp hjob
  cases mapM_eq_ok_iff.mp hexperiments with
  | cons hwrite _ => exact ⟨_, hwrite⟩

theorem comesBack_of_recompiled {k : Kernel} {e : Experiment} (hwrite : Experiment.ofKernel k = .ok e)
    (hread : e.compile = .ok k) : ∀ op ∈ k.operations, ComesBack op := by
  obtain ⟨steps, hsteps, rfl⟩ := Experiment.ofKernel_eq_ok hwrite
  obtain ⟨made, hmade, hk⟩ := Experiment.compile_eq_ok_iff.mp hread
  have hoperations : k.operations = made.flatten := by
    rw [hk]
    exact operations_leaves _ fun op hop => (compiled_of_mapM hmade op hop).enabled
  exact comesBack_of_flatten_eq (mapM_eq_ok_iff.mp hsteps) (mapM_eq_ok_iff.mp hmade) hoperations.symm

/-- The text written for a kernel compiles as its experiment does. -/
theorem exists_translate (c : Compiler) (id : String) {k : Kernel} {e : Experiment}
    (hwrite : Experiment.ofKernel k = .ok e) (he : e.Writable) (hshots : c.shots ≤ Json.wordLimit)
    (hwidth : k.width ≤ Json.wordLimit) :
    ∃ text, c.translate id k = .ok text ∧ compile text = (fun k' => ⟨[k']⟩) <$> e.compile := by
  have hone : [k].mapM Experiment.ofKernel = .ok [e] := mapM_eq_ok_iff.mpr (.cons hwrite .nil)
  obtain ⟨job, hjob, hexperiments, hw⟩ := Job.exists_ofKernels id hshots hwidth hone (by simpa using he)
  refine ⟨c.seal job, ?_, ?_⟩
  · rw [Compiler.translate, hjob]
    rfl
  · rw [compile_of_parse (c.parse_seal hw), Job.compile, hexperiments, List.mapM_cons, List.mapM_nil]
    cases e.compile <;> rfl

/-- A compiled kernel comes back if all its operations have the form of one that does. -/
theorem translate_eq_iff_fits (c : Compiler) (id : String) {e₀ : Experiment} {k : Kernel}
    (he₀ : e₀.compile = .ok k) (hbits : ∀ op ∈ k.operations, ∀ q ∈ op.bits, q < Json.wordLimit)
    (hreals : k.ReadsBack) (hshots : c.shots ≤ Json.wordLimit) :
    (∃ text, c.translate id k = .ok text ∧ compile text = .ok ⟨[k]⟩) ↔ ∀ op ∈ k.operations, op.Fits := by
  obtain ⟨hflat, hleaves, hmade⟩ := Experiment.flat_of_compile he₀
  have hcompiled : ∀ op ∈ k.operations, op.Compiled := fun op hop =>
    let ⟨_, _, _, hmakes, hop⟩ := hmade op hop
    hmakes.compiled hop
  have hfits : ∀ op ∈ k.operations, ComesBack op ↔ op.Fits := fun op hop =>
    comesBack_iff (hcompiled op hop).enabled (hcompiled op hop).digital fun x hx =>
      Json.isFinite_of_readsBack (hreals op hop x hx)
  have hbounded : ∀ op ∈ k.operations, ∀ s, Step.ofOperation op = .ok s → s.Bounded := fun op hop s hs =>
    Step.bounded_of_ofOperation hs (hbits op hop) (hcompiled op hop).reals (hreals op hop)
  have hwidth : k.width ≤ Json.wordLimit := width_le_wordLimit (hleaves ▸ hbits)
  constructor
  · rintro ⟨text, htranslate, hback⟩
    obtain ⟨e, hwrite⟩ := exists_ofKernel_of_translate htranslate
    have he := Experiment.writable_of_ofKernel hwrite hbounded
    obtain ⟨text', htranslate', hback'⟩ := exists_translate c id hwrite he hshots hwidth
    obtain rfl : text' = text := Except.ok.inj (htranslate'.symm.trans htranslate)
    obtain ⟨k', hread, hsame⟩ := map_eq_ok_iff.mp (hback'.symm.trans hback)
    obtain rfl : k' = k := by simpa using hsame
    exact fun op hop => (hfits op hop).mp (comesBack_of_recompiled hwrite hread op hop)
  · intro h
    have hsteps : ∀ op ∈ k.operations,
        ∃ s, Step.ofOperation op = .ok s ∧ s.operations = .ok [op] ∧ s.Bounded := by
      intro op hop
      obtain ⟨s, hs, hmade⟩ := (hfits op hop).mpr (h op hop)
      exact ⟨s, hs, hmade, hbounded op hop s hs⟩
    obtain ⟨e, hwrite, hread, he⟩ :=
      Experiment.exists_ofKernel (fun op hop => (hcompiled op hop).vars) hsteps
    obtain ⟨text, htranslate, hback⟩ := exists_translate c id hwrite he hshots hwidth
    refine ⟨text, htranslate, ?_⟩
    rw [hback, hread, hflat]
    rfl

/-- A compiled kernel comes back from the text written for it exactly if each of its operations is a
gate of the table, a measurement into a slot that is not negative, or an operation outside the table
whose name is the capitalized form of its small letters. So the kernels of ordinary steps come back. -/
theorem translate_compiled_iff (c : Compiler) (id : String) {source : String} {p : Program} {k : Kernel}
    (hcompile : compile source = .ok p) (hk : k ∈ p.kernels)
    (hbits : ∀ op ∈ k.operations, ∀ q ∈ op.bits, q < Json.wordLimit) (hreals : k.ReadsBack)
    (hshots : c.shots ≤ Json.wordLimit) :
    ((∃ text, c.translate id k = .ok text ∧ compile text = .ok ⟨[k]⟩) ↔ ∀ op ∈ k.operations, op.Fits) ∧
    ((∀ job, Job.parse source = .ok job → ∀ e ∈ job.experiments, ∀ s ∈ e.steps, s.Ordinary) →
      ∃ text, c.translate id k = .ok text ∧ compile text = .ok ⟨[k]⟩) := by
  obtain ⟨job, hparse, e₀, hmem, he₀⟩ := exists_experiment_of_compile hcompile hk
  have hiff := translate_eq_iff_fits c id he₀ hbits hreals hshots
  refine ⟨hiff, fun hordinary => hiff.mpr fun op hop => ?_⟩
  obtain ⟨-, -, hmade⟩ := Experiment.flat_of_compile he₀
  obtain ⟨s, hs, ops, hmakes, hops⟩ := hmade op hop
  exact hmakes.fits (hordinary job hparse e₀ hmem s hs) hops fun x hx =>
    Json.isFinite_of_readsBack (hreals op hop x hx)

/-- A job with a step whose name has two capital letters for one small one, and with a slot that
becomes negative. -/
def lossyJob : Job where
  experiments := [
    { name := "letters", steps := [{ name := "ß", qubits := [0] }] },
    { name := "slot", steps := [{ name := measureStep, qubits := [0], memory := [2 ^ 63] }] }]

def lettersKernel : Kernel := ⟨{ name := "letters" }, [.leaf { name := "SS", bits := [0] }]⟩

def slotKernel : Kernel := ⟨{ name := "slot" }, [.leaf (.measure 0 (2 ^ 63))]⟩

theorem lossyJob_writable : lossyJob.Writable := by
  refine ⟨rfl, ⟨by decide, by decide, by decide, by decide, by decide⟩, ?_⟩
  simp only [lossyJob, List.forall_mem_cons]
  refine ⟨⟨by decide, by decide, ?_⟩, ⟨by decide, by decide, ?_⟩, nofun⟩
  · simpa using ⟨by decide, nofun, nofun⟩
  · simpa using ⟨by decide, nofun, by decide⟩

theorem operations_sharp : Step.operations { name := "ß", qubits := [0] } = .ok [{ name := "SS", bits := [0] }] := by
  have hunlisted : Unlisted (lowerAscii "ß") := by
    simp only [lowerAscii_eq]
    constructor <;> decide +kernel
  have hname : capitalize (lowerAscii "ß") = "SS" := by
    simp only [lowerAscii_eq]
    decide +kernel
  rw [Step.operations_of_unlisted hunlisted, hname]
  rfl

theorem operations_farSlot : Step.operations { name := measureStep, qubits := [0], memory := [2 ^ 63] } =
    .ok [.measure 0 (2 ^ 63)] := if_pos lowerAscii_measureStep

theorem compile_lossyJob : compile (Compiler.seal {} lossyJob) = .ok ⟨[lettersKernel, slotKernel]⟩ := by
  have hkernels : lossyJob.experiments.mapM Experiment.compile = .ok [lettersKernel, slotKernel] :=
    mapM_eq_ok_iff.mpr (.cons
      (Experiment.compile_eq_ok_iff.mpr ⟨_, mapM_eq_ok_iff.mpr (.cons operations_sharp .nil), rfl⟩) (.cons
      (Experiment.compile_eq_ok_iff.mpr ⟨_, mapM_eq_ok_iff.mpr (.cons operations_farSlot .nil), rfl⟩) .nil))
  rw [compile_of_parse (Compiler.parse_seal {} lossyJob_writable), Job.compile, hkernels]
  rfl

theorem not_fits_letters : ¬ Operation.Fits { name := "SS", bits := [0] } := by
  rintro (⟨kind, hgate⟩ | hmeasure | hown)
  · exact (by decide : ∀ kind ∈ Kind.gate.table, "SS" ≠ kind.name) kind hgate.known hgate.name
  · exact absurd hmeasure.name (by decide)
  · have hname := hown.name
    simp only [wireName, lowerAscii_eq] at hname
    exact absurd hname (by decide +kernel)

theorem not_fits_slot : ¬ (Operation.measure 0 (2 ^ 63)).Fits := by
  rintro (⟨kind, hgate⟩ | hmeasure | hown)
  · exact hgate.unitary hgate.name.symm
  · obtain ⟨n, hn, hnonneg⟩ := hmeasure.slot
    cases hn
    exact absurd hnonneg (by decide)
  · exact hown.unlisted.measure lowerAscii_wireName_measureName

/-- Neither of the kernels of the job comes back. -/
theorem not_translate_lossyJob :
    compile (Compiler.seal {} lossyJob) = .ok ⟨[lettersKernel, slotKernel]⟩ ∧
    (¬ ∃ text, Compiler.translate {} "b" lettersKernel = .ok text ∧ compile text = .ok ⟨[lettersKernel]⟩) ∧
    ¬ ∃ text, Compiler.translate {} "b" slotKernel = .ok text ∧ compile text = .ok ⟨[slotKernel]⟩ := by
  have hletters : lettersKernel.operations = [{ name := "SS", bits := [0] }] := rfl
  have hslot : slotKernel.operations = [.measure 0 (2 ^ 63)] := rfl
  refine ⟨compile_lossyJob, fun hback => ?_, fun hback => ?_⟩
  · refine not_fits_letters ((translate_compiled_iff {} "b" compile_lossyJob (by simp) ?_ ?_
      (by decide)).1.mp hback _ (by rw [hletters]; exact List.mem_singleton_self _))
    · simp [hletters, Json.wordLimit]
    · simp [Kernel.ReadsBack, hletters]
  · refine not_fits_slot ((translate_compiled_iff {} "b" compile_lossyJob (by simp) ?_ ?_
      (by decide)).1.mp hback _ (by rw [hslot]; exact List.mem_singleton_self _))
    · simp [hslot, Operation.measure, Json.wordLimit]
    · simp [Kernel.ReadsBack, hslot, Operation.measure]

end QuantumKernels.Wire
