import QuantumKernels.Proofs.Accelerator.Batch
import QuantumKernels.Proofs.Simulator.Acceptance

/-!
# Batches with a seed

The kernels of a batch are simulated side by side and finish in any order. A join hands their
results on at their places, so only the kernel at a place and the seed for it decide what comes
there. With a seed a batch is therefore its kernels run alone.
-/
namespace QuantumKernels

section

variable {ε α β : Type}

/-- A join of tasks that run side by side. A slot holds what the task at its place has come to, or
nothing while that runs. Any running task may be the next to finish; the first one that fails ends
the join. -/
inductive Joins (tasks : List (Except ε α)) : List (Option α) → Except ε (List α) → Prop
  | done (values : List α) : Joins tasks (values.map some) (.ok values)
  | finish {slots : List (Option α)} {outcome : Except ε (List α)} {i : ℕ} {a : α}
      (running : slots[i]? = some none) (task : tasks[i]? = some (.ok a))
      (rest : Joins tasks (slots.set i (some a)) outcome) : Joins tasks slots outcome
  | fail {slots : List (Option α)} {i : ℕ} {e : ε} (running : slots[i]? = some none)
      (task : tasks[i]? = some (.error e)) : Joins tasks slots (.error e)

/-- A slot that is filled holds what its task comes to. -/
def Fits (task : Except ε α) (slot : Option α) : Prop := ∀ a, slot = some a → task = .ok a

variable {tasks : List (Except ε α)} {slots : List (Option α)} {outcome : Except ε (List α)}

theorem fits_running (tasks : List (Except ε α)) :
    List.Forall₂ Fits tasks (List.replicate tasks.length none) := by
  induction tasks with
  | nil => exact .nil
  | cons task rest ih => exact .cons nofun ih

theorem fits_finish {i : ℕ} {a : α} (hslots : List.Forall₂ Fits tasks slots)
    (htask : tasks[i]? = some (.ok a)) : List.Forall₂ Fits tasks (slots.set i (some a)) := by
  induction hslots generalizing i with
  | nil => cases htask
  | @cons task slot rest slots' hslot hrest ih =>
    cases i with
    | zero =>
      cases htask
      exact .cons (fun b hb => by cases hb; rfl) hrest
    | succ i => exact .cons hslot (ih htask)

/-- Whichever tasks finish first, a join gives what each task comes to, or the failure of one. -/
theorem Joins.comes_to (h : Joins tasks slots outcome) (hslots : List.Forall₂ Fits tasks slots) :
    (∀ values, outcome = .ok values → tasks = values.map .ok) ∧
      ∀ e, outcome = .error e → .error e ∈ tasks := by
  induction h with
  | done values =>
    have hvalues : List.Forall₂ (fun task a => task = .ok a) tasks values :=
      (List.forall₂_map_right_iff.mp hslots).imp fun task a h => h a rfl
    refine ⟨fun _ hvalues' => ?_, nofun⟩
    cases hvalues'
    simpa using map_eq_map_iff_forall₂.mpr hvalues
  | finish _ htask _ ih => exact ih (fits_finish hslots htask)
  | fail _ htask =>
    refine ⟨nofun, fun _ he => ?_⟩
    cases he
    exact List.mem_of_getElem? htask

theorem Joins.eq_ok_iff (h : Joins tasks (List.replicate tasks.length none) outcome) {values : List α} :
    outcome = .ok values ↔ tasks = values.map .ok := by
  obtain ⟨hok, herror⟩ := h.comes_to (fits_running tasks)
  refine ⟨hok values, ?_⟩
  rintro rfl
  cases outcome with
  | ok values' =>
    have hinjective : Function.Injective (Except.ok : α → Except ε α) := fun _ _ => Except.ok.inj
    rw [hinjective.list_map (hok values' rfl)]
  | error e =>
    obtain ⟨_, -, he⟩ := List.mem_map.mp (herror e rfl)
    cases he

/-- However far tasks have come, their join can go on to its end. -/
theorem exists_joins (hslots : List.Forall₂ Fits tasks slots) : ∃ outcome, Joins tasks slots outcome := by
  -- one running task fewer with each that finishes
  induction hrunning : slots.countP Option.isNone generalizing slots with
  | zero =>
    have hfilled : ∀ slot ∈ slots, ∃ a, slot = some a := fun slot hslot => by
      simpa [Option.ne_none_iff_exists'] using List.countP_eq_zero.mp hrunning slot hslot
    obtain ⟨values, hvalues⟩ := exists_forall₂_iff.mpr hfilled
    obtain rfl : slots = values.map some := by simpa using map_eq_map_iff_forall₂.mpr hvalues
    exact ⟨_, .done values⟩
  | succ n ih =>
    obtain ⟨slot, hmem, hnone⟩ := List.countP_pos_iff.mp (Nat.lt_of_lt_of_eq n.succ_pos hrunning.symm)
    obtain ⟨i, hi, hslot⟩ := List.mem_iff_getElem.mp hmem
    obtain rfl := Option.isNone_iff_eq_none.mp hnone
    have hslot? : slots[i]? = some none := List.getElem?_eq_some_iff.mpr ⟨hi, hslot⟩
    have hlt : i < tasks.length := hslots.length_eq ▸ hi
    cases htask : tasks[i] with
    | error e => exact ⟨_, .fail hslot? (List.getElem?_eq_some_iff.mpr ⟨hlt, htask⟩)⟩
    | ok a =>
      have htask? : tasks[i]? = some (.ok a) := List.getElem?_eq_some_iff.mpr ⟨hlt, htask⟩
      obtain ⟨outcome, hrest⟩ := ih (fits_finish hslots htask?) (by simp [List.countP_set, hi, hslot, hrunning])
      exact ⟨outcome, .finish hslot? htask? hrest⟩

end

/-- The name of a buffer has no part in what is recorded. -/
theorem Buffer.appendCounts_named (b : Buffer) (name : String) (counts : List (String × ℕ)) :
    ({ b with name } : Buffer).appendCounts counts = { b.appendCounts counts with name } := by
  induction counts generalizing b with
  | nil => rfl
  | cons e counts ih => exact ih (b.appendCount e.1 e.2)

namespace LocalSettings

variable {s : LocalSettings} {random : RandomSource} {ks : List Kernel} {size : ℕ}

/-- The simulations of some plans, each with the seed for its place. -/
def simulations (s : LocalSettings) (random : RandomSource) (plans : List Plan) :
    List (Except DeviceError (Dictionary ℕ)) :=
  plans.zipIdx.map fun (p, i) => s.simulate random (s.batchSeed i) p

@[simp]
theorem length_simulations (plans : List Plan) : (s.simulations random plans).length = plans.length := by
  rw [simulations, List.length_map, List.length_zipIdx]

/-- All that a batch can come to: no kernel runs unless all have a plan, then the plans are simulated
side by side, and each histogram becomes a buffer. -/
inductive BatchEnds (s : LocalSettings) (random : RandomSource) (ks : List Kernel) (size : ℕ) :
    Except DeviceError (List Buffer) → Prop
  | unplanned {e : DeviceError} (h : ks.mapM (fun k => Plan.ofKernel k size s.maxQubits) = .error e) :
      BatchEnds s random ks size (.error e)
  | joined {plans : List Plan} {outcome : Except DeviceError (List (Dictionary ℕ))}
      (h : ks.mapM (fun k => Plan.ofKernel k size s.maxQubits) = .ok plans)
      (hjoin : Joins (s.simulations random plans) (List.replicate plans.length none) outcome) :
      BatchEnds s random ks size (outcome.map fun counts =>
        ks.zipWith (fun k c => (Buffer.new k.name size).appendCounts c.entries) counts)

theorem exists_batchEnds : ∃ outcome, BatchEnds s random ks size outcome := by
  cases h : ks.mapM fun k => Plan.ofKernel k size s.maxQubits with
  | error e => exact ⟨_, .unplanned h⟩
  | ok plans =>
    have hrunning := fits_running (s.simulations random plans)
    rw [length_simulations] at hrunning
    obtain ⟨outcome, hjoin⟩ := exists_joins hrunning
    exact ⟨_, .joined h hjoin⟩

theorem mapM_simulate_eq_ok {plans : List Plan} {counts : List (Dictionary ℕ)} :
    (plans.zipIdx.mapM fun (p, i) => s.simulate random (s.batchSeed i) p) = .ok counts ↔
      s.simulations random plans = counts.map .ok := by
  rw [mapM_eq_ok_iff]
  exact map_eq_map_iff_forall₂.symm

/-- The order in which kernels finish makes no difference to the results. -/
theorem BatchEnds.eq_ok_iff {outcome : Except DeviceError (List Buffer)}
    (h : BatchEnds s random ks size outcome) {results : List Buffer} :
    outcome = .ok results ↔ s.batch random ks size = .ok results := by
  rw [batch]
  cases h with
  | unplanned h =>
    rw [h]
    constructor <;> intro hok <;> cases hok
  | @joined plans outcome h hjoin =>
    rw [← length_simulations] at hjoin
    constructor
    · intro hok
      obtain ⟨counts, hcounts, rfl⟩ := map_eq_ok_iff.mp hok
      have hall := mapM_simulate_eq_ok.mpr (hjoin.eq_ok_iff.mp hcounts)
      exact bind_eq_ok_iff.mpr ⟨plans, h, bind_eq_ok_iff.mpr ⟨counts, hall, rfl⟩⟩
    · intro hok
      obtain ⟨plans', hplans', hok⟩ := bind_eq_ok_iff.mp hok
      cases h.symm.trans hplans'
      obtain ⟨counts, hcounts, hresults⟩ := bind_eq_ok_iff.mp hok
      cases hresults
      rw [hjoin.eq_ok_iff.mpr (mapM_simulate_eq_ok.mp hcounts)]
      rfl

variable {σ : Type} {n : σ} {seed : ℕ} {name : String} {place : Kernel × ℕ} {result own : Buffer}

def seeded (s : LocalSettings) (seed : ℕ) : LocalSettings := { s with seed := some seed }

/-- The kernel at a place of a batch runs alone, with the seed for that place, in an empty buffer. -/
def RunsAlone (s : LocalSettings) (random : RandomSource) (seed : ℕ) (name : String) (size : ℕ) (n : σ)
    (place : Kernel × ℕ) (own : Buffer) : Prop :=
  (((s.seeded ((seed + place.2) % 2 ^ 64)).accelerator σ random).execute place.1).run (.new name size, n) =
    (.ok (), own, n)

theorem runsAlone_iff : s.RunsAlone random seed name size n place own ↔
    ∃ p counts, Plan.ofKernel place.1 size s.maxQubits = .ok p ∧
      (s.seeded seed).simulate random ((s.seeded seed).batchSeed place.2) p = .ok counts ∧
      own = (Buffer.new name size).appendCounts counts.entries := by
  have hexecute : (s.seeded ((seed + place.2) % 2 ^ 64)).execute random place.1 (.new name size) = .ok own ↔
      ∃ p counts, Plan.ofKernel place.1 size s.maxQubits = .ok p ∧
        (s.seeded seed).simulate random ((s.seeded seed).batchSeed place.2) p = .ok counts ∧
        own = (Buffer.new name size).appendCounts counts.entries := by
    constructor
    · intro h
      obtain ⟨p, hp, h⟩ := bind_eq_ok_iff.mp h
      obtain ⟨counts, hcounts, h⟩ := bind_eq_ok_iff.mp h
      cases h
      exact ⟨p, counts, hp, hcounts, rfl⟩
    · rintro ⟨p, counts, hp, hcounts, rfl⟩
      exact bind_eq_ok_iff.mpr ⟨p, hp, bind_eq_ok_iff.mpr ⟨counts, hcounts, rfl⟩⟩
  rw [← hexecute, RunsAlone, execute_run]
  cases (s.seeded ((seed + place.2) % 2 ^ 64)).execute random place.1 (.new name size) with
  | error e => exact iff_of_false nofun nofun
  | ok own' =>
    constructor <;> intro h <;> cases h <;> rfl

/-- The result at a place of a batch is what the kernel there leaves alone, under the kernel's name. -/
theorem isResult_iff_runsAlone : (s.seeded seed).IsResult random size place result ↔
    ∃ own, s.RunsAlone random seed name size n place own ∧ result = { own with name := place.1.name } := by
  have hnamed : ∀ counts : List (String × ℕ), (Buffer.new place.1.name size).appendCounts counts =
      { (Buffer.new name size).appendCounts counts with name := place.1.name } :=
    Buffer.appendCounts_named (.new name size) place.1.name
  simp only [runsAlone_iff]
  constructor
  · rintro ⟨p, counts, hp, hcounts, rfl⟩
    exact ⟨_, ⟨p, counts, hp, hcounts, rfl⟩, hnamed _⟩
  · rintro ⟨_, ⟨p, counts, hp, hcounts, rfl⟩, rfl⟩
    exact ⟨p, counts, hp, hcounts, (hnamed _).symm⟩

/-- A batch with a seed succeeds exactly if each of its kernels does, alone in an empty buffer of that
size and with the seed for its place. Its results are what these runs leave, each under the name of
its kernel. So it comes to in whatever order the kernels finish, and again when it is repeated. -/
theorem seeded_batch_runs_alone (s : LocalSettings) (random : RandomSource) (seed : ℕ) (ks : List Kernel)
    (b : Buffer) (n : σ) (name : String) :
    ∃ outcome b', (((s.seeded seed).accelerator σ random).executeBatch ks).run (b, n) = (outcome, b', n) ∧
      ((∃ results, outcome = .ok results) ↔
        ∀ place ∈ ks.zipIdx, ∃ own, s.RunsAlone random seed name b.size n place own) ∧
      (∀ results, outcome = .ok results ↔ List.Forall₂ (fun place result =>
        ∃ own, s.RunsAlone random seed name b.size n place own ∧ result = { own with name := place.1.name })
          ks.zipIdx results) ∧
      (∃ ended, (s.seeded seed).BatchEnds random ks b.size ended) ∧
      (∀ ended, (s.seeded seed).BatchEnds random ks b.size ended →
        ∀ results, ended = .ok results ↔ outcome = .ok results) ∧
      ∃ b'', (((s.seeded seed).accelerator σ random).executeBatch ks).run (b', n) = (outcome, b'', n) := by
  have hresults : ∀ results, (s.seeded seed).batch random ks b.size = .ok results ↔
      List.Forall₂ (fun place result => ∃ own, s.RunsAlone random seed name b.size n place own ∧
        result = { own with name := place.1.name }) ks.zipIdx results := by
    intro results
    simp only [← isResult_iff_runsAlone]
    exact batch_eq_ok
  refine ⟨_, _, executeBatch_run ks b n, ?_, hresults, exists_batchEnds, fun ended h results => h.eq_ok_iff, ?_⟩
  · simp only [hresults, exists_forall₂_iff]
    refine forall₂_congr fun place _ => ⟨?_, ?_⟩
    · rintro ⟨_, own, hown, -⟩
      exact ⟨own, hown⟩
    · rintro ⟨own, hown⟩
      exact ⟨_, own, hown, rfl⟩
  · have hsize : (b.withResults ((s.seeded seed).batch random ks b.size)).size = b.size := by
      cases (s.seeded seed).batch random ks b.size <;> rfl
    have hagain := @executeBatch_run σ (s.seeded seed) random ks
      (b.withResults ((s.seeded seed).batch random ks b.size)) n
    rw [hsize] at hagain
    exact ⟨_, hagain⟩

end LocalSettings

end QuantumKernels
