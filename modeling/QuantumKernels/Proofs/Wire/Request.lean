import QuantumKernels.Proofs.Tree
import QuantumKernels.Proofs.Wire.Job

/-!
# What becomes of the experiments of a request

A request holds its experiments in a job under `qObject`. If the request has the shape of an
envelope, each of them becomes a kernel of its name or compiling fails. If it has not, it is
compiled as a job of its own and the member is passed over.
-/
namespace QuantumKernels.Wire

open Json

def Job.fieldNames : List String :=
  ["qobj_id", "schema_version", "type", "header", "config", "experiments"]

/-- The items of the list of experiments of a job. -/
def experimentsOf (job : Json) : List Json :=
  match member? Job.fieldNames "experiments" job with
  | some (.list items) => items
  | _ => []

/-- The name in the header of an experiment. -/
def headerName? (experiment : Json) : Option String :=
  ((member? ["header", "instructions"] "header" experiment).bind
    (member? ["name", "memory_slots", "n_qubits"] "name")).bind fun
      | .text name => some name
      | _ => none

/-- The names of the experiments of a job, in order. -/
def experimentNames (job : Json) : List (Option String) := (experimentsOf job).map headerName?

/-- Compiling fails, or it gives one kernel for each experiment of a job, in order and under
the name of its header. -/
def KeepsExperiments (source : String) (job : Json) : Prop :=
  ∀ p, compile source = .ok p → p.kernels.map (fun k => some k.name) = experimentNames job

theorem Experiment.headerName?_of_reading {nesting : ℕ} {v : Json} {e : Experiment}
    (h : Experiment.reading nesting v = some e) : headerName? v = some e.name := by
  obtain ⟨f, hbody, hf⟩ := asRecord_eq_some h
  simp only [Option.bind_eq_bind, Option.bind_eq_some_iff] at hbody
  obtain ⟨⟨name, slots, qubits⟩, hheader, steps, -, he⟩ := hbody
  obtain ⟨header, hmember, hreading⟩ := Fields.required_eq_some hheader
  obtain ⟨g, hbody', hg⟩ := asRecord_eq_some hreading
  simp only [Option.bind_eq_bind, Option.bind_eq_some_iff] at hbody'
  obtain ⟨name', hname, slots', -, qubits', -, hsame⟩ := hbody'
  obtain ⟨w, htext, hread⟩ := Fields.required_eq_some hname
  rw [hf] at hmember
  rw [hg, asText_eq_some hread] at htext
  have hnames : e.name = name' := by
    cases he
    cases hsame
    rfl
  simp [headerName?, hmember, htext, hnames]

theorem map_headerName? {items : List Json} {inner : ℕ} {experiments : List Experiment}
    (h : items.mapM (Experiment.reading inner) = some experiments) :
    items.map headerName? = experiments.map fun e => some e.name := by
  induction items generalizing experiments with
  | nil =>
    cases h
    rfl
  | cons v rest ih =>
    simp only [List.mapM_cons, Option.bind_eq_bind, Option.bind_eq_some_iff] at h
    obtain ⟨e, he, others, hothers, hsame⟩ := h
    cases hsame
    rw [List.map_cons, List.map_cons, Experiment.headerName?_of_reading he, ih hothers]

/-- The experiments that are read of a job have the names of those that stand in it. -/
theorem Job.experimentNames_of_reading {nesting : ℕ} {v : Json} {job : Job}
    (h : Job.reading nesting v = some job) :
    experimentNames v = job.experiments.map fun e => some e.name := by
  obtain ⟨f, hbody, hf⟩ := asRecord_eq_some h
  simp only [Option.bind_eq_bind, Option.bind_eq_some_iff] at hbody
  obtain ⟨id, -, version, -, kind, -, header, -, settings, -, experiments, hexperiments, hjob⟩ := hbody
  have hsame : job.experiments = experiments := by
    cases hjob
    rfl
  have hmember : f.value? "experiments" = member? Job.fieldNames "experiments" v := hf "experiments"
  rw [Fields.orElse, hmember] at hexperiments
  cases hitems : member? Job.fieldNames "experiments" v with
  | none =>
    rw [hitems] at hexperiments
    cases hexperiments
    simp [experimentNames, experimentsOf, hitems, hsame]
  | some w =>
    rw [hitems] at hexperiments
    obtain ⟨items, inner, rfl, hread⟩ := asList_eq_some hexperiments
    simp [experimentNames, experimentsOf, hitems, hsame, map_headerName? hread]

theorem Experiment.name_of_compile {e : Experiment} {k : Kernel} (h : e.compile = .ok k) :
    k.name = e.name := by
  rw [Experiment.compile] at h
  cases hsteps : e.steps.mapM Step.operations with
  | error fault =>
    rw [hsteps] at h
    cases h
  | ok operations =>
    rw [hsteps] at h
    cases h
    exact Kernel.pushAll_name _ _

theorem map_name_of_compile {experiments : List Experiment} {kernels : List Kernel}
    (h : experiments.mapM Experiment.compile = .ok kernels) :
    kernels.map (fun k => some k.name) = experiments.map fun e => some e.name := by
  induction experiments generalizing kernels with
  | nil =>
    cases h
    rfl
  | cons e rest ih =>
    rw [List.mapM_cons] at h
    cases he : e.compile with
    | error fault =>
      rw [he] at h
      cases h
    | ok k =>
      cases hrest : rest.mapM Experiment.compile with
      | error fault =>
        rw [he, hrest] at h
        cases h
      | ok others =>
        rw [he, hrest] at h
        cases h
        rw [List.map_cons, List.map_cons, Experiment.name_of_compile he, ih hrest]

/-- A job that compiles gives a kernel for each of its experiments. -/
theorem Job.names_of_compile {job : Job} {p : Program} (h : job.compile = .ok p) :
    p.kernels.map (fun k => some k.name) = job.experiments.map fun e => some e.name := by
  rw [Job.compile] at h
  cases hkernels : job.experiments.mapM Experiment.compile with
  | error fault =>
    rw [hkernels] at h
    cases h
  | ok kernels =>
    rw [hkernels] at h
    cases h
    exact map_name_of_compile hkernels

/-- The names of the kernels of a program that compiles from a job which is read of a document. -/
theorem experimentNames_of_compile {nesting : ℕ} {v : Json} {job : Job} {p : Program}
    (hreading : Job.reading nesting v = some job) (hcompile : job.compile = .ok p) :
    p.kernels.map (fun k => some k.name) = experimentNames v := by
  rw [Job.names_of_compile hcompile, Job.experimentNames_of_reading hreading]

/-- An envelope holds the job that stands under its member for it. -/
theorem Envelope.job_of_reading {nesting : ℕ} {v member : Json} {e : Envelope}
    (h : Envelope.reading nesting v = some e) (hmember : v.field? "qObject" = some member) :
    ∃ inner, Job.reading inner member = some e.job := by
  obtain ⟨f, hbody, hf⟩ := asRecord_eq_some h
  simp only [Option.bind_eq_bind, Option.bind_eq_some_iff] at hbody
  obtain ⟨job, hjob, device, -, he⟩ := hbody
  obtain ⟨w, hw, hreading⟩ := Fields.required_eq_some hjob
  have hfield : member? ["qObject", "backend"] "qObject" v = v.field? "qObject" := by
    cases v with
    | record fields => rfl
    | _ => simp [field?] at hmember
  rw [hf, hfield, hmember] at hw
  cases hw
  cases he
  exact ⟨f.nesting, hreading⟩

theorem compile_eq_ok {source : String} {v : Json} {p : Program}
    (hread : Json.read (normalize source) = some v) : compile source = .ok p ↔
      isReadable nestingLimit v ∧ ∃ job, Job.documentReading nestingLimit v = some job ∧
        job.compile = .ok p := by
  constructor
  · intro h
    cases hparse : Job.parse source with
    | error fault =>
      rw [compile, hparse] at h
      cases h
    | ok job =>
      obtain ⟨w, hw, hreadable, hreading⟩ := Job.parse_eq_ok.mp hparse
      rw [hread] at hw
      cases hw
      rw [compile, hparse] at h
      exact ⟨hreadable, job, hreading, h⟩
  · rintro ⟨hreadable, job, hreading, hjob⟩
    rw [compile, Job.parse_eq_ok.mpr ⟨v, hread, hreadable, hreading⟩]
    exact hjob

/-- Exactly when the experiments of a request are kept: it is unreadable or has the shape of
an envelope, or else, as a job of its own, it is refused, does not compile or happens to have
experiments of the same names. -/
theorem keepsExperiments_iff {source : String} {v member : Json}
    (hread : Json.read (normalize source) = some v) (hmember : v.field? "qObject" = some member) :
    KeepsExperiments source member ↔
      isReadable nestingLimit v = false ∨ (Envelope.reading nestingLimit v).isSome ∨
        ∀ job, Job.reading nestingLimit v = some job →
          (∃ fault, job.compile = .error fault) ∨ experimentNames v = experimentNames member := by
  have hprogram : ∀ {p}, compile source = .ok p ↔ isReadable nestingLimit v ∧
      ∃ job, Job.documentReading nestingLimit v = some job ∧ job.compile = .ok p :=
    compile_eq_ok hread
  cases hreadable : isReadable nestingLimit v with
  | false =>
    refine ⟨fun _ => .inl rfl, fun _ p hp => ?_⟩
    rw [hprogram, hreadable] at hp
    exact absurd hp.1 (by simp)
  | true =>
    cases henvelope : Envelope.reading nestingLimit v with
    | some e =>
      refine ⟨fun _ => .inr (.inl rfl), fun _ p hp => ?_⟩
      obtain ⟨-, job, hjob, hcompile⟩ := hprogram.mp hp
      have hsame : job = e.job := by simpa [Job.documentReading, henvelope, eq_comm] using hjob
      obtain ⟨inner, hinner⟩ := Envelope.job_of_reading henvelope hmember
      exact experimentNames_of_compile hinner (hsame ▸ hcompile)
    | none =>
      -- without an envelope the document as a whole is the job
      have hdocument : Job.documentReading nestingLimit v = Job.reading nestingLimit v := by
        simp [Job.documentReading, henvelope]
      constructor
      · intro hkeeps
        refine .inr (.inr fun job hjob => ?_)
        cases hcompile : job.compile with
        | error fault => exact .inl ⟨fault, rfl⟩
        | ok p =>
          have hp := hprogram.mpr ⟨hreadable, job, hdocument.trans hjob, hcompile⟩
          exact .inr ((experimentNames_of_compile hjob hcompile).symm.trans (hkeeps p hp))
      · rintro (hfalse | hfalse | hown) p hp
        · simp at hfalse
        · simp at hfalse
        · obtain ⟨-, job, hjob, hcompile⟩ := hprogram.mp hp
          rw [hdocument] at hjob
          rcases hown job hjob with ⟨fault, hfault⟩ | hnames
          · rw [hcompile] at hfault
            cases hfault
          · rw [experimentNames_of_compile hjob hcompile, hnames]

theorem Job.reading_of_no_fields {fields : List (String × Json)} (nesting : ℕ)
    (h : ∀ name ∈ Job.fieldNames, fields.find? (fun e => e.1 == name) = none) :
    Job.reading (nesting + 1) (.record fields) = some {} := by
  have hcount : ∀ name ∈ Job.fieldNames, fields.countP (fun e => e.1 == name) = 0 :=
    fun name hname => List.countP_eq_zero.mpr (List.find?_eq_none.mp (h name hname))
  simp only [Job.fieldNames, List.forall_mem_cons] at h hcount
  obtain ⟨hid, hversion, hkind, hheader, hsettings, hexperiments, -⟩ := h
  obtain ⟨hid', hversion', hkind', hheader', hsettings', hexperiments', -⟩ := hcount
  simp [Job.reading, asRecord, Fields.orElse, hid, hversion, hkind, hheader, hsettings, hexperiments,
    hid', hversion', hkind', hheader', hsettings', hexperiments']

/-- A request of the wrong shape that has no field of a job beside its member loses all of its
experiments: it compiles to no kernel. -/
theorem compile_of_wrong_shape {source : String} {fields : List (String × Json)}
    (hread : Json.read (normalize source) = some (.record fields))
    (hreadable : isReadable nestingLimit (.record fields))
    (hshape : Envelope.reading nestingLimit (.record fields) = none)
    (hfields : ∀ name ∈ Job.fieldNames, fields.find? (fun e => e.1 == name) = none) :
    compile source = .ok ⟨[]⟩ := by
  have hjob : Job.reading nestingLimit (.record fields) = some {} :=
    Job.reading_of_no_fields 126 hfields
  have hdocument : Job.documentReading nestingLimit (.record fields) = some {} := by
    rw [Job.documentReading, hshape, hjob]
    rfl
  exact (compile_eq_ok hread).mpr ⟨hreadable, {}, hdocument, rfl⟩

/-- A request whose backend has no name. -/
def namelessBackend : Json :=
  .record [
    ("qObject", .record [
      ("experiments", .list [.record [("header", .record [("name", .text "k")])]])]),
    ("backend", .record [])]

theorem legible_namelessBackend : Legible namelessBackend := by
  have hname : Legible (.record [("name", .text "k")]) := .record (by simp [Legible.text])
  have hexperiment : Legible (.record [("header", .record [("name", .text "k")])]) :=
    .record (by simp [hname])
  have hexperiments : Legible (.list [.record [("header", .record [("name", .text "k")])]]) :=
    .list (by simp [hexperiment])
  have hjob : Legible (.record [("experiments",
      .list [.record [("header", .record [("name", .text "k")])]])]) :=
    .record (by simp [hexperiments])
  have hbackend : Legible (.record []) := .record (by simp)
  exact .record (by simp [hjob, hbackend])

/-- Its experiment is lost: it compiles to no kernel at all. -/
theorem not_keepsExperiments_namelessBackend :
    compile namelessBackend.compact = .ok ⟨[]⟩ ∧
      ¬ KeepsExperiments namelessBackend.compact (.record [
        ("experiments", .list [.record [("header", .record [("name", .text "k")])]])]) := by
  have hread : Json.read (normalize namelessBackend.compact) = some namelessBackend := by
    rw [namelessBackend, normalize_compact legible_namelessBackend]
    exact read_compact legible_namelessBackend
  have henvelope : Envelope.reading nestingLimit namelessBackend = none := rfl
  have hjob : Job.reading nestingLimit namelessBackend = some {} := rfl
  refine ⟨compile_of_wrong_shape hread rfl henvelope (by decide), ?_⟩
  · rw [keepsExperiments_iff hread rfl, henvelope]
    rintro (hfalse | hfalse | hown)
    · cases hfalse
    · cases hfalse
    · rcases hown {} hjob with ⟨fault, hfault⟩ | hnames
      · cases hfault
      · exact absurd hnames (by decide)

end QuantumKernels.Wire
