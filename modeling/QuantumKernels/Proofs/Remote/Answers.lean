import QuantumKernels.Proofs.Remote.Decoding
import QuantumKernels.Proofs.Wire.Outcome
import QuantumKernels.Proofs.Wire.Report
import QuantumKernels.Proofs.Wire.Walk

/-!
# Answers of the job service

A request declares as many classical slots as the kernels measure into, while its answer is read in as
many slots as the buffer has. So every answer can be read exactly if the kernels measure into no slot
that the buffer lacks; otherwise a job is accepted whose outcomes may not fit.
-/
namespace QuantumKernels

namespace Wire

/-- The report answers so many experiments: none failed, and every outcome has the key of a number
that takes no more bits than there are slots. -/
structure Report.Answers (report : Report) (experiments slots : ℕ) : Prop where
  success : report.success = true
  length : report.results.length = experiments
  succeeded : ∀ r ∈ report.results, r.success = true
  keys : ∀ r ∈ report.results, ∀ e ∈ r.counts.entries, ∃ value < 2 ^ slots, e.1 = keyOf value

end Wire

namespace Remote.JobService

open Wire

/-- An answer in so many slots is read exactly if it is one in the slots of the buffer. -/
theorem exists_decode_iff_answers {s : JobService} {b : Buffer} {response : String} {report : Report}
    {experiments slots : ℕ} (hread : Json.readAs Report.reading response = some report)
    (hanswers : report.Answers experiments slots) (hslots : slots ≤ outcomeBits) :
    (∃ results, s.decode b response = .ok results ∧ results.length = experiments) ↔
      report.Answers experiments b.size := by
  have hlimit : ∀ {value : ℕ}, value < 2 ^ slots → value < 2 ^ outcomeBits := fun hvalue =>
    hvalue.trans_le (Nat.pow_le_pow_right (by decide) hslots)
  constructor
  · rintro ⟨results, hdecode, -⟩
    obtain ⟨-, hread⟩ := (exists_decode_iff hread).mp ⟨results, hdecode⟩
    refine ⟨hanswers.success, hanswers.length, hanswers.succeeded, fun r hr e he => ?_⟩
    obtain ⟨value, hvalue, hkey⟩ := hanswers.keys r hr e he
    obtain ⟨bits, hbits⟩ := (hread r hr).2 e he
    rw [hkey] at hbits
    exact ⟨value, ((readOutcome_keyOf (hlimit hvalue)).mp hbits).1, hkey⟩
  · intro hfits
    have hdecode : ∃ results, s.decode b response = .ok results := by
      refine (exists_decode_iff hread).mpr ⟨hfits.success, fun r hr => ⟨hfits.succeeded r hr, fun e he => ?_⟩⟩
      obtain ⟨value, hvalue, hkey⟩ := hfits.keys r hr e he
      obtain ⟨value', hvalue', hkey'⟩ := hanswers.keys r hr e he
      obtain rfl := keyOf_inj (hkey.symm.trans hkey')
      exact ⟨_, hkey ▸ (readOutcome_keyOf (hlimit hvalue')).mpr ⟨hvalue, rfl⟩⟩
    obtain ⟨results, hdecode⟩ := hdecode
    exact ⟨results, hdecode, (length_of_decode hread hdecode).trans hanswers.length⟩

/-- A single shot, with the first outcome that needs more slots than so many. -/
def overflow (width : ℕ) (name : String) : ExperimentResult where
  name := name
  shots := 1
  counts := .ofList [(keyOf (2 ^ width), 1)]

def overflowing (kernels : List Kernel) (width : ℕ) : Report where
  results := kernels.map fun k => overflow width k.name

theorem answers_overflowing {kernels : List Kernel} {width slots : ℕ} (h : width < slots) :
    (overflowing kernels width).Answers kernels.length slots where
  success := rfl
  length := List.length_map _
  succeeded := List.forall_mem_map.mpr fun _ _ => rfl
  keys := List.forall_mem_map.mpr fun k _ =>
    List.forall_mem_singleton.mpr ⟨2 ^ width, Nat.pow_lt_pow_right (by decide) h, rfl⟩

theorem not_answers_overflowing {kernels : List Kernel} {width : ℕ} (h : kernels ≠ []) :
    ¬ (overflowing kernels width).Answers kernels.length width := by
  intro hanswers
  obtain ⟨k, hk⟩ := List.exists_mem_of_ne_nil kernels h
  obtain ⟨value, hvalue, hkey⟩ :=
    List.forall_mem_map.mp hanswers.keys k hk (keyOf (2 ^ width), 1) (List.mem_singleton.mpr rfl)
  rw [← keyOf_inj hkey] at hvalue
  exact Nat.lt_irrefl _ hvalue

theorem readAs_overflowing (kernels : List Kernel) (width : ℕ) :
    Json.readAs Report.reading (overflowing kernels width).toJson.compact = some (overflowing kernels width) := by
  have hone : 1 ≤ Json.wordLimit := by decide
  exact Report.readAs_compact (List.forall_mem_map.mpr fun k _ => ⟨hone, List.forall_mem_singleton.mpr hone⟩)

theorem encode_eq_ok {s : JobService} {id body : String} {b : Buffer} {kernels : List Kernel}
    (h : s.encode id b kernels = .ok body) : ∃ job, Job.ofKernels id s.shots b.size kernels = .ok job ∧
      body = Compiler.seal { device := s.device } job := by
  rw [encode] at h
  split_ifs at h
  split at h
  · cases h
  · rename_i job hjob
    cases h
    exact ⟨job, hjob, rfl⟩

/-- What becomes of the answers to a request. The request declares the slots up to the last one that
its kernels measure into. An answer in these slots is read exactly if its outcomes fit into the slots
of the buffer; so all answers are read exactly if the kernels measure into no slot beyond these. -/
theorem answers_read_iff {s : JobService} {id body : String} {b : Buffer} {kernels : List Kernel}
    (h : s.encode id b kernels = .ok body) : ∃ job, Job.ofKernels id s.shots b.size kernels = .ok job ∧
      body = Compiler.seal { device := s.device } job ∧ (job.settings.memorySlots ≤ outcomeBits →
        (∀ response report, Json.readAs Report.reading response = some report →
          report.Answers kernels.length job.settings.memorySlots →
          ((∃ results, s.decode b response = .ok results ∧ results.length = kernels.length) ↔
            report.Answers kernels.length b.size)) ∧
        ((∀ response report, Json.readAs Report.reading response = some report →
          report.Answers kernels.length job.settings.memorySlots →
          ∃ results, s.decode b response = .ok results ∧ results.length = kernels.length) ↔
            ∀ k ∈ kernels, ∀ slot ∈ k.slots, slot < b.size)) := by
  obtain ⟨job, hjob, hbody⟩ := encode_eq_ok h
  refine ⟨job, hjob, hbody, fun hslots => ⟨fun response report hread hanswers =>
    exists_decode_iff_answers hread hanswers hslots, ?_⟩⟩
  rw [← Job.memorySlots_le_iff hjob]
  constructor
  · intro hall
    -- with a slot too many, an answer that needs the first one beyond the buffer is not read
    by_contra hmore
    have hnarrow : b.size < job.settings.memorySlots := Nat.lt_of_not_le hmore
    have hsome : kernels ≠ [] := by
      rintro rfl
      exact hmore ((Job.memorySlots_le_iff hjob).mpr nofun)
    have hanswers : (overflowing kernels b.size).Answers kernels.length job.settings.memorySlots :=
      answers_overflowing hnarrow
    have hread := readAs_overflowing kernels b.size
    exact not_answers_overflowing hsome
      ((exists_decode_iff_answers hread hanswers hslots).mp (hall _ _ hread hanswers))
  · intro hwide response report hread hanswers
    refine (exists_decode_iff_answers hread hanswers hslots).mpr ?_
    exact { hanswers with
      keys := fun r hr e he => by
        obtain ⟨value, hvalue, hkey⟩ := hanswers.keys r hr e he
        exact ⟨value, hvalue.trans_le (Nat.pow_le_pow_right (by decide) hwide), hkey⟩ }

def secondSlot : Kernel := ⟨{ name := "k" }, [.leaf (.measure 0 1)]⟩

/-- On a single qubit the request declares two slots, and an answer with a one in the second is lost. -/
theorem answers_read_iff_secondSlot : ∃ body job,
    ({ token := some "t" } : JobService).encode "1" (.new "q" 1) [secondSlot] = .ok body ∧
      Job.ofKernels "1" defaultShots 1 [secondSlot] = .ok job ∧ job.settings.memorySlots = 2 ∧
      (overflowing [secondSlot] 1).Answers 1 2 ∧
      ¬ ∃ results, ({ token := some "t" } : JobService).decode (.new "q" 1)
        (overflowing [secondSlot] 1).toJson.compact = .ok results ∧ results.length = 1 := by
  obtain ⟨body, hbody⟩ : ∃ body, ({ token := some "t" } : JobService).encode "1" (.new "q" 1) [secondSlot] = .ok body :=
    ⟨_, rfl⟩
  obtain ⟨job, hjob, -, hread⟩ := answers_read_iff hbody
  have hslots : job.settings.memorySlots = 2 := by
    cases hjob
    rfl
  have hanswers : (overflowing [secondSlot] 1).Answers 1 2 := answers_overflowing (by decide)
  refine ⟨body, job, hbody, hjob, hslots, hanswers, fun hdecoded => ?_⟩
  rw [hslots] at hread
  exact not_answers_overflowing (by simp)
    (((hread (by decide)).1 _ _ (readAs_overflowing _ _) hanswers).mp hdecoded)

end Remote.JobService

end QuantumKernels
