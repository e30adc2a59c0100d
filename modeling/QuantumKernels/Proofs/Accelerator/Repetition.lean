import QuantumKernels.Proofs.Accelerator.Failure
import QuantumKernels.Proofs.Accelerator.Nesting
import QuantumKernels.Proofs.Histogram

/-!
# Repeated samplings, one inside the other

A stack of samplings runs the device as often as the product of their counts says, each time on an
empty buffer of the caller's name and size. What the runs give goes behind the caller's outcomes in
the order of the runs, whatever scratch buffers it passes through on the way. The first run that
fails is the last one, and its error is that of the stack.
-/
namespace QuantumKernels

theorem Info.exists_ofNat (n : ℕ) : ∃ v : Int64, Info.ofNat n = .int v ∧ v.toInt = min n (2 ^ 63 - 1) := by
  refine ⟨Int64.ofNat (min n (2 ^ 63 - 1)), rfl, ?_⟩
  rw [Int64.toInt_ofNat_of_lt (by omega)]

namespace Run.Succeeds

variable {σ : Type} {action : Run σ Unit} {start : Buffer} {s s' : σ} {owns more : List Buffer}

theorem of_append (h : action.Succeeds start s (owns ++ more) s') :
    ∃ s₁, action.Succeeds start s owns s₁ ∧ action.Succeeds start s₁ more s' := by
  induction owns generalizing s with
  | nil => exact ⟨s, .none s, h⟩
  | cons own owns ih =>
    cases h with
    | more hrun h =>
      obtain ⟨s₁, hfirst, hrest⟩ := ih h
      exact ⟨s₁, .more hrun hfirst, hrest⟩

theorem split (h : action.Succeeds start s owns s') (n : ℕ) :
    ∃ s₁, action.Succeeds start s (owns.take n) s₁ ∧ action.Succeeds start s₁ (owns.drop n) s' := by
  apply of_append
  rwa [List.take_append_drop]

theorem exists_of_forall (h : ∀ s, ∃ own s', action.run (start, s) = (.ok (), own, s')) (n : ℕ) (s : σ) :
    ∃ owns s', action.Succeeds start s owns s' ∧ owns.length = n := by
  induction n generalizing s with
  | zero => exact ⟨[], s, .none s, rfl⟩
  | succ n ih =>
    obtain ⟨own, s₁, hrun⟩ := h s
    obtain ⟨owns, s', hruns, hlength⟩ := ih s₁
    exact ⟨own :: owns, s', .more hrun hruns, congrArg (· + 1) hlength⟩

end Run.Succeeds

namespace Buffer

/-- The outcomes of some buffers, one buffer after another. -/
def outcomes (owns : List Buffer) : List String := owns.flatMap measurements

theorem outcomes_append (owns more : List Buffer) : outcomes (owns ++ more) = outcomes owns ++ outcomes more :=
  List.flatMap_append

/-- The entry of the last of some buffers that has one under a key. -/
def latestInfo? (owns : List Buffer) (key : String) : Option Info := owns.reverse.findSome? (·.info.get? key)

theorem latestInfo?_append (owns more : List Buffer) (key : String) :
    latestInfo? (owns ++ more) key = (latestInfo? more key).or (latestInfo? owns key) := by
  rw [latestInfo?, List.reverse_append, List.findSome?_append]
  rfl

/-- The buffer holds what these buffers hold together. Under the key of the sampling there may be
another number: that of the stage which has put them together. -/
structure Collects (owns : List Buffer) (own : Buffer) : Prop where
  measurements : own.measurements = outcomes owns
  info : ∀ key, key ≠ Sampling.key → own.info.get? key = latestInfo? owns key

/-- The buffer `b'` is `b` with the outcomes of other buffers behind its own, and their entries over
its own, later ones over earlier ones. -/
structure Gathers (b : Buffer) (owns : List Buffer) (b' : Buffer) : Prop where
  measurements : b'.measurements = b.measurements ++ outcomes owns
  count : ∀ bits, b'.count bits = b.count bits + (outcomes owns).count bits
  total : total b'.counts = total b.counts + (outcomes owns).length
  info : ∀ key, key ≠ Sampling.key → b'.info.get? key = (latestInfo? owns key).or (b.info.get? key)
  register : b'.name = b.name ∧ b'.size = b.size
  children : b'.children = b.children

theorem length_outcomes {owns : List Buffer} (h : ∀ own ∈ owns, own.Counted) :
    (outcomes owns).length = (owns.map fun own => Buffer.total own.counts).sum := by
  rw [outcomes, List.length_flatMap]
  exact congrArg List.sum (List.map_congr_left fun own hown => (h own hown).total_eq.symm)

theorem collects_singleton (own : Buffer) : Collects [own] own where
  measurements := (List.append_nil _).symm
  info key _ := by
    simp [latestInfo?]

namespace Gathers

variable {b b' own : Buffer} {owns more : List Buffer}

theorem nil (b : Buffer) : b.Gathers [] b where
  measurements := (List.append_nil _).symm
  count _ := rfl
  total := rfl
  info _ _ := rfl
  register := ⟨rfl, rfl⟩
  children := rfl

theorem absorb (h : b.Gathers owns b') (hown : Collects more own) : b.Gathers (owns ++ more) (b'.absorb own) where
  measurements := by
    change b'.measurements ++ own.measurements = _
    rw [h.measurements, hown.measurements, List.append_assoc, outcomes_append]
  count bits := by
    rw [count_absorb, h.count, hown.measurements, Nat.add_assoc, ← List.count_append, outcomes_append]
  total := by
    change Buffer.total (b'.merge own).counts = _
    rw [total_merge, h.total, hown.measurements, Nat.add_assoc, ← List.length_append, outcomes_append]
  info key hkey := by
    change (b'.info.insertMany own.info.entries).get? key = _
    rw [Dictionary.get?_insertMany_entries, h.info key hkey, hown.info key hkey, latestInfo?_append, Option.or_assoc]
  register := h.register
  children := h.children

theorem setInfo (h : b.Gathers owns b') (value : Info) : b.Gathers owns (b'.setInfo Sampling.key value) where
  measurements := h.measurements
  count := h.count
  total := h.total
  info key hkey := by
    change (b'.info.insert Sampling.key value).get? key = _
    rw [Dictionary.get?_insert, if_neg hkey.symm, h.info key hkey]
  register := h.register
  children := h.children

/-- The shots add up as words do. -/
theorem shots (h : b.Gathers owns b') (hcounted : ∀ own ∈ owns, own.Counted) :
    b'.shots = Word.wrap (b.shots + (owns.map Buffer.shots).sum) := by
  have hwords : owns.map Buffer.shots = (owns.map fun own => Buffer.total own.counts).map Word.wrap := by
    rw [List.map_map]
    rfl
  rw [Buffer.shots, Buffer.wordTotal, h.total, length_outcomes hcounted, hwords, Buffer.shots, Buffer.wordTotal,
    Word.wrap_add_wrap_left, ← Word.wrap_add_wrap, ← Word.wrap_sum, Word.wrap_add_wrap]

theorem collects {name : String} {size : ℕ} (h : (Buffer.new name size).Gathers owns own) : Collects owns own where
  measurements := h.measurements
  info key hkey := by
    rw [h.info key hkey]
    exact Option.or_none

end Gathers

end Buffer

open Buffer

section

variable {σ : Type} {base : Accelerator σ} {k : Kernel} {start : Buffer} {times : ℕ}
  {action : Run (σ × List Call) Unit}

/-- From an empty buffer the action runs the device so many times, each time from that buffer too, and
collects what comes of it; a run that fails ends it. Of nothing else is the device asked. -/
structure MakesRuns (base : Accelerator σ) (k : Kernel) (start : Buffer) (times : ℕ)
    (action : Run (σ × List Call) Unit) : Prop where
  succeeds : ∀ {s owns s'} calls, (base.execute k).Succeeds start s owns s' → owns.length = times →
    ∃ own, action.run (start, s, calls) =
      (.ok (), own, s', calls ++ List.replicate times (.execute k start)) ∧ Collects owns own
  fails : ∀ {s owns s₁ e last s'} calls, (base.execute k).Succeeds start s owns s₁ → owns.length < times →
    (base.execute k).run (start, s₁) = (.error e, last, s') →
    ∃ own, action.run (start, s, calls) =
      (.error e, own, s', calls ++ List.replicate (owns.length + 1) (.execute k start))

theorem Accelerator.recorded_run (base : Accelerator σ) (k : Kernel) (b : Buffer) (s : σ) (calls : List Call) :
    (base.recorded.execute k).run (b, s, calls) =
      (((base.execute k).run (b, s)).1, ((base.execute k).run (b, s)).2.1, ((base.execute k).run (b, s)).2.2,
        calls ++ [.execute k b]) := rfl

theorem makesRuns_execute (base : Accelerator σ) (k : Kernel) (start : Buffer) :
    MakesRuns base k start 1 (base.recorded.execute k) where
  succeeds := by
    intro s owns s' calls hruns hlength
    obtain ⟨own, rfl⟩ := List.length_eq_one_iff.mp hlength
    obtain _ | ⟨hrun, ⟨⟩⟩ := hruns
    refine ⟨own, ?_, collects_singleton own⟩
    rw [base.recorded_run, hrun]
    rfl
  fails := by
    intro s owns s₁ e last s' calls hruns hlength hfails
    obtain rfl := List.length_eq_zero_iff.mp (Nat.lt_one_iff.mp hlength)
    cases hruns
    refine ⟨last, ?_⟩
    rw [base.recorded_run, hfails]
    rfl

namespace MakesRuns

variable {name : String} {size : ℕ} {b₀ b last : Buffer} {before owns : List Buffer} {s s₁ s' : σ} {e : DeviceError}

/-- Each repetition takes its share of the runs from the front of those that are left. -/
theorem repeated_succeeds (h : MakesRuns base k (.new name size) times action) (n : ℕ) (calls : List Call)
    (hname : b.name = name) (hsize : b.size = size) (hb : b₀.Gathers before b)
    (hruns : (base.execute k).Succeeds (.new name size) s owns s') (hlength : owns.length = n * times) :
    ∃ b', (Sampling.repeated action n).run (b, s, calls) = (.ok (), b', s',
      calls ++ List.replicate (n * times) (.execute k (.new name size))) ∧ b₀.Gathers (before ++ owns) b' := by
  induction n generalizing b before s owns calls with
  | zero =>
    rw [Nat.zero_mul] at hlength ⊢
    obtain rfl := List.length_eq_zero_iff.mp hlength
    cases hruns
    refine ⟨b, ?_, by rwa [List.append_nil]⟩
    rw [List.replicate_zero, List.append_nil]
    rfl
  | succ n ih =>
    rw [Nat.succ_mul, Nat.add_comm] at hlength
    obtain ⟨s₁, hfirst, hrest⟩ := hruns.split times
    obtain ⟨own, hrun, hown⟩ := h.succeeds calls hfirst (by rw [List.length_take]; omega)
    obtain ⟨b', hrepeated, hb'⟩ := ih (b := b.absorb own) (calls ++ _) hname hsize (hb.absorb hown) hrest
      (by rw [List.length_drop]; omega)
    refine ⟨b', ?_, ?_⟩
    · rw [Sampling.repeated_succ_run, hname, hsize, hrun]
      dsimp only
      rw [hrepeated, Nat.succ_mul, Nat.add_comm, List.replicate_add, List.append_assoc]
    · rwa [List.append_assoc, List.take_append_drop] at hb'

theorem repeated_fails (h : MakesRuns base k (.new name size) times action) (n : ℕ) (calls : List Call)
    (hname : b.name = name) (hsize : b.size = size)
    (hruns : (base.execute k).Succeeds (.new name size) s owns s₁) (hfewer : owns.length < n * times)
    (hfails : (base.execute k).run (.new name size, s₁) = (.error e, last, s')) :
    ∃ b', (Sampling.repeated action n).run (b, s, calls) = (.error e, b', s',
      calls ++ List.replicate (owns.length + 1) (.execute k (.new name size))) := by
  induction n generalizing b s owns calls with
  | zero => omega
  | succ n ih =>
    rw [Nat.succ_mul] at hfewer
    by_cases hnow : owns.length < times
    · obtain ⟨own, hrun⟩ := h.fails calls hruns hnow hfails
      exact ⟨b, by rw [Sampling.repeated_succ_run, hname, hsize, hrun]⟩
    · obtain ⟨s₂, hfirst, hrest⟩ := hruns.split times
      obtain ⟨own, hrun, -⟩ := h.succeeds calls hfirst (by rw [List.length_take]; omega)
      obtain ⟨b', hrepeated⟩ := ih (b := b.absorb own) (calls ++ _) hname hsize hrest
        (by rw [List.length_drop]; omega)
      have hcalls : owns.length + 1 = times + ((owns.drop times).length + 1) := by
        rw [List.length_drop]
        omega
      refine ⟨b', ?_⟩
      rw [Sampling.repeated_succ_run, hname, hsize, hrun]
      dsimp only
      rw [hrepeated, List.append_assoc, hcalls, List.replicate_add times]

/-- A sampling around the action makes its runs over and over. -/
theorem sampling {rest : Kernel → Run (σ × List Call) Unit} (h : MakesRuns base k (.new name size) times (rest k))
    (rates : ErrorRates) (n : ℕ) :
    MakesRuns base k (.new name size) (n * times) ((Sampling.stage (σ × List Call) n).around rates rest k) where
  succeeds := by
    intro s owns s' calls hruns hlength
    obtain ⟨own, hrun, hown⟩ := h.repeated_succeeds (b := .new name size) n calls rfl rfl (.nil _) hruns hlength
    refine ⟨own.setInfo Sampling.key (.ofNat n), ?_, (hown.setInfo (.ofNat n)).collects⟩
    rw [Sampling.stage_run, hrun]
  fails := by
    intro s owns s₁ e last s' calls hruns hfewer hfails
    obtain ⟨own, hrun⟩ := h.repeated_fails (b := .new name size) n calls rfl rfl hruns hfewer hfails
    refine ⟨own, ?_⟩
    rw [Sampling.stage_run, hrun]

end MakesRuns

end

namespace Accelerator

variable {σ : Type}

theorem makesRuns_samplings (base : Accelerator σ) (ns : List ℕ) (k : Kernel) (name : String) (size : ℕ) :
    MakesRuns base k (.new name size) ns.prod ((base.recorded.withStages (ns.map .sampling)).execute k) := by
  induction ns with
  | nil => exact makesRuns_execute base k (.new name size)
  | cons n ns ih =>
    rw [List.prod_cons]
    exact ih.sampling base.recorded.errorRates n

/-- A stack of samplings, the outermost of which samples `n` times, over any device. If all runs of the
device succeed, there are as many of them as the product of the counts says, and the caller's buffer has
gathered them. If one fails, it is the last one, and its error is returned. -/
theorem stacked_samplings_gather (base : Accelerator σ) (n : ℕ) (ns : List ℕ) (k : Kernel) (b : Buffer) (s : σ)
    (calls : List Call) :
    let device := base.recorded.withStages ((n :: ns).map .sampling)
    let start := Buffer.new b.name b.size
    let call := Call.execute k start
    ((∀ s, ∃ own s', (base.execute k).run (start, s) = (.ok (), own, s')) →
      ∃ owns s', (base.execute k).Succeeds start s owns s' ∧ owns.length = (n :: ns).prod) ∧
    (∀ owns s', (base.execute k).Succeeds start s owns s' → owns.length = (n :: ns).prod →
      ∃ b', (device.execute k).run (b, s, calls) =
          (.ok (), b', s', calls ++ List.replicate (n :: ns).prod call) ∧
        b.Gathers owns b' ∧
        ((∀ own ∈ owns, own.Counted) → b'.shots = Word.wrap (b.shots + (owns.map Buffer.shots).sum)) ∧
        ∃ v : Int64, b'.info.get? Sampling.key = some (.int v) ∧ v.toInt = min n (2 ^ 63 - 1)) ∧
    ∀ owns s₁ e last s', (base.execute k).Succeeds start s owns s₁ → owns.length < (n :: ns).prod →
      (base.execute k).run (start, s₁) = (.error e, last, s') →
      ∃ b', (device.execute k).run (b, s, calls) =
        (.error e, b', s', calls ++ List.replicate (owns.length + 1) call) := by
  intro device start call
  have hinner := base.makesRuns_samplings ns k b.name b.size
  have hdevice : device.execute k = (Sampling.stage _ n).around base.recorded.errorRates
    (base.recorded.withStages (ns.map .sampling)).execute k := rfl
  rw [List.prod_cons, hdevice]
  refine ⟨fun hall => Run.Succeeds.exists_of_forall hall _ s, fun owns s' hruns hlength => ?_,
    fun owns s₁ e last s' hruns hfewer hfails => ?_⟩
  · obtain ⟨b', hrun, hb'⟩ := hinner.repeated_succeeds n calls rfl rfl (.nil b) hruns hlength
    have hgathers : b.Gathers owns _ := hb'.setInfo (.ofNat n)
    refine ⟨b'.setInfo Sampling.key (.ofNat n), ?_, hgathers, fun hcounted => ?_, ?_⟩
    · rw [Sampling.stage_run, hrun]
    · exact hgathers.shots hcounted
    · obtain ⟨v, hv, hvalue⟩ := Info.exists_ofNat n
      refine ⟨v, ?_, hvalue⟩
      change (b'.info.insert Sampling.key (.ofNat n)).get? Sampling.key = _
      rw [Dictionary.get?_insert, if_pos rfl, hv]
  · obtain ⟨b', hrun⟩ := hinner.repeated_fails n calls rfl rfl hruns hfewer hfails
    refine ⟨b', ?_⟩
    rw [Sampling.stage_run, hrun]

/-- A device that reads zeros and ones by turns and counts its runs; the seventh one fails. -/
def alternating : Accelerator ℕ where
  name := "alternating"
  defaultSize := 1
  execute _ := ExceptT.mk fun (b, runs) =>
    if runs = 6 then (.error (.execution "no more"), b, runs + 1)
    else (.ok (), (b.append (if runs % 2 = 0 then "0" else "1")).setInfo "run" (.ofNat runs), runs + 1)

/-- Two samples of three runs each, into a buffer with an outcome in it; and the same begun too late. -/
theorem stacked_samplings_gather_alternating :
    let device := alternating.recorded.withStages [.sampling 2, .sampling 3]
    let b := (Buffer.new "q" 1).append "1"
    (∃ b', (device.execute (.named "k")).run (b, 0, []) =
        (.ok (), b', 6, List.replicate 6 (.execute (.named "k") (.new "q" 1))) ∧
      b'.measurements = ["1", "0", "1", "0", "1", "0", "1"] ∧ b'.shots = 7 ∧
      b'.info.get? "run" = some (.ofNat 5) ∧ ∃ v : Int64, b'.info.get? Sampling.key = some (.int v) ∧ v.toInt = 2) ∧
    ∃ b', (device.execute (.named "k")).run (b, 3, []) =
      (.error (.execution "no more"), b', 7, List.replicate 4 (.execute (.named "k") (.new "q" 1))) := by
  intro device b
  obtain ⟨-, hsucceeds, -⟩ := stacked_samplings_gather alternating 2 [3] (.named "k") b 0 []
  obtain ⟨-, -, hfails⟩ := stacked_samplings_gather alternating 2 [3] (.named "k") b 3 []
  have hruns : (alternating.execute (.named "k")).Succeeds (.new "q" 1) 0 _ 6 :=
    .more rfl (.more rfl (.more rfl (.more rfl (.more rfl (.more rfl (.none 6))))))
  obtain ⟨b', hrun, hgathers, -, hkey⟩ := hsucceeds _ 6 hruns rfl
  refine ⟨⟨b', hrun, ?_, ?_, ?_, hkey⟩, ?_⟩
  · rw [hgathers.measurements]
    rfl
  · rw [Buffer.shots, Buffer.wordTotal, hgathers.total]
    rfl
  · rw [hgathers.info "run" (by decide)]
    rfl
  · exact hfails _ 6 _ _ 7 (.more rfl (.more rfl (.more rfl (.none 6)))) (by decide) rfl

end Accelerator

end QuantumKernels
