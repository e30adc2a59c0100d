import QuantumKernels.Proofs.Remote.Decoding
import QuantumKernels.Proofs.Remote.Dispatch
import QuantumKernels.Proofs.Wire.Report

/-!
# Which kernel a result is credited to

The results of a batch are told apart by their places in the report alone. Their names are taken over
into the buffers, but never compared with those of the kernels; so every kernel gets the outcomes
reported under its name exactly if the report keeps to the order in which the kernels were submitted.
-/
namespace QuantumKernels.Remote

variable {ω : Type} {link : Link ω}

theorem executeBatch_run (s : Settings) (service : Service) (ks : List Kernel) (b : Buffer) (n : Network ω) :
    ((accelerator link s service).executeBatch ks).run (b, n) =
      match (dispatch link s service b ks).run n with
      | (.ok results, n') => (.ok results,
          (b.attach results).setInfo submittedKey (.text (link.timeText n'.clock)), n')
      | (.error e, n') => (.error e, b, n') := by
  change (submit link s service ks >>= _ : Run (Network ω) (List Buffer)).run (b, n) = _
  rw [run_bind, submit_run]
  rcases (dispatch link s service b ks).run n with ⟨e | results, n'⟩ <;> rfl

/-- What a batch that succeeds has come from: the last answer, which holds a result for each kernel. -/
theorem answer_of_executeBatch {s : Settings} {service : Service} {ks : List Kernel} {b b' : Buffer}
    {n n' : Network ω} {results : List Buffer}
    (h : ((accelerator link s service).executeBatch ks).run (b, n) = (.ok results, b', n')) :
    b'.children = b.children ++ results ∧ ∃ log response, Exchanges link s.timeout n log n' ∧
      (log.map Prod.snd).getLast? = some (.ok response) ∧ service.results b ks response = .ok results := by
  have hdispatched := dispatched link s service b n ks
  rw [executeBatch_run] at h
  rcases hrun : (dispatch link s service b ks).run n with ⟨e | found, n''⟩
  · rw [hrun] at h
    cases h
  · rw [hrun] at h hdispatched
    cases h
    refine ⟨rfl, ?_⟩
    cases hdispatched with
    | sent _ exchanges _ _ _ succeeds =>
      obtain ⟨-, response, hlast, hresults⟩ := (succeeds results).mp rfl
      refine ⟨_, response, exchanges, ?_, Service.results_eq_ok.mpr hresults⟩
      rw [List.map_append, List.map_map]
      simpa [Function.comp_def] using hlast

theorem call_of_send {s : Settings} {r : Request} {n n' : Network ω} {text : String}
    (h : link.send s.timeout r n = (.ok text, n')) (retries : ℕ) : call link s r retries n = (.ok text, n') := by
  cases retries with
  | zero => exact h
  | succ retries => rw [call, h]

/-- A batch whose submission is answered at once, with the results. -/
theorem executeBatch_of_send {s : Settings} {service : Service} {ks : List Kernel} {b : Buffer} {n n' : Network ω}
    {body text : String} {results : List Buffer} (hencode : service.encode (link.jobId n.sent.length) b ks = .ok body)
    (hsend : link.send s.timeout (service.submission body) n = (.ok text, n'))
    (hfollow : service.followUp text = .ok none) (hresults : service.results b ks text = .ok results) :
    ((accelerator link s service).executeBatch ks).run (b, n) =
      (.ok results, (b.attach results).setInfo submittedKey (.text (link.timeText n'.clock)), n') := by
  rw [executeBatch_run, dispatch_run, hencode]
  dsimp only
  rw [call_of_send hsend]
  dsimp only
  rw [hfollow, hresults]

namespace JobService

open Wire

/-- Each buffer holds what the report has under the name of the kernel in its place. -/
def Credited (width : ℕ) (report : Report) (ks : List Kernel) (results : List Buffer) : Prop :=
  List.Forall₂ (fun k own => ∃ r ∈ report.results, r.name = k.name ∧ Holds width r own) ks results

theorem names_of_holds {width : ℕ} {found : List ExperimentResult} {results : List Buffer}
    (h : List.Forall₂ (Holds width) found results) : found.map ExperimentResult.name = results.map Buffer.name :=
  map_eq_map_iff_forall₂.mpr (h.imp fun _ _ hown => hown.name.symm)

theorem credited_iff {width : ℕ} {report : Report} {ks : List Kernel} {results : List Buffer}
    (hholds : List.Forall₂ (Holds width) report.results results) :
    Credited width report ks results ↔ report.results.map ExperimentResult.name = ks.map Kernel.name := by
  constructor
  · intro hcredited
    rw [names_of_holds hholds, eq_comm]
    refine map_eq_map_iff_forall₂.mpr (hcredited.imp ?_)
    rintro k own ⟨r, -, hname, hown⟩
    exact hname.symm.trans hown.name.symm
  · intro horder
    let named : String → Buffer → Prop := fun name own => ∃ r ∈ report.results, r.name = name ∧ Holds width r own
    have hresults : List.Forall₂ (fun r own => named r.name own) report.results results :=
      (forall₂_with_mem hholds).imp fun r own hown => ⟨r, hown.1, rfl, hown.2⟩
    rw [← List.forall₂_map_left_iff, horder, List.forall₂_map_left_iff] at hresults
    exact hresults

/-- What a result says, apart from its name. -/
def content (r : ExperimentResult) : Bool × Dictionary ℕ := (r.success, r.counts)

/-- Neither the order nor the names of its results decide whether a report is accepted. -/
theorem results_of_perm {s : JobService} {ks : List Kernel} {b : Buffer} {response response' : String}
    {report report' : Report} {results : List Buffer} (hread : Json.readAs Report.reading response = some report)
    (hread' : Json.readAs Report.reading response' = some report') (hsuccess : report'.success = true)
    (hperm : (report'.results.map content).Perm (report.results.map content))
    (h : s.service.results b ks response = .ok results) :
    ∃ results', s.service.results b ks response' = .ok results' ∧
      List.Forall₂ (Holds b.size) report'.results results' := by
  obtain ⟨hdecode, hlength⟩ := Service.results_eq_ok.mp h
  obtain ⟨-, hlegible⟩ := (exists_decode_iff hread).mp ⟨results, hdecode⟩
  obtain ⟨results', hdecode'⟩ : ∃ results', s.decode b response' = .ok results' := by
    refine (exists_decode_iff hread').mpr ⟨hsuccess, fun r hr => ?_⟩
    obtain ⟨r₀, hr₀, hsame⟩ := List.mem_map.mp (hperm.subset (List.mem_map_of_mem hr))
    obtain ⟨hsuccess, hcounts⟩ := Prod.mk.inj hsame
    rw [← hsuccess, ← hcounts]
    exact hlegible r₀ hr₀
  refine ⟨results', Service.results_eq_ok.mpr ⟨hdecode', ?_⟩, holds_of_decode hread' hdecode'⟩
  have hsize := hperm.length_eq
  rw [List.length_map, List.length_map] at hsize
  rw [length_of_decode hread' hdecode', hsize, ← length_of_decode hread hdecode, hlength]

/-- What a batch that succeeds returns and attaches: in each place the result that the report has in
that place. So the results are credited to the kernels under whose names they are reported exactly if
the report keeps to the order of the kernels. Any other report with the same outcomes, in whatever order
and under whatever names, would have been accepted as well. -/
theorem batch_credited_iff {s : Settings} {js : JobService} {ks : List Kernel} {b b' : Buffer} {n n' : Network ω}
    {results : List Buffer}
    (h : ((accelerator link s js.service).executeBatch ks).run (b, n) = (.ok results, b', n')) :
    ∃ log response report, Exchanges link s.timeout n log n' ∧
      (log.map Prod.snd).getLast? = some (.ok response) ∧ Json.readAs Report.reading response = some report ∧
      b'.children = b.children ++ results ∧ report.results.length = ks.length ∧
      List.Forall₂ (Holds b.size) report.results results ∧
      (Credited b.size report ks results ↔ report.results.map ExperimentResult.name = ks.map Kernel.name) ∧
      ∀ response' report', Json.readAs Report.reading response' = some report' → report'.success = true →
        (report'.results.map content).Perm (report.results.map content) →
        ∃ results', js.service.results b ks response' = .ok results' ∧
          List.Forall₂ (Holds b.size) report'.results results' := by
  obtain ⟨hchildren, log, response, hexchanges, hlast, hresults⟩ := answer_of_executeBatch h
  obtain ⟨hdecode, hlength⟩ := Service.results_eq_ok.mp hresults
  obtain ⟨report, hread⟩ := exists_read_of_decode hdecode
  have hholds := holds_of_decode hread hdecode
  exact ⟨log, response, report, hexchanges, hlast, hread, hchildren, hholds.length_eq.trans hlength, hholds,
    credited_iff hholds, fun _ _ hread' hsuccess hperm => results_of_perm hread hread' hsuccess hperm hresults⟩

def oneThenZero : List Kernel :=
  [⟨{ name := "one" }, [.leaf { name := "X", bits := [0] }, .leaf (.measure 0 0)]⟩,
    ⟨{ name := "zero" }, [.leaf (.measure 0 0)]⟩]

def zeroThenOne : Report where
  results := [{ name := "zero", counts := .ofList [("0x0", 10)] }, { name := "one", counts := .ofList [("0x1", 10)] }]

theorem zeroThenOne_writable : zeroThenOne.Writable := by
  have hten : 10 ≤ Json.wordLimit := by decide
  refine List.forall_mem_cons.mpr ⟨?_, List.forall_mem_singleton.mpr ?_⟩ <;>
    exact ⟨Nat.zero_le _, List.forall_mem_singleton.mpr hten⟩

theorem followUp_zeroThenOne : followUp zeroThenOne.toJson.compact = .ok none := by
  have hread : Json.read zeroThenOne.toJson.compact = some zeroThenOne.toJson :=
    Json.read_compact (Report.legible_toJson zeroThenOne_writable)
  rw [followUp, Json.readAs, hread]
  rfl

/-- What comes of a batch whose submission is answered with a text. -/
def answering (text : String) (ks : List Kernel) (b : Buffer) :
    Except DeviceError (List Buffer) × Buffer × Network (List Reply) :=
  ((accelerator (.scripted (fun _ => "1") fun _ => "now") {} ({ token := some "t" } : JobService).service).executeBatch
    ks).run (b, { world := [⟨0, .ok text⟩] })

/-- The kernel that prepares a one is given the result of the other. -/
theorem batch_credited_iff_zeroThenOne : ∃ results b' n' report,
    answering zeroThenOne.toJson.compact oneThenZero (.new "q" 1) = (.ok results, b', n') ∧
      results.map (fun own => (own.name, own.count "1")) = [("zero", 0), ("one", 10)] ∧
      List.Forall₂ (Holds 1) report.results results ∧ ¬ Credited 1 report oneThenZero results := by
  have hread := Report.readAs_compact zeroThenOne_writable
  have hfollow := followUp_zeroThenOne
  generalize zeroThenOne.toJson.compact = text at hread hfollow ⊢
  obtain ⟨results, hdecode⟩ : ∃ results, ({ token := some "t" } : JobService).decode (.new "q" 1) text = .ok results := by
    refine (exists_decode_iff hread).mpr ⟨rfl, List.forall_mem_cons.mpr ⟨?_, List.forall_mem_singleton.mpr ?_⟩⟩ <;>
      exact ⟨rfl, List.forall_mem_singleton.mpr ⟨_, rfl⟩⟩
  have hholds := holds_of_decode hread hdecode
  have hreported : ∀ {r own}, Holds 1 r own → (own.name, own.count "1") = (r.name, reported r 1 "1") :=
    fun hown => Prod.ext hown.name (hown.count "1")
  have hfound : results.map (fun own => (own.name, own.count "1")) = [("zero", 0), ("one", 10)] :=
    (map_eq_map_iff_forall₂.mpr (hholds.imp fun r own hown => (hreported hown).symm)).symm
  obtain ⟨body, hbody⟩ : ∃ body, ({ token := some "t" } : JobService).encode "1" (.new "q" 1) oneThenZero = .ok body :=
    ⟨_, rfl⟩
  obtain ⟨b', n', hrun⟩ : ∃ b' n', answering text oneThenZero (.new "q" 1) = (.ok results, b', n') :=
    ⟨_, _, executeBatch_of_send hbody rfl hfollow (Service.results_eq_ok.mpr ⟨hdecode, hholds.length_eq.symm⟩)⟩
  obtain ⟨-, -, report, -, -, -, -, -, hreport, hcredited, -⟩ := batch_credited_iff hrun
  refine ⟨results, b', n', report, hrun, hfound, hreport, fun h => ?_⟩
  have horder : report.results.map ExperimentResult.name = ["one", "zero"] := hcredited.mp h
  have hplaces : results.map Buffer.name = ["zero", "one"] := by
    simpa [Function.comp_def] using congrArg (List.map Prod.fst) hfound
  rw [names_of_holds hreport, hplaces] at horder
  exact absurd horder (by decide)

end JobService

end QuantumKernels.Remote
