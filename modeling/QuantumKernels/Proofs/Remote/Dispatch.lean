import QuantumKernels.Remote.Dispatch
import QuantumKernels.Proofs.Outcome
import Mathlib.Order.Basic
import Mathlib.Data.List.Basic
import Mathlib.Tactic.SplitIfs

/-!
# Remote dispatch

What passes over a network is a list of exchanges, each a request with what came of it. A dispatch
is one request that submits kernels, sent until it is settled, and at most one query after it. No
submission is repeated that the service may have accepted, and a buffer takes either all results
of a dispatch or nothing.
-/
namespace QuantumKernels.Remote

variable {ω : Type} {link : Link ω}

/-- The exchanges that lead from one state of a network to another, in order; time may pass in
between. -/
inductive Exchanges (link : Link ω) (timeout : ℕ) :
    Network ω → List (Request × Except DeviceError String) → Network ω → Prop
  | none (n : Network ω) : Exchanges link timeout n [] n
  | wait {n n' : Network ω} {log : List (Request × Except DeviceError String)} {clock : ℕ}
      (hclock : n.clock ≤ clock) (h : Exchanges link timeout { n with clock } log n') : Exchanges link timeout n log n'
  | send {n n' n'' : Network ω} {r : Request} {outcome : Except DeviceError String}
      {log : List (Request × Except DeviceError String)} (hsend : link.send timeout r n = (outcome, n'))
      (h : Exchanges link timeout n' log n'') : Exchanges link timeout n ((r, outcome) :: log) n''

theorem sent_of_send {timeout : ℕ} {r : Request} {n n' : Network ω} {outcome : Except DeviceError String}
    (h : link.send timeout r n = (outcome, n')) : n'.sent = n.sent ++ [r] := by
  rw [Link.send] at h
  dsimp only at h
  split_ifs at h <;> cases h <;> rfl

/-- The network notes the requests of all exchanges. -/
theorem Exchanges.sent_eq {timeout : ℕ} {n n' : Network ω}
    {log : List (Request × Except DeviceError String)} (h : Exchanges link timeout n log n') :
    n'.sent = n.sent ++ log.map Prod.fst := by
  induction h with
  | none n => simp
  | wait _ _ ih => exact ih
  | send hsend _ ih =>
    rw [ih, sent_of_send hsend, List.map_cons, List.append_assoc, List.singleton_append]

theorem Exchanges.append {timeout : ℕ} {n n' n'' : Network ω}
    {log log' : List (Request × Except DeviceError String)} (h : Exchanges link timeout n log n')
    (h' : Exchanges link timeout n' log' n'') : Exchanges link timeout n (log ++ log') n'' := by
  induction h with
  | none n => exact h'
  | wait hclock _ ih => exact .wait hclock (ih h')
  | send hsend _ ih => exact .send hsend (ih h')

/-- How one request went that is sent at most so many times: each failure but the last allowed
another attempt, and the attempts were given up only when none was left or allowed. -/
structure Attempts (limit : ℕ) (again : DeviceError → Prop) (outcomes : List (Except DeviceError String))
    (last : Except DeviceError String) : Prop where
  few : outcomes.length ≤ limit
  settled : ∃ failures : List DeviceError,
    outcomes = failures.map Except.error ++ [last] ∧ ∀ e ∈ failures, again e
  givenUp : ∀ e, last = .error e → again e → outcomes.length = limit

section

variable {again : DeviceError → Prop} {last : Except DeviceError String}

theorem Attempts.getLast? {limit : ℕ} {outcomes : List (Except DeviceError String)}
    (h : Attempts limit again outcomes last) : outcomes.getLast? = some last := by
  obtain ⟨failures, rfl, -⟩ := h.settled
  simp

theorem Attempts.congr {limit : ℕ} {outcomes : List (Except DeviceError String)}
    (h : Attempts limit again outcomes last) {again' : DeviceError → Prop}
    (hagain : ∀ e, again e ↔ again' e) : Attempts limit again' outcomes last := by
  obtain rfl : again = again' := funext fun e => propext (hagain e)
  exact h

theorem Attempts.single {left : ℕ} (h : ∀ e, last = .error e → again e → left = 0) :
    Attempts (left + 1) again [last] last where
  few := by simp
  settled := ⟨[], rfl, nofun⟩
  givenUp := by
    intro e hlast hagain
    simp [h e hlast hagain]

theorem Attempts.retry {limit : ℕ} {e : DeviceError} {outcomes : List (Except DeviceError String)}
    (hagain : again e) (h : Attempts limit again outcomes last) :
    Attempts (limit + 1) again (.error e :: outcomes) last where
  few := Nat.succ_le_succ h.few
  settled := by
    obtain ⟨failures, rfl, hfailures⟩ := h.settled
    refine ⟨e :: failures, rfl, fun d hd => ?_⟩
    rcases List.mem_cons.mp hd with rfl | hd
    · exact hagain
    · exact hfailures d hd
  givenUp := by
    intro d hlast hd
    rw [List.length_cons, h.givenUp d hlast hd]

end

/-- A request goes on until an attempt succeeds, fails in a way that allows no other, or none is
left. -/
theorem call_attempts (link : Link ω) (s : Settings) (r : Request) (retries : ℕ) (n : Network ω) :
    ∃ outcomes, Exchanges link s.timeout n (outcomes.map (r, ·)) (call link s r retries n).2 ∧
      Attempts (retries + 1) (mayRetry r · = true) outcomes (call link s r retries n).1 := by
  -- a retry is the same request with one attempt less, on the network after the pause
  induction retries generalizing n with
  | zero => exact ⟨[_], .send rfl (.none _), .single fun _ _ _ => rfl⟩
  | succ retries ih =>
    rw [call]
    rcases hsend : link.send s.timeout r n with ⟨e | text, n'⟩
    · dsimp only
      split_ifs with hagain
      · obtain ⟨outcomes, hexchanges, hattempts⟩ := ih { n' with clock := n'.clock + s.retry.backoff }
        exact ⟨_ :: outcomes, .send hsend (.wait (Nat.le_add_right _ _) hexchanges), .retry hagain hattempts⟩
      · refine ⟨[_], .send hsend (.none _), .single ?_⟩
        rintro _ ⟨⟩ h
        exact absurd h hagain
    · exact ⟨[_], .send hsend (.none _), .single nofun⟩

/-- The submission of a body. -/
def Service.submission (service : Service) (body : String) : Request :=
  { url := service.url, path := service.postPath, headers := service.headers, body := some body }

def Service.query (service : Service) (path : String) : Request :=
  { url := service.url, path, headers := service.headers }

theorem mayRetry_submission {service : Service} {body : String} {e : DeviceError} :
    mayRetry (service.submission body) e = true ↔ ∃ text, e = .transport text := by
  cases e <;> simp [mayRetry, Service.submission, Request.isSubmission]

theorem mayRetry_query {service : Service} {path : String} {e : DeviceError} :
    mayRetry (service.query path) e = true ↔
      (∃ text, e = .transport text) ∨ ∃ target seconds, e = .timeout target seconds := by
  cases e <;> simp [mayRetry, Service.query, Request.isSubmission]

/-- The path named by the answer to a submission, if there is an answer that names one. -/
def Service.named? (service : Service) (posts : List (Except DeviceError String)) : Option String :=
  match posts.getLast? with
  | some (.ok answer) => (service.followUp answer).toOption.join
  | _ => none

/-- What a dispatch may come to. Either there is nothing to submit, and nothing is sent; or the
submission is sent, then the query for the path that the answer names, and the results come from
the last answer. -/
inductive Dispatched (link : Link ω) (s : Settings) (service : Service) (b : Buffer) (n : Network ω)
    (kernels : List Kernel) : Except DeviceError (List Buffer) → Network ω → Prop
  | unencoded {e : DeviceError} (encode : service.encode (link.jobId n.sent.length) b kernels = .error e) :
      Dispatched link s service b n kernels (.error e) n
  | sent {body : String} {posts : List (Except DeviceError String)}
      {gets : List (Request × Except DeviceError String)} {outcome : Except DeviceError (List Buffer)}
      {n' : Network ω} (encode : service.encode (link.jobId n.sent.length) b kernels = .ok body)
      (exchanges : Exchanges link s.timeout n (posts.map (service.submission body, ·) ++ gets) n')
      (requests : ∃ path, n'.sent = n.sent ++ List.replicate posts.length (service.submission body) ++
        List.replicate gets.length (service.query path))
      (submitted : ∃ last, Attempts (max 1 s.retry.attempts) (fun e => ∃ text, e = .transport text)
        posts last)
      (fetched : match service.named? posts with
        | none => gets = []
        | some path => ∃ outcomes last, gets = outcomes.map (service.query path, ·) ∧
          Attempts (max 1 s.retry.attempts) (fun e => (∃ text, e = .transport text) ∨
            ∃ target seconds, e = .timeout target seconds) outcomes last)
      (succeeds : ∀ results, outcome = .ok results ↔
        (∃ answer path, posts.getLast? = some (.ok answer) ∧ service.followUp answer = .ok path) ∧
        ∃ response, (posts ++ gets.map Prod.snd).getLast? = some (.ok response) ∧
          service.decode b response = .ok results ∧ results.length = kernels.length) :
      Dispatched link s service b n kernels outcome n'

theorem requests_eq {timeout : ℕ} {service : Service} {n n' : Network ω} {body path : String}
    {posts : List (Except DeviceError String)} {gets : List (Request × Except DeviceError String)}
    (h : Exchanges link timeout n (posts.map (service.submission body, ·) ++ gets) n')
    (hgets : ∀ g ∈ gets, g.1 = service.query path) :
    n'.sent = n.sent ++ List.replicate posts.length (service.submission body) ++
      List.replicate gets.length (service.query path) := by
  have hqueries : gets.map Prod.fst = List.replicate gets.length (service.query path) :=
    List.map_eq_replicate_iff.mpr hgets
  rw [h.sent_eq, List.map_append, List.map_map, hqueries, List.append_assoc]
  simp [Function.comp_def]

/-- The results in a response, which have to be as many as the kernels. -/
def Service.results (service : Service) (b : Buffer) (kernels : List Kernel) (response : String) :
    Except DeviceError (List Buffer) :=
  match service.decode b response with
  | .error e => .error e
  | .ok results =>
    if results.length = kernels.length then .ok results else .error (.mismatch kernels.length results.length)

theorem Service.results_eq_ok {service : Service} {b : Buffer} {kernels : List Kernel} {response : String}
    {results : List Buffer} : service.results b kernels response = .ok results ↔
      service.decode b response = .ok results ∧ results.length = kernels.length := by
  rw [Service.results]
  cases service.decode b response with
  | error e => simp
  | ok found =>
    dsimp only
    split_ifs with hlen
    · constructor
      · rintro ⟨⟩
        exact ⟨rfl, hlen⟩
      · rintro ⟨⟨⟩, -⟩
        rfl
    · constructor
      · nofun
      · rintro ⟨⟨⟩, hlen'⟩
        exact absurd hlen' hlen

theorem run_lift {σ ε α : Type} (v : Except ε α) (n : σ) :
    (ExceptT.mk (pure v) : ExceptT ε (StateM σ) α).run n = (v, n) := rfl

theorem request_run (s : Settings) (r : Request) (n : Network ω) :
    (request link s r).run n = call link s r (s.retry.attempts - 1) n := rfl

theorem dispatch_run (s : Settings) (service : Service) (b : Buffer) (kernels : List Kernel)
    (n : Network ω) : (dispatch link s service b kernels).run n =
      match service.encode (link.jobId n.sent.length) b kernels with
      | .error e => (.error e, n)
      | .ok body =>
        match call link s (service.submission body) (s.retry.attempts - 1) n with
        | (.error e, n) => (.error e, n)
        | (.ok answer, n) =>
          match service.followUp answer with
          | .error e => (.error e, n)
          | .ok none => (service.results b kernels answer, n)
          | .ok (some path) =>
            match call link s (service.query path) (s.retry.attempts - 1) n with
            | (.error e, n) => (.error e, n)
            | (.ok response, n) => (service.results b kernels response, n) := by
  -- both ways to an answer end in the same check of the results
  have hresults : ∀ (response : String) (n : Network ω),
      (do
        let results ← ExceptT.mk (pure (service.decode b response))
        if results.length = kernels.length then return results
        else throw (.mismatch kernels.length results.length) :
        ExceptT DeviceError (StateM (Network ω)) (List Buffer)).run n =
      (service.results b kernels response, n) := by
    intro response n
    rw [run_bind, run_lift, Service.results]
    cases service.decode b response with
    | error e => rfl
    | ok results =>
      dsimp only
      split_ifs <;> rfl
  rw [dispatch, run_bind]
  change (ExceptT.mk (pure (service.encode (link.jobId n.sent.length) b kernels)) >>= _ :
    ExceptT DeviceError (StateM (Network ω)) (List Buffer)).run n = _
  rw [run_bind, run_lift]
  cases service.encode (link.jobId n.sent.length) b kernels with
  | error e => rfl
  | ok body =>
    have hsubmission : service.submission body = {
      url := service.url, path := service.postPath, headers := service.headers, body := some body } := rfl
    dsimp only
    rw [run_bind, request_run, ← hsubmission]
    rcases call link s (service.submission body) (s.retry.attempts - 1) n with ⟨e | answer, n'⟩
    · rfl
    dsimp only
    rw [run_bind, run_lift]
    rcases service.followUp answer with e | _ | path
    · rfl
    · exact hresults answer n'
    · have hquery : service.query path = { url := service.url, path, headers := service.headers } := rfl
      dsimp only
      rw [run_bind, request_run, ← hquery]
      rcases call link s (service.query path) (s.retry.attempts - 1) n' with ⟨e | response, n''⟩
      · rfl
      · exact hresults response n''

theorem request_attempts (link : Link ω) (s : Settings) (r : Request) (n : Network ω) :
    ∃ outcomes last n', call link s r (s.retry.attempts - 1) n = (last, n') ∧
      Exchanges link s.timeout n (outcomes.map (r, ·)) n' ∧
      Attempts (max 1 s.retry.attempts) (mayRetry r · = true) outcomes last := by
  have hlimit : s.retry.attempts - 1 + 1 = max 1 s.retry.attempts := by omega
  obtain ⟨outcomes, hexchanges, hattempts⟩ := call_attempts link s r (s.retry.attempts - 1) n
  rw [hlimit] at hattempts
  exact ⟨outcomes, _, _, rfl, hexchanges, hattempts⟩

theorem named?_of_answer (service : Service) {posts : List (Except DeviceError String)} {answer : String}
    (h : posts.getLast? = some (.ok answer)) :
    service.named? posts = (service.followUp answer).toOption.join := by
  rw [Service.named?, h]

theorem dispatched (link : Link ω) (s : Settings) (service : Service) (b : Buffer) (n : Network ω)
    (kernels : List Kernel) :
    Dispatched link s service b n kernels ((dispatch link s service b kernels).run n).1
      ((dispatch link s service b kernels).run n).2 := by
  rw [dispatch_run]
  cases hbody : service.encode (link.jobId n.sent.length) b kernels with
  | error e => exact .unencoded hbody
  | ok body =>
    obtain ⟨posts, last, n', hcall, hposts, hposted⟩ :=
      request_attempts link s (service.submission body) n
    have hsubmitted := hposted.congr fun e => mayRetry_submission
    have hlast := hposted.getLast?
    have halone : Exchanges link s.timeout n (posts.map (service.submission body, ·) ++ []) n' := by
      rw [List.append_nil]
      exact hposts
    have hrequests : ∃ path, n'.sent = _ ++ List.replicate 0 (service.query path) :=
      ⟨service.postPath, requests_eq halone nofun⟩
    dsimp only
    rw [hcall]
    rcases last with e | answer
    -- no submission is answered
    · refine .sent hbody halone hrequests ⟨_, hsubmitted⟩ ?_ fun results => ?_
      · simp [Service.named?, hlast]
      · simp [hlast]
    have hnamed := named?_of_answer service hlast
    dsimp only
    rcases hfollow : service.followUp answer with e | _ | path <;> rw [hfollow] at hnamed
    -- the answer is not understood
    · refine .sent hbody halone hrequests ⟨_, hsubmitted⟩ ?_ fun results => ?_
      · rw [hnamed]
        rfl
      · simp [hlast, hfollow]
    -- the answer holds the results
    · refine .sent hbody halone hrequests ⟨_, hsubmitted⟩ ?_ fun results => ?_
      · rw [hnamed]
        rfl
      · simp [hlast, hfollow, Service.results_eq_ok]
    -- the answer names a path to fetch them from
    · obtain ⟨outcomes, last, n'', hcall, hgets, hqueried⟩ :=
        request_attempts link s (service.query path) n'
      have hfetched := hqueried.congr fun e => mayRetry_query
      have hanswer : (posts ++ (outcomes.map (service.query path, ·)).map Prod.snd).getLast? =
          some last := by
        simp [List.getLast?_append, Function.comp_def, hqueried.getLast?]
      have hsent : ∀ outcome, (∀ results, outcome = .ok results ↔ ∃ response, last = .ok response ∧
          service.results b kernels response = .ok results) →
          Dispatched link s service b n kernels outcome n'' := by
        intro outcome hsucceeds
        have hboth := hposts.append hgets
        refine .sent hbody hboth ⟨path, requests_eq hboth ?_⟩ ⟨_, hsubmitted⟩ ?_ fun results => ?_
        · simp
        · rw [hnamed]
          exact ⟨outcomes, last, rfl, hfetched⟩
        · rw [hanswer, hsucceeds]
          simp [hlast, hfollow, Service.results_eq_ok]
      dsimp only
      rw [hcall]
      rcases last with e | response
      · exact hsent (.error e) (by simp)
      · exact hsent (service.results b kernels response) (by simp)

theorem Dispatched.length_eq {s : Settings} {service : Service} {b : Buffer} {n n' : Network ω}
    {kernels : List Kernel} {results : List Buffer}
    (h : Dispatched link s service b n kernels (.ok results) n') : results.length = kernels.length := by
  cases h with
  | sent _ _ _ _ _ succeeds =>
    obtain ⟨-, response, -, -, hlen⟩ := (succeeds results).mp rfl
    exact hlen

theorem submit_run (s : Settings) (service : Service) (kernels : List Kernel) (b : Buffer)
    (n : Network ω) : (submit link s service kernels).run (b, n) =
      (((dispatch link s service b kernels).run n).1, b, ((dispatch link s service b kernels).run n).2) :=
  rfl

/-- A remote accelerator runs a kernel, or several, by one dispatch. If it succeeds, the buffer takes
over the one result, or has all results as new children, and notes the time; if it fails, the buffer
is what it was. -/
theorem accelerator_all_or_nothing (link : Link ω) (s : Settings) (service : Service) (b : Buffer)
    (n : Network ω) :
    (∀ k, ∃ outcome n', Dispatched link s service b n [k] outcome n' ∧
      ((∃ result, outcome = .ok [result] ∧ ((accelerator link s service).execute k).run (b, n) =
          (.ok (), (b.absorb result).setInfo submittedKey (.text (link.timeText n'.clock)), n')) ∨
        ∃ e, outcome = .error e ∧
          ((accelerator link s service).execute k).run (b, n) = (.error e, b, n'))) ∧
    ∀ ks, ∃ outcome n', Dispatched link s service b n ks outcome n' ∧
      ((∃ results, outcome = .ok results ∧ ((accelerator link s service).executeBatch ks).run (b, n) =
          (.ok results, (b.attach results).setInfo submittedKey (.text (link.timeText n'.clock)), n')) ∨
        ∃ e, outcome = .error e ∧
          ((accelerator link s service).executeBatch ks).run (b, n) = (.error e, b, n')) := by
  constructor
  · intro k
    have hdispatched := dispatched link s service b n [k]
    refine ⟨_, _, hdispatched, ?_⟩
    rcases hrun : (dispatch link s service b [k]).run n with ⟨e | results, n'⟩ <;> rw [hrun] at hdispatched
    · refine .inr ⟨e, rfl, ?_⟩
      change (submit link s service [k] >>= _ : Run (Network ω) Unit).run (b, n) = _
      rw [run_bind, submit_run, hrun]
    · obtain ⟨result, rfl⟩ := List.length_eq_one_iff.mp hdispatched.length_eq
      refine .inl ⟨result, rfl, ?_⟩
      change (submit link s service [k] >>= _ : Run (Network ω) Unit).run (b, n) = _
      rw [run_bind, submit_run, hrun]
      rfl
  · intro ks
    refine ⟨_, _, dispatched link s service b n ks, ?_⟩
    rcases hrun : (dispatch link s service b ks).run n with ⟨e | results, n'⟩
    · refine .inr ⟨e, rfl, ?_⟩
      change (submit link s service ks >>= _ : Run (Network ω) (List Buffer)).run (b, n) = _
      rw [run_bind, submit_run, hrun]
    · refine .inl ⟨results, rfl, ?_⟩
      change (submit link s service ks >>= _ : Run (Network ω) (List Buffer)).run (b, n) = _
      rw [run_bind, submit_run, hrun]
      rfl

end QuantumKernels.Remote
