import QuantumKernels.Proofs.Remote.Configuration
import QuantumKernels.Proofs.Remote.Dispatch

/-!
# What the token shows in

Two runs of a device of the job service that differ in nothing but the token go on in step: the device,
its buffer and its network stay the same but for the token, the identifiers of jobs and the header in
which the token is shown. So nothing that a run gives back tells one token from another.
-/
namespace QuantumKernels

/-- The configuration with another token, if it has one. -/
inductive DeviceConfig.SameButToken (c : DeviceConfig) : DeviceConfig → Prop
  | retoken (token : Option String) (present : c.token.isSome = token.isSome) : SameButToken c { c with token }

namespace Remote

inductive JobService.SameButToken (s : JobService) : JobService → Prop
  | retoken (token : Option String) (present : s.token.isSome = token.isSome) : SameButToken s { s with token }

structure Device.SameButToken (d d' : Device JobService) : Prop where
  own : d.own.SameButToken d'.own
  settings : d.settings = d'.settings

def authorization : String := "Authorization"

/-- The bodies of submissions of one job under two identifiers; a query has none. -/
inductive SameBody : Option String → Option String → Prop
  | query : SameBody none none
  | submission (compiler : Wire.Compiler) (job : Wire.Job) (id id' : String) :
      SameBody (some (compiler.seal { job with id })) (some (compiler.seal { job with id := id' }))

structure Request.SameButToken (r r' : Request) : Prop where
  url : r.url = r'.url
  path : r.path = r'.path
  headers : r.headers.erase authorization = r'.headers.erase authorization
  body : SameBody r.body r'.body

theorem SameBody.isSome_eq {body body' : Option String} (h : SameBody body body') : body.isSome = body'.isSome := by
  cases h <;> rfl

namespace JobService

variable {s s' : JobService} {c c' : DeviceConfig}

theorem SameButToken.describe_eq (h : s.SameButToken s') : s.describe = s'.describe := by
  obtain ⟨token, present⟩ := h
  have htext : ∀ a b : Option String, a.isSome = b.isSome →
      Text.describeOption (fun _ => Text.describeText "[REDACTED]") a =
        Text.describeOption (fun _ => Text.describeText "[REDACTED]") b := by
    intro a b hab
    cases a <;> cases b <;> first | rfl | cases hab
  rw [describe, htext _ _ present]
  rfl

theorem SameButToken.configure (hs : s.SameButToken s') (hc : c.SameButToken c') :
    Agree SameButToken (s.configure c) (s'.configure c') := by
  obtain ⟨token, hs⟩ := hs
  obtain ⟨token', hc⟩ := hc
  have hboth : (c.token.or s.token).isSome = (token'.or token).isSome := by
    rw [Option.isSome_or, Option.isSome_or, hs, hc]
  have hoptions : ({ c with token := token' } : DeviceConfig).options = c.options := rfl
  unfold JobService.configure
  dsimp only
  rw [hoptions]
  refine (Agree.refl _).bind ?_
  rintro shots _ rfl
  refine (Agree.refl _).bind ?_
  rintro qubits _ rfl
  split_ifs
  · exact .error _
  · exact .error _
  · exact .ok (.retoken _ hboth)

theorem SameButToken.headers_erase (h : s.SameButToken s') :
    s.headers.erase authorization = s'.headers.erase authorization := by
  obtain ⟨token, present⟩ := h
  have hshown : ∀ s : JobService, s.headers.erase authorization =
      (Dictionary.ofList [("Content-Type", "application/json")]).erase authorization := by
    intro s
    unfold headers
    cases s.token with
    | none => rfl
    | some token => exact Dictionary.erase_insert _ _ _
  rw [hshown, hshown]

theorem SameButToken.encode (h : s.SameButToken s') (id id' : String) (b : Buffer) (ks : List Kernel) :
    Agree (fun body body' => SameBody (some body) (some body')) (s.encode id b ks) (s'.encode id' b ks) := by
  obtain ⟨token, present⟩ := h
  have hnone : ({ s with token } : JobService).token.isNone = s.token.isNone := by
    rw [← Option.not_isSome, ← Option.not_isSome, present]
  unfold JobService.encode
  rw [hnone]
  split
  · exact .error _
  · unfold Wire.Job.ofKernels
    cases ks.mapM Wire.Experiment.ofKernel with
    | error e => exact .error _
    | ok experiments => exact .ok (.submission { device := s.device } { id, experiments, settings := _ } id id')

end JobService

section

variable {ω ω' : Type} {link : Link ω} {link' : Link ω'} {alike : ω → ω' → Prop}

/-- Two links that give the same replies to requests that differ in nothing but the token. -/
structure Link.AnswersLike (link : Link ω) (link' : Link ω') (alike : ω → ω' → Prop) : Prop where
  reply : ∀ r r' w w', r.SameButToken r' → alike w w' → (link.answer r w).1 = (link'.answer r' w').1
  world : ∀ r r' w w', r.SameButToken r' → alike w w' → alike (link.answer r w).2 (link'.answer r' w').2
  timeText : link.timeText = link'.timeText

/-- The same time has passed, and the same requests were sent but for the token. -/
structure Network.SameButToken (alike : ω → ω' → Prop) (n : Network ω) (n' : Network ω') : Prop where
  world : alike n.world n'.world
  sent : List.Forall₂ Request.SameButToken n.sent n'.sent
  clock : n.clock = n'.clock

variable {n : Network ω} {n' : Network ω'} {r r' : Request}

theorem send_agree (hlink : link.AnswersLike link' alike) (hr : r.SameButToken r')
    (hn : n.SameButToken alike n') (timeout : ℕ) :
    (link.send timeout r n).1 = (link'.send timeout r' n').1 ∧
      (link.send timeout r n).2.SameButToken alike (link'.send timeout r' n').2 := by
  have hreply := hlink.reply r r' n.world n'.world hr hn.world
  have hworld := hlink.world r r' n.world n'.world hr hn.world
  have htarget : r.target = r'.target := by rw [Request.target, Request.target, hr.url, hr.path]
  have hsent : List.Forall₂ Request.SameButToken (n.sent ++ [r]) (n'.sent ++ [r']) :=
    List.rel_append hn.sent (.cons hr .nil)
  unfold Link.send
  dsimp only
  rw [hreply, htarget]
  split
  · exact ⟨rfl, hworld, hsent, congrArg (· + timeout) hn.clock⟩
  · exact ⟨rfl, hworld, hsent, congrArg (· + _) hn.clock⟩

theorem call_agree (hlink : link.AnswersLike link' alike) (hr : r.SameButToken r') (s : Settings) (retries : ℕ)
    (hn : n.SameButToken alike n') : (call link s r retries n).1 = (call link' s r' retries n').1 ∧
      (call link s r retries n).2.SameButToken alike (call link' s r' retries n').2 := by
  -- the same replies come back, so both runs give up at the same attempt
  induction retries generalizing n n' with
  | zero => exact send_agree hlink hr hn s.timeout
  | succ retries ih =>
    have hretry : mayRetry r = mayRetry r' := by
      funext e
      unfold mayRetry Request.isSubmission
      rw [hr.body.isSome_eq]
    obtain ⟨hreply, hafter⟩ := send_agree hlink hr hn s.timeout
    rw [call, call, hretry]
    rcases hsend : link.send s.timeout r n with ⟨e | text, m⟩ <;>
      rcases hsend' : link'.send s.timeout r' n' with ⟨e' | text', m'⟩ <;>
      rw [hsend, hsend'] at hreply hafter <;> cases hreply
    · dsimp only
      split
      · exact ih ⟨hafter.world, hafter.sent, congrArg (· + s.retry.backoff) hafter.clock⟩
      · exact ⟨rfl, hafter⟩
    · exact ⟨rfl, hafter⟩

theorem request_inStep (hlink : link.AnswersLike link' alike) (hr : r.SameButToken r') (s : Settings) :
    InStep (Network.SameButToken alike) Eq (request link s r) (request link' s r') := by
  intro n n' hn
  obtain ⟨houtcome, hafter⟩ := call_agree hlink hr s (s.retry.attempts - 1) hn
  rw [request_run, request_run, houtcome]
  exact ⟨.refl _, hafter⟩

variable {js js' : JobService}

theorem submission_sameButToken (hs : js.SameButToken js') {body body' : String}
    (h : SameBody (some body) (some body')) :
    (js.service.submission body).SameButToken (js'.service.submission body') where
  url := by cases hs; rfl
  path := rfl
  headers := hs.headers_erase
  body := h

theorem query_sameButToken (hs : js.SameButToken js') (path : String) :
    (js.service.query path).SameButToken (js'.service.query path) where
  url := by cases hs; rfl
  path := rfl
  headers := hs.headers_erase
  body := .query

theorem decode_eq (hs : js.SameButToken js') : js.service.decode = js'.service.decode := by
  cases hs
  rfl

theorem dispatch_inStep (hlink : link.AnswersLike link' alike) (hs : js.SameButToken js') (s : Settings) (b : Buffer)
    (ks : List Kernel) :
    InStep (Network.SameButToken alike) Eq (dispatch link s js.service b ks) (dispatch link' s js'.service b ks) := by
  unfold dispatch
  refine InStep.get.bind fun n n' _ => ?_
  refine (InStep.lift (hs.encode _ _ b ks)).bind fun body body' hbody => ?_
  refine (request_inStep hlink (submission_sameButToken hs hbody) s).bind ?_
  rintro answer _ rfl
  refine (InStep.lift (.refl _)).bind ?_
  rintro followed _ rfl
  have hresults : ∀ text, InStep (Network.SameButToken alike) Eq
      (do
        let results ← ExceptT.mk (pure (js.service.decode b text))
        if results.length = ks.length then return results else throw (.mismatch ks.length results.length))
      (do
        let results ← ExceptT.mk (pure (js'.service.decode b text))
        if results.length = ks.length then return results else throw (.mismatch ks.length results.length)) := by
    intro text
    rw [decode_eq hs]
    refine (InStep.lift (.refl _)).bind ?_
    rintro results _ rfl
    split
    · exact InStep.lift (.ok rfl)
    · exact InStep.lift (.error _)
  cases followed with
  | none =>
    refine InStep.bind (R := Eq) (.lift (.ok rfl)) ?_
    rintro text _ rfl
    exact hresults text
  | some path =>
    refine (request_inStep hlink (query_sameButToken hs path) s).bind ?_
    rintro text _ rfl
    exact hresults text

/-- The same buffer, on networks that are the same but for the token. -/
def SameState (alike : ω → ω' → Prop) (p : Buffer × Network ω) (q : Buffer × Network ω') : Prop :=
  p.1 = q.1 ∧ p.2.SameButToken alike q.2

theorem submit_inStep (hlink : link.AnswersLike link' alike) (hs : js.SameButToken js') (s : Settings)
    (ks : List Kernel) :
    InStep (SameState alike) Eq (submit link s js.service ks) (submit link' s js'.service ks) := by
  rintro ⟨b, n⟩ ⟨_, n'⟩ ⟨rfl, hn⟩
  obtain ⟨hagree, hafter⟩ := dispatch_inStep hlink hs s b ks n n' hn
  rw [submit_run, submit_run]
  exact ⟨hagree, rfl, hafter⟩

theorem stamp_inStep (hlink : link.AnswersLike link' alike) :
    InStep (SameState alike) Eq (stamp link) (stamp link') := by
  refine InStep.modify ?_
  rintro ⟨b, n⟩ ⟨_, n'⟩ ⟨rfl, hn⟩
  dsimp only
  rw [hlink.timeText, hn.clock]
  exact ⟨rfl, hn⟩

theorem modifyBuffer_inStep (f : Buffer → Buffer) :
    InStep (SameState alike) Eq (Run.modifyBuffer f : Run (Network ω) Unit)
      (Run.modifyBuffer f : Run (Network ω') Unit) := by
  refine InStep.modify ?_
  rintro ⟨b, n⟩ ⟨_, n'⟩ ⟨rfl, hn⟩
  exact ⟨rfl, hn⟩

theorem executeBatch_inStep (hlink : link.AnswersLike link' alike) (hs : js.SameButToken js') (s : Settings)
    (ks : List Kernel) : InStep (SameState alike) Eq ((accelerator link s js.service).executeBatch ks)
      ((accelerator link' s js'.service).executeBatch ks) := by
  refine (submit_inStep hlink hs s ks).bind ?_
  rintro results _ rfl
  refine (modifyBuffer_inStep _).bind fun _ _ _ => ?_
  refine (stamp_inStep hlink).bind fun _ _ _ => ?_
  exact InStep.lift (.ok rfl)

theorem execute_inStep (hlink : link.AnswersLike link' alike) (hs : js.SameButToken js') (s : Settings)
    (k : Kernel) : InStep (SameState alike) Eq ((accelerator link s js.service).execute k)
      ((accelerator link' s js'.service).execute k) := by
  refine (submit_inStep hlink hs s [k]).bind ?_
  rintro results _ rfl
  refine InStep.bind (R := Eq) ?_ fun _ _ _ => stamp_inStep hlink
  cases results.head? with
  | none => exact InStep.lift (.ok rfl)
  | some result =>
    rw [Option.forIn_some, Option.forIn_some]
    refine InStep.bind (R := Eq) ((modifyBuffer_inStep _).bind fun _ _ _ => .lift (.ok rfl)) ?_
    rintro step _ rfl
    cases step <;> exact InStep.lift (.ok rfl)

end

/-- What is asked of a device: to take a configuration, to make a buffer or be handed one, and to run
kernels into the buffer at hand. -/
inductive Order where
  | configure (config : DeviceConfig)
  | create (name : String) (size : Option ℕ)
  | hand (b : Buffer)
  | execute (k : Kernel)
  | executeBatch (ks : List Kernel)

def Order.describe : Order → List String
  | .configure config => [config.describe]
  | _ => []

/-- The same order, but for the token of a configuration. -/
inductive Order.SameButToken : Order → Order → Prop
  | configure {c c' : DeviceConfig} (h : c.SameButToken c') : SameButToken (.configure c) (.configure c')
  | same (o : Order) : SameButToken o o

theorem Order.SameButToken.describe_eq {o o' : Order} (h : o.SameButToken o') : o.describe = o'.describe := by
  cases h with
  | configure h =>
    cases h
    rfl
  | same o => rfl

/-- A device with its network and the buffer at hand. -/
structure Session (ω : Type) where
  device : Device JobService
  buffer : Buffer
  network : Network ω

/-- What can be seen after an order: its outcome, the buffer, and the texts that describe the device and a
configuration. -/
structure View where
  outcome : Except DeviceError (List Buffer)
  buffer : Buffer
  texts : List String

namespace Session

variable {ω : Type} (link : Link ω)

def accelerator (s : Session ω) : Accelerator (Network ω) :=
  Remote.accelerator link s.device.settings s.device.own.service

/-- The outcome of an order and the session after it. -/
def obey (s : Session ω) : Order → Except DeviceError (List Buffer) × Session ω
  | .configure config =>
    let (outcome, device) := s.device.configure JobService.configure config
    (outcome.map fun _ => [], { s with device })
  | .create name size =>
    match (s.accelerator link).createBuffer name (size.getD (s.accelerator link).defaultSize) with
    | .ok buffer => (.ok [buffer], { s with buffer })
    | .error e => (.error e, s)
  | .hand buffer => (.ok [], { s with buffer })
  | .execute k =>
    let (outcome, buffer, network) := ((s.accelerator link).execute k).run (s.buffer, s.network)
    (outcome.map fun _ => [], { s with buffer, network })
  | .executeBatch ks =>
    let (outcome, buffer, network) := ((s.accelerator link).executeBatch ks).run (s.buffer, s.network)
    (outcome, { s with buffer, network })

def describe (s : Session ω) : List String :=
  [s.device.own.describe, describeDevice JobService.name s.device.settings, (s.accelerator link).describe]

/-- Obeys orders one after another and notes what can be seen after each. -/
def run (s : Session ω) : List Order → List View × Session ω
  | [] => ([], s)
  | order :: rest =>
    let (outcome, s) := s.obey link order
    let (views, last) := s.run rest
    (⟨outcome, s.buffer, s.describe link ++ Order.describe order⟩ :: views, last)

end Session

section

variable {ω ω' : Type} {link : Link ω} {link' : Link ω'} {alike : ω → ω' → Prop} {d d' : Device JobService}

theorem Device.SameButToken.configure (hd : d.SameButToken d') {c c' : DeviceConfig} (hc : c.SameButToken c') :
    (d.configure JobService.configure c).1 = (d'.configure JobService.configure c').1 ∧
      (d.configure JobService.configure c).2.SameButToken (d'.configure JobService.configure c').2 := by
  have hown := hd.own.configure hc
  have hoptions : c.options = c'.options := by
    cases hc
    rfl
  unfold Device.configure
  rw [hd.settings, hoptions]
  generalize JobService.configure d.own c = x at hown
  generalize JobService.configure d'.own c' = y at hown
  cases hown with
  | error e => exact ⟨rfl, hd⟩
  | ok hown =>
    cases d'.settings.apply c'.options with
    | error e => exact ⟨rfl, hown, rfl⟩
    | ok settings => exact ⟨rfl, hown, rfl⟩

/-- The same session but for the token. -/
structure Session.SameButToken (alike : ω → ω' → Prop) (s : Session ω) (s' : Session ω') : Prop where
  device : s.device.SameButToken s'.device
  buffer : s.buffer = s'.buffer
  network : s.network.SameButToken alike s'.network

variable {s : Session ω} {s' : Session ω'} {o o' : Order}

theorem Session.SameButToken.createBuffer (h : s.SameButToken alike s') (link : Link ω) (link' : Link ω')
    (name : String) (size : Option ℕ) :
    (s.accelerator link).createBuffer name (size.getD (s.accelerator link).defaultSize) =
      (s'.accelerator link').createBuffer name (size.getD (s'.accelerator link').defaultSize) := by
  obtain ⟨⟨own, settings⟩, b, n⟩ := s
  obtain ⟨⟨own', settings'⟩, b', n'⟩ := s'
  obtain ⟨⟨⟨token, present⟩, _⟩, _, _⟩ := h
  rfl

theorem Session.SameButToken.describe (h : s.SameButToken alike s') : s.describe link = s'.describe link' := by
  unfold Session.describe
  rw [h.device.own.describe_eq, h.device.settings]
  rfl

theorem Session.SameButToken.execute (h : s.SameButToken alike s') (hlink : link.AnswersLike link' alike) (k : Kernel) :
    InStep (SameState alike) Eq ((s.accelerator link).execute k) ((s'.accelerator link').execute k) := by
  unfold Session.accelerator
  rw [h.device.settings]
  exact execute_inStep hlink h.device.own s'.device.settings k

theorem Session.SameButToken.executeBatch (h : s.SameButToken alike s') (hlink : link.AnswersLike link' alike)
    (ks : List Kernel) :
    InStep (SameState alike) Eq ((s.accelerator link).executeBatch ks) ((s'.accelerator link').executeBatch ks) := by
  unfold Session.accelerator
  rw [h.device.settings]
  exact executeBatch_inStep hlink h.device.own s'.device.settings ks

/-- One order has the same outcome in both sessions, and they stay the same but for the token. -/
theorem Session.SameButToken.obey (h : s.SameButToken alike s') (hlink : link.AnswersLike link' alike)
    (ho : o.SameButToken o') :
    (s.obey link o).1 = (s'.obey link' o').1 ∧ (s.obey link o).2.SameButToken alike (s'.obey link' o').2 := by
  have hconfigure : ∀ c c' : DeviceConfig, c.SameButToken c' →
      (s.obey link (.configure c)).1 = (s'.obey link' (.configure c')).1 ∧
        (s.obey link (.configure c)).2.SameButToken alike (s'.obey link' (.configure c')).2 := by
    intro c c' hc
    obtain ⟨houtcome, hdevice⟩ := h.device.configure hc
    exact ⟨congrArg (Except.map fun _ => []) houtcome, hdevice, h.buffer, h.network⟩
  cases ho with
  | configure hc => exact hconfigure _ _ hc
  | same o =>
    cases o with
    | configure c => exact hconfigure c c (.retoken c.token rfl)
    | create name size =>
      unfold Session.obey
      dsimp only
      rw [h.createBuffer link link' name size]
      cases (s'.accelerator link').createBuffer name (size.getD (s'.accelerator link').defaultSize) with
      | error e => exact ⟨rfl, h⟩
      | ok b => exact ⟨rfl, h.device, rfl, h.network⟩
    | hand b => exact ⟨rfl, h.device, rfl, h.network⟩
    | execute k =>
      obtain ⟨hagree, hbuffer, hnetwork⟩ :=
        h.execute hlink k (s.buffer, s.network) (s'.buffer, s'.network) ⟨h.buffer, h.network⟩
      exact ⟨congrArg (Except.map fun _ => []) hagree.eq, h.device, hbuffer, hnetwork⟩
    | executeBatch ks =>
      obtain ⟨hagree, hbuffer, hnetwork⟩ :=
        h.executeBatch hlink ks (s.buffer, s.network) (s'.buffer, s'.network) ⟨h.buffer, h.network⟩
      exact ⟨hagree.eq, h.device, hbuffer, hnetwork⟩

/-- Whatever is asked of two sessions that differ in nothing but the token, everything that can be seen of
them is the same, error texts and descriptions included. Their requests have the same targets, headers and
bodies, up to the identifiers of jobs and the header in which the token is shown. -/
theorem token_shows_in_authorization (hlink : link.AnswersLike link' alike) (h : s.SameButToken alike s')
    {orders orders' : List Order} (horders : List.Forall₂ Order.SameButToken orders orders') :
    (s.run link orders).1 = (s'.run link' orders').1 ∧
      List.Forall₂ Request.SameButToken (s.run link orders).2.network.sent (s'.run link' orders').2.network.sent ∧
      (s.run link orders).2.SameButToken alike (s'.run link' orders').2 := by
  have hrun : (s.run link orders).1 = (s'.run link' orders').1 ∧
      (s.run link orders).2.SameButToken alike (s'.run link' orders').2 := by
    induction horders generalizing s s' with
    | nil => exact ⟨rfl, h⟩
    | @cons o o' rest rest' ho _ ih =>
      obtain ⟨houtcome, hafter⟩ := h.obey hlink ho
      obtain ⟨hviews, hlast⟩ := ih hafter
      refine ⟨?_, hlast⟩
      unfold Session.run
      dsimp only
      rw [houtcome, hafter.buffer, hafter.describe, ho.describe_eq, hviews]
  exact ⟨hrun.1, hrun.2.network.sent, hrun.2⟩

end

/-- A session of a device that is configured with a token and sends a kernel to a network that refuses it. -/
def refusedOrders (token : String) : List Order :=
  [.configure { name := "ibm", token := some token }, .create "q" (some 1),
    .execute ⟨{ name := "k" }, [.leaf (.measure 0 0)]⟩]

def freshSession : Session (List Reply) where
  device := ⟨{}, {}⟩
  buffer := .new "q" 1
  network := { world := [⟨5, .error (.transport "connection refused")⟩] }

def numbered (series : String) : Link (List Reply) := .scripted (fun n => series ++ toString n) toString

theorem token_shows_in_authorization_refused :
    (freshSession.run (numbered "a-") (refusedOrders "first")).1 =
      (freshSession.run (numbered "b-") (refusedOrders "second")).1 ∧
    ∃ request request', (freshSession.run (numbered "a-") (refusedOrders "first")).2.network.sent = [request] ∧
      (freshSession.run (numbered "b-") (refusedOrders "second")).2.network.sent = [request'] ∧
      request.SameButToken request' ∧ request.headers.get? authorization = some "Bearer first" ∧
      request'.headers.get? authorization = some "Bearer second" := by
  have hlink : (numbered "a-").AnswersLike (numbered "b-") Eq := by
    constructor
    · rintro r r' replies _ - rfl
      cases replies <;> rfl
    · rintro r r' replies _ - rfl
      cases replies <;> rfl
    · rfl
  have hsession : freshSession.SameButToken Eq freshSession :=
    ⟨⟨.retoken none rfl, rfl⟩, rfl, ⟨rfl, .nil, rfl⟩⟩
  have horders : List.Forall₂ Order.SameButToken (refusedOrders "first") (refusedOrders "second") :=
    .cons (.configure (.retoken (some "second") rfl)) (.cons (.same _) (.cons (.same _) .nil))
  obtain ⟨hviews, hsent, -⟩ := token_shows_in_authorization hlink hsession horders
  have hshown : ((freshSession.run (numbered "b-") (refusedOrders "second")).2.network.sent.map fun r =>
      r.headers.get? authorization) = [some "Bearer second"] := by decide +kernel
  have hshown' : ((freshSession.run (numbered "a-") (refusedOrders "first")).2.network.sent.map fun r =>
      r.headers.get? authorization) = [some "Bearer first"] := by decide +kernel
  refine ⟨hviews, ?_⟩
  obtain ⟨request, hrequest, hheader⟩ := List.map_eq_singleton_iff.mp hshown'
  obtain ⟨request', hrequest', hheader'⟩ := List.map_eq_singleton_iff.mp hshown
  rw [hrequest, hrequest'] at hsent
  obtain ⟨hsame, -⟩ := List.forall₂_cons.mp hsent
  exact ⟨request, request', hrequest, hrequest', hsame, hheader, hheader'⟩

end Remote

end QuantumKernels
