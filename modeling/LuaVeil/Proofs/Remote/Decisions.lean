/-
# What a coordinated run does

Whatever comes back from the service, exactly one of four things is the case: the
obfuscated script was delivered, the service refused the script, it reported
another error, or it is out. A coordinated run is decided by this and by the
request alone: the work is done here only if there is no service, or if the
service is out and the work may be done here.

Main statement: `run_decided`, the calls and the result of every coordinated run.
-/
import LuaVeil.Proofs.Job.Finishing
import LuaVeil.Proofs.Names.Generated
import LuaVeil.Remote.Coordination

namespace LuaVeil

/-! ## Status codes -/

namespace Status

/-- Codes of a call that succeeded. -/
def Succeeds (s : Status) : Prop :=
  200 ≤ s.code ∧ s.code ≤ 299

/-- Codes that find fault with the script. -/
def Refuses (s : Status) : Prop :=
  s.code = 400 ∨ s.code = 413 ∨ s.code = 415 ∨ s.code = 422

/-- Codes of a service that is late, overloaded or broken. -/
def IsOutage (s : Status) : Prop :=
  s.code = 408 ∨ s.code = 429 ∨ 500 ≤ s.code ∧ s.code ≤ 599

instance (s : Status) : Decidable s.Succeeds :=
  inferInstanceAs (Decidable (_ ∧ _))

instance (s : Status) : Decidable s.Refuses :=
  inferInstanceAs (Decidable (_ ∨ _))

instance (s : Status) : Decidable s.IsOutage :=
  inferInstanceAs (Decidable (_ ∨ _))

theorem isSuccess_iff (s : Status) : s.isSuccess = true ↔ s.Succeeds := by
  rw [isSuccess, beq_iff_eq, Succeeds]
  omega

theorem mem_refusals_iff (s : Status) : s.code ∈ [400, 413, 415, 422] ↔ s.Refuses := by
  simp [Refuses]

theorem isOutage_iff (s : Status) : s.code ∈ [408, 429] ∨ s.code / 100 = 5 ↔ s.IsOutage := by
  have hrange : s.code / 100 = 5 ↔ 500 ≤ s.code ∧ s.code ≤ 599 := by omega
  rw [hrange, IsOutage, List.mem_cons, List.mem_singleton, or_assoc]

/-- A code that refuses the script is no code of a success. -/
theorem Refuses.not_succeeds {s : Status} (h : s.Refuses) : ¬ s.Succeeds := by
  rw [Refuses] at h
  rw [Succeeds]
  omega

end Status

/-! ## Replies -/

/-- What the body of an answer says about an error; nothing if it is not to be understood. -/
def Complaint.ofBody (body : Text) : Complaint :=
  (Complaint.ofJson? body).getD .silent

namespace Reply

/-- The answer came in time and holds the obfuscated script. -/
def Delivers (reply : Reply) (code : Text) : Prop :=
  ∃ s body, reply = .answer s body ∧ s.Succeeds ∧
    (Data.Json.read body).bind Success.decode = some ⟨true, some code⟩

/-- The service refuses the script. -/
def Refuses (reply : Reply) (failure : CallFailure) : Prop :=
  ∃ s body, reply = .answer s body ∧ s.Refuses ∧
    failure = .rejected s.code ((Complaint.ofBody body).message s) (Complaint.ofBody body).details

/-- The service reports an error that is neither a refusal nor an outage. -/
def Reports (reply : Reply) (failure : CallFailure) : Prop :=
  ∃ s body, reply = .answer s body ∧ ¬ s.Succeeds ∧ ¬ s.Refuses ∧ ¬ s.IsOutage ∧
    failure = .failed s.code ((Complaint.ofBody body).message s)

/-- The script is neither delivered nor refused, and no other error is reported. -/
def IsOutage (reply : Reply) : Prop :=
  (∀ code, ¬ reply.Delivers code) ∧ (∀ failure, ¬ reply.Refuses failure) ∧
    ∀ failure, ¬ reply.Reports failure

variable {reply : Reply} {timeout : Nat} {code : Text} {failure : CallFailure}

/-- A body that reports success yields the script it holds; with any other, the service is out. -/
theorem successVerdict_cases (body : Text) :
    (∃ code, (Data.Json.read body).bind Success.decode = some ⟨true, some code⟩) ∨
      ∃ reason, successVerdict body = .error (.unavailable reason) := by
  rw [successVerdict]
  cases (Data.Json.read body).bind Success.decode with
  | none => exact .inr ⟨_, rfl⟩
  | some said =>
    obtain ⟨success, code?⟩ := said
    cases success with
    | false => exact .inr ⟨_, rfl⟩
    | true =>
      cases code? with
      | none => exact .inr ⟨_, rfl⟩
      | some code => exact .inl ⟨code, rfl⟩

theorem classify_of_refuses {s : Status} (h : s.Refuses) (c : Complaint) :
    classify s c = .rejected s.code (c.message s) c.details :=
  if_pos (s.mem_refusals_iff.2 h)

theorem classify_of_not_refuses {s : Status} (h : ¬ s.Refuses) (c : Complaint) :
    classify s c = if s.code ∈ [408, 429] ∨ s.code / 100 = 5
      then .unavailable (withCode (c.message s) s) else .failed s.code (c.message s) :=
  if_neg fun hmem => h (s.mem_refusals_iff.1 hmem)

theorem verdict_of_succeeds {s : Status} (h : s.Succeeds) (body : Text) :
    (Reply.answer s body).verdict timeout = successVerdict body :=
  if_pos (s.isSuccess_iff.2 h)

theorem verdict_of_not_succeeds {s : Status} (h : ¬ s.Succeeds) (body : Text) :
    (Reply.answer s body).verdict timeout = .error (classify s (.ofBody body)) :=
  if_neg fun hsuccess => h (s.isSuccess_iff.1 hsuccess)

theorem Delivers.verdict_eq (h : reply.Delivers code) : reply.verdict timeout = .ok code := by
  obtain ⟨s, body, rfl, hsuccess, hread⟩ := h
  rw [verdict_of_succeeds hsuccess, successVerdict, hread]

theorem Refuses.verdict_eq (h : reply.Refuses failure) :
    reply.verdict timeout = .error failure := by
  obtain ⟨s, body, rfl, hrefuses, rfl⟩ := h
  rw [verdict_of_not_succeeds hrefuses.not_succeeds, classify_of_refuses hrefuses]

theorem Reports.verdict_eq (h : reply.Reports failure) :
    reply.verdict timeout = .error failure := by
  obtain ⟨s, body, rfl, hfails, hnot, hup, rfl⟩ := h
  rw [verdict_of_not_succeeds hfails, classify_of_not_refuses hnot,
    if_neg fun hout => hup (s.isOutage_iff.1 hout)]

/-- The four things that can come back. -/
theorem verdict_cases (timeout : Nat) (reply : Reply) :
    (∃ code, reply.Delivers code) ∨ (∃ failure, reply.Refuses failure) ∨
      (∃ failure, reply.Reports failure) ∨
      ∃ reason, reply.verdict timeout = .error (.unavailable reason) := by
  cases reply with
  | late => exact .inr (.inr (.inr ⟨_, rfl⟩))
  | broken cause => exact .inr (.inr (.inr ⟨_, rfl⟩))
  | answer s body =>
    by_cases hsuccess : s.Succeeds
    · obtain ⟨code, hread⟩ | ⟨reason, hout⟩ := successVerdict_cases body
      · exact .inl ⟨code, s, body, rfl, hsuccess, hread⟩
      · exact .inr (.inr (.inr ⟨reason, (verdict_of_succeeds hsuccess body).trans hout⟩))
    · by_cases hrefuses : s.Refuses
      · exact .inr (.inl ⟨_, s, body, rfl, hrefuses, rfl⟩)
      · by_cases hout : s.IsOutage
        · rw [verdict_of_not_succeeds hsuccess, classify_of_not_refuses hrefuses,
            if_pos (s.isOutage_iff.2 hout)]
          exact .inr (.inr (.inr ⟨_, rfl⟩))
        · exact .inr (.inr (.inl ⟨_, s, body, rfl, hsuccess, hrefuses, hout, rfl⟩))

/-- The verdicts are what can come back. -/
theorem verdict_eq_ok_iff : reply.verdict timeout = .ok code ↔ reply.Delivers code := by
  refine ⟨fun h => ?_, Delivers.verdict_eq⟩
  obtain ⟨code', hdelivers⟩ | ⟨_, hrefuses⟩ | ⟨_, hreports⟩ | ⟨_, hout⟩ :=
    reply.verdict_cases timeout
  · rw [hdelivers.verdict_eq] at h
    exact Except.ok.inj h ▸ hdelivers
  · rw [hrefuses.verdict_eq] at h
    cases h
  · rw [hreports.verdict_eq] at h
    cases h
  · rw [hout] at h
    cases h

theorem verdict_eq_rejected_iff {status : Nat} {message : Text} {details : Option Text} :
    reply.verdict timeout = .error (.rejected status message details) ↔
      reply.Refuses (.rejected status message details) := by
  refine ⟨fun h => ?_, Refuses.verdict_eq⟩
  obtain ⟨_, hdelivers⟩ | ⟨failure, hrefuses⟩ | ⟨_, hreports⟩ | ⟨_, hout⟩ :=
    reply.verdict_cases timeout
  · rw [hdelivers.verdict_eq] at h
    cases h
  · rw [hrefuses.verdict_eq] at h
    exact Except.error.inj h ▸ hrefuses
  · rw [hreports.verdict_eq] at h
    obtain ⟨_, _, -, -, -, -, rfl⟩ := hreports
    cases h
  · rw [hout] at h
    cases h

theorem verdict_eq_failed_iff {status : Nat} {message : Text} :
    reply.verdict timeout = .error (.failed status message) ↔
      reply.Reports (.failed status message) := by
  refine ⟨fun h => ?_, Reports.verdict_eq⟩
  obtain ⟨_, hdelivers⟩ | ⟨_, hrefuses⟩ | ⟨failure, hreports⟩ | ⟨_, hout⟩ :=
    reply.verdict_cases timeout
  · rw [hdelivers.verdict_eq] at h
    cases h
  · rw [hrefuses.verdict_eq] at h
    obtain ⟨_, _, -, -, rfl⟩ := hrefuses
    cases h
  · rw [hreports.verdict_eq] at h
    exact Except.error.inj h ▸ hreports
  · rw [hout] at h
    cases h

theorem isOutage_iff :
    reply.IsOutage ↔ ∃ reason, reply.verdict timeout = .error (.unavailable reason) := by
  constructor
  · rintro ⟨hdelivers, hrefuses, hreports⟩
    obtain ⟨_, h⟩ | ⟨_, h⟩ | ⟨_, h⟩ | h := reply.verdict_cases timeout
    · exact absurd h (hdelivers _)
    · exact absurd h (hrefuses _)
    · exact absurd h (hreports _)
    · exact h
  · rintro ⟨reason, hout⟩
    refine ⟨fun _ h => ?_, fun _ h => ?_, fun _ h => ?_⟩
    · rw [h.verdict_eq] at hout
      cases hout
    · rw [h.verdict_eq] at hout
      obtain ⟨_, _, -, -, rfl⟩ := h
      cases hout
    · rw [h.verdict_eq] at hout
      obtain ⟨_, _, -, -, -, -, rfl⟩ := h
      cases hout

end Reply

/-! ## Coordinated runs -/

namespace Rules

/-- The mode only chooses the seed of a run. -/
theorem run_eq_runWithSeed (rules : Rules) (now : Instant) (fresh : Seed) (r : Request) :
    ∃ seed, rules.run now fresh r = rules.runWithSeed now r seed :=
  ⟨_, rfl⟩

/-- If the work is done here for a request that passed its check, no failure blames the request. -/
theorem mapError_run {rules : Rules} {now : Instant} {fresh : Seed} {r : Request}
    (h : r.check = .ok ()) :
    (rules.run now fresh r).mapError CoordinationError.ofFailure =
      (rules.run now fresh r).mapError .here := by
  obtain ⟨seed, hrun⟩ := rules.run_eq_runWithSeed now fresh r
  rw [hrun]
  cases hscan : scan r.source with
  | error e =>
    rw [runWithSeed, h, hscan]
    rfl
  | ok spans =>
    rw [runWithSeed_of_scan now seed hscan, h]
    cases (veil (r.preset.plan.passes rules) r.dialect spans (rules.mint spans seed.source)).1 with
    | none => rfl
    | some v => rfl

/-- A script that cannot be scanned is a failure of the work here. -/
theorem run_of_scan_error {rules : Rules} {now : Instant} {fresh : Seed} {r : Request}
    {e : ScanError} (h : r.check = .ok ()) (hscan : scan r.source = .error e) :
    rules.run now fresh r = .error (.scan e) := by
  rw [run, runWithSeed, h, hscan]
  rfl

/-- Work that is done here has its counts. -/
theorem stats_of_run {rules : Rules} {now : Instant} {fresh : Seed} {r : Request}
    {outcome : Outcome} (h : rules.run now fresh r = .ok outcome) :
    outcome.metadata.stats ≠ none := by
  obtain ⟨spans, v, -, rfl⟩ := runWithSeed_eq_ok_iff.1 h
  exact Option.some_ne_none _

end Rules

/-- A request that is read from texts has passed its check. -/
theorem Request.check_of_parse {source dialect preset : Text} {r : Request}
    (h : Request.parse source dialect preset = .ok r) : r.source = source ∧ r.check = .ok () := by
  rw [parse] at h
  cases hdialect : Dialect.parse dialect with
  | error e => rw [hdialect] at h; cases h
  | ok d =>
    cases hpreset : Preset.parse preset with
    | error e => rw [hdialect, hpreset] at h; cases h
    | ok p =>
      rw [hdialect, hpreset] at h
      cases hcheck : (⟨source, d, p⟩ : Request).check with
      | error e =>
        simp only [bind, Except.bind, hcheck] at h
        cases h
      | ok _ =>
        simp only [bind, Except.bind, hcheck] at h
        cases h
        exact ⟨rfl, hcheck⟩

namespace Coordinator

variable {c : Coordinator} {s : Service} {now : Instant} {fresh : Seed} {r : Request}
  {reply : Reply}

/-- Work that is done here for a request that passed its check. -/
theorem runHere_eq (h : r.check = .ok ()) :
    c.runHere now fresh r = (c.rules.run now fresh r).mapError .here :=
  Rules.mapError_run h

/-- How a coordinated run of a request that passed its check ends once the service has replied. -/
structure Concludes (c : Coordinator) (s : Service) (now : Instant) (fresh : Seed) (r : Request)
    (reply : Reply) (result : Except CoordinationError Outcome) : Prop where
  /-- An outcome without counts is what the service delivered, to the letter. -/
  delivered : ∀ outcome, result = .ok outcome ∧ outcome.metadata.stats = none ↔
    ∃ code, reply.Delivers code ∧ outcome = r.outcome code none
  rejected : ∀ status message details, result = .error (.rejected status message details) ↔
    reply.Refuses (.rejected status message details)
  failed : ∀ status message, result = .error (.failed status message) ↔
    reply.Reports (.failed status message)
  /-- If the service is out, the work is done here, provided that this is allowed. -/
  done_here : reply.IsOutage → s.fallback = true →
    result = (c.rules.run now fresh r).mapError .here
  unavailable : reply.IsOutage → s.fallback = false →
    ∃ reason, result = .error (.unavailable reason)
  /-- Otherwise it does not matter how, when and from which seed the work would be done here. -/
  apart : ¬ reply.IsOutage → ∀ (rules : Rules) (now' : Instant) (fresh' : Seed),
    Coordinator.resume ⟨rules, some s⟩ s now' fresh' r reply = result

/-- In an outage the work is done here, or the outage is the result. -/
theorem exists_resume_of_isOutage (hcheck : r.check = .ok ()) (h : reply.IsOutage) :
    ∃ reason, c.resume s now fresh r reply = if s.fallback
      then (c.rules.run now fresh r).mapError .here else .error (.unavailable reason) := by
  obtain ⟨reason, hverdict⟩ := (@Reply.isOutage_iff reply s.timeout).1 h
  rw [resume, hverdict, ← runHere_eq hcheck]
  exact ⟨reason, rfl⟩

/-- A run that goes on after an outage. -/
theorem concludes_of_isOutage (hcheck : r.check = .ok ()) (h : reply.IsOutage) :
    c.Concludes s now fresh r reply (c.resume s now fresh r reply) := by
  obtain ⟨reason, hresume⟩ := @exists_resume_of_isOutage c s now fresh r reply hcheck h
  rw [hresume]
  -- the work here has counts if it succeeds and its own kind of error if it fails
  have hhere : ∀ {result}, (c.rules.run now fresh r).mapError CoordinationError.here = result →
      (∃ outcome, result = .ok outcome ∧ outcome.metadata.stats ≠ none) ∨
        ∃ cause, result = .error (.here cause) := by
    rintro _ rfl
    cases hrun : c.rules.run now fresh r with
    | ok outcome => exact .inl ⟨outcome, rfl, Rules.stats_of_run hrun⟩
    | error cause => exact .inr ⟨cause, rfl⟩
  refine ⟨fun outcome => ⟨?_, ?_⟩, fun status message details => ⟨?_, ?_⟩,
    fun status message => ⟨?_, ?_⟩, ?_, ?_, fun hup => absurd h hup⟩
  · rintro ⟨hresult, hstats⟩
    split at hresult
    · obtain ⟨_, ⟨⟩, hsome⟩ | ⟨_, ⟨⟩⟩ := hhere hresult
      exact absurd hstats hsome
    · cases hresult
  · rintro ⟨code, hdelivers, -⟩
    exact absurd hdelivers (h.1 code)
  · intro hresult
    split at hresult
    · obtain ⟨_, ⟨⟩, -⟩ | ⟨_, ⟨⟩⟩ := hhere hresult
    · cases hresult
  · exact fun hrefuses => absurd hrefuses (h.2.1 _)
  · intro hresult
    split at hresult
    · obtain ⟨_, ⟨⟩, -⟩ | ⟨_, ⟨⟩⟩ := hhere hresult
    · cases hresult
  · exact fun hreports => absurd hreports (h.2.2 _)
  · exact fun _ hfallback => if_pos hfallback
  · intro _ hfallback
    rw [hfallback]
    exact ⟨reason, rfl⟩

/-- What a run gives after a reply that is no outage. -/
theorem resume_of_not_isOutage (h : ¬ reply.IsOutage) :
    c.resume s now fresh r reply =
      match reply.verdict s.timeout with
      | .ok code => .ok (r.outcome code none)
      | .error failure => .error (.ofCall failure) := by
  rw [resume]
  cases hverdict : reply.verdict s.timeout with
  | ok code => rfl
  | error failure =>
    cases failure with
    | unavailable reason => exact absurd (Reply.isOutage_iff.2 ⟨reason, hverdict⟩) h
    | rejected _ _ _ => rfl
    | failed _ _ => rfl

/-- A run that goes on after a reply that is no outage. -/
theorem concludes_of_not_isOutage (h : ¬ reply.IsOutage) :
    c.Concludes s now fresh r reply (c.resume s now fresh r reply) := by
  refine ⟨fun outcome => ?_, fun status message details => ?_, fun status message => ?_,
    fun hout => absurd hout h, fun hout => absurd hout h,
    fun _ _ _ _ => (resume_of_not_isOutage h).trans (resume_of_not_isOutage h).symm⟩
  · simp only [resume_of_not_isOutage h, ← @Reply.verdict_eq_ok_iff reply s.timeout]
    cases reply.verdict s.timeout with
    | ok code =>
      simp only [Except.ok.injEq, exists_eq_left']
      exact ⟨fun ⟨h, _⟩ => h.symm, fun h => ⟨h.symm, h ▸ rfl⟩⟩
    | error failure => simp
  · rw [resume_of_not_isOutage h, ← @Reply.verdict_eq_rejected_iff reply s.timeout]
    cases reply.verdict s.timeout with
    | ok code => simp
    | error failure => cases failure <;> simp [CoordinationError.ofCall]
  · rw [resume_of_not_isOutage h, ← @Reply.verdict_eq_failed_iff reply s.timeout]
    cases reply.verdict s.timeout with
    | ok code => simp
    | error failure => cases failure <;> simp [CoordinationError.ofCall]

/-- Everything that a coordinated run does: which calls it makes, and how it ends. -/
theorem run_decided (c : Coordinator) (now : Instant) (fresh : Seed) (reply : Call → Reply) :
    (∀ source dialect preset cause, Request.parse source dialect preset = .error cause →
      c.runParsed now fresh source dialect preset = .finished (.error (.request cause))) ∧
    (∀ source dialect preset r, Request.parse source dialect preset = .ok r →
      c.runParsed now fresh source dialect preset = c.run now fresh r ∧
        r.source = source ∧ r.check = .ok ()) ∧
    ∀ r : Request,
      (∀ cause, r.check = .error cause →
        c.run now fresh r = .finished (.error (.request cause))) ∧
      (r.check = .ok () →
        (∀ e, scan r.source = .error e → c.rules.run now fresh r = .error (.scan e)) ∧
        (c.service = none →
          c.run now fresh r = .finished ((c.rules.run now fresh r).mapError .here)) ∧
        ∀ s, c.service = some s →
          (c.run now fresh r).calls =
            [⟨s.url, s.timeout, ⟨r.source, r.dialect.name, r.preset.name⟩⟩] ∧
          c.Concludes s now fresh r
            (reply ⟨s.url, s.timeout, ⟨r.source, r.dialect.name, r.preset.name⟩⟩)
            ((c.run now fresh r).result reply)) := by
  refine ⟨?_, ?_, fun r => ⟨?_, fun hcheck => ⟨?_, ?_, ?_⟩⟩⟩
  · intro source dialect preset cause hparse
    rw [runParsed, hparse]
  · intro source dialect preset r hparse
    rw [runParsed, hparse]
    exact ⟨rfl, Request.check_of_parse hparse⟩
  · intro cause hcheck
    rw [run, hcheck]
  · exact fun e hscan => Rules.run_of_scan_error hcheck hscan
  · intro hservice
    rw [run, hcheck, hservice, ← runHere_eq hcheck]
  · intro s hservice
    rw [run, hcheck, hservice]
    refine ⟨rfl, ?_⟩
    by_cases hout : (reply ⟨s.url, s.timeout, r.callBody⟩).IsOutage
    · exact concludes_of_isOutage hcheck hout
    · exact concludes_of_not_isOutage hout

/-- A script with a text that does not end. -/
def unfinished : Request :=
  ⟨"print(\"".toList, .luau, .minify⟩

/-- The answer of a service that has obfuscated a script. -/
def doneBody : Text :=
  "\x7b\"success\":true,\"obfuscatedCode\":\"return 1\"\x7d".toList

/--
With a busy service the text is found to be unfinished here; a script that a service delivers is the
outcome, whatever was asked.
-/
theorem unfinished_answers :
    let c : Coordinator := ⟨certainRules, some .default⟩
    let busy := Reply.answer ⟨503, by decide, by decide⟩ []
    let done := Reply.answer ⟨200, by decide, by decide⟩ doneBody
    (c.run ⟨0, 0⟩ (.ofNumber 1) unfinished).result (fun _ => busy) =
        .error (.here (.scan (.unterminatedString 6))) ∧
      ∃ outcome, (c.run ⟨0, 0⟩ (.ofNumber 1) unfinished).result (fun _ => done) = .ok outcome ∧
        outcome.output = "return 1".toList := by
  intro c busy done
  have hcheck : unfinished.check = .ok () := by decide +kernel
  have hscan : scan unfinished.source = .error (.unterminatedString 6) := by decide +kernel
  have decided := fun reply =>
    ((c.run_decided ⟨0, 0⟩ (.ofNumber 1) reply).2.2 unfinished).2 hcheck
  have hread : (Data.Json.read doneBody).bind Success.decode =
      some ⟨true, some "return 1".toList⟩ := by decide +kernel
  have hout : busy.IsOutage := (@Reply.isOutage_iff busy 0).2 ⟨_, rfl⟩
  constructor
  · obtain ⟨hfails, -, hcalled⟩ := decided fun _ => busy
    rw [(hcalled .default rfl).2.done_here hout rfl, hfails _ hscan]
    rfl
  · obtain ⟨-, -, hcalled⟩ := decided fun _ => done
    have hdelivers : done.Delivers "return 1".toList := ⟨_, _, rfl, by decide, hread⟩
    exact ⟨_, (((hcalled .default rfl).2.delivered _).2 ⟨_, hdelivers, rfl⟩).1, rfl⟩

end Coordinator
end LuaVeil
