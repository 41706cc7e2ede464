import DnsResolver.Client.Iterate
import DnsResolver.Proofs.Client.Failover

namespace DnsResolver

open DnsResolver.Task

/-!
# The hop budget of a walk

A walk and the lookups nested in it share one budget of hops, and each call of the servers
costs one. What a walk would do without the budget is said by a relation of its own, which
counts the calls; the walk then does just that, or stops where the next call is due.

* `Walk.Proceeds` — how walks and lookups of hosts go on, without a bound.
* `Walk.reaches_ask` — within any number of calls they come to an end, or to the next call.
* `Walk.Proceeds.runs` — the walk with a budget does what the relation says.
* `Client.resolveVia_budget` — what this means for a resolution from given servers.
-/

/-- Whether the servers of a list were called. -/
def Event.isAsked : Event → Bool
  | .asked .. => true
  | .drew _ | .sent .. => false

/-- How often servers were called. -/
def Session.calls {σ : Type} (session : Session σ) : Nat := session.log.countP Event.isAsked

/-- A transport that never reports an exhausted hop budget. -/
def Environment.KeepsHops {σ : Type} (environment : Environment σ) : Prop :=
  ∀ server message timeout world hops,
    (environment.send server message timeout world).1 ≠ .error (.hopCountExceeded hops)

/-! ### One call -/

namespace Client

variable {σ : Type} {client : Client σ} {server : NameServer} {question : Question}
  {recursionDesired : Bool} {session : Session σ} {events : List Event}

theorem accept_eq_hops {id : UInt16} {reply : Except Error Octets} {hops : Nat}
    (h : accept server id reply = .error (.hopCountExceeded hops)) :
    reply = .error (.hopCountExceeded hops) := by
  unfold accept at h
  split at h
  · rw [Except.error.inj h]
  · split at h
    · simp at h
    · split at h <;> simp at h

theorem Attempt.ne_hops {outcome : Except Error Message}
    (h : client.Attempt server question recursionDesired session events outcome)
    (hkeeps : client.environment.KeepsHops) (hops : Nat) :
    outcome ≠ .error (.hopCountExceeded hops) := by
  intro houtcome
  cases h with
  | unwritten => simp at houtcome
  | failed _ hreply haccept =>
    rw [houtcome] at haccept
    exact hkeeps _ _ _ _ hops (hreply.trans (accept_eq_hops haccept))
  | answered => simp at houtcome
  | repeated _ _ _ _ hagain =>
    exact hkeeps _ _ _ _ hops (hagain.trans (accept_eq_hops houtcome))

theorem Attempt.not_asked {outcome : Except Error Message}
    (h : client.Attempt server question recursionDesired session events outcome) :
    events.countP Event.isAsked = 0 := by
  cases h <;> rfl

end Client

namespace Asking

variable {σ : Type} (asking : Asking σ)

theorem calls_before (i : Nat) : (asking.before i).calls = asking.session.calls + 1 := by
  induction i with
  | zero => exact List.countP_cons_of_pos rfl
  | succ i ih =>
    obtain ⟨events, hattempt, hlog⟩ := asking.attempt i
    rw [← ih, Session.calls, Session.calls, hlog, List.countP_append, hattempt.not_asked, Nat.zero_add]

/-- An asking is one call, and it does not end in an exhausted hop budget by itself. -/
theorem run_eq_finish (hkeeps : asking.client.environment.KeepsHops) :
    ∃ outcome session, asking.run = finish outcome session
      ∧ session.calls = asking.session.calls + 1
      ∧ ∀ hops, outcome ≠ .error (.hopCountExceeded hops) := by
  obtain ⟨outcome, i, hrun, hend⟩ := asking.run_end
  refine ⟨outcome, _, hrun, asking.calls_before i, ?_⟩
  rcases hend with rfl | ⟨j, rfl⟩
  · simp
  · obtain ⟨_, hattempt, _⟩ := asking.attempt j
    exact hattempt.ne_hops hkeeps

end Asking

namespace Client

variable {σ : Type} {client : Client σ} {start servers : List NameServer} {question : Question}
  {recursionDesired preferIpv6 : Bool} {session session' : Session σ}

/-- Calling servers does not end in an exhausted hop budget by itself. -/
theorem queryServers_ne_hops (hkeeps : client.environment.KeepsHops) {error : Error}
    (h : client.queryServers servers question recursionDesired session = .error error session')
    (hops : Nat) : error ≠ .hopCountExceeded hops := by
  rintro rfl
  rcases Nat.eq_zero_or_pos servers.length with hnil | hpos
  · obtain rfl := List.length_eq_zero_iff.mp hnil
    simp [queryServers_nil] at h
  · obtain ⟨outcome, session', hrun, _, hne⟩ :=
      Asking.run_eq_finish ⟨client, servers, hpos, question, recursionDesired, session⟩ hkeeps
    exact hne hops (finish_eq_error.mp (hrun.symm.trans h)).1

/-- Calling a list of servers that is not empty is noted once. -/
theorem queryServers_calls (hkeeps : client.environment.KeepsHops) (hservers : servers ≠ []) :
    (left (client.queryServers servers question recursionDesired) session).calls
      = session.calls + 1 := by
  obtain ⟨outcome, session', hrun, hcalls, _⟩ :=
    Asking.run_eq_finish
      ⟨client, servers, List.length_pos_iff.mpr hservers, question, recursionDesired, session⟩ hkeeps
  rw [left_of_apply hrun, hcalls]

end Client

/-! ### Walks without a bound -/

namespace Walk

/-- What a walk is at. -/
inductive Stage where
  /-- Asking servers a question, and going on from their reply. -/
  | ask (servers : List NameServer) (question : Question)
  /-- Finding out where a referral leads. -/
  | refer (response : Message)
  /-- Looking up hosts until one of them has an address. -/
  | find (hosts : List Name)

/-- What a stage of a walk has come to. -/
inductive Ending where
  /-- The next call is due, and nothing has come out yet. -/
  | due
  /-- The end of asking. -/
  | answered (outcome : Except Error Message)
  /-- The end of looking for servers to ask next, of which there may be none. -/
  | found (servers : List NameServer)

/-- The servers at the addresses that a lookup of a host ended with. -/
def serversIn (host : Name) : Except Error Message → List NameServer
  | .ok response => Message.serversFor response.answers host
  | .error _ => []

/-- The question for the addresses of a host. -/
def lookup (preferIpv6 : Bool) (host : Name) : Question :=
  .about host (if preferIpv6 then .aaaa else .a)

variable {σ : Type} (client : Client σ) (start : List NameServer) (preferIpv6 : Bool)

/-- How a stage of a walk goes from a session on when nothing bounds the number of calls: after
    `calls` of them it has come to an ending. A walk can be left where its next call is due, and
    then every stage around it is left there too. -/
inductive Proceeds : Stage → Session σ → Nat → Ending → Session σ → Prop
  | due {servers question session} :
      Proceeds (.ask servers question) session 0 .due session
  | failed {servers question session error session'}
      (hasked : client.queryServers servers question false session = .error error session') :
      Proceeds (.ask servers question) session 1 (.answered (.error error)) session'
  | answered {servers question session response session'}
      (hasked : client.queryServers servers question false session = .ok response session')
      (hfinal : response.referral = []) :
      Proceeds (.ask servers question) session 1 (.answered (.ok response)) session'
  | stopped {servers question session response session₁ calls session'}
      (hasked : client.queryServers servers question false session = .ok response session₁)
      (hreferral : response.referral ≠ [])
      (hrefer : Proceeds (.refer response) session₁ calls .due session') :
      Proceeds (.ask servers question) session (1 + calls) .due session'
  | stranded {servers question session response session₁ calls session'}
      (hasked : client.queryServers servers question false session = .ok response session₁)
      (hreferral : response.referral ≠ [])
      (hrefer : Proceeds (.refer response) session₁ calls (.found []) session') :
      Proceeds (.ask servers question) session (1 + calls) (.answered (.ok response)) session'
  | onward {servers question session response session₁ calls next session₂ calls' ending session'}
      (hasked : client.queryServers servers question false session = .ok response session₁)
      (hreferral : response.referral ≠ [])
      (hrefer : Proceeds (.refer response) session₁ calls (.found next) session₂)
      (hnext : next ≠ [])
      (hrest : Proceeds (.ask next question) session₂ calls' ending session') :
      Proceeds (.ask servers question) session (1 + calls + calls') ending session'
  | glued {response session}
      (hglue : response.glue response.referral preferIpv6 ≠ []) :
      Proceeds (.refer response) session 0
        (.found (response.glue response.referral preferIpv6)) session
  | glueless {response session calls ending session'}
      (hglue : response.glue response.referral preferIpv6 = [])
      (hfind : Proceeds (.find response.referral) session calls ending session') :
      Proceeds (.refer response) session calls ending session'
  | exhausted {session} : Proceeds (.find []) session 0 (.found []) session
  | looking {host hosts session calls session'}
      (hlookup : Proceeds (.ask start (lookup preferIpv6 host)) session calls .due session') :
      Proceeds (.find (host :: hosts)) session calls .due session'
  | located {host hosts session calls outcome session'}
      (hlookup : Proceeds (.ask start (lookup preferIpv6 host)) session calls (.answered outcome)
        session')
      (hservers : serversIn host outcome ≠ []) :
      Proceeds (.find (host :: hosts)) session calls (.found (serversIn host outcome)) session'
  | skipped {host hosts session calls outcome session₁ calls' ending session'}
      (hlookup : Proceeds (.ask start (lookup preferIpv6 host)) session calls (.answered outcome)
        session₁)
      (hservers : serversIn host outcome = [])
      (hrest : Proceeds (.find hosts) session₁ calls' ending session') :
      Proceeds (.find (host :: hosts)) session (calls + calls') ending session'

/-! ### Within a number of calls -/

/-- Whether a stage comes within a number of calls to what it is there for, or uses them all up
    and comes to the call after them. -/
def Reaches {α : Type} (stage : Stage) (final : α → Ending) (budget : Nat) (session : Session σ) :
    Prop :=
  ∃ calls session', calls ≤ budget
    ∧ ((∃ result, Proceeds client start preferIpv6 stage session calls (final result) session')
      ∨ calls = budget ∧ Proceeds client start preferIpv6 stage session calls .due session')

variable {client start preferIpv6} {budget : Nat}

private theorem reaches_find
    (hask : ∀ smaller ≤ budget, ∀ servers question session,
      Reaches client start preferIpv6 (.ask servers question) .answered smaller session)
    (hosts : List Name) (session : Session σ) :
    Reaches client start preferIpv6 (.find hosts) .found budget session := by
  induction hosts generalizing budget session with
  | nil => exact ⟨0, session, Nat.zero_le _, Or.inl ⟨[], .exhausted⟩⟩
  | cons host hosts ih =>
    obtain ⟨calls, session₁, hcalls, ⟨outcome, hlookup⟩ | ⟨hall, hlookup⟩⟩ :=
      hask budget (Nat.le_refl _) start (lookup preferIpv6 host) session
    · by_cases hservers : serversIn host outcome = []
      · obtain ⟨calls', session', hcalls', hrest⟩ :=
          @ih (budget - calls) (fun smaller hle => hask smaller (by omega)) session₁
        refine ⟨calls + calls', session', by omega, ?_⟩
        rcases hrest with ⟨next, hrest⟩ | ⟨hall', hrest⟩
        · exact Or.inl ⟨next, .skipped hlookup hservers hrest⟩
        · exact Or.inr ⟨by omega, .skipped hlookup hservers hrest⟩
      · exact ⟨calls, session₁, hcalls, Or.inl ⟨_, .located hlookup hservers⟩⟩
    · exact ⟨calls, session₁, hcalls, Or.inr ⟨hall, .looking hlookup⟩⟩

private theorem reaches_refer
    (hask : ∀ smaller ≤ budget, ∀ servers question session,
      Reaches client start preferIpv6 (.ask servers question) .answered smaller session)
    (response : Message) (session : Session σ) :
    Reaches client start preferIpv6 (.refer response) .found budget session := by
  by_cases hglue : response.glue response.referral preferIpv6 = []
  · obtain ⟨calls, session', hcalls, hfind⟩ := reaches_find hask response.referral session
    refine ⟨calls, session', hcalls, ?_⟩
    rcases hfind with ⟨next, hfind⟩ | ⟨hall, hfind⟩
    · exact Or.inl ⟨next, .glueless hglue hfind⟩
    · exact Or.inr ⟨hall, .glueless hglue hfind⟩
  · exact ⟨0, session, Nat.zero_le _, Or.inl ⟨_, .glued hglue⟩⟩

/-- Within any number of calls, asking servers comes to an end or to the call after them. -/
theorem reaches_ask (budget : Nat) (servers : List NameServer) (question : Question)
    (session : Session σ) :
    Reaches client start preferIpv6 (.ask servers question) .answered budget session := by
  induction budget using Nat.strongRecOn generalizing servers question session with
  | ind budget ih =>
    rcases budget with _ | budget
    · exact ⟨0, session, Nat.le_refl _, Or.inr ⟨rfl, .due⟩⟩
    -- The first call is made; whatever follows it has a smaller budget.
    have hsmaller : ∀ smaller ≤ budget, ∀ servers question session,
        Reaches client start preferIpv6 (.ask servers question) .answered smaller session :=
      fun smaller hle => ih smaller (by omega)
    cases hasked : client.queryServers servers question false session with
    | error error session' => exact ⟨1, session', by omega, Or.inl ⟨_, .failed hasked⟩⟩
    | ok response session₁ =>
      by_cases hreferral : response.referral = []
      · exact ⟨1, session₁, by omega, Or.inl ⟨_, .answered hasked hreferral⟩⟩
      obtain ⟨calls, session₂, hcalls, ⟨next, hrefer⟩ | ⟨hall, hrefer⟩⟩ :=
        reaches_refer hsmaller response session₁
      · by_cases hnext : next = []
        · subst hnext
          exact ⟨1 + calls, session₂, by omega, Or.inl ⟨_, .stranded hasked hreferral hrefer⟩⟩
        · obtain ⟨calls', session', hcalls', hrest⟩ :=
            hsmaller (budget - calls) (by omega) next question session₂
          refine ⟨1 + calls + calls', session', by omega, ?_⟩
          rcases hrest with ⟨outcome, hrest⟩ | ⟨hall', hrest⟩
          · exact Or.inl ⟨outcome, .onward hasked hreferral hrefer hnext hrest⟩
          · exact Or.inr ⟨by omega, .onward hasked hreferral hrefer hnext hrest⟩
      · exact ⟨1 + calls, session₂, by omega, Or.inr ⟨by omega, .stopped hasked hreferral hrefer⟩⟩

/-! ### The walk with its budget -/

/-- What asking servers ends with, with a budget, when it has come to an ending. -/
def Ending.reply : Ending → Except Error Message
  | .answered outcome => outcome
  | .due | .found _ => .error (.hopCountExceeded maxHops)

/-- What looking for servers to ask ends with, with a budget, when it has come to an ending. -/
def Ending.next : Ending → Except Error (List NameServer)
  | .found servers => .ok servers
  | .due | .answered _ => .error (.hopCountExceeded maxHops)

variable (client start preferIpv6) in
/-- The servers that a referral leads to, from its glue or from lookups. -/
def referTo (depth : Nat) (response : Message) : WalkTask σ (List NameServer) :=
  if (response.glue response.referral preferIpv6).isEmpty then
    Client.resolveHosts (client.walkFrom start preferIpv6 depth start) preferIpv6 response.referral
  else
    pure (response.glue response.referral preferIpv6)

variable (client start preferIpv6) in
/-- That a stage of the walk with a budget, run on a walk, comes to an ending. -/
def Stage.Runs (depth : Nat) : Stage → Walk σ → Ending → Walk σ → Prop
  | .ask servers question, walk, ending, walk' =>
    client.walkFrom start preferIpv6 depth servers question walk = finish ending.reply walk'
  | .refer response, walk, ending, walk' =>
    referTo client start preferIpv6 depth response walk = finish ending.next walk'
  | .find hosts, walk, ending, walk' =>
    Client.resolveHosts (client.walkFrom start preferIpv6 depth start) preferIpv6 hosts walk
      = finish ending.next walk'

/-- Without hops left, asking ends where it starts. -/
theorem walkFrom_spent (depth : Nat) (servers : List NameServer) (question : Question)
    {walk : Walk σ} (hhops : maxHops ≤ walk.hops) :
    client.walkFrom start preferIpv6 depth servers question walk
      = .error (.hopCountExceeded maxHops) walk := by
  cases depth with
  | zero => rfl
  | succ depth =>
    have hspend : WalkTask.spend walk = .error (.hopCountExceeded maxHops) walk := by
      show (if maxHops ≤ walk.hops then _ else _ : WalkTask σ Unit) walk = _
      rw [if_pos hhops]
      rfl
    rw [Client.walkFrom, bind_apply, hspend]

/-- With hops left, asking makes a call, and goes on from its reply. -/
theorem walkFrom_succ (depth : Nat) (servers : List NameServer) (question : Question)
    {walk : Walk σ} (hhops : walk.hops < maxHops) :
    client.walkFrom start preferIpv6 (depth + 1) servers question walk
      = match client.queryServers servers question false walk.session with
        | .error error session => .error error ⟨session, walk.hops + 1⟩
        | .ok response session =>
          if response.referral = [] then .ok response ⟨session, walk.hops + 1⟩
          else
            match referTo client start preferIpv6 depth response ⟨session, walk.hops + 1⟩ with
            | .error error walk => .error error walk
            | .ok next walk =>
              if next = [] then .ok response walk
              else client.walkFrom start preferIpv6 depth next question walk := by
  have hspend : WalkTask.spend walk = .ok () { walk with hops := walk.hops + 1 } := by
    show (if maxHops ≤ walk.hops then _ else _ : WalkTask σ Unit) walk = _
    rw [if_neg (Nat.not_le.mpr hhops)]
    rfl
  rw [Client.walkFrom, bind_apply, hspend]
  simp only [bind_apply, WalkTask.lift]
  cases client.queryServers servers question false walk.session with
  | error error session => rfl
  | ok response session =>
    simp only [List.isEmpty_iff]
    by_cases hreferral : response.referral = []
    · simp only [if_pos hreferral]
      rfl
    · simp only [if_neg hreferral, referTo, List.isEmpty_iff]
      by_cases hglue : response.glue response.referral preferIpv6 = []
      · simp only [if_pos hglue, bind_apply]
        cases Client.resolveHosts (client.walkFrom start preferIpv6 depth start) preferIpv6
          response.referral ⟨session, walk.hops + 1⟩ with
        | error error walk => rfl
        | ok next walk =>
          by_cases hnext : next = []
          · simp only [if_pos hnext]
            rfl
          · simp only [if_neg hnext]
      · simp only [if_neg hglue]
        show (if response.glue response.referral preferIpv6 = [] then _ else _ : WalkTask σ Message) _
          = if response.glue response.referral preferIpv6 = [] then _ else _
        rw [if_neg hglue, if_neg hglue]

/-- After a reply with a referral, everything depends on the servers that it leads to. -/
theorem walkFrom_referred {depth : Nat} {servers : List NameServer} {question : Question}
    {session session' : Session σ} {hops : Nat} {response : Message} {ending : Ending}
    {walk' : Walk σ} (hhops : hops < maxHops)
    (hasked : client.queryServers servers question false session = .ok response session')
    (hreferral : response.referral ≠ [])
    (hrefer : Stage.Runs client start preferIpv6 depth (.refer response) ⟨session', hops + 1⟩ ending
      walk') :
    client.walkFrom start preferIpv6 (depth + 1) servers question ⟨session, hops⟩
      = match ending.next with
        | .error error => .error error walk'
        | .ok next =>
          if next = [] then .ok response walk'
          else client.walkFrom start preferIpv6 depth next question walk' := by
  have hrefer' : referTo client start preferIpv6 depth response ⟨session', hops + 1⟩
      = finish ending.next walk' := hrefer
  rw [walkFrom_succ _ _ _ hhops, hasked]
  simp only [if_neg hreferral, hrefer']
  cases ending.next <;> rfl

/-- Looking up hosts takes the first host with an address, and passes over failed lookups. -/
theorem resolveHosts_cons (depth : Nat) (host : Name) (hosts : List Name) (walk : Walk σ)
    {outcome : Except Error Message} {walk' : Walk σ}
    (hlookup : client.walkFrom start preferIpv6 depth start (lookup preferIpv6 host) walk
      = finish outcome walk')
    (hne : ∀ hops, outcome ≠ .error (.hopCountExceeded hops)) :
    Client.resolveHosts (client.walkFrom start preferIpv6 depth start) preferIpv6 (host :: hosts) walk
      = if serversIn host outcome = [] then
          Client.resolveHosts (client.walkFrom start preferIpv6 depth start) preferIpv6 hosts walk'
        else .ok (serversIn host outcome) walk' := by
  have hattempt : WalkTask.attempt
      (client.walkFrom start preferIpv6 depth start (lookup preferIpv6 host)) walk
        = .ok outcome walk' := by
    unfold WalkTask.attempt
    rw [hlookup]
    cases outcome with
    | ok response => rfl
    | error error =>
      cases error <;> first | rfl | exact absurd rfl (hne _)
  rw [Client.resolveHosts]
  show (WalkTask.attempt (client.walkFrom start preferIpv6 depth start (lookup preferIpv6 host)) >>= _)
    walk = _
  rw [bind_apply, hattempt]
  cases outcome with
  | error error => rfl
  | ok response =>
    simp only [List.isEmpty_iff]
    by_cases hservers : Message.serversFor response.answers host = []
    · simp only [if_pos hservers]
      exact (if_pos hservers).symm
    · simp only [if_neg hservers]
      exact (if_neg hservers).symm

/-- A lookup whose hops are used up ends the looking up. -/
theorem resolveHosts_spent (depth : Nat) (host : Name) (hosts : List Name) (walk : Walk σ)
    {hops : Nat} {walk' : Walk σ}
    (hlookup : client.walkFrom start preferIpv6 depth start (lookup preferIpv6 host) walk
      = .error (.hopCountExceeded hops) walk') :
    Client.resolveHosts (client.walkFrom start preferIpv6 depth start) preferIpv6 (host :: hosts) walk
      = .error (.hopCountExceeded hops) walk' := by
  have hattempt : WalkTask.attempt
      (client.walkFrom start preferIpv6 depth start (lookup preferIpv6 host)) walk
        = .error (.hopCountExceeded hops) walk' := by
    unfold WalkTask.attempt
    rw [hlookup]
  rw [Client.resolveHosts]
  show (WalkTask.attempt (client.walkFrom start preferIpv6 depth start (lookup preferIpv6 host)) >>= _)
    walk = _
  rw [bind_apply, hattempt]

namespace Proceeds

variable {stage : Stage} {session session' : Session σ} {calls : Nat} {ending : Ending}

/-- Without a bound, hops are never used up. -/
theorem ne_hops (h : Proceeds client start preferIpv6 stage session calls ending session')
    (hkeeps : client.environment.KeepsHops) (hops : Nat) :
    ending ≠ .answered (.error (.hopCountExceeded hops)) := by
  induction h with
  | failed hasked =>
    intro heq
    obtain rfl := Except.error.inj (Ending.answered.inj heq)
    exact Client.queryServers_ne_hops hkeeps hasked hops rfl
  | answered | stranded => simp
  | due | stopped | glued | exhausted | looking | located => simp
  | onward _ _ _ _ _ _ ih => exact ih
  | glueless _ _ ih => exact ih
  | skipped _ _ _ _ ih => exact ih

/-- **The budget cuts nothing short.** As long as its hops last, the walk with a budget does
    what a walk without a bound does, and where they end it stops at the next call. -/
theorem runs (h : Proceeds client start preferIpv6 stage session calls ending session')
    (hkeeps : client.environment.KeepsHops) {hops depth : Nat} (hcalls : hops + calls ≤ maxHops)
    (hdepth : maxHops ≤ depth + hops) (hdue : ending = .due → hops + calls = maxHops) :
    stage.Runs client start preferIpv6 depth ⟨session, hops⟩ ending ⟨session', hops + calls⟩ := by
  induction h generalizing hops depth with
  | due => exact walkFrom_spent _ _ _ (hdue rfl).ge
  | failed hasked =>
    obtain ⟨depth, rfl⟩ : ∃ n, depth = n + 1 := ⟨depth - 1, by omega⟩
    show client.walkFrom start preferIpv6 _ _ _ _ = _
    rw [walkFrom_succ _ _ _ (by show hops < maxHops; omega), hasked]
    rfl
  | answered hasked hfinal =>
    obtain ⟨depth, rfl⟩ : ∃ n, depth = n + 1 := ⟨depth - 1, by omega⟩
    show client.walkFrom start preferIpv6 _ _ _ _ = _
    rw [walkFrom_succ _ _ _ (by show hops < maxHops; omega), hasked]
    exact if_pos hfinal
  | @stopped servers question session response session₁ calls session' hasked hreferral _ ih =>
    obtain ⟨depth, rfl⟩ : ∃ n, depth = n + 1 := ⟨depth - 1, by omega⟩
    have hrefer := @ih (hops + 1) depth (by omega) (by omega) (fun hend => by have := hdue hend; omega)
    rw [← Nat.add_assoc]
    exact walkFrom_referred (by omega) hasked hreferral hrefer
  | @stranded servers question session response session₁ calls session' hasked hreferral _ ih =>
    obtain ⟨depth, rfl⟩ : ∃ n, depth = n + 1 := ⟨depth - 1, by omega⟩
    have hrefer := @ih (hops + 1) depth (by omega) (by omega) (by simp)
    rw [← Nat.add_assoc]
    exact walkFrom_referred (by omega) hasked hreferral hrefer
  | @onward servers question session response session₁ calls next session₂ calls' ending session'
      hasked hreferral _ hnext _ ih ih' =>
    obtain ⟨depth, rfl⟩ : ∃ n, depth = n + 1 := ⟨depth - 1, by omega⟩
    have hrefer := @ih (hops + 1) depth (by omega) (by omega) (by simp)
    have hrest := @ih' (hops + 1 + calls) depth (by omega) (by omega)
      (fun hend => by have := hdue hend; omega)
    rw [← Nat.add_assoc, ← Nat.add_assoc]
    refine (walkFrom_referred (by omega) hasked hreferral hrefer).trans ?_
    exact (if_neg hnext).trans hrest
  | glued hglue =>
    show referTo _ _ _ _ _ _ = _
    rw [referTo, if_neg (by simpa using hglue)]
    rfl
  | glueless hglue _ ih =>
    show referTo _ _ _ _ _ _ = _
    rw [referTo, if_pos (by simpa using hglue)]
    exact ih hcalls hdepth hdue
  | exhausted => rfl
  | looking _ ih => exact resolveHosts_spent _ _ _ _ (ih hcalls hdepth hdue)
  | @located host hosts session calls outcome session' hlookup hservers ih =>
    have hne := hlookup.ne_hops hkeeps
    have hrun : client.walkFrom start preferIpv6 depth start (lookup preferIpv6 host) ⟨session, hops⟩
        = finish outcome ⟨session', hops + calls⟩ := ih hcalls hdepth (by simp)
    refine (resolveHosts_cons depth host hosts _ hrun
      (fun hops heq => hne hops (congrArg Ending.answered heq))).trans ?_
    exact if_neg hservers
  | @skipped host hosts session calls outcome session₁ calls' ending session' hlookup hservers _ ih ih' =>
    have hne := hlookup.ne_hops hkeeps
    have hrun : client.walkFrom start preferIpv6 depth start (lookup preferIpv6 host) ⟨session, hops⟩
        = finish outcome ⟨session₁, hops + calls⟩ := ih (by omega) hdepth (by simp)
    refine (resolveHosts_cons depth host hosts _ hrun
      (fun hops heq => hne hops (congrArg Ending.answered heq))).trans ((if_pos hservers).trans ?_)
    rw [← Nat.add_assoc]
    exact ih' (by omega) (by omega) (fun hend => by have := hdue hend; omega)

/-- Each call is noted once, as long as there are servers to start from. -/
theorem calls_eq (h : Proceeds client start preferIpv6 stage session calls ending session')
    (hkeeps : client.environment.KeepsHops) (hstart : start ≠ [])
    (hstage : ∀ servers question, stage = .ask servers question → servers ≠ []) :
    session'.calls = session.calls + calls := by
  induction h with
  | due | glued | exhausted => rfl
  | failed hasked =>
    rw [← left_of_error hasked, Client.queryServers_calls hkeeps (hstage _ _ rfl)]
  | answered hasked => rw [← left_of_ok hasked, Client.queryServers_calls hkeeps (hstage _ _ rfl)]
  | stopped hasked _ _ ih | stranded hasked _ _ ih =>
    rw [ih (by simp), ← left_of_ok hasked, Client.queryServers_calls hkeeps (hstage _ _ rfl),
      Nat.add_assoc]
  | onward hasked _ _ hnext _ ih ih' =>
    rw [ih' (by rintro _ _ ⟨⟩; exact hnext), ih (by simp), ← left_of_ok hasked,
      Client.queryServers_calls hkeeps (hstage _ _ rfl)]
    omega
  | glueless _ _ ih => exact ih (by simp)
  | looking _ ih | located _ _ ih => exact ih (by rintro _ _ ⟨⟩; exact hstart)
  | skipped _ _ _ ih ih' =>
    rw [ih' (by simp), ih (by rintro _ _ ⟨⟩; exact hstart), Nat.add_assoc]

end Proceeds

end Walk

namespace Client

variable {σ : Type} {client : Client σ} {start : List NameServer} {question : Question}
  {preferIpv6 : Bool} {session session' : Session σ} {calls : Nat}

/-- A walk that comes to its end within the budget ends as if there were none. -/
theorem resolveVia_answered {outcome : Except Error Message}
    (h : Walk.Proceeds client start preferIpv6 (.ask start question) session calls
      (.answered outcome) session')
    (hkeeps : client.environment.KeepsHops) (hcalls : calls ≤ maxHops) :
    client.resolveVia start question preferIpv6 session = finish outcome session' := by
  have hrun : client.walkFrom start preferIpv6 maxHops start question ⟨session, 0⟩
      = finish outcome ⟨session', 0 + calls⟩ :=
    h.runs hkeeps (by omega) (by omega) (by simp)
  unfold resolveVia
  rw [hrun]
  cases outcome <;> rfl

/-- A walk that needs one call more than the budget has stops there. -/
theorem resolveVia_due
    (h : Walk.Proceeds client start preferIpv6 (.ask start question) session maxHops .due session')
    (hkeeps : client.environment.KeepsHops) :
    client.resolveVia start question preferIpv6 session
      = .error (.hopCountExceeded maxHops) session' := by
  have hrun : client.walkFrom start preferIpv6 maxHops start question ⟨session, 0⟩
      = .error (.hopCountExceeded maxHops) ⟨session', 0 + maxHops⟩ :=
    h.runs hkeeps (by omega) (by omega) (by simp)
  unfold resolveVia
  rw [hrun]

/-- **The shared hop budget.** Whatever comes back, a resolution from given servers is a walk
    without a bound that is cut off after 64 calls, those of nested lookups included. If that
    walk comes to an end within 64 calls, its end is that of the resolution, and it is no
    exhausted budget. Otherwise it needs more calls than that, and the resolution stops just
    where call 65 is due, with nothing done any more. Every call is noted once, and room for
    chains deeper than the budget makes no difference. -/
theorem resolveVia_budget (client : Client σ) (hkeeps : client.environment.KeepsHops)
    (start : List NameServer) (question : Question) (preferIpv6 : Bool) (session : Session σ) :
    (∃ calls ≤ maxHops, ∃ session',
      ((∃ outcome, Walk.Proceeds client start preferIpv6 (.ask start question) session calls
            (.answered outcome) session'
          ∧ client.resolveVia start question preferIpv6 session = finish outcome session'
          ∧ ∀ hops, outcome ≠ .error (.hopCountExceeded hops))
        ∨ (calls = maxHops
          ∧ Walk.Proceeds client start preferIpv6 (.ask start question) session calls .due session'
          ∧ client.resolveVia start question preferIpv6 session
              = .error (.hopCountExceeded maxHops) session'
          ∧ ∀ more outcome final,
              Walk.Proceeds client start preferIpv6 (.ask start question) session more
                (.answered outcome) final → maxHops < more))
      ∧ (start ≠ [] → session'.calls = session.calls + calls))
    ∧ ∀ depth, maxHops ≤ depth →
        client.walkFrom start preferIpv6 depth start question ⟨session, 0⟩
          = client.walkFrom start preferIpv6 maxHops start question ⟨session, 0⟩ := by
  obtain ⟨calls, session', hcalls, hreached⟩ :
      Walk.Reaches client start preferIpv6 (.ask start question) .answered maxHops session :=
    Walk.reaches_ask maxHops start question session
  have hcounted : ∀ ending, Walk.Proceeds client start preferIpv6 (.ask start question) session
      calls ending session' → start ≠ [] → session'.calls = session.calls + calls :=
    fun ending h hstart => h.calls_eq hkeeps hstart (by rintro _ _ ⟨⟩; exact hstart)
  have hdeep : ∀ ending, Walk.Proceeds client start preferIpv6 (.ask start question) session
      calls ending session' → (ending = .due → calls = maxHops) → ∀ depth, maxHops ≤ depth →
        client.walkFrom start preferIpv6 depth start question ⟨session, 0⟩
          = finish ending.reply ⟨session', 0 + calls⟩ :=
    fun ending h hdue depth hdepth => h.runs hkeeps (by omega) (by omega)
      (fun hend => by rw [hdue hend, Nat.zero_add])
  rcases hreached with ⟨outcome, hend⟩ | ⟨hall, hdue⟩
  · refine ⟨⟨calls, hcalls, session', Or.inl ⟨outcome, hend, ?_, ?_⟩, hcounted _ hend⟩, ?_⟩
    · exact resolveVia_answered hend hkeeps hcalls
    · exact fun hops heq => hend.ne_hops hkeeps hops (congrArg Walk.Ending.answered heq)
    · intro depth hdepth
      rw [hdeep _ hend (by simp) depth hdepth, hdeep _ hend (by simp) maxHops (Nat.le_refl _)]
  · subst hall
    refine ⟨⟨maxHops, hcalls, session', Or.inr ⟨rfl, hdue, ?_, ?_⟩, hcounted _ hdue⟩, ?_⟩
    · exact resolveVia_due hdue hkeeps
    · intro more outcome final hmore
      by_contra hwithin
      have hstop := (resolveVia_answered hmore hkeeps (Nat.not_lt.mp hwithin)).symm.trans
        (resolveVia_due hdue hkeeps)
      exact hmore.ne_hops hkeeps maxHops (congrArg Walk.Ending.answered (finish_eq_error.mp hstop).1)
    · intro depth hdepth
      rw [hdeep _ hdue (fun _ => rfl) depth hdepth,
        hdeep _ hdue (fun _ => rfl) maxHops (Nat.le_refl _)]

end Client

/-! ### A network without glue -/

namespace Glueless

/-- The host that every reply refers to. -/
def host : Name := ⟨['a']⟩

/-- The question for the address of that host. -/
def question : Question := .about host .a

/-- The one server there is. -/
def server : NameServer := .udp (.v4 ⟨127, 0, 0, 1⟩)

/-- A reply with the host and without its address. -/
def octets : Octets :=
  #[0, 0, 0x80, 0, 0, 0, 0, 0, 0, 1, 0, 0, 0, 0, 2, 0, 1, 0, 0, 0, 0, 0, 3, 1, 0x61, 0]

/-- What the reply says. -/
def reply : Message where
  header := { isResponse := true, authorities := 1 }
  authorities := [⟨.root, .ns, .internet, 0, none, .ns host⟩]
  origin := some ⟨server, .udp, octets.size⟩

/-- A client to which every server replies so. -/
def client : Client Unit where
  servers := [server]
  settings := {}
  environment :=
    { send := fun _ _ _ _ => (.ok octets, ())
      drawId := fun _ => (0, ())
      drawIndex := fun _ _ => (0, ())
      clock := fun _ => (0, ()) }

theorem keepsHops : client.environment.KeepsHops := by
  intro server message timeout world hops
  simp [client]

theorem accept_octets : Client.accept server 0 (.ok octets) = .ok reply := by cbv

theorem queryServers_eq (session : Session Unit) :
    ∃ session', client.queryServers [server] question false session = .ok reply session' := by
  let asking : Asking Unit := ⟨client, [server], by decide, question, false, session⟩
  have hquery : Client.encodeQuery 0 question false
      = .ok #[0, 0, 0, 0, 0, 1, 0, 0, 0, 0, 0, 0, 1, 0x61, 0, 0, 1, 0, 1] := by cbv
  have hreply : ∀ session,
      client.sendOnce server #[0, 0, 0, 0, 0, 1, 0, 0, 0, 0, 0, 0, 1, 0x61, 0, 0, 1, 0, 1] 0 session
        = .ok reply (client.sentTo server _ session) := fun session =>
    (client.sendOnce_apply ..).trans (congrArg (finish · _) accept_octets)
  have hexchange := client.exchange_apply server question false (asking.before 0)
  rw [show client.idFor (asking.before 0) = 0 from rfl, hquery] at hexchange
  simp only [hreply] at hexchange
  have hending : asking.ending 0 = .ok reply :=
    outcome_of_apply (hexchange.trans (if_neg (by decide)) : _ = finish (.ok reply) _)
  have hrun := asking.attemptsFrom_succ 0 1
  rw [hending] at hrun
  exact ⟨_, asking.run_eq.trans hrun⟩

/-- Whatever a walk is at, it is about that host. -/
def AboutHost : Walk.Stage → Prop
  | .ask servers asked => servers = [server] ∧ asked = question
  | .refer response => response = reply
  | .find hosts => hosts = [host]

theorem proceeds_due {stage : Walk.Stage} {session session' : Session Unit} {calls : Nat}
    {ending : Walk.Ending}
    (h : Walk.Proceeds client [server] false stage session calls ending session')
    (hstage : AboutHost stage) : ending = .due := by
  induction h with
  | due | stopped | looking => rfl
  | failed hasked =>
    obtain ⟨rfl, rfl⟩ := hstage
    obtain ⟨_, heq⟩ := queryServers_eq _
    exact absurd (heq.symm.trans hasked) (by simp)
  | answered hasked hfinal =>
    obtain ⟨rfl, rfl⟩ := hstage
    obtain ⟨_, heq⟩ := queryServers_eq _
    obtain ⟨rfl, -⟩ := EStateM.Result.ok.inj (heq.symm.trans hasked)
    exact absurd hfinal (by decide)
  | stranded hasked _ _ ih | onward hasked _ _ _ _ ih =>
    obtain ⟨rfl, rfl⟩ := hstage
    obtain ⟨_, heq⟩ := queryServers_eq _
    obtain ⟨rfl, -⟩ := EStateM.Result.ok.inj (heq.symm.trans hasked)
    exact absurd (ih rfl) (by simp)
  | glued hglue =>
    subst hstage
    exact absurd rfl hglue
  | glueless _ _ ih =>
    subst hstage
    exact ih rfl
  | exhausted => exact absurd hstage (by simp [AboutHost])
  | located _ _ ih | skipped _ _ _ ih =>
    obtain ⟨rfl, rfl⟩ := List.cons.inj hstage
    exact absurd (ih ⟨rfl, rfl⟩) (by simp)

end Glueless

/-- Every lookup of the host leads to another one, and together they use up the budget. -/
theorem Client.resolveVia_budget_glueless :
    ∃ session', Glueless.client.resolveVia [Glueless.server] Glueless.question false ⟨(), none, []⟩
        = .error (.hopCountExceeded 64) session'
      ∧ session'.calls = 64 := by
  obtain ⟨⟨calls, _, session', ⟨outcome, hend, _⟩ | ⟨rfl, _, hrun, _⟩, hcalls⟩, _⟩ :=
    resolveVia_budget Glueless.client Glueless.keepsHops [Glueless.server] Glueless.question false
      ⟨(), none, []⟩
  · exact absurd (Glueless.proceeds_due hend ⟨rfl, rfl⟩) (by simp)
  · exact ⟨session', hrun, hcalls (by simp)⟩

end DnsResolver
