import DnsResolver.Client.Query
import Mathlib

namespace DnsResolver

/-!
# What the steps of a client do

Every step of a client is a function of the session. Here each of them is applied to one:
what it ends with, what it notes, and where it leaves the environment.

* `Task.finish_outcome` — a step is its outcome together with the session that it leaves.
* `Client.accept` — what is made of a reply, apart from how it was obtained.
* `Client.sendOnce_apply`, `Client.exchange_apply` — one sending, and one attempt.
* `Client.exchange_attempt` — all that an attempt notes: an identifier, and the query with it
  sent once, or once more over TCP.
* `Client.resolve_apply` — looking into the cache, and asking when nothing is found there.
-/

/-- The session with the environment in another state and one event more. -/
def Session.noting {σ : Type} (session : Session σ) (world : σ) (event : Event) : Session σ :=
  { session with world := world, log := event :: session.log }

namespace Task

variable {σ τ α β : Type}

/-- The end of a step: its outcome and the state that it leaves. -/
def finish (outcome : Except Error α) (state : τ) : EStateM.Result Error τ α :=
  match outcome with
  | .ok value => .ok value state
  | .error error => .error error state

@[simp] theorem finish_eq_error {outcome : Except Error α} {state state' : τ} {error : Error} :
    finish outcome state = .error error state' ↔ outcome = .error error ∧ state = state' := by
  cases outcome <;> simp [finish]

/-- What a step ends with. -/
def outcome (task : Task σ α) (session : Session σ) : Except Error α :=
  match task session with
  | .ok value _ => .ok value
  | .error error _ => .error error

/-- The session that a step leaves, whether it fails or not. -/
def left (task : Task σ α) (session : Session σ) : Session σ :=
  match task session with
  | .ok _ session => session
  | .error _ session => session

@[simp] theorem finish_outcome (task : Task σ α) (session : Session σ) :
    finish (outcome task session) (left task session) = task session := by
  unfold outcome left
  cases task session <;> rfl

theorem outcome_of_apply {task : Task σ α} {session session' : Session σ} {ending : Except Error α}
    (h : task session = finish ending session') : outcome task session = ending := by
  unfold outcome
  rw [h]
  cases ending <;> rfl

theorem left_of_apply {task : Task σ α} {session session' : Session σ} {ending : Except Error α}
    (h : task session = finish ending session') : left task session = session' := by
  unfold left
  rw [h]
  cases ending <;> rfl

theorem left_of_ok {task : Task σ α} {session session' : Session σ} {value : α}
    (h : task session = .ok value session') : left task session = session' := by
  unfold left
  rw [h]

theorem left_of_error {task : Task σ α} {session session' : Session σ} {error : Error}
    (h : task session = .error error session') : left task session = session' := by
  unfold left
  rw [h]

theorem bind_apply (task : EStateM Error τ α) (next : α → EStateM Error τ β) (state : τ) :
    (task >>= next) state
      = match task state with
        | .ok value state => next value state
        | .error error state => .error error state := by
  show EStateM.bind task next state = _
  unfold EStateM.bind
  cases task state <;> rfl

theorem get_bind (next : τ → EStateM Error τ β) (state : τ) :
    ((get : EStateM Error τ τ) >>= next) state = next state state := rfl

theorem ofFormat_apply (value : Except FormatError α) (session : Session σ) :
    ofFormat value session = finish (value.mapError .format) session := by
  cases value <;> rfl

theorem ofExcept_apply (value : Except Error α) (session : Session σ) :
    ofExcept value session = finish value session := by
  cases value <;> rfl

theorem attempt_apply (task : Task σ α) (session : Session σ) :
    attempt task session = .ok (outcome task session) (left task session) := by
  unfold attempt outcome left
  cases task session <;> rfl

end Task

open DnsResolver.Task

namespace Client

variable {σ : Type} (client : Client σ)

/-! ### Sending once -/

/-- What is made of what came back for a query with an identifier: it has to be a message with
    that identifier. -/
def accept (server : NameServer) (id : UInt16) : Except Error Octets → Except Error Message
  | .error error => .error error
  | .ok octets =>
    match Message.decode octets with
    | .error error => .error (.format error)
    | .ok response =>
      if response.header.id = id then
        .ok { response with origin := some ⟨server, server.protocol, octets.size⟩ }
      else
        .error (.transport (.idMismatch id response.header.id))

/-- The session after a message was sent to a server. -/
def sentTo (server : NameServer) (message : Octets) (session : Session σ) : Session σ :=
  let (reply, world) :=
    client.environment.send server message client.settings.timeout session.world
  session.noting world (.sent server message reply)

/-- What comes back for a message that is sent to a server. -/
def replyFrom (server : NameServer) (message : Octets) (session : Session σ) :
    Except Error Octets :=
  (client.environment.send server message client.settings.timeout session.world).1

theorem sendOnce_apply (server : NameServer) (message : Octets) (id : UInt16)
    (session : Session σ) :
    client.sendOnce server message id session
      = finish (accept server id (client.replyFrom server message session))
          (client.sentTo server message session) := by
  have hsend : client.send server message session
      = finish (client.replyFrom server message session) (client.sentTo server message session) := by
    show Task.ofExcept _ _ = _
    rw [ofExcept_apply]
    rfl
  rw [sendOnce, bind_apply, hsend]
  cases client.replyFrom server message session with
  | error error => rfl
  | ok octets =>
    simp only [finish, bind_apply, ofFormat_apply, accept]
    cases Message.decode octets with
    | error error => rfl
    | ok response =>
      by_cases hid : response.header.id = id
      · simp only [Except.mapError, if_pos hid]
        rfl
      · simp only [Except.mapError, if_neg hid]
        rfl

/-! ### One attempt -/

/-- The identifier that an attempt draws. -/
def idFor (session : Session σ) : UInt16 := (client.environment.drawId session.world).1

/-- The session after an identifier was drawn. -/
def drawn (session : Session σ) : Session σ :=
  session.noting (client.environment.drawId session.world).2 (.drew (client.idFor session))

theorem exchange_apply (server : NameServer) (question : Question) (recursionDesired : Bool)
    (session : Session σ) :
    client.exchange server question recursionDesired session
      = match encodeQuery (client.idFor session) question recursionDesired with
        | .error error => .error (.format error) (client.drawn session)
        | .ok message =>
          match client.sendOnce server message (client.idFor session) (client.drawn session) with
          | .error error session => .error error session
          | .ok response session' =>
            if client.needsTcp server response then
              client.sendOnce (server.withProtocol .tcp) message (client.idFor session) session'
            else .ok response session' := by
  have hid : client.drawId session = .ok (client.idFor session) (client.drawn session) := rfl
  rw [exchange, bind_apply, hid]
  simp only [bind_apply, ofFormat_apply]
  cases encodeQuery (client.idFor session) question recursionDesired with
  | error error => rfl
  | ok message =>
    simp only [Except.mapError, finish]
    cases client.sendOnce server message (client.idFor session) (client.drawn session) with
    | error error session' => rfl
    | ok response session' =>
      by_cases htcp : client.needsTcp server response = true
      · simp only [if_pos htcp]
      · simp only [if_neg htcp]
        rfl

/-- How an attempt with a server goes from a session on, by what it notes, the latest event
    first, and how it ends. It draws its identifier once. A query that cannot be written is not
    sent; any other goes to the server, and when the reply was truncated the same octets may go
    there once more over TCP. -/
inductive Attempt (server : NameServer) (question : Question) (recursionDesired : Bool)
    (session : Session σ) : List Event → Except Error Message → Prop
  | unwritten {error}
      (hquery : encodeQuery (client.idFor session) question recursionDesired = .error error) :
      Attempt server question recursionDesired session [.drew (client.idFor session)]
        (.error (.format error))
  | failed {message reply error}
      (hquery : encodeQuery (client.idFor session) question recursionDesired = .ok message)
      (hreply : client.replyFrom server message (client.drawn session) = reply)
      (haccept : accept server (client.idFor session) reply = .error error) :
      Attempt server question recursionDesired session
        [.sent server message reply, .drew (client.idFor session)] (.error error)
  | answered {message reply response}
      (hquery : encodeQuery (client.idFor session) question recursionDesired = .ok message)
      (hreply : client.replyFrom server message (client.drawn session) = reply)
      (haccept : accept server (client.idFor session) reply = .ok response)
      (hkept : client.needsTcp server response = false) :
      Attempt server question recursionDesired session
        [.sent server message reply, .drew (client.idFor session)] (.ok response)
  | repeated {message reply response again}
      (hquery : encodeQuery (client.idFor session) question recursionDesired = .ok message)
      (hreply : client.replyFrom server message (client.drawn session) = reply)
      (haccept : accept server (client.idFor session) reply = .ok response)
      (htcp : client.needsTcp server response = true)
      (hagain : client.replyFrom (server.withProtocol .tcp) message
        (client.sentTo server message (client.drawn session)) = again) :
      Attempt server question recursionDesired session
        [.sent (server.withProtocol .tcp) message again, .sent server message reply,
          .drew (client.idFor session)]
        (accept (server.withProtocol .tcp) (client.idFor session) again)

/-- What an attempt notes and how it ends. It leaves the cache alone. -/
theorem exchange_attempt (server : NameServer) (question : Question) (recursionDesired : Bool)
    (session : Session σ) :
    ∃ events, Attempt client server question recursionDesired session events
        (outcome (client.exchange server question recursionDesired) session)
      ∧ (left (client.exchange server question recursionDesired) session).log
          = events ++ session.log
      ∧ (left (client.exchange server question recursionDesired) session).cache = session.cache := by
  have hexchange := client.exchange_apply server question recursionDesired session
  cases hquery : encodeQuery (client.idFor session) question recursionDesired with
  | error error =>
    rw [hquery] at hexchange
    have hend : client.exchange server question recursionDesired session
        = finish (.error (.format error)) (client.drawn session) := hexchange
    rw [outcome_of_apply hend, left_of_apply hend]
    exact ⟨_, .unwritten hquery, rfl, rfl⟩
  | ok message =>
    simp only [hquery, sendOnce_apply] at hexchange
    cases haccept : accept server (client.idFor session)
        (client.replyFrom server message (client.drawn session)) with
    | error error =>
      simp only [haccept, finish] at hexchange
      have hend : client.exchange server question recursionDesired session
          = finish (.error error) (client.sentTo server message (client.drawn session)) := hexchange
      rw [outcome_of_apply hend, left_of_apply hend]
      exact ⟨_, .failed hquery rfl haccept, rfl, rfl⟩
    | ok response =>
      simp only [haccept, finish] at hexchange
      by_cases htcp : client.needsTcp server response = true
      · rw [if_pos htcp] at hexchange
        rw [outcome_of_apply hexchange, left_of_apply hexchange]
        exact ⟨_, .repeated hquery rfl haccept htcp rfl, rfl, rfl⟩
      · rw [if_neg htcp] at hexchange
        have hend : client.exchange server question recursionDesired session
            = finish (.ok response) (client.sentTo server message (client.drawn session)) := hexchange
        rw [outcome_of_apply hend, left_of_apply hend]
        exact ⟨_, .answered hquery rfl haccept (Bool.eq_false_iff.mpr htcp), rfl, rfl⟩

/-- Without servers there is nobody to ask. -/
theorem queryServers_nil (question : Question) (recursionDesired : Bool) (session : Session σ) :
    client.queryServers [] question recursionDesired session = .error .noNameServers session := rfl

/-! ### The cache -/

/-- What the cache holds for a question, and the session after it was looked at. -/
def look (question : Question) (session : Session σ) : Option Message × Session σ :=
  match session.cache with
  | none => (none, session)
  | some cache =>
    let (now, world) := client.environment.clock session.world
    let (found, cache) := cache.get now question
    (found, { session with world := world, cache := some cache })

/-- The session after a reply was kept, if it may be kept. -/
def kept (question : Question) (response : Message) (session : Session σ) : Session σ :=
  match session.cache with
  | none => session
  | some cache =>
    if isCacheable response then
      let (now, world) := client.environment.clock session.world
      let (purgeTime, world) := client.environment.clock world
      { session with world := world, cache := some (cache.insert now question response purgeTime) }
    else session

theorem look_log (question : Question) (session : Session σ) :
    (client.look question session).2.log = session.log := by
  unfold look
  split <;> rfl

theorem kept_log (question : Question) (response : Message) (session : Session σ) :
    (client.kept question response session).log = session.log := by
  unfold kept
  split
  · rfl
  · split <;> rfl

theorem cachedReply_apply (question : Question) (session : Session σ) :
    client.cachedReply question session
      = .ok (client.look question session).1 (client.look question session).2 := by
  rw [cachedReply, get_bind, look]
  cases session.cache <;> rfl

theorem keepReply_apply (question : Question) (response : Message) (session : Session σ) :
    client.keepReply question response session = .ok () (client.kept question response session) := by
  rw [keepReply, get_bind, kept]
  cases session.cache with
  | none => rfl
  | some cache =>
    by_cases hcacheable : isCacheable response = true
    · simp only [if_pos hcacheable]
      rfl
    · simp only [if_neg hcacheable]
      rfl

/-- Resolving a question is looking into the cache, and asking the servers when nothing is found. -/
theorem resolve_apply (question : Question) (session : Session σ) :
    client.resolve question session
      = match client.look question session with
        | (some response, session) => .ok response session
        | (none, session) =>
          match client.queryServers client.servers question client.settings.recursionDesired
            session with
          | .error error session => .error error session
          | .ok response session => .ok response (client.kept question response session) := by
  rw [resolve, bind_apply, cachedReply_apply]
  obtain ⟨found, looked⟩ := client.look question session
  cases found with
  | some response => rfl
  | none =>
    simp only [bind_apply]
    cases client.queryServers client.servers question client.settings.recursionDesired looked with
    | error error session' => rfl
    | ok response session' =>
      simp only [keepReply_apply]
      rfl

end Client

end DnsResolver
