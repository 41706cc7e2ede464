import DnsResolver.Proofs.Cache.Changes
import DnsResolver.Proofs.Client.Failover
import DnsResolver.Proofs.Message.CacheKey

namespace DnsResolver

open DnsResolver.Task

/-!
# Clients whose servers answer by the question

When the replies of all servers depend on the question only, what a client is told depends on the
question only, however often it has to ask and whomever it asks. What varies from one time to
another is the identifier of the reply, where it came from and how the lifetimes of its records
have run down; the rest is its content.

* `Environment.Echoes` — a transport that answers by the question.
* `Client.answer` — what a client is told.
* `Client.answer_congr` — questions with the same cache key have the same answer.
* `Client.queryServers_answer`, `Client.resolve_answer` — servers and cache tell a client just that.
-/

/-! ### Contents -/

/-- A record without its lifetime. -/
def Record.content (record : Record) : Record := { record with ttl := 0, expires := none }

namespace Message

/-- The message under another identifier. -/
def withId (id : UInt16) (message : Message) : Message :=
  { message with header := { message.header with id := id } }

/-- What a reply says, whenever and from wherever it came. -/
def content (message : Message) : Message :=
  { (message.mapRecords Record.content).withId 0 with origin := none }

/-- The octets of a message under another identifier. -/
def numbered (id : UInt16) (octets : Octets) : Octets :=
  (octets.setIfInBounds 0 (Wire.wordOctets id).1).setIfInBounds 1 (Wire.wordOctets id).2

/-- That octets are read in the same way under every identifier. -/
def ReadsAlike (octets : Octets) : Prop :=
  ∀ id, decode (numbered id octets) = (decode (numbered 0 octets)).map (withId id)

variable (message : Message)

@[simp] theorem withId_header_id (id : UInt16) : (message.withId id).header.id = id := rfl

@[simp] theorem content_withId (id : UInt16) : (message.withId id).content = message.content := rfl

@[simp] theorem content_origin (origin : Option Origin) :
    { message with origin := origin }.content = message.content := rfl

/-- Storing a reply does not change what it says. -/
theorem content_stored (cache : Cache) (now : Instant) :
    (cache.stored now message).content = message.content := by
  have hrecord : ∀ record : Record,
      ((record.withTtl (cache.clamp (record.ttlAt now))).pin now).content = record.content :=
    fun record => rfl
  simp [content, Cache.stored, mapRecords, withId, Function.comp_def, hrecord]

end Message

/-- A question whose type and class are those of their numbers. -/
def Question.Coded (question : Question) : Prop :=
  RecordType.ofCode question.type.code = question.type
    ∧ RecordClass.ofCode question.recordClass.code = question.recordClass

open Message (numbered ReadsAlike)

/-! ### Transports -/

/-- A transport whose reply to a query depends on nothing but the question, in which case plays no
    part, and carries the identifier of the query. -/
structure Environment.Echoes {σ : Type} (environment : Environment σ)
    (reply : Question → Except Error Octets) : Prop where
  same : ∀ question question', question.sameAs question' = true → reply question = reply question'
  send : ∀ server id question recursionDesired message timeout world,
    Client.encodeQuery id question recursionDesired = .ok message →
      (environment.send server message timeout world).1 = (reply question).map (numbered id)

namespace Client

variable {σ : Type}

/-- What comes of an attempt to ask a question. -/
def told (reply : Question → Except Error Octets) (question : Question) (recursionDesired : Bool) :
    Except Error Message :=
  match encodeQuery 0 question recursionDesired, (reply question).map (numbered 0) with
  | .error error, _ => .error (.format error)
  | .ok _, .error error => .error error
  | .ok _, .ok octets => ((Message.decode octets).mapError .format).map Message.content

variable (client : Client σ) (reply : Question → Except Error Octets)

/-- What a client is told: when it is a transport failure, that all attempts failed. -/
def answer (question : Question) : Except Error Message :=
  if client.servers = [] then .error .noNameServers
  else
    match told reply question client.settings.recursionDesired with
    | .ok message => .ok message
    | .error error =>
      if error.isTransport then
        .error (.resolutionFailed (max client.settings.retries 1 * client.servers.length))
      else .error error

section Attempts

variable {client reply}
  (halike : ∀ question octets, reply question = .ok octets → ReadsAlike octets)
include halike

/-- What is made of a reply says what the reply does, under whatever identifier. -/
theorem accept_content {id : UInt16} {question : Question} {recursionDesired : Bool}
    {message : Octets} (server : NameServer)
    (hquery : encodeQuery id question recursionDesired = .ok message) :
    (accept server id ((reply question).map (numbered id))).map Message.content
      = told reply question recursionDesired := by
  obtain ⟨message₀, hquery₀⟩ : ∃ message₀, encodeQuery 0 question recursionDesired = .ok message₀ := by
    cases h : encodeQuery 0 question recursionDesired with
    | ok message₀ => exact ⟨message₀, rfl⟩
    | error error =>
      rw [encodeQuery_error h id] at hquery
      exact absurd hquery (by simp)
  unfold told
  rw [hquery₀]
  cases hreply : reply question with
  | error error => rfl
  | ok octets =>
    simp only [Except.map, accept, halike question octets hreply id]
    cases Message.decode (numbered 0 octets) with
    | error error => rfl
    | ok response => simp [Except.mapError]

variable (hechoes : client.environment.Echoes reply)
include hechoes

/-- Every attempt to ask a question comes to the same. -/
theorem Attempt.content {server : NameServer} {question : Question} {recursionDesired : Bool}
    {session : Session σ} {events : List Event} {outcome : Except Error Message}
    (h : client.Attempt server question recursionDesired session events outcome) :
    outcome.map Message.content = told reply question recursionDesired := by
  have hsend : ∀ {server message session},
      encodeQuery (client.idFor session) question recursionDesired = .ok message →
      ∀ session', client.replyFrom server message session'
        = (reply question).map (numbered (client.idFor session)) :=
    fun hquery session' => hechoes.send _ _ _ _ _ _ _ hquery
  cases h with
  | unwritten hquery =>
    unfold told
    rw [encodeQuery_error hquery 0]
    rfl
  | failed hquery hreply haccept =>
    rw [← haccept, ← hreply, hsend hquery]
    exact accept_content halike server hquery
  | answered hquery hreply haccept =>
    rw [← haccept, ← hreply, hsend hquery]
    exact accept_content halike server hquery
  | repeated hquery hreply haccept _ hagain =>
    rw [← hagain, hsend hquery]
    exact accept_content halike _ hquery

end Attempts

/-! ### Asking servers -/

variable {client reply}

theorem queryServers_cache (servers : List NameServer) (question : Question)
    (recursionDesired : Bool) (session : Session σ) :
    (left (client.queryServers servers question recursionDesired) session).cache = session.cache := by
  rcases Nat.eq_zero_or_pos servers.length with hnil | hpos
  · obtain rfl := List.length_eq_zero_iff.mp hnil
    rfl
  · let asking : Asking σ := ⟨client, servers, hpos, question, recursionDesired, session⟩
    obtain ⟨outcome, i, hrun, _⟩ := asking.run_end
    rw [left_of_apply hrun, asking.cache_before]

/-- Asking the servers of a client comes to the answer. -/
theorem queryServers_answer (hechoes : client.environment.Echoes reply)
    (halike : ∀ question octets, reply question = .ok octets → ReadsAlike octets)
    (question : Question) (session : Session σ) :
    (outcome (client.queryServers client.servers question client.settings.recursionDesired)
      session).map Message.content = client.answer reply question := by
  unfold answer
  rcases Nat.eq_zero_or_pos client.servers.length with hnil | hpos
  · have hservers := List.length_eq_zero_iff.mp hnil
    rw [if_pos hservers, hservers]
    rfl
  rw [if_neg (List.length_pos_iff.mp hpos)]
  let asking : Asking σ :=
    ⟨client, client.servers, hpos, question, client.settings.recursionDesired, session⟩
  have hending : ∀ i, (asking.ending i).map Message.content
      = told reply question client.settings.recursionDesired := fun i => by
    obtain ⟨events, hattempt, -⟩ := asking.attempt i
    exact Attempt.content halike hechoes hattempt
  have htotal : 0 < asking.total := Nat.mul_pos (by omega) hpos
  obtain ⟨made, -, hto, hfailures, hsettled, hexhausted⟩ := asking.attemptsFrom_spec 0 asking.total
  rw [Nat.zero_add] at hto hsettled hexhausted
  rw [← Asking.run_eq] at hsettled hexhausted
  -- Either the attempts all fail in the same way, or the first one settles it.
  rcases Nat.lt_or_eq_of_le hto with hlt | heq
  · obtain ⟨hended, hrun⟩ := hsettled hlt
    rw [outcome_of_apply hrun, ← hending made]
    cases hmade : asking.ending made with
    | ok response => rfl
    | error error =>
      rw [hmade, isTransportFailure_error] at hended
      exact (if_neg hended).symm
  · have hfirst : IsTransportFailure (asking.ending 0) := hfailures 0 (Nat.le_refl _) (by omega)
    obtain ⟨error, herror, htransport⟩ := hfirst
    have hrun : asking.run = finish (.error (.resolutionFailed asking.total)) (asking.before made) :=
      hexhausted heq
    rw [outcome_of_apply hrun, ← hending 0, herror]
    exact (if_pos htransport).symm

/-! ### Questions with the same key -/

variable {question question' : Question} {recursionDesired : Bool}

/-- What comes of an attempt with a query that can be written is made of the reply. -/
theorem told_of_written (reply : Question → Except Error Octets)
    (hwritten : Label.checkAll question.name.wireLabels = .ok ()) (recursionDesired : Bool) :
    told reply question recursionDesired
      = ((reply question).map (numbered 0)).bind fun octets =>
          ((Message.decode octets).mapError .format).map Message.content := by
  unfold told
  rw [encodeQuery_eq, hwritten]
  cases reply question <;> rfl

/-- A trailing dot makes no difference to a query, so it makes none to the reply. -/
theorem reply_dropDot (hechoes : client.environment.Echoes reply) (world : σ)
    (hwritten : Label.checkAll question.name.wireLabels = .ok ()) :
    (reply question).map (numbered 0)
      = (reply { question with name := question.name.dropDot }).map (numbered 0) := by
  have hquery := encodeQuery_eq 0 question true
  have hquery' := encodeQuery_eq 0 { question with name := question.name.dropDot } true
  rw [hwritten] at hquery
  rw [Name.wireLabels_dropDot hwritten, hwritten] at hquery'
  -- Both are what the transport returns for one and the same message.
  rw [← hechoes.send (.udp (.v4 ⟨0, 0, 0, 0⟩)) 0 _ _ _ 0 world hquery,
    ← hechoes.send (.udp (.v4 ⟨0, 0, 0, 0⟩)) 0 _ _ _ 0 world hquery']
  rfl

/-- Questions with the same cache key have the same answer. -/
theorem answer_congr (hechoes : client.environment.Echoes reply) (world : σ) {key : Octets}
    (hcoded : question.Coded) (hcoded' : question'.Coded)
    (hkey : question.cacheKey = .ok key) (hkey' : question'.cacheKey = .ok key) :
    client.answer reply question = client.answer reply question' := by
  obtain ⟨hlabels, htype, hclass⟩ := Question.cacheKey_injective hkey hkey'
  have hwritten := Question.checkAll_of_cacheKey hkey
  have hwritten' := Question.checkAll_of_cacheKey hkey'
  have hnames := Name.fold_dropDot_eq_iff.mpr hlabels
  have htypes : question.type = question'.type := by rw [← hcoded.1, htype, hcoded'.1]
  have hclasses : question.recordClass = question'.recordClass := by
    rw [← hcoded.2, hclass, hcoded'.2]
  have hsame : reply { question with name := question.name.dropDot }
      = reply { question' with name := question'.name.dropDot } := by
    refine hechoes.same _ _ ?_
    simp [Question.sameAs, Name.sameAs_iff, hnames, htypes, hclasses]
  unfold answer
  rw [told_of_written reply hwritten, told_of_written reply hwritten',
    reply_dropDot hechoes world hwritten, reply_dropDot hechoes world hwritten', hsame]

/-! ### Resolving with a cache -/

variable (client reply) in
/-- A cache in which every reply says what the client is told. -/
structure Recalls (cache : Cache) : Prop where
  valid : cache.entries.root.Valid []
  found : ∀ key message, cache.entries.find? key = some message →
    ∀ question, question.Coded → Cache.key? question = some key →
      client.answer reply question = .ok message.content

variable (client reply) in
/-- A session without a cache, or with one that recalls what the client is told. -/
def Faithful (session : Session σ) : Prop :=
  ∀ cache, session.cache = some cache → client.Recalls reply cache

theorem recalls_empty (minTtl maxTtl : UInt32) : client.Recalls reply (.empty minTtl maxTtl) where
  valid := Trie.Node.valid_root
  found key message hfind := by
    rw [Cache.find?_empty] at hfind
    exact absurd hfind (by simp)

/-- The cache is only looked at, and what is found there is the answer. -/
theorem look_spec {session : Session σ} (hfaithful : client.Faithful reply session)
    (hcoded : question.Coded) :
    client.Faithful reply (client.look question session).2
      ∧ ∀ message, (client.look question session).1 = some message →
          client.answer reply question = .ok message.content := by
  unfold look
  cases hcache : session.cache with
  | none => exact ⟨hfaithful, by simp⟩
  | some cache =>
    have hrecalls := hfaithful cache hcache
    obtain ⟨hfound, hleaves⟩ :=
      Cache.leaves_get hrecalls.valid (client.environment.clock session.world).1 question
    constructor
    · intro other hother
      obtain rfl : (cache.get (client.environment.clock session.world).1 question).2 = other :=
        Option.some.inj hother
      refine ⟨hleaves.valid, fun key message hfind => hrecalls.found key message ?_⟩
      rw [hleaves.find] at hfind
      split at hfind
      · exact (Option.filter_eq_some_iff.mp hfind).1
      · exact hfind
    · intro message hmessage
      change (cache.get (client.environment.clock session.world).1 question).1 = _ at hmessage
      rw [hfound] at hmessage
      obtain ⟨key, hkey, hfind⟩ :=
        Option.bind_eq_some_iff.mp (Option.filter_eq_some_iff.mp hmessage).1
      exact hrecalls.found key message hfind question hcoded hkey

/-- Storing the answer to a question under its key keeps the cache faithful. -/
theorem Recalls.insert (hechoes : client.environment.Echoes reply) (world : σ) {cache : Cache}
    (h : client.Recalls reply cache) (hcoded : question.Coded) {response : Message}
    (hanswer : client.answer reply question = .ok response.content) (now purgeTime : Instant) :
    client.Recalls reply (cache.insert now question response purgeTime) := by
  by_cases hrecords : response.lifetimeRecords = []
  · rw [Cache.insert_eq_self (Or.inl hrecords)]
    exact h
  cases hkey : Cache.key? question with
  | none =>
    rw [Cache.insert_eq_self (Or.inr hkey)]
    exact h
  | some under =>
    obtain ⟨due, hleaves⟩ := Cache.leaves_insert h.valid hkey hrecords now purgeTime
    refine ⟨hleaves.valid, fun key message hfind other hother hotherKey => ?_⟩
    rw [hleaves.find] at hfind
    have hheld := (Option.filter_eq_some_iff.mp hfind).1
    split at hheld
    · next hunder =>
      subst hunder
      obtain rfl := Option.some.inj hheld
      rw [Message.content_stored, ← hanswer]
      obtain ⟨octets, hoctets, rfl⟩ := Cache.key?_eq_some_iff.mp hkey
      obtain ⟨octets', hoctets', heq⟩ := Cache.key?_eq_some_iff.mp hotherKey
      obtain rfl := Array.toList_inj.mp heq
      exact answer_congr hechoes world hother hcoded hoctets' hoctets
    · exact h.found key message hheld other hother hotherKey

/-- Keeping a reply that is the answer keeps the cache faithful. -/
theorem faithful_kept (hechoes : client.environment.Echoes reply) {session : Session σ}
    (hfaithful : client.Faithful reply session) (hcoded : question.Coded) {response : Message}
    (hanswer : client.answer reply question = .ok response.content) :
    client.Faithful reply (client.kept question response session) := by
  unfold kept
  cases hcache : session.cache with
  | none => exact hfaithful
  | some cache =>
    by_cases hcacheable : isCacheable response = true
    · simp only [if_pos hcacheable]
      rintro _ ⟨⟩
      exact (hfaithful cache hcache).insert hechoes session.world hcoded hanswer _ _
    · simp only [if_neg hcacheable]
      exact hfaithful

/-- Resolving a question comes to the answer, with and without a cache. -/
theorem resolve_answer (hechoes : client.environment.Echoes reply)
    (halike : ∀ question octets, reply question = .ok octets → ReadsAlike octets)
    {session : Session σ} (hfaithful : client.Faithful reply session) (hcoded : question.Coded) :
    (outcome (client.resolve question) session).map Message.content = client.answer reply question
      ∧ client.Faithful reply (left (client.resolve question) session) := by
  obtain ⟨hfaithful', hfound⟩ := look_spec hfaithful hcoded
  have hrun := client.resolve_apply question session
  cases hlook : client.look question session with
  | mk found looked =>
    rw [hlook] at hrun hfaithful' hfound
    cases found with
    | some response =>
      have hend : client.resolve question session = finish (.ok response) looked := hrun
      rw [outcome_of_apply hend, left_of_apply hend]
      exact ⟨(hfound response rfl).symm, hfaithful'⟩
    | none =>
      let ask := client.queryServers client.servers question client.settings.recursionDesired
      have hasked : client.Faithful reply (left ask looked) := fun cache hcache =>
        hfaithful' cache (queryServers_cache _ _ _ looked ▸ hcache)
      have hanswer := queryServers_answer hechoes halike question looked
      cases hask : client.queryServers client.servers question client.settings.recursionDesired
          looked with
      | error error session' =>
        have hend : client.resolve question session = finish (.error error) session' := by
          simp only [hask] at hrun
          exact hrun
        have haskEnd : ask looked = finish (.error error) session' := hask
        rw [outcome_of_apply haskEnd] at hanswer
        rw [left_of_apply haskEnd] at hasked
        rw [outcome_of_apply hend, left_of_apply hend]
        exact ⟨hanswer, hasked⟩
      | ok response session' =>
        have hend : client.resolve question session
            = finish (.ok response) (client.kept question response session') := by
          simp only [hask] at hrun
          exact hrun
        have haskEnd : ask looked = finish (.ok response) session' := hask
        rw [outcome_of_apply haskEnd] at hanswer
        rw [left_of_apply haskEnd] at hasked
        rw [outcome_of_apply hend, left_of_apply hend]
        exact ⟨hanswer, faithful_kept hechoes hasked hcoded hanswer.symm⟩

end Client

end DnsResolver
