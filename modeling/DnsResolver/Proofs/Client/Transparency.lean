import DnsResolver.Client.Lookup
import DnsResolver.Proofs.Client.Answers

namespace DnsResolver

open DnsResolver.Task
open Message (numbered ReadsAlike)

/-!
# The cache of a client cannot be seen

A client with a cache asks less often than one without, and is told the same. The two are
compared step by step: steps that are *alike* end with the same, up to what a view of it shows,
from any two sessions whose caches, if they have any, are faithful.

* `Client.Alike` — steps that end with the same, and their sequences.
* `Client.chaseFrom_alike` — chains of CNAME records, of which the cache may hold any part.
* `Client.lookUps_transparent` — lookups one after the other, with and without a cache.
-/

namespace Task

variable {σ α β : Type}

theorem outcome_bind (task : Task σ α) (next : α → Task σ β) (session : Session σ) :
    outcome (task >>= next) session
      = (outcome task session).bind fun value => outcome (next value) (left task session) := by
  unfold outcome left
  rw [bind_apply]
  cases task session <;> rfl

theorem left_bind (task : Task σ α) (next : α → Task σ β) (session : Session σ) :
    left (task >>= next) session
      = match outcome task session with
        | .ok value => left (next value) (left task session)
        | .error _ => left task session := by
  unfold outcome left
  rw [bind_apply]
  cases task session <;> rfl

end Task

namespace Client

variable {σ α β γ δ : Type} (client : Client σ) (reply : Question → Except Error Octets)

/-- Steps that end with the same up to a view, and stay faithful, whatever faithful sessions they
    start from. -/
def Alike (view : α → β) (task task' : Task σ α) : Prop :=
  ∀ session session', client.Faithful reply session → client.Faithful reply session' →
    (outcome task session).map view = (outcome task' session').map view
      ∧ client.Faithful reply (left task session) ∧ client.Faithful reply (left task' session')

section Alike

variable {client reply} {view : α → β} {view' : γ → δ} {task task' : Task σ α}

theorem alike_ofExcept {value value' : Except Error α} (h : value.map view = value'.map view) :
    client.Alike reply view (Task.ofExcept value) (Task.ofExcept value') := by
  intro session session' hfaithful hfaithful'
  have hend := ofExcept_apply value session
  have hend' := ofExcept_apply value' session'
  rw [outcome_of_apply hend, outcome_of_apply hend', left_of_apply hend, left_of_apply hend']
  exact ⟨h, hfaithful, hfaithful'⟩

theorem alike_pure {value value' : α} (h : view value = view value') :
    client.Alike reply view (pure value) (pure value') :=
  alike_ofExcept
    (show (Except.ok value : Except Error α).map view = Except.map view (.ok value') from
      congrArg Except.ok h)

theorem alike_throw (error : Error) :
    client.Alike reply view (throw error : Task σ α) (throw error) :=
  alike_ofExcept (rfl : (Except.error error : Except Error α).map view = _)

/-- Alike steps in sequence. What the next ones are may depend on all of the values, but only as
    far as the view shows them does it have to be the same. -/
theorem Alike.bind {next next' : α → Task σ γ} (h : client.Alike reply view task task')
    (hnext : ∀ value value', view value = view value' →
      client.Alike reply view' (next value) (next' value')) :
    client.Alike reply view' (task >>= next) (task' >>= next') := by
  intro session session' hfaithful hfaithful'
  obtain ⟨hsame, hleft, hleft'⟩ := h session session' hfaithful hfaithful'
  rw [outcome_bind, outcome_bind, left_bind, left_bind]
  cases houtcome : outcome task session with
  | error error =>
    cases houtcome' : outcome task' session' with
    | error error' =>
      rw [houtcome, houtcome'] at hsame
      obtain rfl := Except.error.inj hsame
      exact ⟨rfl, hleft, hleft'⟩
    | ok value' =>
      rw [houtcome, houtcome'] at hsame
      exact absurd hsame (by simp [Except.map])
  | ok value =>
    cases houtcome' : outcome task' session' with
    | error error' =>
      rw [houtcome, houtcome'] at hsame
      exact absurd hsame (by simp [Except.map])
    | ok value' =>
      rw [houtcome, houtcome'] at hsame
      exact hnext value value' (Except.ok.inj hsame) _ _ hleft hleft'

theorem Alike.map {f f' : α → γ} (h : client.Alike reply view task task')
    (hf : ∀ value value', view value = view value' → view' (f value) = view' (f' value')) :
    client.Alike reply view' (f <$> task) (f' <$> task') := by
  rw [map_eq_pure_bind, map_eq_pure_bind]
  exact h.bind fun value value' hvalue => alike_pure (hf value value' hvalue)

end Alike

end Client

/-! ### Following an answer -/

namespace Followed

/-- What an answer says, lifetimes apart. -/
def content (followed : Followed) : Followed :=
  { followed with records := followed.records.map Record.content }

/-- Lifetimes play no part in how an answer is followed. -/
theorem go_content (type : RecordType) (target : Name) (passed : List Name)
    (found answer : List Record) :
    go type target passed (found.map Record.content) (answer.map Record.content)
      = (go type target passed found answer).map content := by
  induction answer generalizing target passed found with
  | nil => simp [go, Except.map, content]
  | cons record answer ih =>
    obtain ⟨name, own, recordClass, ttl, expires, data⟩ := record
    -- The record is collected or not, and the target moves or not; lifetimes decide neither.
    have hkeep : go type target passed
        (if own = type then ⟨name, own, recordClass, 0, none, data⟩ :: found.map Record.content
          else found.map Record.content) (answer.map Record.content)
        = (go type target passed
          (if own = type then ⟨name, own, recordClass, ttl, expires, data⟩ :: found else found)
          answer).map content := by
      rw [← ih]
      split <;> rfl
    have hcontent : Record.content ⟨name, own, recordClass, ttl, expires, data⟩
        = ⟨name, own, recordClass, 0, none, data⟩ := rfl
    rw [List.map_cons, hcontent, go, go]
    dsimp only
    by_cases hname : name.sameAs target = true
    · rw [if_pos hname, if_pos hname]
      cases data with
      | cname next =>
        by_cases hcname : type = .cname
        · simp only [if_pos hcname]
          exact hkeep
        · simp only [if_neg hcname]
          by_cases hpassed : passed.contains next.dropDots.fold = true
          · rw [if_pos hpassed, if_pos hpassed]
            rfl
          · rw [if_neg hpassed, if_neg hpassed]
            exact ih _ _ _
      | _ => exact hkeep
    · rw [if_neg hname, if_neg hname]
      exact ih _ _ _

theorem ofAnswer_content (answer : List Record) (domain : Name) (type : RecordType) :
    ofAnswer (answer.map Record.content) domain type
      = (ofAnswer answer domain type).map content :=
  go_content type domain [domain.fold] [] answer

/-- Answers with the same content are followed to the same end. -/
theorem ofAnswer_congr {answer answer' : List Record}
    (h : answer.map Record.content = answer'.map Record.content) (domain : Name)
    (type : RecordType) :
    (ofAnswer answer domain type).map content = (ofAnswer answer' domain type).map content := by
  rw [← ofAnswer_content, ← ofAnswer_content, h]

end Followed

/-! ### Lookups -/

namespace Client

/-- Replies with the same content have the same code. -/
theorem check_congr {response response' : Message} (h : response.content = response'.content)
    (domain : Name) : response.check domain = response'.check domain := by
  have hrcode : response.header.rcode = response'.header.rcode :=
    congrArg (fun message => message.header.rcode) h
  unfold Message.check
  rw [hrcode]

theorem addresses_content (records : List Record) :
    addresses (records.map Record.content) = addresses records := by
  simp only [addresses, List.filterMap_map]
  rfl

theorem exchanges_content (records : List Record) :
    (records.map Record.content).filterMap exchange? = records.filterMap exchange? := by
  rw [List.filterMap_map]
  rfl

theorem targets_content (owner : Name) (records : List Record) :
    (records.map Record.content).findSome? (target? owner) = records.findSome? (target? owner) := by
  rw [List.findSome?_map]
  rfl

variable {σ : Type} {client : Client σ} {reply : Question → Except Error Octets}
  (hechoes : client.environment.Echoes reply)
  (halike : ∀ question octets, reply question = .ok octets → ReadsAlike octets)
include hechoes halike

theorem resolve_alike {question : Question} (hcoded : question.Coded) :
    client.Alike reply Message.content (client.resolve question) (client.resolve question) := by
  intro session session' hfaithful hfaithful'
  obtain ⟨hanswer, hleft⟩ := resolve_answer hechoes halike hfaithful hcoded
  obtain ⟨hanswer', hleft'⟩ := resolve_answer hechoes halike hfaithful' hcoded
  exact ⟨hanswer.trans hanswer'.symm, hleft, hleft'⟩

theorem chaseFrom_alike {type : RecordType} (htype : RecordType.ofCode type.code = type)
    (hops : Nat) (domain : Name) :
    client.Alike reply (List.map Record.content) (client.chaseFrom type hops domain)
      (client.chaseFrom type hops domain) := by
  induction hops generalizing domain with
  | zero => exact alike_throw _
  | succ hops ih =>
    refine (resolve_alike hechoes halike ⟨htype, rfl⟩).bind fun response response' hresponse => ?_
    have hanswers : response.answers.map Record.content = response'.answers.map Record.content :=
      congrArg Message.answers hresponse
    refine (alike_ofExcept (congrArg (Except.map id) (check_congr hresponse domain))).bind fun _ _ _ => ?_
    refine (alike_ofExcept (Followed.ofAnswer_congr hanswers domain type)).bind
      fun followed followed' hfollowed => ?_
    have hrecords : followed.records.map Record.content = followed'.records.map Record.content :=
      congrArg Followed.records hfollowed
    have htarget : followed.target = followed'.target := congrArg (·.target) hfollowed
    have hempty : followed.records.isEmpty = followed'.records.isEmpty := by
      simpa using congrArg List.isEmpty hrecords
    rw [hempty, htarget]
    split
    · exact alike_pure hrecords
    · exact ih _

theorem resolveIp_alike (domain : Name) (preferIpv6 : Bool) :
    client.Alike reply id (client.resolveIp domain preferIpv6)
      (client.resolveIp domain preferIpv6) := by
  have hlooked : ∀ {type}, RecordType.ofCode type.code = type →
      client.Alike reply id (addresses <$> client.chase domain type)
        (addresses <$> client.chase domain type) := fun htype =>
    (chaseFrom_alike hechoes halike htype maxHops domain.dropDots).map fun records records' h => by
      rw [← addresses_content records, h, addresses_content]
  have hrest : ∀ preferred : List Ip, client.Alike reply id
      (if preferred.isEmpty then addresses <$> client.chase domain .a else pure preferred)
      (if preferred.isEmpty then addresses <$> client.chase domain .a else pure preferred) := by
    intro preferred
    split
    · exact hlooked rfl
    · exact alike_pure rfl
  cases preferIpv6 with
  | false => exact hrest []
  | true =>
    refine (hlooked rfl).bind fun preferred preferred' hsame => ?_
    obtain rfl : preferred = preferred' := hsame
    exact hrest preferred

theorem resolveMx_alike (domain : Name) :
    client.Alike reply id (client.resolveMx domain) (client.resolveMx domain) := by
  refine (chaseFrom_alike hechoes halike rfl maxHops domain.dropDots).bind
    fun records records' h => alike_pure ?_
  rw [← exchanges_content records, h, exchanges_content]

theorem resolvePtr_alike (ip : Ip) :
    client.Alike reply id (client.resolvePtr ip) (client.resolvePtr ip) := by
  refine (resolve_alike hechoes halike ⟨rfl, rfl⟩).bind fun response response' hresponse => ?_
  have hanswers : response.answers.map Record.content = response'.answers.map Record.content :=
    congrArg Message.answers hresponse
  refine (alike_ofExcept (congrArg (Except.map id) (check_congr hresponse _))).bind
    fun _ _ _ => alike_pure ?_
  rw [← targets_content _ response.answers, hanswers, targets_content]

end Client

/-! ### Sequences of lookups -/

/-- Something that a client can look up. -/
inductive Lookup where
  | ip (domain : Name) (preferIpv6 : Bool)
  | mx (domain : Name)
  | ptr (ip : Ip)

/-- What was found. -/
inductive Found where
  | addresses (addresses : List Ip)
  | exchanges (exchanges : List MailExchange)
  | name (name : Option Name)
  deriving DecidableEq

namespace Client

variable {σ : Type} (client : Client σ)

/-- One lookup. -/
def lookUp : Lookup → Task σ Found
  | .ip domain preferIpv6 => Found.addresses <$> client.resolveIp domain preferIpv6
  | .mx domain => Found.exchanges <$> client.resolveMx domain
  | .ptr ip => Found.name <$> client.resolvePtr ip

/-- The results of lookups one after the other. -/
def lookUps : List Lookup → Session σ → List (Except Error Found)
  | [], _ => []
  | lookup :: lookups, session =>
    outcome (client.lookUp lookup) session :: lookUps lookups (left (client.lookUp lookup) session)

variable {client} {reply : Question → Except Error Octets}

theorem lookUp_alike (hechoes : client.environment.Echoes reply)
    (halike : ∀ question octets, reply question = .ok octets → ReadsAlike octets)
    (lookup : Lookup) : client.Alike reply id (client.lookUp lookup) (client.lookUp lookup) := by
  cases lookup with
  | ip domain preferIpv6 =>
    exact (resolveIp_alike hechoes halike domain preferIpv6).map fun _ _ h => congrArg Found.addresses h
  | mx domain => exact (resolveMx_alike hechoes halike domain).map fun _ _ h => congrArg Found.exchanges h
  | ptr ip => exact (resolvePtr_alike hechoes halike ip).map fun _ _ h => congrArg Found.name h

/-- From faithful sessions, the same lookups have the same results. -/
theorem lookUps_congr (hechoes : client.environment.Echoes reply)
    (halike : ∀ question octets, reply question = .ok octets → ReadsAlike octets)
    (lookups : List Lookup) {session session' : Session σ} (h : client.Faithful reply session)
    (h' : client.Faithful reply session') :
    client.lookUps lookups session = client.lookUps lookups session' := by
  induction lookups generalizing session session' with
  | nil => rfl
  | cons lookup lookups ih =>
    obtain ⟨hsame, hleft, hleft'⟩ := lookUp_alike hechoes halike lookup session session' h h'
    have hview : ∀ result : Except Error Found, result.map id = result := by
      rintro (_ | _) <;> rfl
    rw [hview, hview] at hsame
    rw [lookUps, lookUps, hsame, ih hleft hleft']

/-- **The cache cannot be seen.** In front of a transport that answers by the question, with
    replies that are read in the same way under every identifier, a client with a cache has the
    results of one without, whatever it looks up, whatever the bounds of its cache are, and
    whatever the clock and the random numbers are in either case. -/
theorem lookUps_transparent (client : Client σ) (reply : Question → Except Error Octets)
    (hechoes : client.environment.Echoes reply)
    (halike : ∀ question octets, reply question = .ok octets → ReadsAlike octets)
    (minTtl maxTtl : UInt32) (world world' : σ) (lookups : List Lookup) :
    client.lookUps lookups { world := world, cache := some (.empty minTtl maxTtl) }
      = client.lookUps lookups { world := world' } := by
  refine lookUps_congr hechoes halike lookups (fun cache hcache => ?_) (fun cache hcache => ?_)
  · obtain rfl := Option.some.inj hcache
    exact recalls_empty minTtl maxTtl
  · exact absurd hcache (by simp)

end Client

/-! ### Servers that repeat themselves -/

namespace Echo

/-- A client whose servers answer every query with the same octets under its identifier. It counts
    its identifiers, and its clock stands still. -/
def client (octets : Octets) : Client UInt16 where
  servers := [.udp (.v4 ⟨192, 0, 2, 1⟩)]
  settings := {}
  environment :=
    { send := fun _ message _ id => (.ok (numbered (Client.idOf message) octets), id)
      drawId := fun id => (id, id + 1)
      drawIndex := fun _ id => (0, id)
      clock := fun id => (0, id) }

theorem echoes (octets : Octets) : (client octets).environment.Echoes fun _ => .ok octets where
  same _ _ _ := rfl
  send server id question recursionDesired message timeout world hquery := by
    show Except.ok (numbered (Client.idOf message) octets) = _
    rw [Client.idOf_encodeQuery hquery]
    rfl

/-- A reply for the name `x` with an address, and any two octets in front. -/
def addressedUnder (high low : UInt8) : Octets :=
  #[high, low, 0x80, 0, 0, 0, 0, 1, 0, 0, 0, 0, 1, 0x78, 0, 0, 1, 0, 1, 0, 0, 0, 60, 0, 4, 192, 0, 2,
    1]

/-- What the reply says. -/
def address (id : UInt16) : Message where
  header := { id := id, isResponse := true, answers := 1 }
  answers := [⟨⟨['x']⟩, .a, .internet, 60, none, .a ⟨192, 0, 2, 1⟩⟩]

/-- The first two octets are looked at once, for the identifier. -/
theorem decode_addressedUnder (high low : UInt8) :
    Message.decode (addressedUnder high low) = .ok (address (Wire.word high low)) := by
  have hid : Reader.word (addressedUnder high low) 0 = .ok (Wire.word high low) 2 := rfl
  have hheader : Header.read (addressedUnder high low) 0
      = .ok (address (Wire.word high low)).header 12 := by
    rw [Header.read, Reader.bind_apply, hid]
    generalize Wire.word high low = id
    cbv
  rw [Message.decode, Reader.run, Message.read, Reader.bind_apply, hheader]
  generalize Wire.word high low = id
  cbv

theorem readsAlike_addressed : ReadsAlike (addressedUnder 0 0) := by
  intro id
  have hnumbered : ∀ id, Message.decode (numbered id (addressedUnder 0 0)) = .ok (address id) :=
    fun id => (decode_addressedUnder _ _).trans (by rw [Wire.word_wordOctets])
  rw [hnumbered, hnumbered]
  rfl

/-- A reply for the name `x` whose mail exchange is a pointer to the identifier. -/
def pointing : Octets :=
  #[0, 0, 0, 0, 0, 0, 0, 1, 0, 0, 0, 0, 1, 0x78, 0, 0, 15, 0, 1, 0, 0, 0, 60, 0, 4, 0, 10, 0xC0, 0]

end Echo

/-- A reply that reads alike is told from the cache as it is told from the servers. -/
theorem Client.lookUps_transparent_address :
    (Echo.client (Echo.addressedUnder 0 0)).lookUps [.ip ⟨['x']⟩ false, .ip ⟨['X']⟩ false]
        { world := 1, cache := some (.empty 0 86400) }
      = (Echo.client (Echo.addressedUnder 0 0)).lookUps [.ip ⟨['x']⟩ false, .ip ⟨['X']⟩ false]
        { world := 1 } :=
  lookUps_transparent _ _ (Echo.echoes _)
    (fun _ _ hreply => Except.ok.inj hreply ▸ Echo.readsAlike_addressed) 0 86400 1 1 _

/-- Identifiers must not be read as names. Under the identifier `0x0161` the pointer leads to the
    name `a`, and under the next one to `b`: a client with a cache is told the first name again,
    and one without is told the second. -/
theorem Client.lookUps_pointing :
    ¬ ∀ (client : Client UInt16) (reply : Question → Except Error Octets),
      client.environment.Echoes reply →
      (∀ world world', (client.environment.clock world).1 = (client.environment.clock world').1) →
      ∀ minTtl maxTtl world lookups,
        client.lookUps lookups { world := world, cache := some (.empty minTtl maxTtl) }
          = client.lookUps lookups { world := world } := by
  intro h
  have hsame := h (Echo.client Echo.pointing) _ (Echo.echoes _) (fun _ _ => rfl) 0 86400 0x0161
    [.mx ⟨['x']⟩, .mx ⟨['x']⟩]
  have hcached : (Echo.client Echo.pointing).lookUps [.mx ⟨['x']⟩, .mx ⟨['x']⟩]
        { world := 0x0161, cache := some (.empty 0 86400) }
      = [.ok (.exchanges [⟨10, ⟨['a']⟩⟩]), .ok (.exchanges [⟨10, ⟨['a']⟩⟩])] := by
    cbv
  have huncached : (Echo.client Echo.pointing).lookUps [.mx ⟨['x']⟩, .mx ⟨['x']⟩] { world := 0x0161 }
      = [.ok (.exchanges [⟨10, ⟨['a']⟩⟩]), .ok (.exchanges [⟨10, ⟨['b']⟩⟩])] := by
    cbv
  rw [hcached, huncached] at hsame
  exact absurd hsame (by decide)

end DnsResolver
