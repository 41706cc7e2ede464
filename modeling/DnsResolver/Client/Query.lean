import DnsResolver.Client.Session

namespace DnsResolver

/-!
# Asking name servers

A question goes to the servers of a list in turn, from a random one on, until a reply with
the identifier of its query arrives. Only failures of an exchange lead to the next attempt.
Replies without an error are cached.
-/

namespace Message

/-- Maps the codes of failed replies to errors. -/
def check (response : Message) (domain : Name) : Except Error Unit :=
  match response.header.rcode with
  | .noError => .ok ()
  | .nameError => .error (.nameError domain)
  | rcode => .error (.serverFailure rcode)

end Message

namespace Client

variable {σ : Type}

/-- The octets of a query. It has no records, so no instant matters. -/
def encodeQuery (id : UInt16) (question : Question) (recursionDesired : Bool) :
    Except FormatError Octets :=
  (Message.query id question recursionDesired).encode 0

/-- Sends a query once and reads the reply, which has to carry its identifier. -/
def sendOnce (client : Client σ) (server : NameServer) (message : Octets) (id : UInt16) :
    Task σ Message := do
  let octets ← client.send server message
  let response ← Task.ofFormat (Message.decode octets)
  if response.header.id = id then
    return { response with origin := some ⟨server, server.protocol, octets.size⟩ }
  else
    throw (.transport (.idMismatch id response.header.id))

/-- Whether a reply has to be asked for again over TCP. -/
def needsTcp (client : Client σ) (server : NameServer) (response : Message) : Bool :=
  response.header.truncated && server.protocol == .udp && client.settings.tcpFallback

/-- One attempt with one server. The same message goes out again over TCP when the reply
    over UDP was truncated. -/
def exchange (client : Client σ) (server : NameServer) (question : Question)
    (recursionDesired : Bool) : Task σ Message := do
  let id ← client.drawId
  let message ← Task.ofFormat (encodeQuery id question recursionDesired)
  let response ← client.sendOnce server message id
  if client.needsTcp server response then
    client.sendOnce (server.withProtocol .tcp) message id
  else
    return response

/-- Makes up to `left` more attempts out of `total`, each with the next server. -/
def attempts (client : Client σ) (servers : List NameServer) (nonempty : 0 < servers.length)
    (question : Question) (recursionDesired : Bool) (total : Nat) (next : Nat) :
    Nat → Task σ Message
  | 0 => throw (.resolutionFailed total)
  | left + 1 => do
    let server := servers.get ⟨next % servers.length, Nat.mod_lt _ nonempty⟩
    match ← Task.attempt (client.exchange server question recursionDesired) with
    | .ok response => return response
    | .error error =>
      if error.isTransport then
        attempts client servers nonempty question recursionDesired total (next + 1) left
      else
        throw error

/-- Asks the servers of a list. -/
def queryServers (client : Client σ) (servers : List NameServer) (question : Question)
    (recursionDesired : Bool) : Task σ Message :=
  if nonempty : 0 < servers.length then do
    let total := max client.settings.retries 1 * servers.length
    let first ← client.drawIndex servers.length
    Task.note (.asked servers question recursionDesired first)
    client.attempts servers nonempty question recursionDesired total first total
  else
    throw .noNameServers

/-! ### The cache -/

/-- The cached reply to a question. Without a cache the clock is not read. -/
def cachedReply (client : Client σ) (question : Question) : Task σ (Option Message) := do
  match (← get).cache with
  | none => return none
  | some cache =>
    let now ← client.readClock
    let (found, cache) := cache.get now question
    modify fun session => { session with cache := some cache }
    return found

/-- Whether a reply may be cached. -/
def isCacheable (response : Message) : Bool :=
  response.header.rcode == .noError && !response.header.truncated

/-- Caches a reply that may be cached. -/
def keepReply (client : Client σ) (question : Question) (response : Message) : Task σ Unit := do
  match (← get).cache with
  | none => return
  | some cache =>
    if isCacheable response then
      let now ← client.readClock
      let purgeTime ← client.readClock
      modify fun session =>
        { session with cache := some (cache.insert now question response purgeTime) }

/-- The reply to a question, from the cache or from the client's servers. -/
def resolve (client : Client σ) (question : Question) : Task σ Message := do
  match ← client.cachedReply question with
  | some response => return response
  | none =>
    let response ←
      client.queryServers client.servers question client.settings.recursionDesired
    client.keepReply question response
    return response

/-- The reply to the question for a name. -/
def resolveName (client : Client σ) (domain : Name) (type : RecordType) : Task σ Message :=
  client.resolve (.about domain type)

end Client

end DnsResolver
