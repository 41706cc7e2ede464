import DnsResolver.Cache

namespace DnsResolver

/-!
# Sessions of a client

A client works in an environment: the network, a source of random numbers and a clock,
each of which may depend on everything that happened before. The environment's own state
is a value that the client only hands on. A session is that state together with the
client's cache and a log of what the client did; a step that fails keeps what happened up
to the failure.
-/

/-- What a client works with. `σ` is the state behind it. -/
structure Environment (σ : Type) where
  /-- Sends a message to a server and waits for the reply, at most the given number of
      milliseconds. -/
  send : NameServer → Octets → Nat → σ → Except Error Octets × σ
  /-- Draws a message identifier. -/
  drawId : σ → UInt16 × σ
  /-- Draws an index for a bound that is not zero. The index is meant to be below the bound, which
      `Environment.DrawsBelow` states. -/
  drawIndex : Nat → σ → Nat × σ
  /-- Reads the clock. -/
  clock : σ → Instant × σ

/-- That the indices that an environment draws are below their bounds. A client goes round its
    servers from any index; the range keeps its sums with the numbers of attempts small. -/
def Environment.DrawsBelow {σ : Type} (environment : Environment σ) : Prop :=
  ∀ bound world, 0 < bound → (environment.drawIndex bound world).1 < bound

/-- How a client asks. -/
structure Settings where
  /-- Passes over the list of servers before giving up. -/
  retries : Nat := 2
  /-- How long a reply is waited for, in milliseconds. -/
  timeout : Nat := 2000
  recursionDesired : Bool := true
  /-- Whether a truncated reply over UDP is asked for again over TCP. -/
  tcpFallback : Bool := true

/-- A client: its servers, its settings and its environment. -/
structure Client (σ : Type) where
  servers : List NameServer
  settings : Settings
  environment : Environment σ

/-- Something that a client did. -/
inductive Event where
  /-- Began to ask the servers of a list, from the one at an index on. -/
  | asked (servers : List NameServer) (question : Question) (recursionDesired : Bool) (first : Nat)
  /-- Drew the identifier of one attempt. -/
  | drew (id : UInt16)
  /-- Sent a message to a server, and what came back. -/
  | sent (server : NameServer) (message : Octets) (reply : Except Error Octets)

/-- Where a client stands. -/
structure Session (σ : Type) where
  world : σ
  /-- The cache, if the client has one. -/
  cache : Option Cache := none
  /-- What the client did, the latest first. -/
  log : List Event := []

/-- A step of a client. -/
abbrev Task (σ : Type) := EStateM Error (Session σ)

namespace Task

variable {σ α : Type}

/-- Runs a step and hands on its error as a value. What the step did stays done. -/
def attempt (task : Task σ α) : Task σ (Except Error α) := fun session =>
  match task session with
  | .ok value session => .ok (.ok value) session
  | .error error session => .ok (.error error) session

/-- A value, or the failure in its place. -/
def ofExcept : Except Error α → Task σ α
  | .ok value => pure value
  | .error error => throw error

/-- A value, or the format error in its place. -/
def ofFormat : Except FormatError α → Task σ α
  | .ok value => pure value
  | .error error => throw (.format error)

/-- Adds an event to the log. -/
def note (event : Event) : Task σ Unit :=
  modify fun session => { session with log := event :: session.log }

end Task

namespace Client

variable {σ : Type}

/-- Sends a message and waits for the reply. -/
def send (client : Client σ) (server : NameServer) (message : Octets) : Task σ Octets := do
  let session ← get
  let (reply, world) :=
    client.environment.send server message client.settings.timeout session.world
  set { session with world := world }
  Task.note (.sent server message reply)
  Task.ofExcept reply

/-- Draws a message identifier. -/
def drawId (client : Client σ) : Task σ UInt16 := do
  let session ← get
  let (id, world) := client.environment.drawId session.world
  set { session with world := world }
  Task.note (.drew id)
  return id

/-- Draws an index below a bound. -/
def drawIndex (client : Client σ) (bound : Nat) : Task σ Nat := do
  let session ← get
  let (index, world) := client.environment.drawIndex bound session.world
  set { session with world := world }
  return index

/-- Reads the clock. -/
def readClock (client : Client σ) : Task σ Instant := do
  let session ← get
  let (now, world) := client.environment.clock session.world
  set { session with world := world }
  return now

end Client

end DnsResolver
