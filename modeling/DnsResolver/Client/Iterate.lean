import DnsResolver.Client.Lookup
import DnsResolver.RootServer

namespace DnsResolver

/-!
# Walking delegations

An iterative resolution starts from given servers, usually the roots, and follows
referrals: replies without an answer that name servers further down. Servers are contacted
at the addresses that came along with the referral; without any, their names are looked up
from the same start. Every round of asking counts as a hop, nested lookups included, and
all of them share one budget.
-/

namespace Message

/-- The host in an NS record. -/
def host? (record : Record) : Option Name :=
  match record.data with
  | .ns host => some host
  | _ => none

/-- The servers that a reply refers to: none unless it is free of errors and of answers. -/
def referral (response : Message) : List Name :=
  if !response.answers.isEmpty || response.header.rcode != .noError then []
  else response.authorities.filterMap host?

/-- The server at the address that a record gives for a host. -/
def serverFor? (host : Name) (record : Record) : Option NameServer :=
  if record.name.sameAs host then
    record.data.address?.map fun ip => (NameServer.udp ip).withHost host
  else
    none

/-- The servers at the addresses that records give for a host. -/
def serversFor (records : List Record) (host : Name) : List NameServer :=
  records.filterMap (serverFor? host)

/-- Whether a server is contacted over IPv4. -/
def isIpv4 (server : NameServer) : Bool :=
  match server.endpoint with
  | .v4 .. => true
  | .v6 .. => false

/-- The servers whose addresses came along with a referral, host by host. IPv6 addresses are
    used only when they are preferred, and then before all IPv4 addresses. -/
def glue (response : Message) (hosts : List Name) (preferIpv6 : Bool) : List NameServer :=
  let servers := hosts.flatMap (serversFor response.additionals)
  let (v4, v6) := servers.partition isIpv4
  if preferIpv6 then v6 ++ v4 else v4

end Message

/-- Where a walk stands: the session and the hops it has used. -/
structure Walk (σ : Type) where
  session : Session σ
  hops : Nat := 0

/-- A step of a walk. -/
abbrev WalkTask (σ : Type) := EStateM Error (Walk σ)

namespace WalkTask

variable {σ α : Type}

/-- A step of the session as a step of the walk. -/
def lift (task : Task σ α) : WalkTask σ α := fun walk =>
  match task walk.session with
  | .ok value session => .ok value { walk with session := session }
  | .error error session => .error error { walk with session := session }

/-- Uses one hop. -/
def spend : WalkTask σ Unit := do
  let walk ← get
  if maxHops ≤ walk.hops then throw (.hopCountExceeded maxHops)
  else set { walk with hops := walk.hops + 1 }

/-- Runs a step and hands on its error as a value, unless the hops are used up. -/
def attempt (task : WalkTask σ α) : WalkTask σ (Except Error α) := fun walk =>
  match task walk with
  | .ok value walk => .ok (.ok value) walk
  | .error (.hopCountExceeded hops) walk => .error (.hopCountExceeded hops) walk
  | .error error walk => .ok (.error error) walk

end WalkTask

namespace Client

variable {σ : Type}

/-- Looks up hosts one after another until one has an address. -/
def resolveHosts (lookUp : Question → WalkTask σ Message) (preferIpv6 : Bool) :
    List Name → WalkTask σ (List NameServer)
  | [] => return []
  | host :: rest => do
    let question := Question.about host (if preferIpv6 then .aaaa else .a)
    match ← WalkTask.attempt (lookUp question) with
    | .error _ => resolveHosts lookUp preferIpv6 rest
    | .ok response =>
      let servers := Message.serversFor response.answers host
      if servers.isEmpty then resolveHosts lookUp preferIpv6 rest else return servers

/-- Asks `servers`, and the servers they refer to. A chain of rounds and nested lookups that
    is longer than `depth` has used up its hops. -/
def walkFrom (client : Client σ) (start : List NameServer) (preferIpv6 : Bool) :
    Nat → List NameServer → Question → WalkTask σ Message
  | 0, _, _ => throw (.hopCountExceeded maxHops)
  | depth + 1, servers, question => do
    WalkTask.spend
    let response ← WalkTask.lift (client.queryServers servers question false)
    let hosts := response.referral
    if hosts.isEmpty then return response
    let glue := response.glue hosts preferIpv6
    let next ←
      if glue.isEmpty then
        resolveHosts (walkFrom client start preferIpv6 depth start) preferIpv6 hosts
      else
        pure glue
    if next.isEmpty then return response
    walkFrom client start preferIpv6 depth next question

/-- Resolves a question by following referrals from given servers. The client's own servers,
    its cache and its recursion flag play no part. -/
def resolveVia (client : Client σ) (start : List NameServer) (question : Question)
    (preferIpv6 : Bool) : Task σ Message := fun session =>
  match client.walkFrom start preferIpv6 maxHops start question { session := session } with
  | .ok response walk => .ok response walk.session
  | .error error walk => .error error walk.session

/-- Resolves a question by following referrals from the root servers. -/
def resolveViaRoots (client : Client σ) (question : Question) (preferIpv6 : Bool) :
    Task σ Message :=
  client.resolveVia (RootServer.nameServers preferIpv6) question preferIpv6

end Client

end DnsResolver
