import DnsResolver.Client.Query

namespace DnsResolver

/-!
# Looking up records

A lookup follows CNAME records, first inside one answer and then from answer to answer. A
chain that comes back to a name it has passed, and a chain of too many answers, ends in an
error.
-/

/-- The most queries that one lookup or one walk may need. -/
def maxHops : Nat := 64

/-- What one answer says about a name: the records of the wanted type and the name that the
    chain in it ends with. -/
structure Followed where
  records : List Record
  target : Name

namespace Followed

/-- Goes on through an answer. `target` is the name that the chain has reached, `passed` are
    the names it came by in lower case, and `found` are the records collected so far, in
    reverse order. -/
def go (type : RecordType) (target : Name) (passed : List Name) (found : List Record) :
    List Record → Except Error Followed
  | [] => .ok ⟨found.reverse, target⟩
  | record :: rest =>
    if record.name.sameAs target then
      match record.data with
      | .cname next =>
        if type = .cname then
          go type target passed (if record.type = type then record :: found else found) rest
        else
          let next := next.dropDots
          if passed.contains next.fold then .error (.hopCountExceeded maxHops)
          else go type next (next.fold :: passed) found rest
      | _ => go type target passed (if record.type = type then record :: found else found) rest
    else
      go type target passed found rest

/-- Follows the CNAME records of an answer in the order in which they stand there. -/
def ofAnswer (answer : List Record) (domain : Name) (type : RecordType) :
    Except Error Followed :=
  go type domain [domain.fold] [] answer

end Followed

namespace Client

variable {σ : Type}

/-- Asks for a name, and again whenever the answer only leads to another name, at most
    `hops` times. -/
def chaseFrom (client : Client σ) (type : RecordType) : Nat → Name → Task σ (List Record)
  | 0, _ => throw (.hopCountExceeded maxHops)
  | hops + 1, domain => do
    let response ← client.resolveName domain type
    Task.ofExcept (response.check domain)
    let followed ← Task.ofExcept (Followed.ofAnswer response.answers domain type)
    if !followed.records.isEmpty || followed.target.sameAs domain then
      return followed.records
    else
      chaseFrom client type hops followed.target

/-- The records of a type for a name, at the end of its chain of CNAME records. -/
def chase (client : Client σ) (domain : Name) (type : RecordType) : Task σ (List Record) :=
  client.chaseFrom type maxHops domain.dropDots

/-- The addresses in records. -/
def addresses (records : List Record) : List Ip := records.filterMap (·.data.address?)

/-- The addresses of a name. IPv6 addresses come first when they are preferred, and IPv4
    addresses only when there are none. -/
def resolveIp (client : Client σ) (domain : Name) (preferIpv6 : Bool) : Task σ (List Ip) := do
  let preferred ←
    if preferIpv6 then addresses <$> client.chase domain .aaaa else pure []
  if preferred.isEmpty then
    addresses <$> client.chase domain .a
  else
    return preferred

/-- The mail exchange in a record. -/
def exchange? (record : Record) : Option MailExchange :=
  match record.data with
  | .mx exchange => some exchange
  | _ => none

/-- The mail exchanges of a name, the lowest preference first. -/
def resolveMx (client : Client σ) (domain : Name) : Task σ (List MailExchange) := do
  let records ← client.chase domain .mx
  return MailExchange.sort (records.filterMap exchange?)

/-- The target of a PTR record of a name. -/
def target? (owner : Name) (record : Record) : Option Name :=
  match record.data with
  | .ptr target => if record.name.sameAs owner then some target else none
  | _ => none

/-- The name of an address. -/
def resolvePtr (client : Client σ) (ip : Ip) : Task σ (Option Name) := do
  let question := Question.pointer ip
  let response ← client.resolve question
  Task.ofExcept (response.check question.name)
  return response.answers.findSome? (target? question.name)

end Client

end DnsResolver
