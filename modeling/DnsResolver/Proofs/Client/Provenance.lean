import DnsResolver.Proofs.Client.Budget
import DnsResolver.Proofs.Client.Integrity
import Mathlib

namespace DnsResolver

open DnsResolver.Task

/-!
# Where the servers of a walk come from

A walk contacts the servers it starts from, and those that replies lead to.  Each event of a walk
is accounted for by the ones before it: a list of servers is asked only if it is the list to start
from, the glue of a referral, or what a nested lookup found for a host of a referral.

* `Message.glue_referral` — the glue of a referral and its order.
* `Client.Received` — the replies that a log tells of.
* `Walk.Listed`, `Walk.Sourced` — the lists and the servers that a log leads to.
* `Walk.Accounts` — what has to come before an event.
* `Walk.walkFrom_leaves` — asking servers notes only what is accounted for.
* `Client.resolveVia_accounted` — what this means for a resolution from given servers.
-/

/-! ### Addresses in records -/

namespace RecordData

/-- The payload of the record that gives an address. -/
def ofIp : Ip → RecordData
  | .v4 ip => .a ip
  | .v6 ip => .aaaa ip

/-- The address in an A record. -/
def ipv4? : RecordData → Option Ip
  | a ip => some (.v4 ip)
  | _ => none

/-- The address in an AAAA record. -/
def ipv6? : RecordData → Option Ip
  | aaaa ip => some (.v6 ip)
  | _ => none

theorem address?_eq_some {data : RecordData} {ip : Ip} :
    data.address? = some ip ↔ data = ofIp ip := by
  cases data <;> cases ip <;> simp [address?, ofIp]

end RecordData

/-- The server with a host name at an address: on port 53 and over UDP. -/
def NameServer.ofHost (host : Name) (ip : Ip) : NameServer := ⟨.ofIp ip 53, .udp, some host⟩

namespace Message

/-- That records have an address for a host: an A or AAAA record that the host owns, up to case. -/
def HasAddress (records : List Record) (host : Name) (ip : Ip) : Prop :=
  ∃ record ∈ records, record.name.fold = host.fold ∧ record.data = .ofIp ip

/-- The servers at those addresses that records have for a host and that `address?` reads from
    them, in the order of the records. -/
def serversAt (address? : RecordData → Option Ip) (records : List Record) (host : Name) :
    List NameServer :=
  records.filterMap fun record =>
    if record.name.fold = host.fold then (address? record.data).map (.ofHost host) else none

theorem serverFor?_eq (host : Name) (record : Record) :
    serverFor? host record
      = if record.name.fold = host.fold then record.data.address?.map (.ofHost host) else none := by
  simp only [serverFor?, Name.sameAs_iff]
  rfl

theorem serversFor_eq (records : List Record) (host : Name) :
    serversFor records host = serversAt RecordData.address? records host := by
  simp only [serversFor, serversAt, serverFor?_eq]

/-- The servers that are found for a host are those at its addresses. -/
theorem mem_serversFor {records : List Record} {host : Name} {server : NameServer} :
    server ∈ serversFor records host
      ↔ ∃ ip, HasAddress records host ip ∧ server = .ofHost host ip := by
  simp only [serversFor_eq, serversAt, List.mem_filterMap, Option.ite_none_right_eq_some,
    Option.map_eq_some_iff, RecordData.address?_eq_some, HasAddress]
  constructor
  · rintro ⟨record, hrecord, howner, ip, hdata, rfl⟩
    exact ⟨ip, ⟨record, hrecord, howner, hdata⟩, rfl⟩
  · rintro ⟨ip, ⟨record, hrecord, howner, hdata⟩, rfl⟩
    exact ⟨record, hrecord, howner, ip, hdata, rfl⟩

/-! ### Referrals and their glue -/

/-- That a reply refers to a host: it has neither an error nor an answer, and an NS record with the
    host in its authority section. -/
structure RefersTo (response : Message) (host : Name) : Prop where
  noError : response.header.rcode = .noError
  unanswered : response.answers = []
  named : ∃ record ∈ response.authorities, record.data = .ns host

/-- The servers whose addresses came along with the hosts of a reply, as far as `address?` reads
    them: in the order of the NS records, and for one host in that of the additional section. -/
def gluedBy (response : Message) (address? : RecordData → Option Ip) : List NameServer :=
  response.authorities.flatMap fun record =>
    match record.data with
    | .ns host => serversAt address? response.additionals host
    | _ => []

/-- The glue of a reply: the servers with an IPv4 address and, when they are preferred, all those
    with an IPv6 address before them. -/
def glueList (response : Message) (preferIpv6 : Bool) : List NameServer :=
  if preferIpv6 then response.gluedBy RecordData.ipv6? ++ response.gluedBy RecordData.ipv4?
  else response.gluedBy RecordData.ipv4?

/-- Those of the servers for a host that are kept, when `address?` reads their addresses alone. -/
theorem filter_serversFor {keep : NameServer → Bool} {address? : RecordData → Option Ip}
    (hreads : ∀ host data,
      (data.address?.map (NameServer.ofHost host)).filter keep = (address? data).map (.ofHost host))
    (records : List Record) (host : Name) :
    (serversFor records host).filter keep = serversAt address? records host := by
  rw [serversFor_eq, serversAt, List.filter_filterMap]
  refine List.filterMap_congr fun record _ => ?_
  by_cases howner : record.name.fold = host.fold
  · simp only [if_pos howner]
    exact hreads host record.data
  · simp only [if_neg howner]
    rfl

/-- The same for all hosts of a reply, in the order of their NS records. -/
theorem filter_flatMap_serversFor {keep : NameServer → Bool} {address? : RecordData → Option Ip}
    (hreads : ∀ host data,
      (data.address?.map (NameServer.ofHost host)).filter keep = (address? data).map (.ofHost host))
    (response : Message) :
    ((response.authorities.filterMap host?).flatMap (serversFor response.additionals)).filter keep
      = response.gluedBy address? := by
  unfold gluedBy
  induction response.authorities with
  | nil => rfl
  | cons record rest ih =>
    rw [List.flatMap_cons, ← ih]
    cases hdata : record.data with
    | ns host =>
      rw [List.filterMap_cons_some (show host? record = some host by rw [host?, hdata]),
        List.flatMap_cons, List.filter_append, filter_serversFor hreads]
    | _ => rw [List.filterMap_cons_none (by rw [host?, hdata])]; rfl

/-- The hosts that a reply refers to. -/
theorem mem_referral {response : Message} {host : Name} :
    host ∈ response.referral ↔ response.RefersTo host := by
  have hhost : ∀ record : Record, host? record = some host ↔ record.data = .ns host := by
    intro record
    unfold host?
    cases record.data <;> simp
  unfold referral
  constructor
  · intro h
    split at h
    · exact absurd h List.not_mem_nil
    · next hopen =>
      obtain ⟨record, hrecord, hdata⟩ := List.mem_filterMap.mp h
      simp only [Bool.or_eq_true, Bool.not_eq_true', bne_iff_ne, not_or, ne_eq, not_not,
        Bool.not_eq_false, List.isEmpty_iff] at hopen
      exact ⟨hopen.2, hopen.1, record, hrecord, (hhost record).mp hdata⟩
  · rintro ⟨hcode, hanswers, record, hrecord, hdata⟩
    rw [if_neg (by simp [hcode, hanswers])]
    exact List.mem_filterMap.mpr ⟨record, hrecord, (hhost record).mpr hdata⟩

/-- **The order of glue.** The glue of a reply that refers to a host stands in the order of the NS
    records and, for one host, of the additional section, with IPv6 only if it is preferred and
    then in front. -/
theorem glue_referral {response : Message} {host : Name} (h : response.RefersTo host)
    (preferIpv6 : Bool) :
    response.glue response.referral preferIpv6 = response.glueList preferIpv6 := by
  have hreferral : response.referral = response.authorities.filterMap host? := by
    rw [referral, if_neg (by simp [h.noError, h.unanswered])]
  have hv4 : ∀ host (data : RecordData),
      (data.address?.map (NameServer.ofHost host)).filter isIpv4
        = data.ipv4?.map (NameServer.ofHost host) := by
    intro host data
    cases data <;> rfl
  have hv6 : ∀ host (data : RecordData),
      (data.address?.map (NameServer.ofHost host)).filter (not ∘ isIpv4)
        = data.ipv6?.map (NameServer.ofHost host) := by
    intro host data
    cases data <;> rfl
  rw [glue, List.partition_eq_filter_filter, hreferral, glueList, filter_flatMap_serversFor hv4,
    filter_flatMap_serversFor hv6]

/-- Glue is at addresses that the additional section has for hosts that the reply refers to. -/
theorem mem_glueList {response : Message} {host : Name} {preferIpv6 : Bool} {server : NameServer}
    (h : response.RefersTo host) (hserver : server ∈ response.glueList preferIpv6) :
    ∃ named ip, response.RefersTo named ∧ HasAddress response.additionals named ip
      ∧ server = .ofHost named ip := by
  have hglue : server ∈ response.referral.flatMap (serversFor response.additionals) := by
    rw [← glue_referral h, glue, List.partition_eq_filter_filter] at hserver
    cases preferIpv6 with
    | false => exact List.mem_of_mem_filter hserver
    | true =>
      rcases List.mem_append.mp hserver with hv6 | hv4
      · exact List.mem_of_mem_filter hv6
      · exact List.mem_of_mem_filter hv4
  obtain ⟨named, hnamed, hfound⟩ := List.mem_flatMap.mp hglue
  obtain ⟨ip, haddress, rfl⟩ := mem_serversFor.mp hfound
  exact ⟨named, ip, mem_referral.mp hnamed, haddress, rfl⟩

end Message

/-! ### What a log leads to -/

/-- That a reply to a question was accepted, without recursion being asked for, at the end of an
    attempt that a log tells of. -/
def Client.Received {σ : Type} (client : Client σ) (question : Question) (response : Message)
    (log : List Event) : Prop :=
  ∃ server attempt contacted id message octets, attempt <:+: log
    ∧ client.Legs server question false attempt
    ∧ client.Accepted question false attempt response contacted id message octets

theorem Client.Received.mono {σ : Type} {client : Client σ} {question : Question}
    {response : Message} {log log' : List Event} (h : client.Received question response log)
    (hpart : log <:+: log') : client.Received question response log' := by
  obtain ⟨server, attempt, contacted, id, message, octets, hattempt, hlegs, haccepted⟩ := h
  exact ⟨server, attempt, contacted, id, message, octets, hattempt.trans hpart, hlegs, haccepted⟩

namespace Walk

variable {σ : Type} (client : Client σ) (start : List NameServer) (question : Question)
  (preferIpv6 : Bool)

/-- That a list of servers is to be asked a question, after what a log tells of a walk.  The walk
    begins with its question and the servers to start from, and so does each nested lookup, which
    is for a host of a referral without glue.  The question that led to a referral is then put to
    its glue, or to the addresses that a nested lookup found for one of its hosts. -/
inductive Listed (log : List Event) : Question → List NameServer → Prop
  | begun (hfirst : log = []) : Listed log question start
  | nested {asked response host}
      (hreceived : client.Received asked response log)
      (hrefers : response.RefersTo host)
      (hglueless : response.glueList preferIpv6 = []) :
      Listed log (lookup preferIpv6 host) start
  | glued {asked response host}
      (hreceived : client.Received asked response log)
      (hrefers : response.RefersTo host) :
      Listed log asked (response.glueList preferIpv6)
  | located {asked response host found reply before}
      (hlog : log = found ++ before)
      (hreceived : client.Received asked response before)
      (hrefers : response.RefersTo host)
      (hglueless : response.glueList preferIpv6 = [])
      (hfound : client.Received (lookup preferIpv6 host) reply found) :
      Listed log asked (Message.serversAt RecordData.address? reply.answers host)

/-- That a log of a walk leads to a server: the walk starts from it, or a reply refers to its host,
    and has its address, or a reply to a later lookup of the host has. -/
inductive Sourced (log : List Event) : NameServer → Prop
  | start {server} (hserver : server ∈ start) : Sourced log server
  | glued {asked response host ip}
      (hreceived : client.Received asked response log)
      (hrefers : response.RefersTo host)
      (haddress : Message.HasAddress response.additionals host ip) :
      Sourced log (.ofHost host ip)
  | located {asked response host found reply before ip}
      (hlog : log = found ++ before)
      (hreceived : client.Received asked response before)
      (hrefers : response.RefersTo host)
      (hfound : client.Received (lookup preferIpv6 host) reply found)
      (haddress : Message.HasAddress reply.answers host ip) :
      Sourced log (.ofHost host ip)

/-- That a message may go to a server after what a log tells: the log leads to that server, or to
    the same one over UDP, which has just replied to this message with a truncated reply. -/
inductive Contacted (log : List Event) (message : Octets) : NameServer → Prop
  | first {server} (hsource : Sourced client start preferIpv6 log server) :
      Contacted log message server
  | again {server octets reply}
      (hsource : Sourced client start preferIpv6 log server)
      (hudp : server.protocol = .udp)
      (hlast : log.head? = some (.sent server message (.ok octets)))
      (hreply : Message.decode octets = .ok reply)
      (htruncated : reply.header.truncated = true) :
      Contacted log message { server with protocol := .tcp }

/-- That an event of a walk is accounted for by the log before it.  Servers are asked only from a
    list that the log leads to, and only queries that do not ask for recursion are sent, to servers
    that the log leads to. -/
def Accounts (log : List Event) : Event → Prop
  | .asked servers asked recursionDesired _ =>
    recursionDesired = false ∧ Listed client start question preferIpv6 log asked servers
  | .drew _ => True
  | .sent server message _ =>
    (∃ id asked, Client.encodeQuery id asked false = .ok message)
      ∧ Client.asksRecursion message = false
      ∧ Contacted client start preferIpv6 log message server

/-- That each event of a log is accounted for by those before it. -/
def Accounted (log : List Event) : Prop :=
  ∀ event earlier, event :: earlier <:+ log →
    Accounts client start question preferIpv6 earlier event

section Steps

variable {client start question preferIpv6} {asked : Question} {servers : List NameServer}
  {server : NameServer} {events log base : List Event} {response : Message} {host : Name}

theorem accounted_cons {event : Event} :
    Accounted client start question preferIpv6 (event :: log)
      ↔ Accounts client start question preferIpv6 log event
        ∧ Accounted client start question preferIpv6 log := by
  constructor
  · intro h
    exact ⟨h event log (List.suffix_refl _),
      fun event' earlier hsuffix => h event' earlier (List.suffix_cons_iff.mpr (Or.inr hsuffix))⟩
  · rintro ⟨hevent, hlog⟩ event' earlier hsuffix
    rcases List.suffix_cons_iff.mp hsuffix with heq | hsuffix
    · obtain ⟨rfl, rfl⟩ := List.cons.inj heq
      exact hevent
    · exact hlog event' earlier hsuffix

/-- What a log leads to, a longer log leads to. -/
theorem Sourced.append (h : Sourced client start preferIpv6 log server) (later : List Event) :
    Sourced client start preferIpv6 (later ++ log) server := by
  cases h with
  | start hserver => exact .start hserver
  | glued hreceived hrefers haddress =>
    exact .glued (hreceived.mono (List.suffix_append _ _).isInfix) hrefers haddress
  | @located asked response host found reply before ip hlog hreceived hrefers hfound haddress =>
    have hlater : later ++ log = (later ++ found) ++ before := by rw [hlog, List.append_assoc]
    exact .located hlater hreceived hrefers (hfound.mono (List.suffix_append _ _).isInfix) haddress

/-- The log leads to each server of a list that is to be asked. -/
theorem Listed.sourced (h : Listed client start question preferIpv6 log asked servers)
    (hserver : server ∈ servers) : Sourced client start preferIpv6 log server := by
  cases h with
  | begun | nested => exact .start hserver
  | glued hreceived hrefers =>
    obtain ⟨named, ip, hnamed, haddress, rfl⟩ := Message.mem_glueList hrefers hserver
    exact .glued hreceived hnamed haddress
  | located hlog hreceived hrefers _ hfound =>
    rw [← Message.serversFor_eq] at hserver
    obtain ⟨ip, haddress, rfl⟩ := Message.mem_serversFor.mp hserver
    exact .located hlog hreceived hrefers hfound haddress

/-! ### What asking notes -/

/-- An attempt with a server that the log leads to. -/
theorem accounted_legs (hlegs : client.Legs server asked false events)
    (hsource : Sourced client start preferIpv6 log server)
    (hlog : Accounted client start question preferIpv6 log) :
    Accounted client start question preferIpv6 (events ++ log) := by
  have hdrew : ∀ id, Accounted client start question preferIpv6 (.drew id :: log) :=
    fun id => accounted_cons.mpr ⟨trivial, hlog⟩
  cases hlegs with
  | unsent => exact hdrew _
  | once hquery =>
    have hflag := Client.asksRecursion_encodeQuery hquery
    refine accounted_cons.mpr ⟨⟨⟨_, _, hquery⟩, hflag, ?_⟩, hdrew _⟩
    exact .first (hsource.append [_])
  | @twice id message octets first again hquery hfirst _ htruncated hudp _ =>
    have hflag := Client.asksRecursion_encodeQuery hquery
    refine accounted_cons.mpr ⟨⟨⟨_, _, hquery⟩, hflag, ?_⟩, ?_⟩
    · exact .again (hsource.append [_, _]) hudp rfl hfirst htruncated
    · refine accounted_cons.mpr ⟨⟨⟨_, _, hquery⟩, hflag, ?_⟩, hdrew _⟩
      exact .first (hsource.append [_])

/-- Attempts with the servers of a list that is to be asked. -/
theorem accounted_asks (hasks : client.Asks asked false servers events)
    (hlisted : Listed client start question preferIpv6 log asked servers)
    (hlog : Accounted client start question preferIpv6 log) :
    Accounted client start question preferIpv6 (events ++ log) := by
  induction hasks with
  | begun => exact accounted_cons.mpr ⟨⟨rfl, hlisted⟩, hlog⟩
  | @attempted server attempt earlier hserver hlegs _ ih =>
    rw [List.append_assoc]
    exact accounted_legs hlegs ((hlisted.sourced hserver).append earlier) ih

variable (client start question preferIpv6 log base) in
/-- How a step of a walk ends whose log was `log`, after the log `base` from before the walk: what
    it has noted is accounted for, and what it returns fits what it has noted. -/
def Leaves {α : Type} (fits : α → List Event → Prop) (outcome : Except Error α)
    (final : List Event) : Prop :=
  ∃ more, final = more ++ log ++ base
    ∧ Accounted client start question preferIpv6 (more ++ log)
    ∧ ∀ value, outcome = .ok value → fits value more

/-- A step that goes on from a longer log, as seen from before what was noted in between. -/
theorem Leaves.after {α β : Type} {fits : α → List Event → Prop} {fits' : β → List Event → Prop}
    {outcome : Except Error α} {outcome' : Except Error β} {final more : List Event}
    (h : Leaves client start question preferIpv6 (more ++ log) base fits outcome final)
    (hfits : ∀ later, (∀ value, outcome = .ok value → fits value later) →
      ∀ value, outcome' = .ok value → fits' value (later ++ more)) :
    Leaves client start question preferIpv6 log base fits' outcome' final := by
  obtain ⟨later, hfinal, haccounted, hvalue⟩ := h
  refine ⟨later ++ more, ?_, ?_, hfits later hvalue⟩
  · rw [hfinal, ← List.append_assoc later]
  · rwa [List.append_assoc]

/-- The reply of such a step is the reply of the steps before it together with it. -/
theorem Leaves.received {outcome : Except Error Message} {final more : List Event}
    (h : Leaves client start question preferIpv6 (more ++ log) base (client.Received asked) outcome
      final) :
    Leaves client start question preferIpv6 log base (client.Received asked) outcome final :=
  h.after fun later hreply reply hok =>
    (hreply reply hok).mono (List.prefix_append later more).isInfix

/-- Calling the servers of a list that is to be asked. -/
theorem queryServers_leaves {session : Session σ} (hbase : session.log = log ++ base)
    (hlog : Accounted client start question preferIpv6 log)
    (hlisted : Listed client start question preferIpv6 log asked servers) :
    ∃ outcome session', client.queryServers servers asked false session = finish outcome session'
      ∧ Leaves client start question preferIpv6 log base (client.Received asked) outcome
        session'.log := by
  cases hrun : client.queryServers servers asked false session with
  | ok response session' =>
    obtain ⟨server, hserver, attempted, last, earlier, hattempt, hasks, hfinal⟩ :=
      Client.queryServers_last hrun
    refine ⟨.ok response, session', rfl, last ++ earlier, ?_, ?_, ?_⟩
    · rw [hfinal, hbase, List.append_assoc (last ++ earlier)]
    · exact accounted_asks (hasks.attempted hserver hattempt.legs) hlisted hlog
    · rintro _ ⟨⟩
      obtain ⟨contacted, id, message, octets, haccepted⟩ := hattempt.accepted rfl
      exact ⟨server, last, contacted, id, message, octets, (List.prefix_append _ _).isInfix,
        hattempt.legs, haccepted⟩
  | error error session' =>
    obtain ⟨events, hfinal, hasks⟩ := client.queryServers_log servers asked false session
    rw [left_of_error hrun, hbase, ← List.append_assoc] at hfinal
    refine ⟨.error error, session', rfl, events, hfinal, ?_, by simp⟩
    rcases hasks with rfl | hasks
    · exact hlog
    · exact accounted_asks hasks hlisted hlog

/-! ### What a walk notes -/

variable (client start question preferIpv6 base) in
/-- That asking servers at a depth of the walk, whenever they are to be asked, leaves only what is
    accounted for. -/
def AsksLeave (depth : Nat) : Prop :=
  ∀ {servers : List NameServer} {asked : Question} {walk : Walk σ} {log : List Event},
    walk.session.log = log ++ base →
    Accounted client start question preferIpv6 log →
    Listed client start question preferIpv6 log asked servers →
    ∃ outcome walk',
      client.walkFrom start preferIpv6 depth servers asked walk = finish outcome walk'
      ∧ Leaves client start question preferIpv6 log base (client.Received asked) outcome
        walk'.session.log

variable (client start question preferIpv6 asked log) in
/-- That a list of servers fits what a step has noted that looks for servers to ask next: there are
    none, or they are to be asked. -/
def FitsNext (next : List NameServer) (more : List Event) : Prop :=
  next = [] ∨ Listed client start question preferIpv6 (more ++ log) asked next

/-- Looking up the hosts of a referral without glue. -/
theorem resolveHosts_leaves {depth : Nat}
    (hask : AsksLeave client start question preferIpv6 base depth)
    {before gap : List Event} {hosts : List Name} {walk : Walk σ}
    (hgap : log = gap ++ before)
    (hreceived : client.Received asked response before)
    (hglueless : response.glueList preferIpv6 = [])
    (hhosts : ∀ host ∈ hosts, response.RefersTo host)
    (hbase : walk.session.log = log ++ base)
    (hlog : Accounted client start question preferIpv6 log) :
    ∃ outcome walk',
      Client.resolveHosts (client.walkFrom start preferIpv6 depth start) preferIpv6 hosts walk
        = finish outcome walk'
      ∧ Leaves client start question preferIpv6 log base
        (FitsNext client start question preferIpv6 asked log) outcome walk'.session.log := by
  induction hosts generalizing walk log gap with
  | nil =>
    refine ⟨.ok [], walk, rfl, [], hbase, hlog, ?_⟩
    rintro _ ⟨⟩
    exact Or.inl rfl
  | cons host hosts ih =>
    have hrefers : response.RefersTo host := hhosts host List.mem_cons_self
    have hnested : Listed client start question preferIpv6 log (lookup preferIpv6 host) start :=
      .nested (hreceived.mono (hgap ▸ List.suffix_append gap before).isInfix) hrefers hglueless
    obtain ⟨outcome, walk₁, hlookup, more, hfinal, haccounted, hfound⟩ := hask hbase hlog hnested
    by_cases hspent : ∃ hops, outcome = .error (.hopCountExceeded hops)
    · obtain ⟨hops, rfl⟩ := hspent
      exact ⟨.error _, walk₁, resolveHosts_spent depth host hosts walk hlookup, more, hfinal,
        haccounted, by simp⟩
    rw [resolveHosts_cons depth host hosts walk hlookup (fun hops heq => hspent ⟨hops, heq⟩)]
    have hlater : more ++ log = (more ++ gap) ++ before := by rw [hgap, List.append_assoc]
    by_cases hservers : serversIn host outcome = []
    · -- The next host is looked up after all that the lookup of this one has noted.
      rw [if_pos hservers]
      obtain ⟨outcome', walk', hrest, hleaves⟩ :=
        ih hlater (fun next hnext => hhosts next (List.mem_cons_of_mem _ hnext)) hfinal haccounted
      refine ⟨outcome', walk', hrest, hleaves.after fun later hfits next hnext => ?_⟩
      rw [FitsNext, List.append_assoc]
      exact hfits next hnext
    · rw [if_neg hservers]
      refine ⟨.ok (serversIn host outcome), walk₁, rfl, more, hfinal, haccounted, ?_⟩
      rintro _ ⟨⟩
      cases outcome with
      | error error => exact absurd rfl hservers
      | ok reply =>
        have hreply : client.Received (lookup preferIpv6 host) reply (more ++ gap) :=
          (hfound reply rfl).mono (List.prefix_append more gap).isInfix
        rw [serversIn, Message.serversFor_eq]
        exact Or.inr (.located hlater hreceived hrefers hglueless hreply)

/-- Finding out where a referral leads. -/
theorem referTo_leaves {depth : Nat} (hask : AsksLeave client start question preferIpv6 base depth)
    {walk : Walk σ}
    (hreceived : client.Received asked response log)
    (hrefers : response.RefersTo host)
    (hbase : walk.session.log = log ++ base)
    (hlog : Accounted client start question preferIpv6 log) :
    ∃ outcome walk', referTo client start preferIpv6 depth response walk = finish outcome walk'
      ∧ Leaves client start question preferIpv6 log base
        (FitsNext client start question preferIpv6 asked log) outcome walk'.session.log := by
  rw [referTo, Message.glue_referral hrefers]
  by_cases hglue : response.glueList preferIpv6 = []
  · rw [if_pos (List.isEmpty_iff.mpr hglue)]
    exact resolveHosts_leaves hask (List.nil_append log).symm hreceived hglue
      (fun host hhost => Message.mem_referral.mp hhost) hbase hlog
  · rw [if_neg (fun hempty => hglue (List.isEmpty_iff.mp hempty))]
    refine ⟨.ok _, walk, rfl, [], hbase, hlog, ?_⟩
    rintro _ ⟨⟩
    exact Or.inr (.glued hreceived hrefers)

/-- Asking servers leaves only what is accounted for, at any depth of the walk. -/
theorem walkFrom_leaves (depth : Nat) : AsksLeave client start question preferIpv6 base depth := by
  induction depth with
  | zero =>
    intro servers asked walk log hbase hlog _
    exact ⟨.error _, walk, rfl, [], hbase, hlog, by simp⟩
  | succ depth ih =>
    intro servers asked walk log hbase hlog hlisted
    rcases Nat.lt_or_ge walk.hops maxHops with hhops | hhops
    swap
    · exact ⟨.error _, walk, walkFrom_spent _ _ _ hhops, [], hbase, hlog, by simp⟩
    rw [walkFrom_succ depth servers asked hhops]
    obtain ⟨outcome, session, hcall, more, hfinal, haccounted, hreply⟩ :=
      queryServers_leaves hbase hlog hlisted
    rw [hcall]
    cases outcome with
    | error error => exact ⟨.error error, _, rfl, more, hfinal, haccounted, by simp⟩
    | ok response =>
      have hreceived : client.Received asked response more := hreply response rfl
      simp only [finish]
      by_cases hreferral : response.referral = []
      · rw [if_pos hreferral]
        exact ⟨.ok response, _, rfl, more, hfinal, haccounted, hreply⟩
      rw [if_neg hreferral]
      obtain ⟨host, hhost⟩ := List.exists_mem_of_ne_nil _ hreferral
      have hcalled : (⟨session, walk.hops + 1⟩ : Walk σ).session.log = more ++ log ++ base := hfinal
      obtain ⟨outcome, walk', hrefer, hleaves⟩ :=
        referTo_leaves ih (hreceived.mono (List.prefix_append more log).isInfix)
          (Message.mem_referral.mp hhost) hcalled haccounted
      rw [hrefer]
      cases outcome with
      | error error => exact ⟨.error error, walk', rfl, hleaves.after (by simp)⟩
      | ok next =>
        simp only [finish]
        by_cases hnext : next = []
        · rw [if_pos hnext]
          refine ⟨.ok response, walk', rfl, hleaves.after fun later _ => ?_⟩
          rintro _ ⟨⟩
          exact hreceived.mono (List.suffix_append later more).isInfix
        · -- The next servers are to be asked, after all that was noted on the way to them.
          rw [if_neg hnext]
          obtain ⟨later, hfinal', haccounted', hfits⟩ := hleaves
          obtain ⟨outcome, walk'', hrest, hleaves'⟩ :=
            ih hfinal' haccounted' ((hfits next rfl).resolve_left hnext)
          exact ⟨outcome, walk'', hrest, hleaves'.received.received⟩

end Steps

end Walk

/-- **Where servers come from.** Whatever the transport does, each event of a resolution from given
    servers is accounted for by the ones before it.  No query asks for recursion, and each goes to
    one of the servers to start from, or to a host that an earlier referral names, at an address
    that came with the referral or that a lookup of the host found, over TCP only after a truncated
    reply over UDP. -/
theorem Client.resolveVia_accounted {σ : Type} (client : Client σ) (start : List NameServer)
    (question : Question) (preferIpv6 : Bool) (session : Session σ) :
    ∃ events,
      (left (client.resolveVia start question preferIpv6) session).log = events ++ session.log
      ∧ Walk.Accounted client start question preferIpv6 events := by
  have hnothing : Walk.Accounted client start question preferIpv6 [] := fun event earlier hsuffix =>
    absurd (List.suffix_nil.mp hsuffix) (List.cons_ne_nil event earlier)
  have hbase : (⟨session, 0⟩ : Walk σ).session.log = [] ++ session.log := rfl
  obtain ⟨outcome, walk, hrun, events, hfinal, haccounted, -⟩ :=
    Walk.walkFrom_leaves maxHops hbase hnothing (.begun rfl)
  rw [List.append_nil] at hfinal haccounted
  refine ⟨events, ?_, haccounted⟩
  rw [← hfinal]
  unfold left resolveVia
  rw [hrun]
  cases outcome <;> rfl

/-! ### A network with glue -/

namespace Glued

/-- The server to start from. -/
def server : NameServer := .udp (.v4 ⟨192, 0, 2, 53⟩)

/-- The server that it refers to. -/
def further : NameServer := .ofHost ⟨['b']⟩ (.v4 ⟨192, 0, 2, 1⟩)

/-- The question for the address of the name `w`. -/
def question : Question := .about ⟨['w']⟩ .a

/-- The query for it. -/
def message : Octets := #[0, 0, 0, 0, 0, 1, 0, 0, 0, 0, 0, 0, 1, 0x77, 0, 0, 1, 0, 1]

/-- A reply that refers to the host `b` and has an address for the host `B`. -/
def referral : Octets :=
  #[0, 0, 0x80, 0, 0, 0, 0, 0, 0, 1, 0, 1,
    0, 0, 2, 0, 1, 0, 0, 0, 60, 0, 3, 1, 0x62, 0,
    1, 0x42, 0, 0, 1, 0, 1, 0, 0, 0, 60, 0, 4, 192, 0, 2, 1]

/-- A reply with an address of the name `w`. -/
def addressed : Octets :=
  #[0, 0, 0x80, 0, 0, 0, 0, 1, 0, 0, 0, 0, 1, 0x77, 0, 0, 1, 0, 1, 0, 0, 0, 60, 0, 4, 192, 0, 2, 7]

/-- A client to which servers without a host name reply with the referral. -/
def client : Client Unit where
  servers := []
  settings := {}
  environment :=
    { send := fun server _ _ _ => (.ok (if server.host.isSome then addressed else referral), ())
      drawId := fun _ => (0, ())
      drawIndex := fun _ _ => (0, ())
      clock := fun _ => (0, ()) }

/-- What the resolution notes before it contacts the server with a host name. -/
def earlier : List Event :=
  [.drew 0, .asked [further] question false 0, .sent server message (.ok referral), .drew 0,
    .asked [server] question false 0]

theorem log_eq :
    (left (client.resolveVia [server] question false) ⟨(), none, []⟩).log
      = .sent further message (.ok addressed) :: earlier := by
  cbv

end Glued

/-- The server that the reply of the first one refers to is contacted because of its glue. -/
theorem Client.resolveVia_accounted_glue :
    Glued.further ∉ [Glued.server]
      ∧ (left (Glued.client.resolveVia [Glued.server] Glued.question false) ⟨(), none, []⟩).log
        = .sent Glued.further Glued.message (.ok Glued.addressed) :: Glued.earlier
      ∧ Walk.Contacted Glued.client [Glued.server] false Glued.earlier Glued.message
        Glued.further := by
  obtain ⟨events, hlog, haccounted⟩ :=
    resolveVia_accounted Glued.client [Glued.server] Glued.question false ⟨(), none, []⟩
  rw [Glued.log_eq, List.append_nil] at hlog
  have hsent := haccounted (.sent Glued.further Glued.message (.ok Glued.addressed)) Glued.earlier
    (hlog ▸ List.suffix_refl _)
  exact ⟨by decide, Glued.log_eq, hsent.2.2⟩

end DnsResolver
