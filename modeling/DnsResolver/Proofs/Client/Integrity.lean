import DnsResolver.Proofs.Client.Failover
import DnsResolver.Proofs.Message.Query

namespace DnsResolver

open DnsResolver.Task

/-!
# What an asking sends, and what it accepts

Whatever comes back, an asking returns only a reply that carries the identifier of the query it was
made for, which was drawn for that attempt alone.

* `Client.accept_eq_ok_iff` — what is accepted as a reply.
* `Client.Legs`, `Client.Attempt.legs` — what an attempt may send: a query, and at most once more
  the same octets over TCP.
* `Client.Accepted`, `Client.Attempt.accepted` — what stands behind the reply of an attempt.
* `Client.Asks`, `Asking.log_before` — an asking notes its attempts one after the other, and nothing
  else.
* `Client.queryServers_last`, `Client.queryServers_vouched` — what stands behind the reply of an
  asking.
-/

namespace Client

variable {σ : Type}

/-! ### Accepting a reply -/

/-- A reply is what the octets say that came back, under the identifier of the query, with where
    it came from filled in. -/
theorem accept_eq_ok_iff {server : NameServer} {id : UInt16} {reply : Except Error Octets}
    {response : Message} :
    accept server id reply = .ok response
      ↔ ∃ octets decoded, reply = .ok octets ∧ Message.decode octets = .ok decoded
        ∧ decoded.header.id = id
        ∧ response = { decoded with origin := some ⟨server, server.protocol, octets.size⟩ } := by
  constructor
  · intro h
    unfold accept at h
    split at h
    · exact absurd h (by simp)
    · next octets =>
      split at h
      · exact absurd h (by simp)
      · next decoded hdecode =>
        split at h
        · next hid => exact ⟨octets, decoded, rfl, hdecode, hid, (Except.ok.inj h).symm⟩
        · exact absurd h (by simp)
  · rintro ⟨octets, decoded, rfl, hdecode, hid, rfl⟩
    simp only [accept, hdecode, if_pos hid]

variable {client : Client σ} {server : NameServer} {question : Question} {recursionDesired : Bool}
  {session : Session σ} {events : List Event} {response : Message}

theorem needsTcp_eq_true_iff :
    client.needsTcp server response = true
      ↔ response.header.truncated = true ∧ server.protocol = .udp
        ∧ client.settings.tcpFallback = true := by
  simp [needsTcp, and_assoc]

/-! ### What an attempt sends -/

variable (client server question recursionDesired) in
/-- What an attempt with a server may note, the latest event first.  It draws one identifier, and
    sends nothing, or a query under that identifier, or that query and then the same octets once
    more to the same address and host over TCP.  The last only happens after a truncated reply from
    a server over UDP, and when the fallback is enabled. -/
inductive Legs : List Event → Prop
  | unsent {id} : Legs [.drew id]
  | once {id message reply}
      (hquery : encodeQuery id question recursionDesired = .ok message) :
      Legs [.sent server message reply, .drew id]
  | twice {id message octets first again}
      (hquery : encodeQuery id question recursionDesired = .ok message)
      (hfirst : Message.decode octets = .ok first)
      (hid : first.header.id = id)
      (htruncated : first.header.truncated = true)
      (hudp : server.protocol = .udp)
      (hfallback : client.settings.tcpFallback = true) :
      Legs [.sent { server with protocol := .tcp } message again, .sent server message (.ok octets),
        .drew id]

variable (client question recursionDesired) in
/-- That events are those of an asking: its beginning, and then attempts with servers of the
    list. -/
inductive Asks (servers : List NameServer) : List Event → Prop
  | begun {first} : Asks servers [.asked servers question recursionDesired first]
  | attempted {server attempt earlier} (hserver : server ∈ servers)
      (hlegs : client.Legs server question recursionDesired attempt)
      (hearlier : Asks servers earlier) :
      Asks servers (attempt ++ earlier)

theorem Attempt.legs {outcome : Except Error Message}
    (h : client.Attempt server question recursionDesired session events outcome) :
    client.Legs server question recursionDesired events := by
  cases h with
  | unwritten => exact .unsent
  | failed hquery | answered hquery => exact .once hquery
  | repeated hquery _ haccept htcp =>
    obtain ⟨octets, first, rfl, hfirst, hid, rfl⟩ := accept_eq_ok_iff.mp haccept
    obtain ⟨htruncated, hudp, hfallback⟩ := needsTcp_eq_true_iff.mp htcp
    exact .twice hquery hfirst hid htruncated hudp hfallback

/-! ### What stands behind a reply -/

variable (client question recursionDesired events response) in
/-- That a reply is what was accepted at the end of an attempt: from the server that was contacted
    last there came back octets, for a message that was sent under an identifier. -/
structure Accepted (contacted : NameServer) (id : UInt16) (message octets : Octets) : Prop where
  /-- The identifier was drawn at the beginning of the attempt. -/
  drew : events.getLast? = some (.drew id)
  drawn : ∃ world, (client.environment.drawId world).1 = id
  /-- The last message that was sent, and what the transport returned for it. -/
  sent : events.head? = some (.sent contacted message (.ok octets))
  returned : ∃ world,
    (client.environment.send contacted message client.settings.timeout world).1 = .ok octets
  /-- The message is the query for the question under the identifier. -/
  query : encodeQuery id question recursionDesired = .ok message
  queryId : idOf message = id
  queryFlag : asksRecursion message = recursionDesired
  /-- The reply is what the octets say, which carry the identifier, and only its origin is added. -/
  reply : ∃ decoded, Message.decode octets = .ok decoded ∧ decoded.header.id = id
    ∧ response = { decoded with origin := some ⟨contacted, contacted.protocol, octets.size⟩ }
  /-- With the fallback, only TCP can leave a reply truncated. -/
  overTcp : client.settings.tcpFallback = true → response.header.truncated = true →
    contacted.protocol = .tcp

/-- A reply that was accepted, and is not asked for again, is the reply of the attempt. -/
private theorem accepted_of_accept {rest : List Event} {contacted : NameServer} {id : UInt16}
    {message : Octets} {reply : Except Error Octets} {world world' : σ}
    (hquery : encodeQuery id question recursionDesired = .ok message)
    (hdrew : (Event.sent contacted message reply :: rest).getLast? = some (.drew id))
    (hdrawn : (client.environment.drawId world).1 = id)
    (hreturned :
      (client.environment.send contacted message client.settings.timeout world').1 = reply)
    (haccept : accept contacted id reply = .ok response)
    (hkept : client.needsTcp contacted response = false) :
    ∃ octets, client.Accepted question recursionDesired (.sent contacted message reply :: rest)
      response contacted id message octets := by
  obtain ⟨octets, decoded, rfl, hdecode, hid, hresponse⟩ := accept_eq_ok_iff.mp haccept
  refine ⟨octets, hdrew, ⟨world, hdrawn⟩, rfl, ⟨world', hreturned⟩, hquery, idOf_encodeQuery hquery,
    asksRecursion_encodeQuery hquery, ⟨decoded, hdecode, hid, hresponse⟩, ?_⟩
  intro hfallback htruncated
  cases hprotocol : contacted.protocol with
  | tcp => rfl
  | udp =>
    have htcp := needsTcp_eq_true_iff.mpr ⟨htruncated, hprotocol, hfallback⟩
    rw [hkept] at htcp
    exact absurd htcp Bool.false_ne_true

/-- The reply of an attempt was accepted at its end. -/
theorem Attempt.accepted {outcome : Except Error Message}
    (h : client.Attempt server question recursionDesired session events outcome)
    (houtcome : outcome = .ok response) :
    ∃ contacted id message octets,
      client.Accepted question recursionDesired events response contacted id message octets := by
  cases h with
  | unwritten | failed => exact absurd houtcome (by simp)
  | answered hquery hreply haccept hkept =>
    obtain rfl := Except.ok.inj houtcome
    exact ⟨server, _, _, accepted_of_accept hquery rfl rfl hreply haccept hkept⟩
  | repeated hquery _ _ _ hagain =>
    have hkept : client.needsTcp (server.withProtocol .tcp) response = false := by
      simp [needsTcp, NameServer.withProtocol]
    exact ⟨_, _, _, accepted_of_accept hquery rfl rfl hagain houtcome hkept⟩

end Client

/-! ### The log of an asking -/

namespace Asking

variable {σ : Type} (asking : Asking σ)

theorem server_mem (i : Nat) : asking.server i ∈ asking.servers := List.get_mem _ _

/-- Before attempt `i` an asking has noted its beginning and the attempts that were made, and
    nothing else. -/
theorem log_before (i : Nat) :
    ∃ events, (asking.before i).log = events ++ asking.session.log
      ∧ asking.client.Asks asking.question asking.recursionDesired asking.servers events := by
  induction i with
  | zero => exact ⟨[_], rfl, .begun⟩
  | succ i ih =>
    obtain ⟨earlier, hlog, hasks⟩ := ih
    obtain ⟨events, hattempt, hnext⟩ := asking.attempt i
    refine ⟨events ++ earlier, ?_, .attempted (asking.server_mem i) hattempt.legs hasks⟩
    rw [hnext, hlog, List.append_assoc]

/-- An asking that returns a reply returns the one of its last attempt. -/
theorem run_eq_ok {response : Message} {session' : Session σ}
    (h : asking.run = .ok response session') :
    ∃ made, asking.ending made = .ok response ∧ session' = asking.before (made + 1) := by
  obtain ⟨made, -, hto, -, hsettled, hexhausted⟩ := asking.attemptsFrom_spec 0 asking.total
  rw [Nat.zero_add, ← run_eq] at hsettled hexhausted
  rw [Nat.zero_add] at hto
  rcases Nat.lt_or_eq_of_le hto with hlt | heq
  · obtain ⟨-, hrun⟩ := hsettled hlt
    rw [h] at hrun
    cases hending : asking.ending made with
    | ok reply =>
      rw [hending] at hrun
      obtain ⟨rfl, hleft⟩ := EStateM.Result.ok.inj hrun
      exact ⟨made, hending, hleft⟩
    | error error =>
      rw [hending] at hrun
      exact absurd hrun (by simp [finish])
  · rw [h] at hexhausted
    exact absurd (hexhausted heq) (by simp)

end Asking

namespace Client

variable {σ : Type} {client : Client σ} {servers : List NameServer} {question : Question}
  {recursionDesired : Bool} {session session' : Session σ} {response : Message}

/-- Asking the servers of a list notes one asking, or nothing when there are no servers. -/
theorem queryServers_log (servers : List NameServer) (question : Question) (recursionDesired : Bool)
    (session : Session σ) :
    ∃ events,
      (left (client.queryServers servers question recursionDesired) session).log
        = events ++ session.log
      ∧ (events = [] ∨ client.Asks question recursionDesired servers events) := by
  rcases Nat.eq_zero_or_pos servers.length with hnil | hpos
  · obtain rfl := List.length_eq_zero_iff.mp hnil
    exact ⟨[], rfl, Or.inl rfl⟩
  · let asking : Asking σ := ⟨client, servers, hpos, question, recursionDesired, session⟩
    obtain ⟨outcome, i, hrun, -⟩ := asking.run_end
    obtain ⟨events, hlog, hasks⟩ := asking.log_before i
    exact ⟨events, by rw [left_of_apply hrun, hlog], Or.inr hasks⟩

/-- A reply that an asking returns is the one of its last attempt. -/
theorem queryServers_last
    (h : client.queryServers servers question recursionDesired session = .ok response session') :
    ∃ server ∈ servers, ∃ attempted last earlier,
      client.Attempt server question recursionDesired attempted last (.ok response)
      ∧ client.Asks question recursionDesired servers earlier
      ∧ session'.log = last ++ earlier ++ session.log := by
  rcases Nat.eq_zero_or_pos servers.length with hnil | hpos
  · obtain rfl := List.length_eq_zero_iff.mp hnil
    exact absurd h (by simp [queryServers_nil])
  · let asking : Asking σ := ⟨client, servers, hpos, question, recursionDesired, session⟩
    obtain ⟨made, hending, rfl⟩ := asking.run_eq_ok h
    obtain ⟨earlier, hlog, hasks⟩ := asking.log_before made
    obtain ⟨last, hattempt, hnext⟩ := asking.attempt made
    rw [hending] at hattempt
    refine ⟨asking.server made, asking.server_mem made, _, last, earlier, hattempt, hasks, ?_⟩
    rw [hnext, hlog, List.append_assoc]

variable (client servers question recursionDesired session session' response) in
/-- That a reply is vouched for by what an asking noted: after its beginning there is one attempt
    after the other, each with a server of the list and with at most two messages, and the reply is
    what was accepted at the end of the last of them. -/
def Vouched : Prop :=
  ∃ last earlier,
    session'.log = last ++ earlier ++ session.log
    ∧ client.Asks question recursionDesired servers earlier
    ∧ (∃ server ∈ servers, client.Legs server question recursionDesired last)
    ∧ ∃ contacted id message octets,
        client.Accepted question recursionDesired last response contacted id message octets

/-- **Integrity of replies.** Whatever the transport does, a reply that an asking returns is
    vouched for: it was accepted for the last message that was sent, which is the query for the
    question under an identifier that was drawn for it, and carries that identifier. -/
theorem queryServers_vouched
    (h : client.queryServers servers question recursionDesired session = .ok response session') :
    client.Vouched servers question recursionDesired session session' response := by
  obtain ⟨server, hserver, attempted, last, earlier, hattempt, hasks, hlog⟩ := queryServers_last h
  have hlegs : ∃ server ∈ servers, client.Legs server question recursionDesired last :=
    ⟨server, hserver, hattempt.legs⟩
  exact ⟨last, earlier, hlog, hasks, hlegs, hattempt.accepted rfl⟩

end Client

/-! ### A server with short datagrams -/

namespace Truncating

/-- The server, over UDP. -/
def server : NameServer := .udp (.v4 ⟨192, 0, 2, 1⟩)

/-- The question for the address of the name `x`. -/
def question : Question := .about ⟨['x']⟩ .a

/-- The query for it under the identifier 7. -/
def message : Octets := #[0, 7, 1, 0, 0, 1, 0, 0, 0, 0, 0, 0, 1, 0x78, 0, 0, 1, 0, 1]

/-- A reply without records, truncated or not. -/
def octets (truncated : Bool) : Octets :=
  #[0, 7, if truncated then 0x82 else 0x80, 0, 0, 0, 0, 0, 0, 0, 0, 0]

/-- What the reply over TCP says. -/
def reply : Message where
  header := { id := 7, isResponse := true }
  origin := some ⟨server.withProtocol .tcp, .tcp, 12⟩

/-- A client whose replies over UDP are truncated. -/
def client : Client Unit where
  servers := [server]
  settings := {}
  environment :=
    { send := fun server _ _ _ => (.ok (octets (server.protocol == .udp)), ())
      drawId := fun _ => (7, ())
      drawIndex := fun _ _ => (0, ())
      clock := fun _ => (0, ()) }

/-- Where the client stands when it has asked over UDP and over TCP. -/
def session : Session Unit where
  world := ()
  log := [.sent (server.withProtocol .tcp) message (.ok (octets false)),
    .sent server message (.ok (octets true)), .drew 7, .asked [server] question true 0]

theorem queryServers_eq :
    client.queryServers [server] question true { world := () } = .ok reply session := by
  cbv

end Truncating

/-- The reply over TCP is vouched for by the second message of its attempt. -/
theorem Client.queryServers_vouched_truncated :
    Truncating.client.queryServers [Truncating.server] Truncating.question true { world := () }
        = .ok Truncating.reply Truncating.session
      ∧ Truncating.client.Vouched [Truncating.server] Truncating.question true { world := () }
        Truncating.session Truncating.reply :=
  ⟨Truncating.queryServers_eq, queryServers_vouched Truncating.queryServers_eq⟩

end DnsResolver
