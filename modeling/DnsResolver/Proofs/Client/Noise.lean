import DnsResolver.Proofs.Client.Integrity
import DnsResolver.Proofs.Message.Confined
import DnsResolver.Proofs.Transport.Noise
import DnsResolver.Transport.Exchange

namespace DnsResolver

open DnsResolver.Task

/-!
# A client over UDP

What a socket takes for the identifier of a message is what a client compares, in the queries that
it sends as well as in the replies that it decodes.  So no reply over UDP is refused for its
identifier.  A reply over TCP can be, and an attempt with a server over UDP ends with one when the
reply over UDP was truncated.

* `Message.idOf?_of_decode`, `Client.idOf?_encodeQuery` — the identifier of a reply and of a query.
* `Client.accept_udp` — what comes back over UDP has the identifier that was asked under.
* `Client.WentToTcp`, `Attempt.of_idMismatch` — the attempts that are lost to a wrong identifier.
* `Client.udp_noise` — exchanges and attempts over UDP.
-/

/-! ### Identifiers in queries and replies -/

/-- A number that is read at the start is the identifier. -/
theorem Reader.word_eq_ok {octets : Octets} {n : UInt16} {stop : Nat}
    (h : Reader.word octets 0 = .ok n stop) : Udp.idOf? octets = some n := by
  obtain ⟨part, _, hpart, hword⟩ := Reader.bind_eq_ok h
  obtain rfl : Wire.word (part.getD 0 0) (part.getD 1 0) = n := by
    injection hword
  obtain ⟨-, hlong, hextract, -⟩ := Reader.octets_eq_ok_iff.mp hpart
  rw [Nat.zero_add] at hlong hextract
  obtain ⟨high, low, hstart, hid⟩ := Udp.idOf?_of_le hlong
  obtain rfl : #[high, low] = part := hstart.symm.trans hextract
  exact hid

theorem Header.id_of_read {octets : Octets} {header : Header} {stop : Nat}
    (h : Header.read octets 0 = .ok header stop) : Udp.idOf? octets = some header.id := by
  obtain ⟨id, _, hid, h⟩ := Reader.bind_eq_ok h
  obtain ⟨flags, _, _, h⟩ := Reader.bind_eq_ok h
  obtain ⟨questions, _, _, h⟩ := Reader.bind_eq_ok h
  obtain ⟨answers, _, _, h⟩ := Reader.bind_eq_ok h
  obtain ⟨authorities, _, _, h⟩ := Reader.bind_eq_ok h
  obtain ⟨additionals, _, _, h⟩ := Reader.bind_eq_ok h
  obtain rfl : { Header.withFlags { id := id } flags with
      questions := questions, answers := answers, authorities := authorities
      additionals := additionals } = header := by
    injection h
  exact Reader.word_eq_ok hid

/-- A message that is decoded has the identifier that its octets start with. -/
theorem Message.idOf?_of_decode {octets : Octets} {message : Message}
    (h : Message.decode octets = .ok message) : Udp.idOf? octets = some message.header.id := by
  obtain ⟨stop, h⟩ := Message.decode_eq_ok_iff.mp h
  obtain ⟨header, _, hheader, h⟩ := Reader.bind_eq_ok h
  obtain ⟨questions, _, _, h⟩ := Reader.bind_eq_ok h
  obtain ⟨answers, _, _, h⟩ := Reader.bind_eq_ok h
  obtain ⟨authorities, _, _, h⟩ := Reader.bind_eq_ok h
  obtain ⟨additionals, _, _, h⟩ := Reader.bind_eq_ok h
  obtain rfl : (⟨header, questions, answers, authorities, additionals, none⟩ : Message) = message := by
    injection h
  exact Header.id_of_read hheader

namespace Client

variable {σ : Type} {client : Client σ} {server : NameServer} {question : Question}
  {recursionDesired : Bool} {id : UInt16} {message : Octets} {session : Session σ}

/-- A query starts with the two octets of its identifier. -/
theorem idOf?_encodeQuery (h : encodeQuery id question recursionDesired = .ok message) :
    Udp.idOf? message = some id := by
  unfold Udp.idOf?
  rw [header_encodeQuery h (by omega), header_encodeQuery h (by omega)]
  exact congrArg some (Wire.word_wordOctets id)

/-! ### A client over UDP -/

/-- What a client sends over UDP goes out on a socket, and the reply is waited for there; the socket
    can be any each time. -/
def UsesSockets (client : Client σ) : Prop :=
  ∀ server message timeout world, server.protocol = .udp →
    ∃ socket : Udp.Socket, (client.environment.send server message timeout world).1
      = (Udp.exchange socket server.endpoint message).mapError .transport

/-- No reply to a query that is sent over UDP is refused for its identifier. -/
theorem accept_udp (hsockets : client.UsesSockets) (hudp : server.protocol = .udp)
    (hquery : encodeQuery id question recursionDesired = .ok message) (expected received : UInt16) :
    accept server id (client.replyFrom server message session)
      ≠ .error (.transport (.idMismatch expected received)) := by
  obtain ⟨socket, hsocket⟩ := hsockets server message client.settings.timeout session.world hudp
  rw [replyFrom, hsocket]
  cases hexchange : Udp.exchange socket server.endpoint message with
  | error error =>
    intro herror
    simp only [Except.mapError, accept, Except.error.injEq, Error.transport.injEq] at herror
    exact Udp.exchange_ne_idMismatch _ _ (herror ▸ hexchange)
  | ok octets =>
    have hid := Udp.idOf?_of_exchange hexchange
    rw [idOf?_encodeQuery hquery] at hid
    simp only [Except.mapError, accept]
    cases hdecode : Message.decode octets with
    | error error => simp
    | ok response =>
      have hsame := (Message.idOf?_of_decode hdecode).symm.trans hid
      simp [Option.some.inj hsame]

variable (client server question recursionDesired) in
/-- That an attempt went on to TCP: with the fallback enabled, the reply to its query over UDP was
    truncated, and the same octets were sent again over TCP. -/
inductive WentToTcp : List Event → Prop
  | again {id message octets first reply} (hfallback : client.settings.tcpFallback = true)
      (hquery : encodeQuery id question recursionDesired = .ok message)
      (hfirst : Message.decode octets = .ok first) (hid : first.header.id = id)
      (htruncated : first.header.truncated = true) :
      WentToTcp [.sent (server.withProtocol .tcp) message reply, .sent server message (.ok octets),
        .drew id]

/-- An attempt with a server over UDP that is lost to a reply with another identifier is one that
    went on to TCP. -/
theorem Attempt.of_idMismatch {events : List Event} {outcome : Except Error Message}
    {expected received : UInt16} (hsockets : client.UsesSockets) (hudp : server.protocol = .udp)
    (h : client.Attempt server question recursionDesired session events outcome)
    (houtcome : outcome = .error (.transport (.idMismatch expected received))) :
    client.WentToTcp server question recursionDesired events := by
  cases h with
  | unwritten => exact absurd houtcome (by simp)
  | failed hquery hreply haccept =>
    obtain rfl := Except.error.inj houtcome
    rw [← hreply] at haccept
    exact absurd haccept (accept_udp hsockets hudp hquery expected received)
  | answered => exact absurd houtcome (by simp)
  | repeated hquery _ haccept htcp =>
    obtain ⟨octets, first, rfl, hfirst, hid, rfl⟩ := accept_eq_ok_iff.mp haccept
    obtain ⟨htruncated, -, hfallback⟩ := needsTcp_eq_true_iff.mp htcp
    exact .again hfallback hquery hfirst hid htruncated

/-- **UDP.** Of the datagrams that arrive on a socket without an error, an exchange of a message of at
    least two octets returns the first one that comes from the server and starts with the identifier,
    or it times out when there is none; whatever else arrives does not matter on any socket. No reply
    to a query over UDP is refused for its identifier, so an attempt with a server over UDP is lost to
    a wrong identifier only when it went on to TCP after a truncated reply. -/
theorem udp_noise (client : Client σ) (hsockets : client.UsesSockets) :
    (∀ (socket : Udp.Socket) (server : Endpoint) (message : Octets), 2 ≤ message.size →
        (socket.Works →
          Udp.FirstReply server message socket.arrivals (Udp.exchange socket server message))
          ∧ ∀ noisy, Udp.Noisy server message socket.arrivals noisy →
            Udp.exchange { socket with arrivals := noisy } server message
              = Udp.exchange socket server message)
      ∧ (∀ (server : NameServer) (question : Question) (recursionDesired : Bool) (id : UInt16)
          (message : Octets) (session : Session σ) (expected received : UInt16),
          server.protocol = .udp → encodeQuery id question recursionDesired = .ok message →
          outcome (client.sendOnce server message id) session
            ≠ .error (.transport (.idMismatch expected received)))
      ∧ ∀ (server : NameServer) (question : Question) (recursionDesired : Bool) (session : Session σ)
          (expected received : UInt16), server.protocol = .udp →
          outcome (client.exchange server question recursionDesired) session
              = .error (.transport (.idMismatch expected received)) →
          ∃ events,
            (left (client.exchange server question recursionDesired) session).log
              = events ++ session.log
            ∧ client.WentToTcp server question recursionDesired events := by
  refine ⟨fun socket server message hmessage => ?_,
    fun server question recursionDesired id message session expected received hudp hquery => ?_,
    fun server question recursionDesired session expected received hudp hlost => ?_⟩
  · exact ⟨Udp.exchange_firstReply hmessage, fun noisy => Udp.exchange_noisy hmessage⟩
  · rw [outcome_of_apply (client.sendOnce_apply server message id session)]
    exact accept_udp hsockets hudp hquery expected received
  · obtain ⟨events, hattempt, hlog, -⟩ :=
      client.exchange_attempt server question recursionDesired session
    exact ⟨events, hlog, hattempt.of_idMismatch hsockets hudp hlost⟩

/-- A server, and the query for the addresses of the root that is sent to it. -/
def resolver : NameServer := .udp (.v4 ⟨192, 0, 2, 53⟩)

def rootQuery : Octets := #[0, 7, 1, 0, 0, 1, 0, 0, 0, 0, 0, 0, 0, 0, 1, 0, 1]

/-- The reply of the server, which is truncated. -/
def truncatedReply : Datagram := ⟨resolver.endpoint, #[0, 7, 130, 0, 0, 0, 0, 0, 0, 0, 0, 0]⟩

/-- A socket on which nothing but the reply arrives. -/
def quietSocket : Udp.Socket where
  arrivals := [truncatedReply]

/-- In front of the reply there arrive its octets from another port, a reply with another identifier
    and a single octet. -/
def noise : List Datagram :=
  [⟨.ofIp resolver.endpoint.ip 54, truncatedReply.octets⟩,
    ⟨resolver.endpoint, #[0, 8, 128, 0, 0, 0, 0, 0, 0, 0, 0, 0]⟩, ⟨resolver.endpoint, #[0]⟩,
    truncatedReply]

/-- Over TCP the server replies with another identifier. -/
def noisyNetwork : Network where
  routed := true
  arrivals := noise
  connection := .accepted ⟨#[0, 12, 0, 8, 128, 0, 0, 0, 0, 0, 0, 0, 0, 0], true⟩

/-- A client on that network, which draws the identifier 7. -/
def noisyClient : Client Unit where
  servers := [resolver]
  settings := {}
  environment := {
    send := fun server message _ world => (noisyNetwork.exchange server message, world)
    drawId := fun world => (7, world)
    drawIndex := fun _ world => (0, world)
    clock := fun world => (0, world) }

theorem noisyClient_usesSockets : noisyClient.UsesSockets := by
  intro server message timeout world hudp
  refine ⟨{ arrivals := noise }, ?_⟩
  show noisyNetwork.exchange server message = _
  unfold Network.exchange
  rw [hudp]
  rfl

theorem noisyClient_exchange :
    outcome (noisyClient.exchange resolver (.about .root .a) true) { world := () }
      = .error (.transport (.idMismatch 7 8)) := by
  cbv

/-- The noise does not matter; the attempt is lost to what came back over TCP. -/
theorem udp_noise_spoofed :
    noisyClient.UsesSockets
      ∧ Udp.FirstReply resolver.endpoint rootQuery [truncatedReply]
          (Udp.exchange quietSocket resolver.endpoint rootQuery)
      ∧ Udp.exchange { quietSocket with arrivals := noise } resolver.endpoint rootQuery
          = Udp.exchange quietSocket resolver.endpoint rootQuery
      ∧ (∀ expected received, outcome (noisyClient.sendOnce resolver rootQuery 7) { world := () }
          ≠ .error (.transport (.idMismatch expected received)))
      ∧ ∃ events,
          (left (noisyClient.exchange resolver (.about .root .a) true) { world := () }).log = events
          ∧ noisyClient.WentToTcp resolver (.about .root .a) true events := by
  obtain ⟨hexchange, hsend, hattempt⟩ := udp_noise noisyClient noisyClient_usesSockets
  obtain ⟨hfirst, hnoise⟩ := hexchange quietSocket resolver.endpoint rootQuery (by decide)
  have hquery : encodeQuery 7 (.about .root .a) true = .ok rootQuery := by cbv
  refine ⟨noisyClient_usesSockets, hfirst ⟨rfl, rfl⟩, hnoise _ ?_, fun expected received => ?_, ?_⟩
  · exact .noise (Or.inl (by decide)) <| .noise (Or.inr (by decide)) <|
      .noise (Or.inr (by decide)) <| .arrival .nil
  · exact hsend resolver (.about .root .a) true 7 rootQuery _ expected received rfl hquery
  · obtain ⟨events, hlog, hwent⟩ :=
      hattempt resolver (.about .root .a) true _ 7 8 rfl noisyClient_exchange
    exact ⟨events, hlog.trans (List.append_nil events), hwent⟩

/-- All servers of a client are over UDP, and it loses an attempt to a reply with another identifier:
    the reply over UDP is truncated, and the one over TCP is for another query. -/
theorem lost_over_tcp :
    noisyClient.UsesSockets
      ∧ (∀ server ∈ noisyClient.servers, server.protocol = .udp)
      ∧ resolver ∈ noisyClient.servers
      ∧ outcome (noisyClient.exchange resolver (.about .root .a) true) { world := () }
          = .error (.transport (.idMismatch 7 8)) := by
  refine ⟨noisyClient_usesSockets, fun server hserver => ?_, List.mem_singleton_self _,
    noisyClient_exchange⟩
  obtain rfl := List.mem_singleton.mp hserver
  rfl

end Client

end DnsResolver
