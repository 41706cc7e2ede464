import DnsResolver.Transport.Udp

namespace DnsResolver

/-!
# Noise on a UDP socket

Anybody can send datagrams to the socket that a reply is waited for on.  Those that do not come from
the server, or do not start with the identifier of the message, change nothing.

* `Udp.Genuine`, `Udp.FirstReply` — the datagrams that count, and what an exchange comes to.
* `Udp.Noisy` — more datagrams arrive, and none of them counts.
* `Udp.exchange_firstReply`, `Udp.exchange_noisy` — what an exchange returns, and that noise does not
  matter to it.
* `Udp.idOf?_of_exchange` — a reply has the identifier of the message.
-/

/-! ### Identifiers -/

/-- A number of two octets tells both of them. -/
theorem Wire.word_inj {a b c d : UInt8} (h : word a b = word c d) : a = c ∧ b = d := by
  have hnat := congrArg UInt16.toNat h
  have ha := a.toNat_lt
  have hb := b.toNat_lt
  have hc := c.toNat_lt
  have hd := d.toNat_lt
  simp only [word, UInt16.toNat_ofNat'] at hnat
  rw [Nat.mod_eq_of_lt (by omega), Nat.mod_eq_of_lt (by omega)] at hnat
  exact ⟨UInt8.toNat_inj.mp (by omega), UInt8.toNat_inj.mp (by omega)⟩

/-- A socket does not fail for an identifier. -/
theorem SocketFault.toError_ne_idMismatch (fault : SocketFault) (server : Endpoint)
    (expected received : UInt16) : fault.toError server ≠ .idMismatch expected received := by
  cases fault <;> simp [toError]

namespace Udp

variable {socket : Socket} {server : Endpoint} {message : Octets} {arrivals noisy : List Datagram}

/-- Cutting a datagram leaves its identifier. -/
theorem idOf?_kept (datagram : Datagram) : idOf? (kept datagram) = idOf? datagram.octets := by
  have hget : ∀ i < 2, (kept datagram)[i]? = datagram.octets[i]? := fun i hi => by
    have hkept : i < keptSize := Nat.lt_of_lt_of_le hi (by decide)
    unfold kept
    rw [Array.getElem?_extract, Nat.zero_add]
    split
    · rfl
    · next hout => rw [Array.getElem?_eq_none (by omega)]
  unfold idOf?
  rw [hget 0 (by omega), hget 1 (by omega)]

/-- Two octets or more have an identifier, and start with its octets. -/
theorem idOf?_of_le {octets : Octets} (h : 2 ≤ octets.size) :
    ∃ high low, octets.extract 0 2 = #[high, low] ∧ idOf? octets = some (Wire.word high low) := by
  refine ⟨octets[0], octets[1], ?_, ?_⟩
  · apply Array.ext
    · simp
      omega
    · intro i hi hi'
      have hcases : i = 0 ∨ i = 1 := by
        have htwo : i < 2 := hi'
        omega
      rcases hcases with rfl | rfl <;> simp
  · unfold idOf?
    rw [Array.getElem?_eq_getElem (by omega), Array.getElem?_eq_getElem (by omega)]

theorem idOf?_of_lt {octets : Octets} (h : octets.size < 2) : idOf? octets = none := by
  unfold idOf?
  rw [Array.getElem?_eq_none (i := 1) (by omega)]
  cases octets[0]? <;> rfl

/-- Messages have the same identifier if they start with the same two octets. -/
theorem idOf?_eq_iff {octets : Octets} (hmessage : 2 ≤ message.size) :
    idOf? octets = idOf? message ↔ octets.extract 0 2 = message.extract 0 2 := by
  obtain ⟨high, low, hstart, hid⟩ := idOf?_of_le hmessage
  rw [hstart, hid]
  by_cases hlong : 2 ≤ octets.size
  · obtain ⟨high', low', hstart', hid'⟩ := idOf?_of_le hlong
    rw [hstart', hid']
    constructor
    · intro h
      obtain ⟨rfl, rfl⟩ := Wire.word_inj (Option.some.inj h)
      rfl
    · intro h
      have hboth : high' = high ∧ low' = low := by simpa using h
      rw [hboth.1, hboth.2]
  · rw [idOf?_of_lt (Nat.lt_of_not_le hlong)]
    constructor
    · exact fun h => absurd h (by simp)
    · -- Fewer than two octets start with fewer than two.
      intro h
      have hsize := congrArg Array.size h
      simp only [Array.size_extract, List.size_toArray, List.length_cons, List.length_nil] at hsize
      omega

/-! ### Waiting for the reply -/

/-- That a socket reports no error: the message goes out, and the reply is waited for until the time
    is over. -/
structure Socket.Works (socket : Socket) : Prop where
  sent : socket.refusal = none
  received : socket.failure = none

/-- A datagram comes from the server, and its first two octets are those of the message. -/
structure Genuine (server : Endpoint) (message : Octets) (datagram : Datagram) : Prop where
  source : datagram.source = server
  id : datagram.octets.extract 0 2 = message.extract 0 2

/-- What the datagrams that arrive in time come to: the first genuine one, cut to `keptSize` octets,
    or a timeout if there is none. -/
inductive FirstReply (server : Endpoint) (message : Octets) :
    List Datagram → Except TransportError Octets → Prop
  | reply {before after datagram} (hbefore : ∀ other ∈ before, ¬Genuine server message other)
      (hgenuine : Genuine server message datagram) :
      FirstReply server message (before ++ datagram :: after)
        (.ok (datagram.octets.extract 0 keptSize))
  | timeout {arrivals : List Datagram}
      (hnone : ∀ datagram ∈ arrivals, ¬Genuine server message datagram) :
      FirstReply server message arrivals (.error (.timeout (toString server)))

/-- The second list is the first one with datagrams put in anywhere that come from elsewhere or
    start with other octets than the message; those of fewer than two octets do so. -/
inductive Noisy (server : Endpoint) (message : Octets) : List Datagram → List Datagram → Prop
  | nil : Noisy server message [] []
  | arrival {datagram arrivals noisy} (h : Noisy server message arrivals noisy) :
      Noisy server message (datagram :: arrivals) (datagram :: noisy)
  | noise {datagram arrivals noisy}
      (hnoise : datagram.source ≠ server ∨ datagram.octets.extract 0 2 ≠ message.extract 0 2)
      (h : Noisy server message arrivals noisy) :
      Noisy server message arrivals (datagram :: noisy)

/-- What a host takes for the reply is what is genuine. -/
theorem isReply_iff (hmessage : 2 ≤ message.size) (datagram : Datagram) :
    isReply server message datagram = true ↔ Genuine server message datagram := by
  unfold isReply
  rw [Bool.and_eq_true_iff, beq_iff_eq, beq_iff_eq, idOf?_kept, idOf?_eq_iff hmessage]
  exact ⟨fun h => ⟨h.1, h.2⟩, fun h => ⟨h.source, h.id⟩⟩

/-- What is waited for on a socket without an error is the first genuine datagram. -/
theorem await_firstReply (hmessage : 2 ≤ message.size) (hreceived : socket.failure = none) :
    FirstReply server message socket.arrivals (await socket server message) := by
  unfold await
  cases hfind : socket.arrivals.find? (isReply server message) with
  | none =>
    simp only [hreceived, Option.getD_none, SocketFault.toError]
    refine .timeout fun datagram hdatagram hgenuine => ?_
    exact List.find?_eq_none.mp hfind datagram hdatagram ((isReply_iff hmessage datagram).mpr hgenuine)
  | some datagram =>
    obtain ⟨hreply, before, after, harrivals, hbefore⟩ := List.find?_eq_some_iff_append.mp hfind
    rw [harrivals]
    refine .reply (fun other hother hgenuine => ?_) ((isReply_iff hmessage datagram).mp hreply)
    have hnot := hbefore other hother
    rw [(isReply_iff hmessage other).mpr hgenuine] at hnot
    exact absurd hnot (by simp)

/-- **Waiting.** An exchange on a socket without an error returns the first genuine datagram. -/
theorem exchange_firstReply (hmessage : 2 ≤ message.size) (hworks : socket.Works) :
    FirstReply server message socket.arrivals (exchange socket server message) := by
  unfold exchange
  rw [hworks.sent]
  exact await_firstReply hmessage hworks.received

/-- The same is found among the datagrams, whatever else arrives. The induction is on where the noise
    is put in; a search passes over it. -/
theorem find?_noisy (hmessage : 2 ≤ message.size) (h : Noisy server message arrivals noisy) :
    noisy.find? (isReply server message) = arrivals.find? (isReply server message) := by
  induction h with
  | nil => rfl
  | arrival _ ih => rw [List.find?_cons, List.find?_cons, ih]
  | @noise datagram _ _ hnoise _ ih =>
    have hpassed : isReply server message datagram = false := by
      rw [Bool.eq_false_iff, Ne, isReply_iff hmessage]
      intro hgenuine
      rcases hnoise with hsource | hid
      · exact hsource hgenuine.source
      · exact hid hgenuine.id
    rw [List.find?_cons, hpassed, ih]

/-- **Noise.** Whatever else arrives, an exchange ends in the same way, and so it does when the
    socket fails. -/
theorem exchange_noisy (hmessage : 2 ≤ message.size)
    (h : Noisy server message socket.arrivals noisy) :
    exchange { socket with arrivals := noisy } server message = exchange socket server message := by
  unfold exchange await
  simp only [find?_noisy hmessage h]

/-- A reply has the identifier of the message that it is the reply to. -/
theorem idOf?_of_exchange {reply : Octets} (h : exchange socket server message = .ok reply) :
    idOf? reply = idOf? message := by
  unfold exchange at h
  split at h
  · exact absurd h (by simp)
  · unfold await at h
    split at h
    · next datagram hfind =>
      obtain rfl := Except.ok.inj h
      have hreply := List.find?_some hfind
      exact beq_iff_eq.mp (Bool.and_eq_true_iff.mp hreply).2
    · exact absurd h (by simp)

/-- An exchange does not fail for an identifier. -/
theorem exchange_ne_idMismatch (expected received : UInt16) :
    exchange socket server message ≠ .error (.idMismatch expected received) := by
  unfold exchange await
  split
  · exact fun h => SocketFault.toError_ne_idMismatch _ _ _ _ (Except.error.inj h)
  · split
    · simp
    · exact fun h => SocketFault.toError_ne_idMismatch _ _ _ _ (Except.error.inj h)

end Udp

end DnsResolver
