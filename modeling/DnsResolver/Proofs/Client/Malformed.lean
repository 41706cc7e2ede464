import DnsResolver.Proofs.Client.Integrity
import DnsResolver.Proofs.Message.Faults

namespace DnsResolver

open DnsResolver.Task

/-!
# Malformed messages

What is wrong with a message does not get better with the next server: a reply that is not read as a
message settles an asking, and so does a question that cannot be written.

* `ValueOrFault` — that something comes to a value, or to an error of the format.
* `EndsUndecoded`, `Attempt.endsUndecoded` — nothing happens in an attempt after a reply that is not
  read.
* `Asking.allDecoded_before` — while an asking goes on, all replies were read.
* `Asking.run_unwritten` — a question that cannot be written is not sent.
* `malformed_final` — all of this, for whatever is read, written and asked.
-/

/-! ### Values and faults -/

/-- That something comes to a value, or to an error that tells a fault. The error is one of the
    format, after which no other server is asked. -/
def ValueOrFault {α : Type} (fault : FormatError → Prop) (result : Except FormatError α) : Prop :=
  (∃ value, result = .ok value)
    ∨ ∃ error, result = .error error ∧ fault error
        ∧ (Error.format error).isFormat = true ∧ (Error.format error).isTransport = false

theorem ValueOrFault.of_error {α : Type} {fault : FormatError → Prop} {result : Except FormatError α}
    (h : ∀ error, result = .error error → fault error) : ValueOrFault fault result := by
  cases result with
  | ok value => exact Or.inl ⟨value, rfl⟩
  | error error => exact Or.inr ⟨error, rfl, h error rfl, rfl, rfl⟩

/-! ### Replies that are not read -/

/-- That an event is a reply whose octets are not read as a message. -/
def Event.Undecoded (error : FormatError) (event : Event) : Prop :=
  ∃ server message octets,
    event = .sent server message (.ok octets) ∧ Message.decode octets = .error error

/-- That all replies among events are read as messages. -/
def AllDecoded (events : List Event) : Prop := ∀ event ∈ events, ∀ error, ¬ event.Undecoded error

/-- That a reply which is not read is the end: among the events, the latest first, none is later, and
    the outcome is what is wrong with it. -/
def EndsUndecoded (events : List Event) (outcome : Except Error Message) : Prop :=
  ∀ ⦃later event earlier error⦄, events = later ++ event :: earlier → event.Undecoded error →
    later = [] ∧ outcome = .error (.format error)

section Events

variable {event : Event} {events last earlier : List Event} {outcome : Except Error Message}

theorem allDecoded_cons :
    AllDecoded (event :: events) ↔ (∀ error, ¬ event.Undecoded error) ∧ AllDecoded events :=
  List.forall_mem_cons

theorem allDecoded_append : AllDecoded (last ++ earlier) ↔ AllDecoded last ∧ AllDecoded earlier :=
  List.forall_mem_append

/-- Where nothing was sent, nothing came back that could not be read. -/
theorem allDecoded_of_unsent (h : ∀ server message reply, Event.sent server message reply ∉ events) :
    AllDecoded events := by
  rintro event hevent error ⟨server, message, octets, rfl, -⟩
  exact h server message (.ok octets) hevent

theorem allDecoded_drew (id : UInt16) : AllDecoded [.drew id] := allDecoded_of_unsent (by simp)

/-- Only the latest event can be a reply that is not read. -/
theorem endsUndecoded_cons :
    EndsUndecoded (event :: events) outcome
      ↔ (∀ error, event.Undecoded error → outcome = .error (.format error)) ∧ AllDecoded events := by
  constructor
  · intro h
    refine ⟨fun error hundecoded => (@h [] event events error rfl hundecoded).2, ?_⟩
    intro other hother error hundecoded
    obtain ⟨later, earlier, hevents⟩ := List.append_of_mem hother
    have hsplit : event :: events = (event :: later) ++ other :: earlier := by
      rw [hevents, List.cons_append]
    exact absurd (h hsplit hundecoded).1 (List.cons_ne_nil _ _)
  · rintro ⟨hlatest, hdecoded⟩ later other earlier error hevents hundecoded
    cases later with
    | nil =>
      obtain ⟨rfl, rfl⟩ := List.cons.inj hevents
      exact ⟨rfl, hlatest error hundecoded⟩
    | cons first later =>
      obtain ⟨-, rfl⟩ := List.cons.inj hevents
      exact absurd hundecoded (hdecoded other List.mem_append_cons_self error)

theorem AllDecoded.endsUndecoded (h : AllDecoded events) : EndsUndecoded events outcome := by
  cases events with
  | nil => exact fun later _ _ _ hevents => absurd hevents.symm (by simp)
  | cons event events =>
    obtain ⟨hlatest, hdecoded⟩ := allDecoded_cons.mp h
    exact endsUndecoded_cons.mpr ⟨fun error hundecoded => absurd hundecoded (hlatest error), hdecoded⟩

theorem EndsUndecoded.append (hlast : EndsUndecoded last outcome) (hearlier : AllDecoded earlier) :
    EndsUndecoded (last ++ earlier) outcome := by
  cases last with
  | nil => exact hearlier.endsUndecoded
  | cons event last =>
    obtain ⟨hlatest, hdecoded⟩ := endsUndecoded_cons.mp hlast
    exact endsUndecoded_cons.mpr ⟨hlatest, allDecoded_append.mpr ⟨hdecoded, hearlier⟩⟩

/-- Behind a failure of the transport there is no reply that was not read. -/
theorem EndsUndecoded.allDecoded (h : EndsUndecoded events outcome)
    (hfailure : IsTransportFailure outcome) : AllDecoded events := by
  intro event hevent error hundecoded
  obtain ⟨later, earlier, hevents⟩ := List.append_of_mem hevent
  obtain ⟨-, houtcome⟩ := h hevents hundecoded
  rw [houtcome, isTransportFailure_error] at hfailure
  exact Bool.false_ne_true hfailure

end Events

/-! ### One attempt -/

namespace Client

variable {σ : Type} {client : Client σ} {server contacted : NameServer} {question : Question}
  {recursionDesired : Bool} {session : Session σ} {events : List Event} {id : UInt16}
  {message : Octets} {reply : Except Error Octets} {outcome : Except Error Message}

/-- A reply that is not read is refused for what is wrong with it. -/
theorem accept_undecoded {error : FormatError}
    (h : (Event.sent contacted message reply).Undecoded error) :
    accept server id reply = .error (.format error) := by
  obtain ⟨_, _, octets, hevent, hdecode⟩ := h
  obtain ⟨-, -, rfl⟩ := Event.sent.inj hevent
  simp only [accept, hdecode]

/-- In an attempt a reply that is not read is the last event, be it over UDP or over TCP. -/
theorem Attempt.endsUndecoded
    (h : client.Attempt server question recursionDesired session events outcome) :
    EndsUndecoded events outcome := by
  cases h with
  | unwritten =>
    apply AllDecoded.endsUndecoded
    exact allDecoded_drew _
  | failed _ _ haccept | answered _ _ haccept =>
    refine endsUndecoded_cons.mpr ⟨fun error hundecoded => ?_, allDecoded_drew _⟩
    -- What was made of the one reply is the outcome.
    rw [← haccept]
    exact accept_undecoded hundecoded
  | repeated _ _ haccept =>
    refine endsUndecoded_cons.mpr ⟨fun error => accept_undecoded, ?_⟩
    -- There is a second message only because the first reply was accepted.
    refine allDecoded_cons.mpr ⟨fun error hundecoded => ?_, allDecoded_drew _⟩
    rw [accept_undecoded hundecoded] at haccept
    exact absurd haccept (by simp)

end Client

/-! ### The whole asking -/

namespace Asking

variable {σ : Type} (asking : Asking σ)

theorem total_pos : 0 < asking.total :=
  Nat.mul_pos (Nat.lt_of_lt_of_le Nat.zero_lt_one (Nat.le_max_right _ _)) asking.nonempty

/-- As long as attempts fail in transport, all replies are read. -/
theorem allDecoded_before (i : Nat) (hfailures : ∀ j < i, IsTransportFailure (asking.ending j)) :
    ∃ events, (asking.before i).log = events ++ asking.session.log ∧ AllDecoded events := by
  induction i with
  | zero => exact ⟨[_], rfl, allDecoded_of_unsent (by simp)⟩
  | succ i ih =>
    obtain ⟨earlier, hlog, hearlier⟩ := ih fun j hj => hfailures j (Nat.lt_succ_of_lt hj)
    obtain ⟨events, hattempt, hnext⟩ := asking.attempt i
    have hevents : AllDecoded events :=
      hattempt.endsUndecoded.allDecoded (hfailures i (Nat.lt_succ_self i))
    refine ⟨events ++ earlier, ?_, allDecoded_append.mpr ⟨hevents, hearlier⟩⟩
    rw [hnext, hlog, List.append_assoc]

/-- In an asking a reply that is not read is the last event. -/
theorem run_endsUndecoded :
    ∃ events outcome session, asking.run = finish outcome session
      ∧ session.log = events ++ asking.session.log ∧ EndsUndecoded events outcome := by
  obtain ⟨made, -, hto, hfailures, hsettled, hexhausted⟩ := asking.attemptsFrom_spec 0 asking.total
  rw [Nat.zero_add] at hto hsettled hexhausted
  obtain ⟨earlier, hlog, hearlier⟩ :=
    asking.allDecoded_before made fun j hj => hfailures j (Nat.zero_le j) hj
  rw [run_eq]
  rcases Nat.lt_or_eq_of_le hto with hlt | heq
  · -- Only the last attempt can have a reply that is not read, since the ones before it failed in
    -- transport.
    obtain ⟨last, hattempt, hnext⟩ := asking.attempt made
    refine ⟨last ++ earlier, _, _, (hsettled hlt).2, ?_, hattempt.endsUndecoded.append hearlier⟩
    rw [hnext, hlog, List.append_assoc]
  · exact ⟨earlier, .error (.resolutionFailed asking.total), _, hexhausted heq, hlog,
      hearlier.endsUndecoded⟩

/-- A question that cannot be written fails in the first attempt, which sends nothing. -/
theorem run_unwritten {id : UInt16} {error : FormatError}
    (h : Client.encodeQuery id asking.question asking.recursionDesired = .error error) :
    ∃ session, asking.run = finish (.error (.format error)) session
      ∧ session.log
          = [.drew (asking.client.idFor (asking.before 0)),
              .asked asking.servers asking.question asking.recursionDesired asking.first]
            ++ asking.session.log := by
  have hquery := Client.encodeQuery_error h (asking.client.idFor (asking.before 0))
  have hturn : asking.turn 0 (asking.before 0)
      = finish (.error (.format error)) (asking.client.drawn (asking.before 0)) := by
    unfold turn
    rw [Client.exchange_apply, hquery]
    rfl
  have hending : asking.ending 0 = .error (.format error) := outcome_of_apply hturn
  obtain ⟨made, -, -, hfailures, hsettled, -⟩ := asking.attemptsFrom_spec 0 asking.total
  -- An error of the format is not one of transport, so there is no second attempt.
  obtain rfl : made = 0 := by
    by_contra hmade
    have hfailure := hfailures 0 (Nat.le_refl 0) (Nat.pos_of_ne_zero hmade)
    rw [hending, isTransportFailure_error] at hfailure
    exact Bool.false_ne_true hfailure
  rw [Nat.zero_add, ← run_eq, hending] at hsettled
  refine ⟨_, (hsettled asking.total_pos).2, ?_⟩
  show (left (asking.turn 0) (asking.before 0)).log = _
  rw [left_of_apply hturn]
  rfl

end Asking

section Queries

variable {σ : Type} (client : Client σ) (servers : List NameServer) (question : Question)
  (recursionDesired : Bool) (session : Session σ)

theorem Client.queryServers_endsUndecoded :
    ∃ events,
      (left (client.queryServers servers question recursionDesired) session).log
        = events ++ session.log
      ∧ EndsUndecoded events
          (outcome (client.queryServers servers question recursionDesired) session) := by
  rcases Nat.eq_zero_or_pos servers.length with hnil | hpos
  · obtain rfl := List.length_eq_zero_iff.mp hnil
    exact ⟨[], rfl, AllDecoded.endsUndecoded (List.forall_mem_nil _)⟩
  · let asking : Asking σ := ⟨client, servers, hpos, question, recursionDesired, session⟩
    obtain ⟨events, ending, session', hrun, hlog, hends⟩ := asking.run_endsUndecoded
    exact ⟨events, by rw [left_of_apply hrun, hlog], by rwa [outcome_of_apply hrun]⟩

variable {servers question recursionDesired} in
theorem Client.queryServers_unwritten {id : UInt16} {error : FormatError}
    (h : encodeQuery id question recursionDesired = .error error) :
    ∃ events,
      (left (client.queryServers servers question recursionDesired) session).log
        = events ++ session.log
      ∧ (∀ server message reply, Event.sent server message reply ∉ events)
      ∧ outcome (client.queryServers servers question recursionDesired) session
          = .error (if servers.isEmpty then .noNameServers else .format error) := by
  rcases Nat.eq_zero_or_pos servers.length with hnil | hpos
  · obtain rfl := List.length_eq_zero_iff.mp hnil
    exact ⟨[], rfl, fun _ _ _ => List.not_mem_nil, rfl⟩
  · let asking : Asking σ := ⟨client, servers, hpos, question, recursionDesired, session⟩
    obtain ⟨session', hrun, hlog⟩ := asking.run_unwritten h
    have hservers : servers.isEmpty = false :=
      List.isEmpty_eq_false_iff.mpr (List.ne_nil_of_length_pos hpos)
    refine ⟨_, by rw [left_of_apply hrun, hlog], by simp, ?_⟩
    rw [outcome_of_apply hrun, hservers, if_neg Bool.false_ne_true]

end Queries

/-- **Malformed messages.** Octets are read as a message or have a fault, and a message is written, in
    a frame or not, or has one; the error tells it, and is one of the format and not of transport.
    Whoever is asked, and whatever the transport does, an asking ends with the first reply that is
    not read: nothing happens after it, and the outcome is what is wrong with it.  When the question
    itself cannot be written, nothing is sent at all. -/
theorem malformed_final :
    (∀ octets, ValueOrFault (ReadFault octets) (Message.decode octets))
    ∧ (∀ now message, ValueOrFault (WriteFault message) (message.encode now))
    ∧ (∀ now message, ValueOrFault (WriteFault message) (message.encodeFrame now))
    ∧ ∀ {σ : Type} (client : Client σ) (servers : List NameServer) (question : Question)
        (recursionDesired : Bool) (session : Session σ),
        ∃ events,
          (left (client.queryServers servers question recursionDesired) session).log
            = events ++ session.log
          ∧ EndsUndecoded events
              (outcome (client.queryServers servers question recursionDesired) session)
          ∧ ∀ id error, Client.encodeQuery id question recursionDesired = .error error →
              (∀ server message reply, Event.sent server message reply ∉ events)
              ∧ outcome (client.queryServers servers question recursionDesired) session
                  = .error (if servers.isEmpty then .noNameServers else .format error) := by
  refine ⟨fun octets => .of_error fun _ => Message.fault_of_decode,
    fun now message => .of_error fun _ => Message.fault_of_encode,
    fun now message => .of_error fun _ => Message.fault_of_encodeFrame, ?_⟩
  intro σ client servers question recursionDesired session
  obtain ⟨events, hlog, hends⟩ :=
    client.queryServers_endsUndecoded servers question recursionDesired session
  refine ⟨events, hlog, hends, fun id error hquery => ?_⟩
  obtain ⟨unsent, hlog', hunsent, houtcome⟩ := client.queryServers_unwritten session hquery
  -- Both are what the asking noted.
  obtain rfl : events = unsent := List.append_cancel_right (hlog.symm.trans hlog')
  exact ⟨hunsent, houtcome⟩

/-! ### A server that does not speak the format -/

namespace Garbling

/-- A client whose servers reply with one octet. -/
def client : Client Unit :=
  { Truncating.client with
    environment := { Truncating.client.environment with send := fun _ _ _ _ => (.ok #[0], ()) } }

/-- A question that cannot be written, since there is an empty label in its name. -/
def unwritable : Question := .about ⟨['a', '.', '.', 'b']⟩ .a

end Garbling

/-- With two servers that may be asked twice each, one message is sent, and none when the question
    cannot be written. -/
theorem malformed_final_garbled :
    let servers := [Truncating.server, Truncating.server]
    let asking := Garbling.client.queryServers servers Truncating.question true
    let unwritten := Garbling.client.queryServers servers Garbling.unwritable true
    Message.decode #[0] = .error (.endOfStream 2)
      ∧ (left asking { world := () }).log
          = [.sent Truncating.server Truncating.message (.ok #[0]), .drew 7,
              .asked servers Truncating.question true 0]
      ∧ outcome asking { world := () } = .error (.format (.endOfStream 2))
      ∧ Client.encodeQuery 7 Garbling.unwritable true = .error (.invalidLabel .empty)
      ∧ (left unwritten { world := () }).log
          = [.drew 7, .asked servers Garbling.unwritable true 0]
      ∧ outcome unwritten { world := () } = .error (.format (.invalidLabel .empty)) := by
  intro servers asking unwritten
  have hdecode : Message.decode #[0] = .error (.endOfStream 2) := by cbv
  have hlog : (left asking { world := () }).log
      = [.sent Truncating.server Truncating.message (.ok #[0]), .drew 7,
          .asked servers Truncating.question true 0] := by cbv
  have hencode : Client.encodeQuery 7 Garbling.unwritable true = .error (.invalidLabel .empty) := by
    cbv
  obtain ⟨-, -, -, hasking⟩ := malformed_final
  obtain ⟨events, hevents, hends, -⟩ :=
    hasking Garbling.client servers Truncating.question true { world := () }
  obtain ⟨_, -, -, hunwritten⟩ :=
    hasking Garbling.client servers Garbling.unwritable true { world := () }
  have hsent : events = [] ++ Event.sent Truncating.server Truncating.message (.ok #[0])
      :: [.drew 7, .asked servers Truncating.question true 0] := by
    rw [← List.append_nil events]
    exact hevents.symm.trans hlog
  have hdrew : (left unwritten { world := () }).log
      = [.drew 7, .asked servers Garbling.unwritable true 0] := by cbv
  obtain ⟨-, hgarbled⟩ := hends hsent ⟨_, _, _, rfl, hdecode⟩
  obtain ⟨-, hrefused⟩ := hunwritten 7 _ hencode
  exact ⟨hdecode, hlog, hgarbled, hencode, hdrew, hrefused⟩

end DnsResolver
