import DnsResolver.Proofs.Message.Payload

namespace DnsResolver

/-!
# A message that is written can be read

* `Header.encodes`, `Question.encodes`, `Record.encodes` — the parts of a message.
* `Message.Ordinary` — the messages that may be written.
* `Message.decode_encode` — what is written is read as the same message, names up to ASCII case.
-/

/-! ### Headers -/

theorem Opcode.code_lt (opcode : Opcode) : opcode.code < 16 := by
  cases opcode with
  | unknown code => exact Nat.mod_lt _ (by decide)
  | _ => decide

theorem ResponseCode.code_lt (rcode : ResponseCode) : rcode.code < 16 := by
  cases rcode with
  | unknown code => exact Nat.mod_lt _ (by decide)
  | _ => decide

namespace Header

/-- Both codes of a header are codes of four bits. -/
def Ordinary (header : Header) : Prop :=
  (∃ n, header.opcode = .ofCode n) ∧ ∃ n, header.rcode = .ofCode n

/-- A four-bit code is the code of any number with its low bits. -/
theorem ofCode_opcode {opcode : Opcode} (h : ∃ n, opcode = .ofCode n) {m : Nat}
    (hm : m % 16 = opcode.code) : Opcode.ofCode m = opcode := by
  obtain ⟨n, rfl⟩ := h
  rw [Opcode.code_ofCode] at hm
  unfold Opcode.ofCode
  rw [hm]

theorem ofCode_rcode {rcode : ResponseCode} (h : ∃ n, rcode = .ofCode n) {m : Nat}
    (hm : m % 16 = rcode.code) : ResponseCode.ofCode m = rcode := by
  obtain ⟨n, rfl⟩ := h
  rw [ResponseCode.code_ofCode] at hm
  unfold ResponseCode.ofCode
  rw [hm]

/-- The flags of a header give them back, and both codes. -/
theorem withFlags_flags {header blank : Header} (h : header.Ordinary) :
    blank.withFlags header.flags = { header with
      id := blank.id
      questions := blank.questions
      answers := blank.answers
      authorities := blank.authorities
      additionals := blank.additionals } := by
  have hopcode := header.opcode.code_lt
  have hrcode := header.rcode.code_lt
  have hbit : ∀ b : Bool, b.toNat ≤ 1 ∧ decide (b.toNat = 1) = b := by decide
  have h15 := hbit header.isResponse
  have h10 := hbit header.authoritative
  have h9 := hbit header.truncated
  have h8 := hbit header.recursionDesired
  have h7 := hbit header.recursionAvailable
  have h6 := hbit header.reserved
  have h5 := hbit header.authenticData
  have h4 := hbit header.checkingDisabled
  -- The flags are a sum of bits in places of their own, and nothing is carried.
  have hflags : header.flags.toNat
      = header.isResponse.toNat * 32768 + header.opcode.code * 2048
        + header.authoritative.toNat * 1024 + header.truncated.toNat * 512
        + header.recursionDesired.toNat * 256 + header.recursionAvailable.toNat * 128
        + header.reserved.toNat * 64 + header.authenticData.toNat * 32
        + header.checkingDisabled.toNat * 16 + header.rcode.code := by
    rw [flags, UInt16.toNat_ofNat', Nat.mod_eq_of_lt (by omega)]
  have htest : ∀ (n : Nat) (b : Bool), header.flags.toNat / 2 ^ n % 2 = b.toNat →
      header.flags.toNat.testBit n = b := by
    intro n b hb
    rw [Nat.testBit_eq_decide_div_mod_eq, hb]
    exact (hbit b).2
  unfold withFlags
  dsimp only
  rw [ofCode_opcode h.1 (by omega), ofCode_rcode h.2 (by omega),
    htest 15 header.isResponse (by omega), htest 10 header.authoritative (by omega),
    htest 9 header.truncated (by omega), htest 8 header.recursionDesired (by omega),
    htest 7 header.recursionAvailable (by omega), htest 6 header.reserved (by omega),
    htest 5 header.authenticData (by omega), htest 4 header.checkingDisabled (by omega)]

/-- A header is read as it was written. -/
theorem encodes {header : Header} (h : header.Ordinary) :
    Encodes (modify header.write) Header.read (· = header) 12 := by
  have hwrite : (modify header.write : Writing Unit) = (do
      modify fun writer => writer.putWord header.id
      modify fun writer => writer.putWord header.flags
      modify fun writer => writer.putWord header.questions
      modify fun writer => writer.putWord header.answers
      modify fun writer => writer.putWord header.authorities
      modify fun writer => writer.putWord header.additionals) := rfl
  rw [hwrite]
  refine Encodes.mono ?_ (show 2 + (2 + (2 + (2 + (2 + 2)))) ≤ 12 by omega)
  refine (Encodes.word header.id).bind fun id hid => ?_
  refine (Encodes.word header.flags).bind fun flags hflags => ?_
  refine (Encodes.word header.questions).bind fun questions hquestions => ?_
  refine (Encodes.word header.answers).bind fun answers hanswers => ?_
  refine (Encodes.word header.authorities).bind fun authorities hauthorities => ?_
  refine (Encodes.word header.additionals).map _ fun additionals hadditionals => ?_
  rw [hid, hflags, hquestions, hanswers, hauthorities, hadditionals, withFlags_flags h]

end Header

/-! ### Questions and records -/

namespace Question

/-- The question with its name in lower case. -/
def fold (question : Question) : Question := { question with name := question.name.fold }

/-- A question that may be written. -/
structure Ordinary (question : Question) : Prop where
  name : question.name.Ordinary
  recordClass : ∃ code, question.recordClass = .ofCode code

/-- A question is read as it was written, if its type is the type of its number. -/
theorem encodes {question : Question} (h : question.Ordinary)
    (htype : ∃ code, question.type = .ofCode code) :
    Encodes question.write Question.read (fun found => found.fold = question.fold) 8197 := by
  obtain ⟨hname, code, hclass⟩ := h
  obtain ⟨code', htype⟩ := htype
  refine Encodes.mono ?_ (show 8193 + (2 + 2) ≤ 8197 by omega)
  refine (Encodes.name hname).bind fun name hname => ?_
  refine (Encodes.word question.type.code).bind fun type htype' => ?_
  refine (Encodes.word question.recordClass.code).map _ fun recordClass hclass' => ?_
  subst htype' hclass'
  simp only [fold, hname, htype, hclass, RecordType.code_ofCode, RecordClass.code_ofCode]

end Question

namespace Record

/-- The record with the names in it in lower case. -/
def fold (record : Record) : Record :=
  { record with name := record.name.fold, data := record.data.fold }

/-- A record that may be written and read back. Its lifetime is not pinned. -/
structure Ordinary (record : Record) : Prop where
  name : record.name.Ordinary
  type : record.data.Fits record.type
  recordClass : ∃ code, record.recordClass = .ofCode code
  expires : record.expires = none
  data : record.data.Ordinary

/-- A record is read as it was written. -/
theorem encodes (now : Instant) {record : Record} (h : record.Ordinary) :
    Encodes (record.write now) Record.read (fun found => found.fold = record.fold) 73738 := by
  obtain ⟨hname, htype, ⟨code, hclass⟩, hexpires, hdata⟩ := h
  have httl : record.ttlAt now = record.ttl := by
    unfold ttlAt
    rw [hexpires]
  refine Encodes.mono ?_ (show 8193 + (2 + (2 + (4 + 65537))) ≤ 73738 by omega)
  refine (Encodes.name hname).bind fun name hname => ?_
  refine (Encodes.word record.type.code).bind fun type htype' => ?_
  refine (Encodes.word record.recordClass.code).bind fun recordClass hclass' => ?_
  refine (Encodes.long (record.ttlAt now)).bind fun ttl httl' => ?_
  subst htype' hclass' httl'
  -- The type that was read decides how the payload is read; it is the type of the record.
  have hpayload := Encodes.payload (RecordData.encodesBody hdata htype) ⟨record.data, rfl⟩
  rw [htype.ofCode_code, ← bind_assoc]
  refine hpayload.map _ fun data hdata => ?_
  simp only [fold, hname, hdata, httl, hclass, hexpires, RecordClass.code_ofCode]

end Record

/-! ### Messages -/

namespace Message

/-- The header that a message is written with: its own one with the sizes of the sections. -/
def writtenHeader (message : Message) : Header :=
  { message.header with
    questions := UInt16.ofNat message.questions.length
    answers := UInt16.ofNat message.answers.length
    authorities := UInt16.ofNat message.authorities.length
    additionals := UInt16.ofNat message.additionals.length }

/-- A message that may be written. It was not received, no lifetime in it is pinned, and the sizes
    of its sections fit the header. -/
structure Ordinary (message : Message) : Prop where
  header : message.header.Ordinary
  questions : ∀ question ∈ message.questions, question.Ordinary
  records : ∀ record ∈ message.records, record.Ordinary
  origin : message.origin = none
  questions_le : message.questions.length ≤ 65535
  answers_le : message.answers.length ≤ 65535
  authorities_le : message.authorities.length ≤ 65535
  additionals_le : message.additionals.length ≤ 65535

/-- The same questions and records in the same sections, with names up to ASCII case. -/
structure SameSections (found message : Message) : Prop where
  questions : found.questions.map Question.fold = message.questions.map Question.fold
  answers : found.answers.map Record.fold = message.answers.map Record.fold
  authorities : found.authorities.map Record.fold = message.authorities.map Record.fold
  additionals : found.additionals.map Record.fold = message.additionals.map Record.fold

/-- Writing a message at an instant and reading what was written, both succeed and give the message
    back. -/
def RoundTrips (now : Instant) (message : Message) : Prop :=
  ∃ octets found, message.encode now = .ok octets ∧ decode octets = .ok found
    ∧ found.header = message.writtenHeader ∧ found.SameSections message ∧ found.origin = none

/-- The size of a section that fits 16 bits. -/
theorem sectionSize_eq {α : Type} {entries : List α} (h : entries.length ≤ 65535) :
    sectionSize entries = .ok (UInt16.ofNat entries.length) := by
  unfold sectionSize
  rw [if_neg (by omega)]

theorem sizedHeader_eq {message : Message} (h : message.Ordinary) :
    message.sizedHeader = .ok message.writtenHeader := by
  unfold sizedHeader
  rw [sectionSize_eq h.questions_le, sectionSize_eq h.answers_le, sectionSize_eq h.authorities_le,
    sectionSize_eq h.additionals_le]
  rfl

/-- The number of entries that a header announces is the number there is. -/
theorem toNat_size {α : Type} {entries : List α} (h : entries.length ≤ 65535) :
    (UInt16.ofNat entries.length).toNat = entries.length := by
  rw [UInt16.toNat_ofNat', Nat.mod_eq_of_lt (by omega)]

/-- A section of records is read as it was written. -/
theorem encodes_section (now : Instant) {records : List Record}
    (h : ∀ record ∈ records, record.Ordinary) :
    Encodes (records.forM (Record.write now)) (Reader.many Record.read records.length)
      (fun found => found.map Record.fold = records.map Record.fold) (records.length * 73738) :=
  Encodes.many fun record hrecord => Record.encodes now (h record hrecord)

/-- A message is read as it was written. -/
theorem encodes (now : Instant) {message : Message} (h : message.Ordinary)
    (htypes : ∀ question ∈ message.questions, ∃ code, question.type = .ofCode code) :
    Encodes (message.writeSections now message.writtenHeader) Message.read
      (fun found => found.header = message.writtenHeader ∧ found.SameSections message
        ∧ found.origin = none)
      (12 + (message.questions.length * 8197 + (message.answers.length * 73738
        + (message.authorities.length * 73738 + message.additionals.length * 73738)))) := by
  have hheader : message.writtenHeader.Ordinary := h.header
  have hanswers : ∀ record ∈ message.answers, record.Ordinary := fun record hrecord =>
    h.records record (by simp [records, hrecord])
  have hauthorities : ∀ record ∈ message.authorities, record.Ordinary := fun record hrecord =>
    h.records record (by simp [records, hrecord])
  have hadditionals : ∀ record ∈ message.additionals, record.Ordinary := fun record hrecord =>
    h.records record (by simp [records, hrecord])
  have hquestions : Encodes (message.questions.forM Question.write)
      (Reader.many Question.read message.questions.length)
      (fun found => found.map Question.fold = message.questions.map Question.fold)
      (message.questions.length * 8197) :=
    Encodes.many fun question hquestion =>
      Question.encodes (h.questions question hquestion) (htypes question hquestion)
  -- The records are written in one go, and read section by section.
  have hwrite : message.writeSections now message.writtenHeader = (do
      modify message.writtenHeader.write
      message.questions.forM Question.write
      message.answers.forM (Record.write now)
      message.authorities.forM (Record.write now)
      message.additionals.forM (Record.write now)) := by
    have happend : ∀ front back : List Record, (front ++ back).forM (Record.write now)
        = (do front.forM (Record.write now); back.forM (Record.write now)) := fun _ _ =>
      List.forM_append
    unfold writeSections records
    rw [happend, happend, bind_assoc]
  rw [hwrite]
  refine (Header.encodes hheader).bind fun header hheader => ?_
  subst hheader
  -- The sizes in the header say how much is read of what.
  simp only [writtenHeader, toNat_size h.questions_le, toNat_size h.answers_le,
    toNat_size h.authorities_le, toNat_size h.additionals_le]
  refine hquestions.bind fun questions hquestions => ?_
  refine (encodes_section now hanswers).bind fun answers hanswers => ?_
  refine (encodes_section now hauthorities).bind fun authorities hauthorities => ?_
  refine (encodes_section now hadditionals).map _ fun additionals hadditionals => ?_
  exact ⟨rfl, ⟨hquestions, hanswers, hauthorities, hadditionals⟩, rfl⟩

/-- **Round trip.** A message that may be written, with question types that numbers stand for, is
    written, and what is written is read as the same message: the header with the sizes of the
    sections, and in each section the same entries, names up to ASCII case. -/
theorem decode_encode (now : Instant) {message : Message} (h : message.Ordinary)
    (htypes : ∀ question ∈ message.questions, ∃ code, question.type = .ofCode code) :
    message.RoundTrips now := by
  obtain ⟨after, hwrite, _, _, hroom, hlegible⟩ :=
    (encodes now h htypes).written [] (Writer.empty true) (Writer.sound_empty true)
  have hquestions := h.questions_le
  have hanswers := h.answers_le
  have hauthorities := h.authorities_le
  have hadditionals := h.additionals_le
  -- Even the largest sections stay far away from the limit for offsets.
  have hbounded : after.octets.size < Reader.offsetLimit := by
    have hlimit : Reader.offsetLimit = 18446744073709551616 := rfl
    have hempty : (Writer.empty true).size = 0 := rfl
    change after.size < _
    omega
  obtain ⟨found, hread, hgood⟩ := hlegible after.octets ⟨fun i octet hi => hi, Nat.le_refl _, hbounded⟩
  refine ⟨after.octets, found, ?_, ?_, hgood⟩
  · unfold encode
    rw [sizedHeader_eq h]
    show Writer.build (message.writeSections now message.writtenHeader) = _
    unfold Writer.build
    rw [hwrite]
  · exact decode_eq_ok_iff.mpr ⟨_, hread⟩

/-- A reply whose names share suffixes: the exchange in the payload is a subdomain of the owner,
    and the owner of the address is the exchange, in capitals. -/
def mailMessage : Message where
  header := { id := 7, isResponse := true, recursionDesired := true, rcode := .ofCode 9 }
  questions := [⟨⟨['e', '.', 'x']⟩, .mx, .internet⟩]
  answers := [⟨⟨['e', '.', 'x']⟩, .mx, .internet, 60, none, .mx ⟨10, ⟨['m', '.', 'e', '.', 'x']⟩⟩⟩]
  authorities := [⟨Name.root, .ns, .chaos, 0, none, .ns ⟨['x']⟩⟩]
  additionals := [⟨⟨['M', '.', 'E', '.', 'X']⟩, .a, .internet, 60, none, .a ⟨192, 0, 2, 1⟩⟩,
    ⟨⟨['x']⟩, .unknown 41, .ofCode 4096, 0, none, .raw #[0, 10]⟩]

theorem decode_encode_mail :
    mailMessage.Ordinary
      ∧ (∀ question ∈ mailMessage.questions, ∃ code, question.type = .ofCode code)
      ∧ mailMessage.RoundTrips 0 := by
  have htypes : ∀ question ∈ mailMessage.questions, ∃ code, question.type = .ofCode code := by
    intro question hquestion
    obtain rfl : question = ⟨⟨['e', '.', 'x']⟩, .mx, .internet⟩ := by
      simpa [mailMessage] using hquestion
    exact ⟨15, rfl⟩
  have hordinary : mailMessage.Ordinary := by
    refine ⟨⟨⟨0, rfl⟩, ⟨9, rfl⟩⟩, fun question hquestion => ?_, fun record hrecord => ?_, rfl,
      by decide, by decide, by decide, by decide⟩
    · obtain rfl : question = ⟨⟨['e', '.', 'x']⟩, .mx, .internet⟩ := by
        simpa [mailMessage] using hquestion
      exact ⟨by decide, ⟨1, rfl⟩⟩
    · simp only [records, mailMessage, List.cons_append, List.nil_append, List.mem_cons,
        List.not_mem_nil, or_false] at hrecord
      rcases hrecord with rfl | rfl | rfl | rfl
      · exact ⟨by decide, rfl, ⟨1, rfl⟩, rfl, show Name.Ordinary _ by decide⟩
      · exact ⟨by decide, rfl, ⟨3, rfl⟩, rfl, show Name.Ordinary _ by decide⟩
      · exact ⟨by decide, rfl, ⟨1, rfl⟩, rfl, trivial⟩
      · exact ⟨by decide, Or.inr ⟨41, rfl, rfl⟩, ⟨4096, rfl⟩, rfl, show 2 ≤ 65535 by decide⟩
  exact ⟨hordinary, htypes, decode_encode 0 hordinary htypes⟩

/-- A query for the type of number 1, but not by the name that this number has. -/
def numberedQuery : Message where
  header := { questions := 1 }
  questions := [⟨⟨['a']⟩, .unknown 1, .internet⟩]

/-- The number of a type is all that is written, so a question whose type is not the type of its
    number comes back with another type. -/
theorem numberedQuery_lost :
    ¬∀ (now : Instant) (message : Message), message.Ordinary → message.RoundTrips now := by
  intro h
  have hordinary : numberedQuery.Ordinary := by
    refine ⟨⟨⟨0, rfl⟩, ⟨0, rfl⟩⟩, fun question hquestion => ?_, fun record hrecord => ?_, rfl,
      by decide, by decide, by decide, by decide⟩
    · obtain rfl : question = ⟨⟨['a']⟩, .unknown 1, .internet⟩ := by
        simpa [numberedQuery] using hquestion
      exact ⟨by decide, ⟨1, rfl⟩⟩
    · simp [records, numberedQuery] at hrecord
  -- Both runs are evaluated: the question comes back under the name of its type.
  obtain ⟨octets, found, hencode, hdecode, _, hsame, _⟩ := h 0 numberedQuery hordinary
  have hwritten : numberedQuery.encode 0
      = .ok #[0, 0, 0, 0, 0, 1, 0, 0, 0, 0, 0, 0, 1, 97, 0, 0, 1, 0, 1] := by
    cbv
  have hread : decode #[0, 0, 0, 0, 0, 1, 0, 0, 0, 0, 0, 0, 1, 97, 0, 0, 1, 0, 1]
      = .ok { numberedQuery with questions := [⟨⟨['a']⟩, .a, .internet⟩] } := by
    cbv
  obtain rfl := Except.ok.inj (hwritten.symm.trans hencode)
  obtain rfl := Except.ok.inj (hread.symm.trans hdecode)
  have htypes := congrArg (List.map Question.type) hsame.questions
  simp [numberedQuery, Question.fold] at htypes

end Message

end DnsResolver
