import DnsResolver.Proofs.Message.Layout
import DnsResolver.Proofs.Message.RoundTrip

namespace DnsResolver

open Name (Spelled)

/-!
# What stands in a message

A layout stands in octets when they have its parts in their places; its names are spelled there,
with or without pointers.  Reading a layout that stands somewhere gives exactly the entry that has
it, names with the case that they have there.

* `Layout.Stands` — what it means that a layout stands in octets.
* `Reads` — reading gives a value wherever a layout stands.
* `Question.reads`, `Record.reads`, `Message.reads` — the formats are read as they stand there.
-/

namespace Layout

/-- `layout.Stands known pos stop`: from `pos` to `stop` the octets are those of the layout. -/
def Stands (known : Known) : Layout → Nat → Nat → Prop
  | octets part, pos, stop => known.Holds pos part.toList ∧ stop = pos + part.size
  | name domain, pos, stop => ∃ jumps labels, jumps ≤ Name.maxJumps
      ∧ Spelled known jumps pos labels stop ∧ domain = .ofLabels labels
  | refused _, _, _ => False
  | sized body, pos, stop => ∃ length : UInt16,
      known.Holds pos [(Wire.wordOctets length).1, (Wire.wordOctets length).2]
        ∧ stop = pos + 2 + length.toNat ∧ body.Stands known (pos + 2) stop
  | andThen first rest, pos, stop =>
      ∃ middle, first.Stands known pos middle ∧ rest.Stands known middle stop

variable {a b known : Known} {layout : Layout} {pos stop : Nat}

theorem Stands.mono (h : layout.Stands a pos stop) (hab : Known.Within a b) :
    layout.Stands b pos stop := by
  induction layout generalizing pos stop with
  | octets part => exact ⟨h.1.mono hab, h.2⟩
  | name name =>
    obtain ⟨jumps, labels, hjumps, hspelled, hname⟩ := h
    exact ⟨jumps, labels, hjumps, hspelled.mono hab, hname⟩
  | refused error => exact h.elim
  | sized body ih =>
    obtain ⟨length, hlength, hstop, hbody⟩ := h
    exact ⟨length, hlength.mono hab, hstop, ih hbody⟩
  | andThen first rest ihFirst ihRest =>
    obtain ⟨middle, hfirst, hrest⟩ := h
    exact ⟨middle, ihFirst hfirst, ihRest hrest⟩

theorem Stands.pos_le_stop (h : layout.Stands known pos stop) : pos ≤ stop := by
  induction layout generalizing pos stop with
  | octets part =>
    obtain ⟨-, rfl⟩ := h
    exact Nat.le_add_right _ _
  | name name =>
    obtain ⟨_, _, _, hspelled, _⟩ := h
    exact Nat.le_of_lt hspelled.pos_lt_stop
  | refused error => exact h.elim
  | sized body ih =>
    obtain ⟨length, _, rfl, _⟩ := h
    omega
  | andThen first rest ihFirst ihRest =>
    obtain ⟨middle, hfirst, hrest⟩ := h
    exact Nat.le_trans (ihFirst hfirst) (ihRest hrest)

/-- What stands one after the other stands there as two lists of parts do. -/
theorem stands_all_append {front back : List Layout}
    (h : (all (front ++ back)).Stands known pos stop) :
    ((all front).andThen (all back)).Stands known pos stop := by
  induction front generalizing pos with
  | nil => exact ⟨pos, ⟨Known.holds_nil, rfl⟩, h⟩
  | cons first front ih =>
    obtain ⟨middle, hfirst, hrest⟩ := h
    obtain ⟨middle', hfront, hback⟩ := ih hrest
    exact ⟨middle', ⟨middle, hfirst, hfront⟩, hback⟩

end Layout

open Layout (Stands)

/-! ### Reading what stands there -/

/-- Wherever a layout stands in a message, a reading step gives the value and ends behind it. -/
def Reads {β : Type} (read : Reader β) (layout : Layout) (value : β) : Prop :=
  ∀ ⦃data : Octets⦄ ⦃pos stop : Nat⦄, data.size < Reader.offsetLimit →
    layout.Stands (Known.of data) pos stop → stop ≤ data.size → read data pos = .ok value stop

namespace Reads

variable {β γ : Type} {read : Reader β} {value : β} {layout first rest : Layout}

/-- Nothing is read where nothing stands. -/
theorem pure (value : β) : Reads (Pure.pure value) (.octets #[]) value := by
  rintro data pos _ - ⟨-, rfl⟩ -
  rfl

/-- One part after the other. -/
theorem bind {next : β → Reader γ} {result : γ} (h : Reads read first value)
    (hnext : Reads (next value) rest result) : Reads (read >>= next) (.andThen first rest) result := by
  rintro data pos stop hbounded ⟨middle, hfirst, hrest⟩ hstop
  have hmiddle : middle ≤ data.size := Nat.le_trans hrest.pos_le_stop hstop
  rw [Reader.bind_apply, h hbounded hfirst hmiddle]
  exact hnext hbounded hrest hstop

/-- Making something else of what is read. -/
theorem map (h : Reads read layout value) (f : β → γ) :
    Reads (read >>= fun value => Pure.pure (f value)) layout (f value) := by
  intro data pos stop hbounded hstands hstop
  rw [Reader.bind_apply, h hbounded hstands hstop]
  rfl

/-- Two lists of parts are read as they are read one after the other. -/
theorem append {front back : List Layout} (h : Reads read (.andThen (.all front) (.all back)) value) :
    Reads read (.all (front ++ back)) value :=
  fun _ _ _ hbounded hstands hstop => h hbounded (Layout.stands_all_append hstands) hstop

theorem octets (part : Octets) : Reads (Reader.octets part.size) (.octets part) part := by
  rintro data pos _ hbounded ⟨hheld, rfl⟩ hstop
  exact Reader.octets_of_holds hheld hstop hbounded

theorem word (n : UInt16) : Reads Reader.word (.word n) n := by
  rintro data pos _ hbounded ⟨hheld, rfl⟩ hstop
  exact Reader.word_of_holds hheld hstop hbounded

theorem long (n : UInt32) : Reads Reader.long (.long n) n := by
  obtain ⟨a, b, c, d, hoctets, hlong⟩ := Wire.long_longOctets n
  unfold Layout.long
  rw [hoctets]
  have hread := (octets #[a, b, c, d]).map fun part =>
    Wire.long (part.getD 0 0) (part.getD 1 0) (part.getD 2 0) (part.getD 3 0)
  rw [← hlong]
  exact hread

theorem name (name : Name) : Reads Name.read (.name name) name := by
  rintro data pos stop - ⟨jumps, labels, hjumps, hspelled, rfl⟩ -
  unfold Name.read
  rw [Name.readFrom_eq_ok_iff.mpr ⟨jumps, hjumps, hspelled⟩]

/-- Entries of a list are read in their order, behind those that were seen. -/
theorem manyAfter {α : Type} {layout : α → Layout} {f : α → β} {entries : List α}
    (h : ∀ entry ∈ entries, Reads read (layout entry) (f entry)) (seen : List β) :
    Reads (Reader.manyAfter read entries.length seen) (.all (entries.map layout))
      (seen.reverse ++ entries.map f) := by
  induction entries generalizing seen with
  | nil =>
    rw [show seen.reverse ++ List.map f [] = seen.reverse from List.append_nil _]
    exact Reads.pure seen.reverse
  | cons entry entries ih =>
    have hrest := ih (fun other hother => h other (List.mem_cons_of_mem _ hother)) (f entry :: seen)
    rw [List.reverse_cons, List.append_assoc] at hrest
    exact (h entry List.mem_cons_self).bind hrest

theorem many {α : Type} {layout : α → Layout} {f : α → β} {entries : List α}
    (h : ∀ entry ∈ entries, Reads read (layout entry) (f entry)) :
    Reads (Reader.many read entries.length) (.all (entries.map layout)) (entries.map f) :=
  manyAfter h []

end Reads

/-! ### Payloads -/

namespace RecordData

open Reader

/-- A body that is read as a whole, whatever its length. -/
theorem readBody_of_reads {β : Type} {type : RecordType} {layout : Layout} {read : Reader β}
    {value : β} (f : β → RecordData) (hread : ∀ length stop, readBody type length stop = f <$> read)
    (h : Reads read layout value) ⦃octets : Octets⦄ ⦃pos stop : Nat⦄
    (hbounded : octets.size < offsetLimit) (hstands : layout.Stands (Known.of octets) pos stop)
    (hstop : stop ≤ octets.size) :
    readBody type (stop - pos) stop octets pos = .ok (f value) stop := by
  rw [hread, map_eq_bind]
  exact h.map f hbounded hstands hstop

theorem reads_authority (authority : Authority) :
    Reads readAuthority (RecordData.soa authority).layout authority := by
  refine (Reads.name authority.primary).bind ?_
  refine (Reads.name authority.responsible).bind ?_
  refine (Reads.long authority.serial).bind ?_
  refine (Reads.long authority.refresh).bind ?_
  refine (Reads.long authority.retry).bind ?_
  refine (Reads.long authority.expire).bind ?_
  refine (Reads.long authority.minimum).bind ?_
  exact Reads.pure authority

theorem reads_exchange (exchange : MailExchange) :
    Reads readExchange (RecordData.mx exchange).layout exchange := by
  refine (Reads.word exchange.preference).bind ?_
  exact (Reads.name exchange.exchange).map fun name =>
    (⟨exchange.preference, name⟩ : MailExchange)

/-- **Bodies.** The body of a payload is read where its layout stands, under a type that it fits. -/
theorem readBody_of_stands {data : RecordData} {type : RecordType} (hfits : data.Fits type)
    ⦃octets : Octets⦄ ⦃pos stop : Nat⦄ (hbounded : octets.size < offsetLimit)
    (hstands : data.layout.Stands (Known.of octets) pos stop) (hstop : stop ≤ octets.size) :
    readBody type (stop - pos) stop octets pos = .ok data stop := by
  cases data with
  | a ip =>
    obtain rfl := hfits
    obtain ⟨hheld, rfl⟩ := hstands
    rw [Nat.add_sub_cancel_left, readBody]
    exact readAddress_of_holds rfl hheld hstop hbounded
  | aaaa ip =>
    obtain rfl := hfits
    obtain ⟨hheld, rfl⟩ := hstands
    rw [Nat.add_sub_cancel_left, readBody]
    refine readAddress_of_holds ?_ hheld hstop hbounded
    show (IPv6.ofOctets? ip.octets).map RecordData.aaaa = _
    rw [ip.ofOctets?_octets, Option.map_some]
  | ns host =>
    obtain rfl := hfits
    exact readBody_of_reads .ns (fun _ _ => rfl) (Reads.name host) hbounded hstands hstop
  | cname target =>
    obtain rfl := hfits
    exact readBody_of_reads .cname (fun _ _ => rfl) (Reads.name target) hbounded hstands hstop
  | ptr target =>
    obtain rfl := hfits
    exact readBody_of_reads .ptr (fun _ _ => rfl) (Reads.name target) hbounded hstands hstop
  | soa authority =>
    obtain rfl := hfits
    exact readBody_of_reads .soa (fun _ _ => rfl) (reads_authority authority) hbounded hstands hstop
  | mx exchange =>
    obtain rfl := hfits
    exact readBody_of_reads .mx (fun _ _ => rfl) (reads_exchange exchange) hbounded hstands hstop
  | txt text =>
    obtain rfl := hfits
    -- A text that cannot be written stands nowhere.
    change (textLayout text).Stands (Known.of octets) pos stop at hstands
    unfold textLayout at hstands
    by_cases hascii : text.toList.all Text.isAscii = true
    · by_cases hlong : 255 < text.length
      · rw [hascii, if_neg (by simp), if_pos hlong] at hstands
        exact hstands.elim
      · rw [hascii, if_neg (by simp), if_neg hlong] at hstands
        obtain ⟨hheld, rfl⟩ := hstands
        rw [Nat.add_sub_cancel_left]
        exact readText_of_holds hascii (Nat.le_of_not_lt hlong) hheld hstop hbounded
    · rw [Bool.eq_false_iff.mpr hascii, if_pos (by simp)] at hstands
      exact hstands.elim
  | raw part =>
    obtain ⟨hheld, rfl⟩ := hstands
    rw [Nat.add_sub_cancel_left]
    exact readRaw_of_holds hfits hheld hstop hbounded

/-- A payload is read behind its length. -/
theorem reads_sized {data : RecordData} {type : RecordType} (hfits : data.Fits type) :
    Reads (Reader.word >>= fun length => RecordData.read type length.toNat) (.sized data.layout)
      data := by
  rintro octets pos stop hbounded ⟨length, hlength, rfl, hbody⟩ hstop
  have hword := Reader.word_of_holds hlength (by omega) hbounded
  have hread := readBody_of_stands hfits hbounded hbody hstop
  rw [Nat.add_sub_cancel_left] at hread
  rw [bind_apply, hword]
  exact RecordData.read_of_body hstop hread

end RecordData

/-! ### Questions, records and messages -/

/-- The question as it is received: with the type and the class that its numbers stand for. -/
def Question.received (question : Question) : Question :=
  ⟨question.name, .ofCode question.type.code, .ofCode question.recordClass.code⟩

theorem Question.reads (question : Question) :
    Reads Question.read question.layout question.received := by
  refine (Reads.name question.name).bind ?_
  refine (Reads.word question.type.code).bind ?_
  exact (Reads.word question.recordClass.code).map fun code =>
    (⟨question.name, .ofCode question.type.code, .ofCode code⟩ : Question)

/-- The record as it is received: with the class that its number stands for, and with the lifetime
    that it was sent with. -/
def Record.received (now : Instant) (record : Record) : Record :=
  ⟨record.name, record.type, .ofCode record.recordClass.code, record.ttlAt now, none, record.data⟩

theorem Record.reads (now : Instant) {record : Record} (hfits : record.data.Fits record.type) :
    Reads Record.read (record.layout now) (record.received now) := by
  refine (Reads.name record.name).bind ?_
  refine (Reads.word record.type.code).bind ?_
  refine (Reads.word record.recordClass.code).bind ?_
  refine (Reads.long (record.ttlAt now)).bind ?_
  rw [hfits.ofCode_code, ← bind_assoc]
  exact (RecordData.reads_sized hfits).map fun data =>
    (⟨record.name, record.type, .ofCode record.recordClass.code, record.ttlAt now, none, data⟩ :
      Record)

/-- The header as it is received: with the codes that its flags have. -/
def Header.received (header : Header) : Header :=
  { Header.withFlags { id := header.id } header.flags with
    questions := header.questions, answers := header.answers, authorities := header.authorities
    additionals := header.additionals }

theorem Header.reads (header : Header) : Reads Header.read header.layout header.received := by
  refine (Reads.word header.id).bind ?_
  refine (Reads.word header.flags).bind ?_
  refine (Reads.word header.questions).bind ?_
  refine (Reads.word header.answers).bind ?_
  refine (Reads.word header.authorities).bind ?_
  refine (Reads.word header.additionals).bind ?_
  exact Reads.pure header.received

namespace Message

/-- The header has the sizes of the sections. -/
structure Counts (header : Header) (message : Message) : Prop where
  questions : header.questions.toNat = message.questions.length
  answers : header.answers.toNat = message.answers.length
  authorities : header.authorities.toNat = message.authorities.length
  additionals : header.additionals.toNat = message.additionals.length

/-- The message as it is received when it was sent at an instant, under a header. -/
def received (now : Instant) (header : Header) (message : Message) : Message where
  header := header.received
  questions := message.questions.map Question.received
  answers := message.answers.map (Record.received now)
  authorities := message.authorities.map (Record.received now)
  additionals := message.additionals.map (Record.received now)

/-- **Messages** are read as they stand there, if the header has the sizes of the sections and every
    payload fits its type. -/
theorem reads (now : Instant) {header : Header} {message : Message}
    (hcounts : message.Counts header)
    (hfits : ∀ record ∈ message.records, record.data.Fits record.type) :
    Reads Message.read (message.layout now header) (message.received now header) := by
  have hsection : ∀ section_ : List Record, (∀ record ∈ section_, record ∈ message.records) →
      Reads (Reader.many Record.read section_.length) (.all (section_.map (Record.layout now)))
        (section_.map (Record.received now)) := fun section_ hin =>
    Reads.many fun record hrecord => Record.reads now (hfits record (hin record hrecord))
  refine (Header.reads header).bind ?_
  show Reads (do
    let questions ← Reader.many Question.read header.questions.toNat
    let answers ← Reader.many Record.read header.answers.toNat
    let authorities ← Reader.many Record.read header.authorities.toNat
    let additionals ← Reader.many Record.read header.additionals.toNat
    return (⟨header.received, questions, answers, authorities, additionals, none⟩ : Message)) _ _
  rw [hcounts.questions, hcounts.answers, hcounts.authorities, hcounts.additionals]
  refine (Reads.many fun question _ => question.reads).bind ?_
  -- The records were written in one go.
  rw [records, List.map_append, List.map_append, List.append_assoc]
  refine Reads.append ((hsection message.answers fun record hrecord => ?_).bind (Reads.append
    ((hsection message.authorities fun record hrecord => ?_).bind
      ((hsection message.additionals fun record hrecord => ?_).map _))))
  all_goals simp [records, hrecord]

end Message

end DnsResolver
