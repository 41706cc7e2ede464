import DnsResolver.Message.Frame
import DnsResolver.Proofs.Message.Confined
import DnsResolver.Proofs.Message.Heard
import DnsResolver.Proofs.Name.Reading

namespace DnsResolver

/-!
# What is wrong with a message

Reading and writing a message fail in few ways, and each error says something that is true of the
octets that are read, or of the message that is written.

* `ReadFault`, `Message.fault_of_decode` — the faults of octets that are not a message.
* `Reader.Truthful` — reading steps that fail with such faults only.
* `WriteFault`, `Message.fault_of_encode` — the faults of a message that cannot be written.
* `Layout.fault_of_write` — what is wrong with a part of a message that cannot be written.
-/

/-! ### Octets of addresses -/

theorem IPv4.ofOctets?_ne_none {octets : List UInt8} (h : octets.length = 4) :
    ofOctets? octets ≠ none := by
  match octets, h with
  | [_, _, _, _], _ => exact Option.some_ne_none _

theorem IPv6.pairOctets_of_even {octets : List UInt8} {count : Nat} (h : octets.length = 2 * count) :
    ∃ groups, pairOctets octets = some groups ∧ groups.length = count := by
  -- Two octets are taken at a time, so the induction is over the number of groups.
  induction count generalizing octets with
  | zero =>
    obtain rfl : octets = [] := List.length_eq_zero_iff.mp h
    exact ⟨[], rfl, rfl⟩
  | succ count ih =>
    match octets with
    | [] => simp at h
    | [_] => simp at h; omega
    | high :: low :: rest =>
      obtain ⟨groups, hgroups, hlength⟩ := @ih rest (by simpa [Nat.mul_succ] using h)
      exact ⟨Wire.word high low :: groups, by rw [pairOctets, hgroups]; rfl, by simp [hlength]⟩

theorem IPv6.ofOctets?_ne_none {octets : List UInt8} (h : octets.length = 16) :
    ofOctets? octets ≠ none := by
  obtain ⟨groups, hgroups, hlength⟩ := pairOctets_of_even (show octets.length = 2 * 8 from h)
  rw [ofOctets?, hgroups, Option.bind_some, ofGroups?, dif_pos hlength]
  exact Option.some_ne_none _

theorem Reader.size_of_octets {length pos reached : Nat} {data part : Octets}
    (h : Reader.octets length data pos = .ok part reached) : part.size = length := by
  obtain ⟨-, hsize, rfl, -⟩ := octets_eq_ok_iff.mp h
  rw [Array.size_extract]
  omega

/-! ### Octets that are not a message -/

/-- What can be wrong with the octets of a message, as an error tells it. -/
inductive ReadFault (data : Octets) : FormatError → Prop where
  /-- Something is wrong with a name. -/
  | name {error : FormatError} (hname : Name.Fault data error) : ReadFault data error
  /-- Something was to be read up to an offset and is not there, or offsets do not go that far. -/
  | ended {offset : Nat} (hended : data.size ≤ offset ∨ Reader.offsetLimit ≤ offset + 65535) :
      ReadFault data (.endOfStream offset)
  /-- A payload goes on behind its end. -/
  | overrun {type : RecordType} {length pos reached : Nat} {found : RecordData}
      (hbody : RecordData.readBody type length (pos + length) data pos = .ok found reached)
      (hbehind : pos + length < reached) : ReadFault data (.endOfStream reached)
  /-- The payload of an address record does not have the size of an address. -/
  | family {type : RecordType} {length : Nat}
      (hfamily : type = .a ∧ length ≠ 4 ∨ type = .aaaa ∧ length ≠ 16) :
      ReadFault data (.unsupportedFamily (.payload type length))

namespace Reader

variable {α β : Type}

/-- A step whose errors are faults of the message. -/
def Truthful (step : Reader α) : Prop :=
  ∀ ⦃data : Octets⦄ ⦃pos : Nat⦄ ⦃error : FormatError⦄ ⦃reached : Nat⦄,
    step data pos = .error error reached → ReadFault data error

namespace Truthful

variable {step : Reader α} {next : α → Reader β}

theorem pure (value : α) : Truthful (pure value : Reader α) := by
  intro data pos error reached h
  exact absurd h (by simp)

theorem bind (hstep : Truthful step) (hnext : ∀ value, Truthful (next value)) :
    Truthful (step >>= next) := by
  intro data pos error reached h
  rcases bind_eq_error h with h | ⟨value, middle, -, h⟩
  · exact hstep h
  · exact hnext value h

theorem map (f : α → β) (hstep : Truthful step) : Truthful (f <$> step) := by
  rw [map_eq_bind]
  exact hstep.bind fun value => pure (f value)

theorem position : Truthful Reader.position := by
  intro data pos error reached h
  exact absurd h (by simp [Reader.position])

theorem octet : Truthful Reader.octet := by
  intro data pos error reached h
  unfold Reader.octet octetAt at h
  cases hget : data[pos]? with
  | some found =>
    rw [hget] at h
    exact absurd h (by simp)
  | none =>
    rw [hget] at h
    obtain ⟨rfl, rfl⟩ := EStateM.Result.error.inj h
    exact .ended (Or.inl (Array.getElem?_eq_none_iff.mp hget))

/-- No length of the format is longer than two octets tell. -/
theorem octets {length : Nat} (hlength : length ≤ 65535) : Truthful (Reader.octets length) := by
  intro data pos error reached h
  rw [octets_apply] at h
  by_cases hlimit : offsetLimit ≤ pos + length
  · rw [if_pos hlimit] at h
    obtain ⟨rfl, rfl⟩ := EStateM.Result.error.inj h
    exact .ended (Or.inr (by omega))
  by_cases hsize : pos + length ≤ data.size
  · rw [if_neg hlimit, if_pos hsize] at h
    exact absurd h (by simp)
  · rw [if_neg hlimit, if_neg hsize] at h
    obtain ⟨rfl, rfl⟩ := EStateM.Result.error.inj h
    exact .ended (Or.inl (by omega))

theorem word : Truthful Reader.word := (octets (by decide)).bind fun _ => pure _

theorem long : Truthful Reader.long := (octets (by decide)).bind fun _ => pure _

theorem manyAfter (hstep : Truthful step) (count : Nat) (seen : List α) :
    Truthful (Reader.manyAfter step count seen) := by
  induction count generalizing seen with
  | zero => exact pure _
  | succ count ih => exact hstep.bind fun value => ih (value :: seen)

theorem many (hstep : Truthful step) (count : Nat) : Truthful (Reader.many step count) :=
  hstep.manyAfter count []

end Truthful

end Reader

open Reader (Truthful)

theorem Name.truthful_read : Truthful Name.read := by
  intro data pos error reached h
  unfold Name.read at h
  cases hfrom : readFrom data maxJumps pos [] none with
  | ok found =>
    rw [hfrom] at h
    exact absurd h (by simp)
  | error error' =>
    rw [hfrom] at h
    obtain ⟨rfl, rfl⟩ := EStateM.Result.error.inj h
    exact .name (fault_of_readFrom hfrom)

namespace RecordData

theorem truthful_readStrings (stop bound : Nat) (seen : List String) :
    Truthful (readStrings stop bound seen) := by
  induction bound generalizing seen with
  | zero => exact .pure _
  | succ bound ih =>
    refine Truthful.position.bind fun pos => ?_
    split
    · refine Truthful.octet.bind fun length => (Truthful.octets ?_).bind fun chunk => ih _
      -- A length of one octet is far below any that could be refused as such.
      have := length.toNat_lt
      omega
    · exact .pure _

theorem truthful_readAddress {type : RecordType} {length : Nat} (hlength : length ≤ 65535)
    {address? : List UInt8 → Option RecordData}
    (hfamily : ∀ octets, octets.length = length → address? octets = none →
      type = .a ∧ length ≠ 4 ∨ type = .aaaa ∧ length ≠ 16) :
    Truthful (readAddress type length address?) := by
  intro data pos error reached h
  rcases Reader.bind_eq_error h with h | ⟨part, middle, hoctets, h⟩
  · exact Truthful.octets hlength h
  · -- The octets are there, and only their number can be wrong.
    cases haddress : address? part.toList with
    | some found =>
      simp only [haddress] at h
      exact absurd h (by simp)
    | none =>
      simp only [haddress] at h
      obtain ⟨rfl, rfl⟩ := EStateM.Result.error.inj h
      exact .family (hfamily part.toList (Reader.size_of_octets hoctets) haddress)

theorem truthful_readAuthority : Truthful readAuthority :=
  Name.truthful_read.bind fun _ => Name.truthful_read.bind fun _ => Truthful.long.bind fun _ =>
    Truthful.long.bind fun _ => Truthful.long.bind fun _ => Truthful.long.bind fun _ =>
      Truthful.long.bind fun _ => .pure _

theorem truthful_readExchange : Truthful readExchange :=
  Truthful.word.bind fun _ => Name.truthful_read.bind fun _ => .pure _

theorem truthful_readBody (type : RecordType) {length : Nat} (hlength : length ≤ 65535) (stop : Nat) :
    Truthful (readBody type length stop) := by
  cases type with
  | a =>
    rw [readBody]
    refine truthful_readAddress hlength fun octets hoctets hnone => Or.inl ⟨rfl, fun hfour => ?_⟩
    have hsome := IPv4.ofOctets?_ne_none (hoctets.trans hfour)
    exact hsome (Option.map_eq_none_iff.mp hnone)
  | aaaa =>
    rw [readBody]
    refine truthful_readAddress hlength fun octets hoctets hnone => Or.inr ⟨rfl, fun hsixteen => ?_⟩
    have hsome := IPv6.ofOctets?_ne_none (hoctets.trans hsixteen)
    exact hsome (Option.map_eq_none_iff.mp hnone)
  | ns | cname | ptr => exact Name.truthful_read.map _
  | soa => exact truthful_readAuthority.map _
  | mx => exact truthful_readExchange.map _
  | txt => exact (truthful_readStrings _ _ _).bind fun _ => .pure _
  | any | unknown _ => exact (Truthful.octets hlength).map _

/-- A payload is not there, or goes on behind its end, or something is wrong inside of it. -/
theorem truthful_read (type : RecordType) {length : Nat} (hlength : length ≤ 65535) :
    Truthful (RecordData.read type length) := by
  intro data pos error reached h
  rw [read_apply] at h
  split at h
  · next hsize =>
    obtain ⟨rfl, rfl⟩ := EStateM.Result.error.inj h
    exact .ended (Or.inl (by omega))
  · split at h
    · next hbody =>
      -- The body was read, and the question is only whether it stopped in time.
      split at h
      · next hbehind =>
        obtain ⟨rfl, rfl⟩ := EStateM.Result.error.inj h
        exact .overrun hbody hbehind
      · exact absurd h (by simp)
    · next hbody =>
      obtain ⟨rfl, rfl⟩ := EStateM.Result.error.inj h
      exact truthful_readBody type hlength _ hbody

end RecordData

theorem Question.truthful_read : Truthful Question.read :=
  Name.truthful_read.bind fun _ => Truthful.word.bind fun _ => Truthful.word.bind fun _ => .pure _

theorem Record.truthful_read : Truthful Record.read :=
  Name.truthful_read.bind fun _ => Truthful.word.bind fun _ => Truthful.word.bind fun _ =>
    Truthful.long.bind fun _ => Truthful.word.bind fun length =>
      (RecordData.truthful_read _ (Nat.le_of_lt_succ length.toNat_lt)).bind fun _ => .pure _

theorem Header.truthful_read : Truthful Header.read :=
  Truthful.word.bind fun _ => Truthful.word.bind fun _ => Truthful.word.bind fun _ =>
    Truthful.word.bind fun _ => Truthful.word.bind fun _ => Truthful.word.bind fun _ => .pure _

theorem Message.truthful_read : Truthful Message.read :=
  Header.truthful_read.bind fun _ => (Question.truthful_read.many _).bind fun _ =>
    (Record.truthful_read.many _).bind fun _ => (Record.truthful_read.many _).bind fun _ =>
      (Record.truthful_read.many _).bind fun _ => .pure _

/-- Octets that are not read as a message have a fault, and the error tells which. -/
theorem Message.fault_of_decode {octets : Octets} {error : FormatError}
    (h : decode octets = .error error) : ReadFault octets error := by
  unfold decode Reader.run at h
  cases hread : Message.read octets 0 with
  | ok message stop =>
    rw [hread] at h
    exact absurd h (by simp)
  | error error' stop =>
    rw [hread] at h
    obtain rfl := Except.error.inj h
    exact truthful_read hread

/-! ### A message that cannot be written -/

/-- What can be wrong with a label, as an error tells it. -/
inductive Label.Fault (label : Label) : FormatError → Prop where
  | long (hlong : maxLength < Text.utf8Length label) :
      Fault label (.labelTooLong (Text.utf8Length label))
  | empty (hempty : label = []) : Fault label (.invalidLabel .empty)
  | foreign (hforeign : ∃ c ∈ label, Text.isAscii c = false) :
      Fault label (.invalidLabel (.nonAscii label))

theorem Label.fault_of_checkAll {labels : List Label} {error : FormatError}
    (h : checkAll labels = .error error) : ∃ label ∈ labels, label.Fault error := by
  induction labels with
  | nil => exact absurd h (by simp [checkAll])
  | cons label labels ih =>
    rw [checkAll] at h
    cases hcheck : check label with
    | ok _ =>
      rw [hcheck] at h
      obtain ⟨other, hother, hfault⟩ := ih h
      exact ⟨other, List.mem_cons_of_mem _ hother, hfault⟩
    | error error' =>
      rw [hcheck] at h
      obtain rfl := Except.error.inj h
      refine ⟨label, List.mem_cons_self, ?_⟩
      unfold check at hcheck
      split at hcheck
      · next hlong =>
        obtain rfl := Except.error.inj hcheck
        exact .long hlong
      · split at hcheck
        · next hempty =>
          obtain rfl := Except.error.inj hcheck
          exact .empty (by simpa using hempty)
        · split at hcheck
          · next hforeign =>
            obtain rfl := Except.error.inj hcheck
            exact .foreign (by simpa using hforeign)
          · exact absurd hcheck (by simp)

namespace Layout

variable {writer after : Writer} {error : FormatError}

/-- The errors of the parts that cannot be written. -/
def refusals : Layout → List FormatError
  | octets _ | name _ => []
  | refused error => [error]
  | sized body => body.refusals
  | andThen first rest => first.refusals ++ rest.refusals

theorem refusals_all {α : Type} {layout : α → Layout} {refusals : α → List FormatError}
    (h : ∀ entry, (layout entry).refusals = refusals entry) (entries : List α) :
    (all (entries.map layout)).refusals = entries.flatMap refusals := by
  induction entries with
  | nil => rfl
  | cons entry entries ih =>
    show (layout entry).refusals ++ (all (entries.map layout)).refusals = _
    rw [h, ih, List.flatMap_cons]

/-- A part that cannot be written has a faulty label in one of its names, or a part that is refused,
    or one that is too long for its length. -/
theorem fault_of_write {layout : Layout} (h : layout.write writer = .error error after) :
    (∃ name ∈ layout.names, ∃ label ∈ name.wireLabels, Label.Fault label error)
      ∨ error ∈ layout.refusals
      ∨ ∃ size, 65535 < size ∧ error = .messageTooLarge size 65535 := by
  induction layout generalizing writer with
  | octets part =>
    have hok : (octets part).write writer = .ok () (writer.putOctets part) := rfl
    rw [hok] at h
    exact absurd h (by simp)
  | name domain =>
    -- The labels are checked before any of them is written.
    change domain.write writer = _ at h
    rw [Name.write_apply] at h
    split at h
    · exact absurd h (by simp)
    · next hcheck =>
      obtain ⟨rfl, rfl⟩ := EStateM.Result.error.inj h
      exact Or.inl ⟨domain, List.mem_singleton_self _, Label.fault_of_checkAll hcheck⟩
  | refused error' =>
    obtain ⟨rfl, rfl⟩ := EStateM.Result.error.inj h
    exact Or.inr (Or.inl (List.mem_singleton_self _))
  | sized body ih =>
    -- The size is filled in behind the body, and is refused only there.
    rw [write_sized] at h
    split at h
    · rw [Record.closePayload_eq] at h
      split at h
      · next hlarge =>
        obtain ⟨rfl, rfl⟩ := EStateM.Result.error.inj h
        exact Or.inr (Or.inr ⟨_, hlarge, rfl⟩)
      · exact absurd h (by simp)
    · next hbody =>
      obtain ⟨rfl, rfl⟩ := EStateM.Result.error.inj h
      exact ih hbody
  | andThen first rest ihFirst ihRest =>
    rw [write_andThen] at h
    split at h
    · exact (ihRest h).imp
        (fun ⟨domain, hname, hlabel⟩ => ⟨domain, List.mem_append_right _ hname, hlabel⟩)
        (Or.imp_left fun hrefused => List.mem_append_right _ hrefused)
    · next hfirst =>
      obtain ⟨rfl, rfl⟩ := EStateM.Result.error.inj h
      exact (ihFirst hfirst).imp
        (fun ⟨domain, hname, hlabel⟩ => ⟨domain, List.mem_append_left _ hname, hlabel⟩)
        (Or.imp_left fun hrefused => List.mem_append_left _ hrefused)

end Layout

/-- What can be wrong with a message that is to be written, as an error tells it. -/
inductive WriteFault (message : Message) : FormatError → Prop where
  /-- A label of one of its names cannot be written. -/
  | label {name : Name} {label : Label} {error : FormatError} (hname : name ∈ message.names)
      (hlabel : label ∈ name.wireLabels) (hfault : label.Fault error) : WriteFault message error
  /-- A text is not ASCII. -/
  | foreign {record : Record} {text : String} (hrecord : record ∈ message.records)
      (hdata : record.data = .txt text) (hforeign : ∃ c ∈ text.toList, Text.isAscii c = false) :
      WriteFault message (.invalidLabel (.textNonAscii text))
  /-- A text does not fit one character-string. -/
  | long {record : Record} {text : String} (hrecord : record ∈ message.records)
      (hdata : record.data = .txt text) (hlong : 255 < text.length) :
      WriteFault message (.invalidLabel (.textLength text.length))
  /-- A section, a payload or the whole of it does not fit the two octets of its size. -/
  | large {size : Nat} (hlarge : 65535 < size) : WriteFault message (.messageTooLarge size 65535)

namespace Message

variable {message : Message} {now : Instant} {error : FormatError}

theorem refusals_layout (now : Instant) (header : Header) (message : Message) :
    (message.layout now header).refusals
      = message.records.flatMap fun record => record.data.layout.refusals := by
  have hquestions : (Layout.all (message.questions.map Question.layout)).refusals
      = message.questions.flatMap fun _ => [] := Layout.refusals_all (fun _ => rfl) _
  have hrecords : (Layout.all (message.records.map (Record.layout now))).refusals
      = message.records.flatMap fun record => record.data.layout.refusals :=
    Layout.refusals_all (fun _ => rfl) _
  show (Layout.all _).refusals ++ (Layout.all _).refusals = _
  rw [hquestions, hrecords]
  simp

/-- Only texts are refused. -/
theorem fault_of_refused {record : Record} (hrecord : record ∈ message.records)
    (h : error ∈ record.data.layout.refusals) : WriteFault message error := by
  cases hdata : record.data with
  | txt text =>
    rw [hdata] at h
    change error ∈ (RecordData.textLayout text).refusals at h
    unfold RecordData.textLayout at h
    split at h
    · next hforeign =>
      obtain rfl := List.mem_singleton.mp h
      exact .foreign hrecord hdata (by simpa using hforeign)
    · split at h
      · next hlong =>
        obtain rfl := List.mem_singleton.mp h
        exact .long hrecord hdata hlong
      · exact absurd h List.not_mem_nil
  | _ =>
    rw [hdata] at h
    exact absurd h List.not_mem_nil

theorem fault_of_sectionSize {α : Type} {entries : List α} (h : sectionSize entries = .error error) :
    WriteFault message error := by
  unfold sectionSize at h
  split at h
  · next hlarge =>
    obtain rfl := Except.error.inj h
    exact .large hlarge
  · exact absurd h (by simp)

/-- Steps that come to an error come to it in the first one or behind it. -/
theorem error_of_bind {ε α β : Type} {step : Except ε α} {next : α → Except ε β} {error : ε}
    (h : step >>= next = .error error) :
    step = .error error ∨ ∃ first, step = .ok first ∧ next first = .error error := by
  cases step with
  | error error' => exact Or.inl (congrArg _ (Except.error.inj h))
  | ok first => exact Or.inr ⟨first, rfl, h⟩

theorem fault_of_sizedHeader (h : message.sizedHeader = .error error) : WriteFault message error := by
  unfold sizedHeader at h
  rcases error_of_bind h with h | ⟨_, -, h⟩
  · exact fault_of_sectionSize h
  rcases error_of_bind h with h | ⟨_, -, h⟩
  · exact fault_of_sectionSize h
  rcases error_of_bind h with h | ⟨_, -, h⟩
  · exact fault_of_sectionSize h
  rcases error_of_bind h with h | ⟨_, -, h⟩
  · exact fault_of_sectionSize h
  · exact absurd h (by rintro ⟨⟩)

/-- A message that is not written has a fault, and the error tells which. -/
theorem fault_of_encode (h : message.encode now = .error error) : WriteFault message error := by
  rcases error_of_bind h with h | ⟨header, -, h⟩
  · exact fault_of_sizedHeader h
  · unfold Writer.build at h
    rw [← write_layout] at h
    split at h
    · exact absurd h (by simp)
    · next hwrite =>
      -- The names and the refused parts of the layout are those of the message.
      obtain rfl := Except.error.inj h
      rcases Layout.fault_of_write hwrite with ⟨name, hname, label, hlabel, hfault⟩ | hrefused | hlarge
      · exact .label (names_layout now header message ▸ hname) hlabel hfault
      · rw [refusals_layout] at hrefused
        obtain ⟨record, hrecord, hrefused⟩ := List.mem_flatMap.mp hrefused
        exact fault_of_refused hrecord hrefused
      · obtain ⟨size, hlarge, rfl⟩ := hlarge
        exact .large hlarge

/-- Neither is a message written that does not fit a frame. -/
theorem fault_of_encodeFrame (h : message.encodeFrame now = .error error) :
    WriteFault message error := by
  rcases error_of_bind h with h | ⟨octets, -, h⟩
  · exact fault_of_encode h
  · unfold Frame.wrap at h
    split at h
    · next hlarge =>
      obtain rfl := Except.error.inj h
      exact .large hlarge
    · exact absurd h (by simp)

end Message

end DnsResolver
