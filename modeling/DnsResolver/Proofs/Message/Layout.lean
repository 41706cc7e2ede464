import DnsResolver.Message.Basic
import DnsResolver.Proofs.Message.Payload
import DnsResolver.Proofs.Name.Written

namespace DnsResolver

open Writer (Extends PutsName)

/-!
# What is put on the wire, as data

Headers, questions, payloads and records differ in what they hold, but all of them are written as
octets, names and parts behind their length.  A `Layout` says which of them stand in what order, so
that what holds of every writing needs one induction over layouts and no look at the formats.

* `Layout.write` — writing what a layout says.
* `Question.write_layout`, `Record.write_layout`, `Message.write_layout` — the layouts of the formats
  are written as the formats are.
* `Layout.names`, `Layout.lengths` — the names in a layout, and the lengths that are filled in.
* `Layout.keeps` — what is written leaves everything in front of it alone, and the remembered names
  readable.
-/

/-- The writer that a step leaves, whether it fails or not. -/
def Writing.left (step : Writing Unit) (writer : Writer) : Writer :=
  match step writer with
  | .ok _ writer => writer
  | .error _ writer => writer

theorem Writing.left_of_ok {step : Writing Unit} {writer after : Writer}
    (h : step writer = .ok () after) : Writing.left step writer = after := by
  unfold Writing.left
  rw [h]

theorem Writing.left_of_error {step : Writing Unit} {writer after : Writer} {error : FormatError}
    (h : step writer = .error error after) : Writing.left step writer = after := by
  unfold Writing.left
  rw [h]

theorem Writing.bind_apply (step next : Writing Unit) (writer : Writer) :
    (do step; next) writer
      = match step writer with
        | .ok _ writer => next writer
        | .error error writer => .error error writer := by
  show EStateM.bind step (fun _ => next) writer = _
  unfold EStateM.bind
  cases step writer <;> rfl

/-- A sequence that succeeds ran both of its steps. -/
theorem Writing.bind_eq_ok {step next : Writing Unit} {writer after : Writer}
    (h : (do step; next) writer = .ok () after) :
    ∃ middle, step writer = .ok () middle ∧ next middle = .ok () after := by
  rw [bind_apply] at h
  cases hstep : step writer with
  | ok _ middle =>
    rw [hstep] at h
    exact ⟨middle, rfl, h⟩
  | error error middle =>
    rw [hstep] at h
    exact absurd h (by simp)

/-- A part of a message. -/
inductive Layout where
  | octets (part : Octets)
  | name (name : Name)
  /-- A part that cannot be written. -/
  | refused (error : FormatError)
  /-- A part behind its length. -/
  | sized (body : Layout)
  | andThen (first rest : Layout)

namespace Layout

/-- A number of two octets. -/
def word (n : UInt16) : Layout := .octets #[(Wire.wordOctets n).1, (Wire.wordOctets n).2]

/-- A number of four octets. -/
def long (n : UInt32) : Layout := .octets (Wire.longOctets n).toArray

/-- Parts one after the other. -/
def all : List Layout → Layout
  | [] => .octets #[]
  | first :: rest => .andThen first (all rest)

/-- Writes a part of a message. A length is left open until what it counts is written. -/
def write : Layout → Writing Unit
  | octets part => modify fun writer => writer.putOctets part
  | name domain => domain.write
  | refused error => throw error
  | sized body => do
    let offset := (← get).size
    modify fun writer => writer.putWord 0
    body.write
    Record.closePayload offset
  | andThen first rest => do
    first.write
    rest.write

/-- The names in a part of a message, in the order they are written. -/
def names : Layout → List Name
  | octets _ | refused _ => []
  | name domain => [domain]
  | sized body => body.names
  | andThen first rest => first.names ++ rest.names

/-- The lengths that are filled in while a part is written behind what a writer holds. -/
def lengths : Layout → Writer → List Nat
  | octets _, _ | name _, _ | refused _, _ => []
  | sized body, writer =>
    let opened := writer.putWord 0
    ((Writing.left body.write opened).size - opened.size) :: body.lengths opened
  | andThen first rest, writer =>
    first.lengths writer ++ rest.lengths (Writing.left first.write writer)

/-! ### Writing, case by case -/

variable {first rest body : Layout} {writer after : Writer}

theorem octets_eq_ok {part : Octets} (h : (octets part).write writer = .ok () after) :
    after = writer.putOctets part := by
  injection h with _ hafter
  exact hafter.symm

theorem write_andThen (first rest : Layout) (writer : Writer) :
    (andThen first rest).write writer
      = match first.write writer with
        | .ok _ writer => rest.write writer
        | .error error writer => .error error writer :=
  Writing.bind_apply first.write rest.write writer

theorem write_sized (body : Layout) (writer : Writer) :
    (sized body).write writer
      = match body.write (writer.putWord 0) with
        | .ok _ filled => Record.closePayload writer.size filled
        | .error error filled => .error error filled :=
  Writing.bind_apply body.write (Record.closePayload writer.size) (writer.putWord 0)

/-- A sequence that is written was written part by part. -/
theorem andThen_eq_ok (h : (andThen first rest).write writer = .ok () after) :
    ∃ middle, first.write writer = .ok () middle ∧ rest.write middle = .ok () after :=
  Writing.bind_eq_ok h

end Layout

/-- A length that does not fit two octets is not filled in. -/
theorem Record.closePayload_eq (offset : Nat) (writer : Writer) :
    closePayload offset writer
      = if 65535 < writer.size - offset - 2 then
          .error (.messageTooLarge (writer.size - offset - 2) 65535) writer
        else .ok () (writer.patch offset (UInt16.ofNat (writer.size - offset - 2))) := by
  show (if 65535 < writer.size - offset - 2 then _ else _ : Writing Unit) writer = _
  split <;> rfl

namespace Layout

variable {body : Layout} {writer after : Writer}

/-- A part behind its length is written if the part is, and its length fits two octets. -/
theorem sized_eq_ok (h : (sized body).write writer = .ok () after) :
    ∃ filled, body.write (writer.putWord 0) = .ok () filled
      ∧ filled.size - writer.size - 2 ≤ 65535
      ∧ after = filled.patch writer.size (UInt16.ofNat (filled.size - writer.size - 2)) := by
  rw [write_sized] at h
  cases hbody : body.write (writer.putWord 0) with
  | error error filled =>
    rw [hbody] at h
    exact absurd h (by simp)
  | ok _ filled =>
    rw [hbody] at h
    dsimp only at h
    rw [Record.closePayload_eq] at h
    split at h
    · exact absurd h (by simp)
    · next hfits =>
      refine ⟨filled, rfl, by omega, ?_⟩
      injection h with _ hafter
      exact hafter.symm

theorem write_word (n : UInt16) : (word n).write = modify fun writer => writer.putWord n := by
  have hput : (fun writer : Writer => writer.putWord n)
      = fun writer => writer.putOctets #[(Wire.wordOctets n).1, (Wire.wordOctets n).2] :=
    funext fun writer => Writer.putWord_eq writer n
  rw [hput]
  rfl

theorem write_long (n : UInt32) : (long n).write = modify fun writer => writer.putLong n := by
  have hput : (fun writer : Writer => writer.putLong n)
      = fun writer => writer.putOctets (Wire.longOctets n).toArray :=
    funext fun writer => Writer.putLong_eq writer n
  rw [hput]
  rfl

/-- Entries of a list are written one after the other. -/
theorem write_all {α : Type} {layout : α → Layout} {write : α → Writing Unit}
    (h : ∀ entry, (layout entry).write = write entry) (entries : List α) :
    (all (entries.map layout)).write = entries.forM write := by
  induction entries with
  | nil =>
    funext writer
    show EStateM.Result.ok () (writer.putOctets #[]) = .ok () writer
    simp [Writer.putOctets]
  | cons entry entries ih =>
    show (do (layout entry).write; (all (entries.map layout)).write) = _
    rw [h, ih]
    rfl

end Layout

/-! ### The layouts of the formats -/

/-- The identifier, the flags and the sizes of the sections. -/
def Header.layout (header : Header) : Layout :=
  .all ([header.id, header.flags, header.questions, header.answers, header.authorities,
    header.additionals].map .word)

theorem Header.write_layout (header : Header) : header.layout.write = modify header.write := by
  have hwords := Layout.write_all Layout.write_word [header.id, header.flags, header.questions,
    header.answers, header.authorities, header.additionals]
  exact hwords

/-- A name, and the numbers of a type and a class. -/
def Question.layout (question : Question) : Layout :=
  .andThen (.name question.name) <|
    .andThen (.word question.type.code) (.word question.recordClass.code)

theorem Question.write_layout (question : Question) : question.layout.write = question.write := by
  show (do
    question.name.write
    (Layout.word question.type.code).write
    (Layout.word question.recordClass.code).write) = _
  rw [Layout.write_word, Layout.write_word]
  rfl

namespace RecordData

/-- A text is one character-string, which starts with its length. -/
def textLayout (text : String) : Layout :=
  if !text.toList.all Text.isAscii then .refused (.invalidLabel (.textNonAscii text))
  else if 255 < text.length then .refused (.invalidLabel (.textLength text.length))
  else .octets (#[UInt8.ofNat text.length] ++ Label.octets text.toList)

/-- What a payload holds. -/
def layout : RecordData → Layout
  | a ip => .octets ip.octets.toArray
  | aaaa ip => .octets ip.octets.toArray
  | ns name | cname name | ptr name => .name name
  | soa authority =>
    .andThen (.name authority.primary) <| .andThen (.name authority.responsible) <|
      .all ([authority.serial, authority.refresh, authority.retry, authority.expire,
        authority.minimum].map .long)
  | mx exchange => .andThen (.word exchange.preference) (.name exchange.exchange)
  | txt text => textLayout text
  | raw octets => .octets octets

theorem write_layout (data : RecordData) : data.layout.write = data.write := by
  cases data with
  | soa authority =>
    have hnumbers := Layout.write_all Layout.write_long [authority.serial, authority.refresh,
      authority.retry, authority.expire, authority.minimum]
    show (do
      authority.primary.write
      authority.responsible.write
      (Layout.all _).write) = _
    rw [hnumbers]
    rfl
  | mx exchange =>
    show (do (Layout.word exchange.preference).write; exchange.exchange.write) = _
    rw [Layout.write_word]
    rfl
  | txt text =>
    show (textLayout text).write = writeText text
    have hput : (fun writer : Writer => writer.putLabel text.toList)
        = fun writer => writer.putOctets (#[UInt8.ofNat text.length] ++ Label.octets text.toList) := by
      funext writer
      rw [← String.length_toList, Writer.putLabel, Writer.putOctet_eq, Writer.putOctets_putOctets]
    unfold textLayout writeText
    rw [hput]
    split
    · rfl
    · split <;> rfl
  | _ => rfl

end RecordData

/-- The owner, what is known about the payload, and the payload behind its length. -/
def Record.layout (now : Instant) (record : Record) : Layout :=
  .andThen (.name record.name) <| .andThen (.word record.type.code) <|
    .andThen (.word record.recordClass.code) <| .andThen (.long (record.ttlAt now)) <|
      .sized record.data.layout

theorem Record.write_layout (now : Instant) (record : Record) :
    (record.layout now).write = record.write now := by
  show (do
    record.name.write
    (Layout.word record.type.code).write
    (Layout.word record.recordClass.code).write
    (Layout.long (record.ttlAt now)).write
    let offset := (← get).size
    modify fun writer : Writer => writer.putWord 0
    record.data.layout.write
    closePayload offset) = _
  rw [Layout.write_word, Layout.write_word, Layout.write_long, RecordData.write_layout]
  rfl

/-- A header, the questions and the records. -/
def Message.layout (now : Instant) (header : Header) (message : Message) : Layout :=
  .andThen header.layout <| .andThen (.all (message.questions.map Question.layout))
    (.all (message.records.map (Record.layout now)))

theorem Message.write_layout (now : Instant) (header : Header) (message : Message) :
    (message.layout now header).write = message.writeSections now header := by
  show (do
    header.layout.write
    (Layout.all (message.questions.map Question.layout)).write
    (Layout.all (message.records.map (Record.layout now))).write) = _
  rw [Header.write_layout, Layout.write_all Question.write_layout,
    Layout.write_all (Record.write_layout now)]
  rfl

/-! ### What a writing keeps -/

namespace Writer

variable {pending : List Nat} {before middle after filled : Writer}

/-- What is no longer pending is known, whatever stands there. -/
theorem Sound.settled {open' : List Nat} (h : before.Sound open') (hsub : ∀ i ∈ pending, i ∈ open') :
    before.Sound pending where
  pending_lt i hi := h.pending_lt i (hsub i hi)
  names name hname := (h.names name hname).mono fun i octet hi => by
    unfold known at hi ⊢
    split at hi
    · exact absurd hi (by simp)
    · next hnot => rw [if_neg fun hmem => hnot (hsub i hmem), hi]

/-- Filling a length in keeps every name readable that was without it. -/
theorem Sound.patch {offset : Nat} {n : UInt16}
    (h : filled.Sound (offset :: (offset + 1) :: pending)) :
    (filled.patch offset n).Sound pending where
  pending_lt i hi := by
    rw [size_patch]
    exact h.pending_lt i (List.mem_cons_of_mem _ (List.mem_cons_of_mem _ hi))
  names name hname := (h.names name hname).mono (known_within_patch pending)

/-- What a writing keeps of a writer, whether it succeeds or not. -/
structure Keeps (pending : List Nat) (before after : Writer) : Prop where
  onward : Extends before after
  sound : after.Sound pending
  compress : after.compress = before.compress

theorem Keeps.refl (h : before.Sound pending) : Keeps pending before before :=
  ⟨Extends.refl before, h, rfl⟩

theorem Keeps.trans (h : Keeps pending before middle) (h' : Keeps pending middle after) :
    Keeps pending before after :=
  ⟨h.onward.trans h'.onward, h'.sound, h'.compress.trans h.compress⟩

end Writer

namespace Name

/-- A name that cannot be written leaves the writer as it is. -/
theorem left_write (name : Name) (writer : Writer) :
    Writing.left name.write writer
      = match Label.checkAll name.wireLabels with
        | .ok _ => writer.putLabels name.wireLabels
        | .error _ => writer := by
  unfold Writing.left
  rw [write_apply]
  cases Label.checkAll name.wireLabels <;> rfl

/-- A name that is written consists of ordinary labels. -/
theorem write_eq_ok {name : Name} {writer after : Writer} (h : name.write writer = .ok () after) :
    (∀ label ∈ name.wireLabels, label.Ordinary) ∧ after = writer.putLabels name.wireLabels := by
  rw [write_apply] at h
  cases hcheck : Label.checkAll name.wireLabels with
  | error error =>
    rw [hcheck] at h
    exact absurd h (by simp)
  | ok _ =>
    rw [hcheck] at h
    injection h with _ hafter
    exact ⟨Label.checkAll_eq_ok_iff.mp hcheck, hafter.symm⟩

end Name

namespace Layout

variable {first rest body : Layout} {pending : List Nat} {writer before : Writer}

theorem left_andThen (first rest : Layout) (writer : Writer) :
    Writing.left (andThen first rest).write writer
      = match first.write writer with
        | .ok _ middle => Writing.left rest.write middle
        | .error _ middle => middle := by
  unfold Writing.left
  rw [write_andThen]
  cases first.write writer <;> rfl

/-- A part behind its length leaves what the part leaves, with the length filled in or not. -/
theorem left_sized (body : Layout) (writer : Writer) :
    Writing.left (sized body).write writer = Writing.left body.write (writer.putWord 0)
      ∨ ∃ n, Writing.left (sized body).write writer
          = (Writing.left body.write (writer.putWord 0)).patch writer.size n := by
  unfold Writing.left
  rw [write_sized]
  cases body.write (writer.putWord 0) with
  | error error filled => exact Or.inl rfl
  | ok _ filled =>
    dsimp only
    rw [Record.closePayload_eq]
    by_cases hlarge : 65535 < filled.size - writer.size - 2
    · rw [if_pos hlarge]
      exact Or.inl rfl
    · rw [if_neg hlarge]
      exact Or.inr ⟨_, rfl⟩

/-- **What a writing keeps.** Whether it succeeds or fails midway, what stands in front of it stays
    as it is, and every name that is remembered then can be read. -/
theorem keeps (layout : Layout) (h : before.Sound pending) :
    Writer.Keeps pending before (Writing.left layout.write before) := by
  induction layout generalizing pending before with
  | octets part =>
    have hext := Writer.extends_putOctets before part
    exact ⟨hext, h.of_extends hext rfl, rfl⟩
  | name name =>
    show Writer.Keeps pending before (Writing.left name.write before)
    rw [name.left_write]
    cases hcheck : Label.checkAll name.wireLabels with
    | error error => exact Writer.Keeps.refl h
    | ok _ =>
      have hputs : PutsName pending name.wireLabels before (before.putLabels name.wireLabels) :=
        Writer.putsName (Label.checkAll_eq_ok_iff.mp hcheck) h
      exact ⟨hputs.extends_before, hputs.sound h, by rw [Writer.putLabels_eq]⟩
  | refused error => exact Writer.Keeps.refl h
  | sized body ih =>
    -- While the part is written, the two octets of its length are pending as well.
    have hbody := ih h.reserve
    have hcompress := hbody.compress
    rcases left_sized body before with hleft | ⟨n, hleft⟩
    · rw [hleft]
      refine ⟨(Writer.extends_putWord before 0).trans hbody.onward, ?_, hcompress⟩
      exact hbody.sound.settled fun i hi => List.mem_cons_of_mem _ (List.mem_cons_of_mem _ hi)
    · rw [hleft]
      exact ⟨Writer.extends_patch hbody.onward, hbody.sound.patch, hcompress⟩
  | andThen first rest ihFirst ihRest =>
    rw [left_andThen]
    have hfirst := ihFirst h
    cases hwrite : first.write before with
    | error error middle =>
      rw [Writing.left_of_error hwrite] at hfirst
      exact hfirst
    | ok _ middle =>
      rw [Writing.left_of_ok hwrite] at hfirst
      exact hfirst.trans (ihRest hfirst.sound)

theorem keeps_of_ok {layout : Layout} {after : Writer} (h : before.Sound pending)
    (hwrite : layout.write before = .ok () after) : Writer.Keeps pending before after := by
  have hkeeps := layout.keeps h
  rwa [Writing.left_of_ok hwrite] at hkeeps

end Layout

end DnsResolver
