import DnsResolver.Proofs.Message.Echo

namespace DnsResolver

/-!
# Messages that are written, heard and written again

A message that was written is heard with the names in it in some case and without trailing dots.
Written again, it comes to the same octets.

* `Message.names`, `Message.mapNames` — the names in a message, and the message with other ones.
* `Message.heard` — a layout like that of a message is the layout of a message like it.
* `Layout.size_le_room` — how many octets a layout can take.
* `Message.written_heard` — what was written is read as a message that is written in the same way.
* `Message.encode_decode_encode` — encoding what an encoded message is decoded to changes no octet.
-/

/-! ### The names in a message -/

namespace RecordData

/-- The names in a payload. -/
def names : RecordData → List Name
  | ns name | cname name | ptr name => [name]
  | soa authority => [authority.primary, authority.responsible]
  | mx exchange => [exchange.exchange]
  | a _ | aaaa _ | txt _ | raw _ => []

/-- The payload with every name in it changed. -/
def mapNames (change : Name → Name) : RecordData → RecordData
  | ns host => .ns (change host)
  | cname target => .cname (change target)
  | ptr target => .ptr (change target)
  | soa authority => .soa { authority with
      primary := change authority.primary
      responsible := change authority.responsible }
  | mx exchange => .mx { exchange with exchange := change exchange.exchange }
  | data => data

theorem names_layout (data : RecordData) : data.layout.names = data.names := by
  cases data with
  | txt text =>
    show (textLayout text).names = []
    unfold textLayout
    split
    · rfl
    · split <;> rfl
  | _ => rfl

/-- Folding names is changing them. -/
theorem fold_eq_mapNames (data : RecordData) : data.fold = data.mapNames Name.fold := by
  cases data <;> rfl

theorem type?_mapNames (change : Name → Name) (data : RecordData) :
    (data.mapNames change).type? = data.type? := by
  cases data <;> rfl

/-- Whether a payload fits a type is not decided by the names in it. -/
theorem Fits.of_fold {data found : RecordData} {change : Name → Name} {type : RecordType}
    (h : data.Fits type) (hfold : found.fold = (data.mapNames change).fold) : found.Fits type := by
  have htype : found.type? = data.type? := by
    rw [← type?_mapNames Name.fold found, ← fold_eq_mapNames, hfold, fold_eq_mapNames,
      type?_mapNames, type?_mapNames]
  unfold Fits
  rwa [htype]

end RecordData

/-- The question with its name changed. -/
def Question.mapNames (change : Name → Name) (question : Question) : Question :=
  { question with name := change question.name }

/-- The names in a record. -/
def Record.names (record : Record) : List Name := record.name :: record.data.names

/-- The record with every name in it changed. -/
def Record.mapNames (change : Name → Name) (record : Record) : Record :=
  { record with name := change record.name, data := record.data.mapNames change }

namespace Message

/-- The names in a message. -/
def names (message : Message) : List Name :=
  message.questions.map Question.name ++ message.records.flatMap Record.names

/-- The message with every name in it changed. -/
def mapNames (change : Name → Name) (message : Message) : Message :=
  { message.mapRecords (Record.mapNames change) with
    questions := message.questions.map (Question.mapNames change) }

end Message

namespace Layout

/-- The names in entries of a list. -/
theorem names_all {α : Type} {layout : α → Layout} {names : α → List Name}
    (h : ∀ entry, (layout entry).names = names entry) (entries : List α) :
    (all (entries.map layout)).names = entries.flatMap names := by
  induction entries with
  | nil => rfl
  | cons entry entries ih =>
    show (layout entry).names ++ (all (entries.map layout)).names = _
    rw [h, ih, List.flatMap_cons]

end Layout

/-- A layout without names is heard as it is. -/
theorem Layout.Alike.eq_of_names {layout heard : Layout} (h : layout.Alike heard)
    (hnames : layout.names = []) : heard = layout := by
  induction layout generalizing heard with
  | octets part => exact h
  | name name => exact absurd hnames (List.cons_ne_nil _ _)
  | refused error => exact h.elim
  | sized body ih =>
    obtain ⟨body', rfl, hbody⟩ := h
    rw [ih hbody hnames]
  | andThen first rest ihFirst ihRest =>
    obtain ⟨first', rest', rfl, hfirst, hrest⟩ := h
    obtain ⟨hnone, hnone'⟩ := List.append_eq_nil_iff.mp hnames
    rw [ihFirst hfirst hnone, ihRest hrest hnone']

theorem Message.names_layout (now : Instant) (header : Header) (message : Message) :
    (message.layout now header).names = message.names := by
  have hquestions : (Layout.all (message.questions.map Question.layout)).names
      = message.questions.flatMap fun question => [question.name] :=
    Layout.names_all (fun _ => rfl) _
  have hrecords : (Layout.all (message.records.map (Record.layout now))).names
      = message.records.flatMap Record.names := Layout.names_all (fun record => by
    show record.name :: record.data.layout.names = record.name :: record.data.names
    rw [record.data.names_layout]) _
  show (Layout.all _).names ++ (Layout.all _).names = _
  rw [hquestions, hrecords, Message.names, List.map_eq_flatMap]

/-! ### Formats in another case -/

/-- Layouts like those of entries are the layouts of entries, if that is so for each of them. -/
theorem Layout.heard_all {α β : Type} {layout : α → Layout} {f g : α → β}
    (h : ∀ entry heard, (layout entry).Alike heard → ∃ found, layout found = heard ∧ f found = g entry)
    {entries : List α} {heard : Layout} (halike : (all (entries.map layout)).Alike heard) :
    ∃ found : List α, all (found.map layout) = heard ∧ found.map f = entries.map g := by
  induction entries generalizing heard with
  | nil => exact ⟨[], halike.symm, rfl⟩
  | cons entry entries ih =>
    obtain ⟨first', rest', rfl, hfirst, hrest⟩ := halike
    obtain ⟨first, rfl, hsame⟩ := h entry first' hfirst
    obtain ⟨rest, rfl, hsame'⟩ := ih hrest
    refine ⟨first :: rest, rfl, ?_⟩
    rw [List.map_cons, List.map_cons, hsame, hsame']

/-- A layout like that of a payload is the layout of a payload. -/
theorem RecordData.heard {data : RecordData} {heard : Layout} (h : data.layout.Alike heard) :
    ∃ found : RecordData, found.layout = heard ∧ found.fold = (data.mapNames Name.dropDot).fold := by
  cases data with
  | a ip => exact ⟨.a ip, h.symm, rfl⟩
  | aaaa ip => exact ⟨.aaaa ip, h.symm, rfl⟩
  | ns host =>
    obtain ⟨found, rfl, hfound⟩ := h
    exact ⟨.ns found, rfl, congrArg RecordData.ns hfound⟩
  | cname target =>
    obtain ⟨found, rfl, hfound⟩ := h
    exact ⟨.cname found, rfl, congrArg RecordData.cname hfound⟩
  | ptr target =>
    obtain ⟨found, rfl, hfound⟩ := h
    exact ⟨.ptr found, rfl, congrArg RecordData.ptr hfound⟩
  | soa authority =>
    obtain ⟨_, _, rfl, ⟨primary, rfl, hprimary⟩, h⟩ := h
    obtain ⟨_, rest, rfl, ⟨responsible, rfl, hresponsible⟩, hrest⟩ := h
    -- Behind the two names there are numbers only.
    rw [hrest.eq_of_names rfl]
    refine ⟨.soa { authority with primary := primary, responsible := responsible }, rfl, ?_⟩
    simp only [fold, mapNames, hprimary, hresponsible]
  | mx exchange =>
    obtain ⟨_, _, rfl, rfl, found, rfl, hfound⟩ := h
    refine ⟨.mx { exchange with exchange := found }, rfl, ?_⟩
    simp only [fold, mapNames, hfound]
  | txt text => exact ⟨.txt text, (h.eq_of_names (RecordData.txt text).names_layout).symm, rfl⟩
  | raw octets => exact ⟨.raw octets, h.symm, rfl⟩

theorem Question.heard {question : Question} {heard : Layout} (h : question.layout.Alike heard) :
    ∃ found : Question, found.layout = heard ∧ found.fold = (question.mapNames Name.dropDot).fold := by
  obtain ⟨_, _, rfl, ⟨name, rfl, hname⟩, hrest⟩ := h
  rw [hrest.eq_of_names rfl]
  refine ⟨{ question with name := name }, rfl, ?_⟩
  simp only [fold, mapNames, hname]

theorem Record.heard {now : Instant} {record : Record} {heard : Layout}
    (h : (record.layout now).Alike heard) :
    ∃ found : Record, found.layout now = heard ∧ found.fold = (record.mapNames Name.dropDot).fold := by
  obtain ⟨_, _, rfl, ⟨name, rfl, hname⟩, h⟩ := h
  obtain ⟨_, _, rfl, rfl, _, _, rfl, rfl, _, _, rfl, rfl, _, rfl, hbody⟩ := h
  obtain ⟨data, rfl, hdata⟩ := RecordData.heard hbody
  refine ⟨{ record with name := name, data := data }, rfl, ?_⟩
  simp only [fold, mapNames, hname, hdata]

namespace Message

/-- A layout like that of a message is the layout of a message like it. -/
theorem heard {now : Instant} {header : Header} {message : Message} {heard : Layout}
    (h : (message.layout now header).Alike heard) :
    ∃ found : Message, found.layout now header = heard
      ∧ found.SameSections (message.mapNames Name.dropDot) := by
  obtain ⟨_, _, rfl, hheader, _, _, rfl, halike, halike'⟩ := h
  rw [hheader.eq_of_names rfl]
  obtain ⟨questions, rfl, hquestions⟩ := Layout.heard_all (fun _ _ => Question.heard) halike
  obtain ⟨records, rfl, hrecords⟩ := Layout.heard_all (fun _ _ => Record.heard) halike'
  -- The records of the sections were written in one go.
  rw [Message.records, List.map_append, List.map_append] at hrecords
  obtain ⟨front, additionals, rfl, hfront, hadditionals⟩ := List.map_eq_append_iff.mp hrecords
  obtain ⟨answers, authorities, rfl, hanswers, hauthorities⟩ := List.map_eq_append_iff.mp hfront
  refine ⟨⟨message.header, questions, answers, authorities, additionals, none⟩, rfl, ?_⟩
  refine ⟨hquestions.trans ?_, hanswers.trans ?_, hauthorities.trans ?_, hadditionals.trans ?_⟩
  all_goals simp only [mapNames, mapRecords, List.map_map, Function.comp_def]

/-- The records of messages with the same sections are the same. -/
theorem SameSections.records {a b : Message} (h : a.SameSections b) :
    a.records.map Record.fold = b.records.map Record.fold := by
  unfold Message.records
  simp only [List.map_append, h.answers, h.authorities, h.additionals]

/-- A header with the sizes of the sections has those of the same sections. -/
theorem Counts.of_same {header : Header} {found message : Message} (h : message.Counts header)
    (hsame : found.SameSections (message.mapNames Name.dropDot)) : found.Counts header := by
  have hquestions := congrArg List.length hsame.questions
  have hanswers := congrArg List.length hsame.answers
  have hauthorities := congrArg List.length hsame.authorities
  have hadditionals := congrArg List.length hsame.additionals
  simp only [mapNames, mapRecords, List.length_map] at hquestions hanswers hauthorities hadditionals
  exact ⟨h.questions.trans hquestions.symm, h.answers.trans hanswers.symm,
    h.authorities.trans hauthorities.symm, h.additionals.trans hadditionals.symm⟩

/-- Records in the same sections, one by one. -/
theorem records_of_same {found message : Message}
    (hsame : found.SameSections (message.mapNames Name.dropDot)) :
    found.records.map Record.fold
      = message.records.map fun record => (record.mapNames Name.dropDot).fold := by
  rw [hsame.records]
  simp [Message.records, mapNames, mapRecords, Function.comp_def]

/-- The payloads in the same sections fit their types. -/
theorem fits_of_same {found message : Message}
    (h : ∀ record ∈ message.records, record.data.Fits record.type)
    (hsame : found.SameSections (message.mapNames Name.dropDot)) :
    ∀ record ∈ found.records, record.data.Fits record.type := by
  intro record hrecord
  obtain ⟨other, hother, hfold⟩ :=
    List.mem_map.mp (records_of_same hsame ▸ List.mem_map_of_mem hrecord)
  have htype := congrArg Record.type hfold
  have hdata := congrArg Record.data hfold
  change other.type = record.type at htype
  exact htype ▸ (h other hother).of_fold hdata.symm

end Message

/-! ### How many octets a message can take -/

namespace Layout

/-- As many octets as a layout can take. -/
def room : Layout → Nat
  | octets part => part.size
  | name domain => 64 * domain.wireLabels.length + 1
  | refused _ => 0
  | sized _ => 65537
  | andThen first rest => first.room + rest.room

/-- A layout that is written takes no more octets than there is room for. -/
theorem size_le_room {layout : Layout} {pending : List Nat} {before after : Writer}
    (hsound : before.Sound pending) (hwrite : layout.write before = .ok () after) :
    after.size ≤ before.size + layout.room := by
  induction layout generalizing pending before after with
  | octets part =>
    obtain rfl := octets_eq_ok hwrite
    exact Nat.le_of_eq (Writer.size_putOctets before part)
  | name name =>
    obtain ⟨hlabels, rfl⟩ := Name.write_eq_ok hwrite
    exact (Writer.putsName hlabels hsound).size_le
  | refused error => exact absurd hwrite (by rintro ⟨⟩)
  | sized body ih =>
    obtain ⟨filled, hbody, hfits, rfl⟩ := sized_eq_ok hwrite
    rw [Writer.size_patch, room]
    omega
  | andThen first rest ihFirst ihRest =>
    obtain ⟨middle, hfirst, hrest⟩ := andThen_eq_ok hwrite
    have hkeeps := keeps_of_ok hsound hfirst
    have hfront := ihFirst hsound hfirst
    have hback := ihRest hkeeps.sound hrest
    rw [room]
    omega

theorem room_all {α : Type} {layout : α → Layout} {bound : Nat} {entries : List α}
    (h : ∀ entry ∈ entries, (layout entry).room ≤ bound) :
    (all (entries.map layout)).room ≤ entries.length * bound := by
  induction entries with
  | nil => exact Nat.zero_le _
  | cons entry entries ih =>
    have hentry := h entry List.mem_cons_self
    have hrest := ih fun other hother => h other (List.mem_cons_of_mem _ hother)
    show (layout entry).room + (all (entries.map layout)).room ≤ (entries.length + 1) * bound
    rw [Nat.succ_mul]
    omega

end Layout

/-- Even the largest sections stay far away from the limit for offsets. -/
theorem Message.room_lt (now : Instant) {header : Header} {message : Message}
    (hcounts : message.Counts header)
    (hnames : ∀ name ∈ message.names, name.wireLabels.length ≤ Name.maxJumps) :
    (message.layout now header).room < Reader.offsetLimit := by
  have hjumps : Name.maxJumps = 128 := rfl
  have hlimit : Reader.offsetLimit = 18446744073709551616 := rfl
  have hquestions : (Layout.all (message.questions.map Question.layout)).room
      ≤ message.questions.length * 8197 := Layout.room_all fun question hquestion => by
    have hname := hnames question.name (List.mem_append_left _ (List.mem_map_of_mem hquestion))
    show 64 * question.name.wireLabels.length + 1 + (2 + 2) ≤ 8197
    omega
  have hrecords : (Layout.all (message.records.map (Record.layout now))).room
      ≤ message.records.length * 73738 := Layout.room_all fun record hrecord => by
    have hname := hnames record.name (List.mem_append_right _
      (List.mem_flatMap.mpr ⟨record, hrecord, List.mem_cons_self⟩))
    show 64 * record.name.wireLabels.length + 1 + (2 + (2 + (4 + 65537))) ≤ 73738
    omega
  have hlength : message.records.length
      = header.answers.toNat + header.authorities.toNat + header.additionals.toNat := by
    rw [hcounts.answers, hcounts.authorities, hcounts.additionals, records, List.length_append,
      List.length_append]
  have hone := header.questions.toNat_lt
  have htwo := header.answers.toNat_lt
  have hthree := header.authorities.toNat_lt
  have hfour := header.additionals.toNat_lt
  rw [← hcounts.questions] at hquestions
  show 12 + ((Layout.all _).room + (Layout.all _).room) < _
  omega

/-! ### What is received is written as it was -/

/-- The flags of a header are those of the codes that they have. -/
theorem Header.flags_received (header : Header) : header.received.flags = header.flags := by
  let known : Header := { header with
    opcode := .ofCode header.opcode.code, rcode := .ofCode header.rcode.code }
  have hflags : known.flags = header.flags := by
    have hopcode := header.opcode.code_lt
    have hrcode := header.rcode.code_lt
    unfold flags
    simp only [known, Opcode.code_ofCode, ResponseCode.code_ofCode, Nat.mod_eq_of_lt hopcode,
      Nat.mod_eq_of_lt hrcode]
  have hordinary : known.Ordinary := ⟨⟨_, rfl⟩, ⟨_, rfl⟩⟩
  unfold received
  rw [← hflags, withFlags_flags hordinary]

theorem Header.layout_received (header : Header) : header.received.layout = header.layout := by
  unfold layout
  rw [header.flags_received]
  rfl

theorem Question.layout_received (question : Question) :
    question.received.layout = question.layout := by
  unfold layout received
  rw [RecordType.code_ofCode, RecordClass.code_ofCode]

/-- The lifetime that a record was received with does not run. -/
theorem Record.layout_received (now later : Instant) (record : Record) :
    (record.received now).layout later = record.layout now := by
  unfold layout received
  rw [RecordClass.code_ofCode]
  rfl

namespace Message

theorem layout_received (now later : Instant) (header : Header) (message : Message) :
    (message.received now header).layout later header.received = message.layout now header := by
  have hquestions : (message.questions.map Question.received).map Question.layout
      = message.questions.map Question.layout := by
    rw [List.map_map]
    exact List.map_congr_left fun question _ => question.layout_received
  have hrecords : (message.received now header).records.map (Record.layout later)
      = message.records.map (Record.layout now) := by
    have hsection : ∀ section_ : List Record,
        (section_.map (Record.received now)).map (Record.layout later)
          = section_.map (Record.layout now) := fun section_ => by
      rw [List.map_map]
      exact List.map_congr_left fun record _ => record.layout_received now later
    simp only [records, received, List.map_append, hsection]
  unfold layout
  rw [hrecords, header.layout_received]
  show Layout.andThen _ (.andThen (.all ((message.questions.map Question.received).map _)) _) = _
  rw [hquestions]

/-- A message that was written, with payloads that fit their types and names that are not too long,
    stands there as a message with the same sections up to the case of names, and is read as that. -/
theorem written_echo {now : Instant} {header : Header} {message : Message} {compress : Bool}
    {after : Writer} (hcounts : message.Counts header)
    (hfits : ∀ record ∈ message.records, record.data.Fits record.type)
    (hnames : ∀ name ∈ message.names, name.wireLabels.length ≤ Name.maxJumps)
    (hwrite : message.writeSections now header (.empty compress) = .ok () after) :
    ∃ found : Message, found.SameSections (message.mapNames Name.dropDot)
      ∧ (message.layout now header).Alike (found.layout now header)
      ∧ Layout.Echo [] (.empty compress) after (found.layout now header)
      ∧ decode after.octets = .ok (found.received now header) := by
  have hsound := Writer.sound_empty compress
  rw [← write_layout] at hwrite
  have hroom := Layout.size_le_room hsound hwrite
  have hlimit := room_lt now hcounts hnames
  have hempty : (Writer.empty compress).size = 0 := rfl
  obtain ⟨heard, halike, hecho⟩ := Layout.echo hsound hwrite (by rwa [names_layout])
  obtain ⟨found, rfl, hsame⟩ := Message.heard halike
  refine ⟨found, hsame, halike, hecho, ?_⟩
  have hstands := hecho.stands
  rw [after.known_nil, hempty] at hstands
  have hbounded : after.octets.size < Reader.offsetLimit := by
    change after.size < _
    omega
  have hread := reads now (hcounts.of_same hsame) (fits_of_same hfits hsame) hbounded hstands
    (Nat.le_refl _)
  exact decode_eq_ok_iff.mpr ⟨_, hread⟩

/-- **What was written is heard.** A message that was written, with payloads that fit their types and
    names that are not too long, is read as a message with the same sections up to the case of names,
    which is written with the same octets. -/
theorem written_heard {now : Instant} {header : Header} {message : Message} {compress : Bool}
    {after : Writer} (hcounts : message.Counts header)
    (hfits : ∀ record ∈ message.records, record.data.Fits record.type)
    (hnames : ∀ name ∈ message.names, name.wireLabels.length ≤ Name.maxJumps)
    (hwrite : message.writeSections now header (.empty compress) = .ok () after) :
    ∃ found : Message, found.SameSections (message.mapNames Name.dropDot)
      ∧ decode after.octets = .ok (found.received now header)
      ∧ ∃ again, found.writeSections now header (.empty compress) = .ok () again
        ∧ again.octets = after.octets := by
  obtain ⟨found, hsame, -, hecho, hdecode⟩ := written_echo hcounts hfits hnames hwrite
  obtain ⟨again, hagain, htwin⟩ := hecho.rewritten _ (Writer.Twin.refl _)
  rw [write_layout] at hagain
  exact ⟨found, hsame, hdecode, again, hagain, htwin.octets⟩

end Message

/-! ### Encoding again -/

theorem Writer.build_eq_ok {step : Writing Unit} {compress : Bool} {octets : Octets} :
    build step compress = .ok octets
      ↔ ∃ after, step (.empty compress) = .ok () after ∧ after.octets = octets := by
  unfold build
  cases step (.empty compress) <;> simp

namespace Message

theorem sectionSize_eq_ok {α : Type} {entries : List α} {n : UInt16} :
    sectionSize entries = .ok n ↔ n.toNat = entries.length := by
  unfold sectionSize
  by_cases hlarge : 65535 < entries.length
  · have hlt := n.toNat_lt
    rw [if_pos hlarge]
    simp only [reduceCtorEq, false_iff]
    omega
  · rw [if_neg hlarge, Except.ok.injEq, ← UInt16.toNat_inj, UInt16.toNat_ofNat',
      Nat.mod_eq_of_lt (by omega), eq_comm]

/-- Steps that come to a value come to one each. -/
theorem exists_of_bind_ok {ε α β : Type} {step : Except ε α} {next : α → Except ε β} {value : β}
    (h : step >>= next = .ok value) : ∃ first, step = .ok first ∧ next first = .ok value := by
  cases step with
  | error error => exact absurd h (by rintro ⟨⟩)
  | ok first => exact ⟨first, rfl, h⟩

/-- What is encoded is what is written under a header with the sizes of the sections. -/
theorem encode_eq_ok {now : Instant} {message : Message} {octets : Octets}
    (h : message.encode now = .ok octets) :
    ∃ header after, message.Counts header
      ∧ message.writeSections now header (.empty true) = .ok () after ∧ after.octets = octets := by
  obtain ⟨header, hheader, hbuild⟩ := exists_of_bind_ok h
  obtain ⟨questions, hquestions, hheader⟩ := exists_of_bind_ok hheader
  obtain ⟨answers, hanswers, hheader⟩ := exists_of_bind_ok hheader
  obtain ⟨authorities, hauthorities, hheader⟩ := exists_of_bind_ok hheader
  obtain ⟨additionals, hadditionals, hheader⟩ := exists_of_bind_ok hheader
  obtain rfl := Except.ok.inj hheader
  have hcounts : message.Counts { message.header with
      questions := questions, answers := answers, authorities := authorities
      additionals := additionals } :=
    ⟨sectionSize_eq_ok.mp hquestions, sectionSize_eq_ok.mp hanswers,
      sectionSize_eq_ok.mp hauthorities, sectionSize_eq_ok.mp hadditionals⟩
  obtain ⟨after, hwrite, hoctets⟩ := Writer.build_eq_ok.mp hbuild
  exact ⟨_, after, hcounts, hwrite, hoctets⟩

/-- A header that already has the sizes of the sections stays as it is. -/
theorem sizedHeader_of_counts {message : Message} (h : message.Counts message.header) :
    message.sizedHeader = .ok message.header := by
  unfold sizedHeader
  rw [sectionSize_eq_ok.mpr h.questions, sectionSize_eq_ok.mpr h.answers,
    sectionSize_eq_ok.mpr h.authorities, sectionSize_eq_ok.mpr h.additionals]
  rfl

/-- **Byte-stable.** If a message is encoded whose names have at most `maxJumps` labels and whose
    payloads fit their types, then its octets are decoded, and the message that they are decoded to is
    encoded with exactly these octets, whenever that is done. -/
theorem encode_decode_encode (now : Instant) {message : Message} {octets : Octets}
    (hnames : ∀ name ∈ message.names, name.wireLabels.length ≤ Name.maxJumps)
    (hfits : ∀ record ∈ message.records, record.data.Fits record.type)
    (hencode : message.encode now = .ok octets) :
    ∃ found, decode octets = .ok found ∧ ∀ later, found.encode later = .ok octets := by
  obtain ⟨header, after, hcounts, hwrite, rfl⟩ := encode_eq_ok hencode
  obtain ⟨found, hsame, hdecode, again, hagain, hoctets⟩ := written_heard hcounts hfits hnames hwrite
  refine ⟨found.received now header, hdecode, fun later => ?_⟩
  have hcounts' : (found.received now header).Counts header.received := by
    have hfound := hcounts.of_same hsame
    refine ⟨?_, ?_, ?_, ?_⟩
    all_goals simp [received, Header.received, hfound.questions, hfound.answers,
      hfound.authorities, hfound.additionals]
  unfold encode
  rw [sizedHeader_of_counts hcounts']
  refine Writer.build_eq_ok.mpr ⟨again, ?_, hoctets⟩
  show (found.received now header).writeSections later header.received (.empty true) = _
  rw [← write_layout, layout_received, write_layout, hagain]

/-- A reply that answers a question in other letters than it was asked in. The alias leads to a name
    in capitals, whose last labels were written before in small letters. -/
def mixedReply : Message where
  header := { id := 7, isResponse := true, questions := 1, answers := 2 }
  questions := [⟨⟨['w', '.', 'e', '.', 'x']⟩, .a, .internet⟩]
  answers := [
    ⟨⟨['W', '.', 'E', '.', 'x']⟩, .cname, .internet, 60, none, .cname ⟨['M', '.', 'E', '.', 'X']⟩⟩,
    ⟨⟨['m', '.', 'e', '.', 'x']⟩, .a, .internet, 60, none, .a ⟨192, 0, 2, 1⟩⟩]

/-- The reply on the wire. The owner of the last record points at the letters of the alias, whose last
    labels point at those of the question. -/
def mixedOctets : Octets := #[0, 7, 128, 0, 0, 1, 0, 2, 0, 0, 0, 0,
  1, 119, 1, 101, 1, 120, 0, 0, 1, 0, 1,
  192, 12, 0, 5, 0, 1, 0, 0, 0, 60, 0, 4, 1, 77, 192, 14,
  192, 35, 0, 1, 0, 1, 0, 0, 0, 60, 0, 4, 192, 0, 2, 1]

theorem mixedReply_names : ∀ name ∈ mixedReply.names, name.wireLabels.length ≤ Name.maxJumps := by
  decide

theorem mixedReply_fits : ∀ record ∈ mixedReply.records, record.data.Fits record.type := by
  intro record hrecord
  simp only [records, mixedReply, List.cons_append, List.nil_append, List.mem_cons,
    List.not_mem_nil, or_false] at hrecord
  rcases hrecord with rfl | rfl <;> rfl

theorem encode_decode_encode_mixed :
    mixedReply.encode 0 = .ok mixedOctets
      ∧ ∃ found, decode mixedOctets = .ok found ∧ ∀ later, found.encode later = .ok mixedOctets := by
  have hwritten : mixedReply.encode 0 = .ok mixedOctets := by cbv
  exact ⟨hwritten, encode_decode_encode 0 mixedReply_names mixedReply_fits hwritten⟩

end Message

end DnsResolver
