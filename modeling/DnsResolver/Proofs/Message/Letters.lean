import DnsResolver.Proofs.Message.Heard
import DnsResolver.Proofs.Message.Remembered
import DnsResolver.Proofs.Name.Letters

namespace DnsResolver

open Name (Heard Spelled)
open Writer (Traced)

/-!
# In whose letters payloads are read

The names in a payload are written like any other names, so their last labels may be read in the
letters of a question or of an owner.  A payload comes back as it was written as long as no name in
front of it spells the labels that they share in other letters.

* `Layout.heard_names` — the names of a layout are heard in letters of names that were written.
* `RecordData.HeardBehind` — what becomes of a payload that is written behind names.
* `Message.payload_letters` — what becomes of the payloads of a message.
-/

/-! ### The names of a layout -/

namespace Layout

variable {layout : Layout} {pending : List Nat} {before after : Writer}

/-- What was written of a layout are the names in it. -/
theorem spots_names (hwrite : layout.write before = .ok () after) :
    (layout.spots before).map Spot.name = layout.names := by
  induction layout generalizing before after with
  | octets part => rfl
  | name name =>
    rw [spots, Label.checkAll_of_ordinary (Name.write_eq_ok hwrite).1]
    rfl
  | refused error => rfl
  | sized body ih =>
    obtain ⟨filled, hfilled, -, -⟩ := sized_eq_ok hwrite
    exact ih hfilled
  | andThen first rest ihFirst ihRest =>
    obtain ⟨middle, hfirst, hrest⟩ := andThen_eq_ok hwrite
    rw [spots, hfirst, List.map_append, ihFirst hfirst, ihRest hrest]
    rfl

/-- In a message that pointers reach all of, they reach every label. -/
theorem near_of_size (hsound : before.Sound pending) (hwrite : layout.write before = .ok () after)
    (hsize : after.size ≤ Writer.maxPointer + 1) : ∀ spot ∈ layout.spots before, spot.Near := by
  induction layout generalizing pending before after with
  | octets part => exact fun spot hspot => absurd hspot List.not_mem_nil
  | name name =>
    obtain ⟨hlabels, rfl⟩ := Name.write_eq_ok hwrite
    rw [spots, Label.checkAll_of_ordinary hlabels]
    intro spot hspot start hstart
    obtain rfl := List.mem_singleton.mp hspot
    have hlt := Writer.offset_lt_of_mem_starts hstart
    rw [Writer.size_putLabels] at hsize
    change start.offset < before.size + (before.spelling name.wireLabels).length at hlt
    omega
  | refused error => exact fun spot hspot => absurd hspot List.not_mem_nil
  | sized body ih =>
    obtain ⟨filled, hfilled, -, rfl⟩ := sized_eq_ok hwrite
    exact ih hsound.reserve hfilled (by rwa [Writer.size_patch] at hsize)
  | andThen first rest ihFirst ihRest =>
    obtain ⟨middle, hfirst, hrest⟩ := andThen_eq_ok hwrite
    have hkeeps := keeps_of_ok hsound hfirst
    have hle := (keeps_of_ok hkeeps.sound hrest).onward.size_le
    rw [spots, hfirst]
    intro spot hspot
    rcases List.mem_append.mp hspot with hhere | hbehind
    · exact ihFirst hsound hfirst (Nat.le_trans hle hsize) spot hhere
    · exact ihRest hkeeps.sound hrest hsize spot hbehind

/-- **The names of a layout.** Where a layout that was written stands in some case, its names are
    heard in letters of their own and of those that were written before, and so are all names that
    are remembered then.  The induction is on the layout; at most one layout stands at a place. -/
theorem heard_names {near : Prop} {heard : Layout} {earlier : List Spot} {known : Known} {stop : Nat}
    (hsound : before.Sound pending) (hcompress : before.compress = true)
    (hindexed : before.Indexed earlier)
    (htraced : Traced near (before.known pending) (earlier.map Spot.name) before)
    (hnear : near → ∀ spot ∈ earlier ++ layout.spots before, spot.Near)
    (hwrite : layout.write before = .ok () after) (halike : layout.Alike heard)
    (hwithin : Known.Within (after.known pending) known)
    (hstands : heard.Stands known before.size stop) :
    stop = after.size ∧ Heard near (earlier.map Spot.name) layout.names heard.names
      ∧ Traced near (after.known pending) ((earlier ++ layout.spots before).map Spot.name) after := by
  induction layout generalizing heard pending earlier before after known stop with
  | octets part =>
    obtain rfl := halike
    obtain rfl := octets_eq_ok hwrite
    refine ⟨hstands.2.trans (Writer.size_putOctets before part).symm, .nil, ?_⟩
    rw [spots, List.append_nil]
    exact htraced.mono ((Writer.extends_putOctets before part).known pending) rfl
  | name name =>
    obtain ⟨found, rfl, -⟩ := halike
    obtain ⟨hlabels, rfl⟩ := Name.write_eq_ok hwrite
    have hcomplete : near → ∀ labels, labels ≠ [] → before.find? labels = none →
        ∀ other ∈ earlier.map Spot.name, ¬ other.EndsIn labels := by
      intro hall labels hne hnone other hother hends
      obtain ⟨spot, hspot, rfl⟩ := List.mem_map.mp hother
      have hsome := hindexed.find?_isSome hcompress
        (fun spot hspot => hnear hall spot (List.mem_append_left _ hspot)) hne ⟨spot, hspot, hends⟩
      rw [hnone] at hsome
      exact absurd hsome (by simp)
    obtain ⟨htraced, jumps, labels, hspelled, hvoiced⟩ := htraced.putLabels hsound hlabels hcomplete
    obtain ⟨_, labels', _, hstanding, rfl⟩ := hstands
    obtain ⟨-, rfl, rfl⟩ := hstanding.unique (hspelled.mono hwithin)
    rw [spots, Label.checkAll_of_ordinary hlabels, List.map_append]
    exact ⟨rfl, .cons hvoiced .nil, htraced⟩
  | refused error => exact halike.elim
  | sized body ih =>
    obtain ⟨body', rfl, hbody⟩ := halike
    obtain ⟨filled, hfilled, -, rfl⟩ := sized_eq_ok hwrite
    obtain ⟨length, -, -, hstanding⟩ := hstands
    have hopened : Traced near
        ((before.putWord 0).known (before.size :: (before.size + 1) :: pending))
        (earlier.map Spot.name) (before.putWord 0) :=
      htraced.mono Writer.known_within_reserve rfl
    rw [← Writer.size_putWord before 0] at hstanding
    obtain ⟨hstop, hnames, hinner⟩ := ih hsound.reserve hcompress (hindexed.of_names rfl) hopened
      hnear hfilled hbody ((Writer.known_within_patch pending).trans hwithin) hstanding
    exact ⟨hstop.trans (Writer.size_patch _ _ _).symm, hnames,
      hinner.mono (Writer.known_within_patch pending) rfl⟩
  | andThen first rest ihFirst ihRest =>
    obtain ⟨first', rest', rfl, hfirst', hrest'⟩ := halike
    obtain ⟨middle, hfirst, hrest⟩ := andThen_eq_ok hwrite
    obtain ⟨between, hstanding, hbehind⟩ := hstands
    have hkeeps := keeps_of_ok hsound hfirst
    have honward := (keeps_of_ok hkeeps.sound hrest).onward.known pending
    have hindexed' := first.indexed hindexed hsound hcompress
    rw [Writing.left_of_ok hfirst] at hindexed'
    rw [spots, hfirst, ← List.append_assoc] at hnear ⊢
    obtain ⟨rfl, hnames, htraced⟩ := ihFirst hsound hcompress hindexed htraced
      (fun hall spot hspot => hnear hall spot (List.mem_append_left _ hspot)) hfirst hfirst'
      (honward.trans hwithin) hstanding
    obtain ⟨hstop, hnames', htraced'⟩ := ihRest hkeeps.sound (hkeeps.compress.trans hcompress)
      hindexed' htraced hnear hrest hrest' hwithin hbehind
    rw [List.map_append, spots_names hfirst] at hnames'
    exact ⟨hstop, hnames.append hnames', htraced'⟩

end Layout

/-! ### Payloads -/

namespace RecordData

variable {data found : RecordData}

theorem names_mapNames (change : Name → Name) (data : RecordData) :
    (data.mapNames change).names = data.names.map change := by
  cases data <;> rfl

theorem names_fold (data : RecordData) : data.fold.names = data.names.map Name.fold := by
  rw [fold_eq_mapNames, names_mapNames]

/-- A payload in which no name changes stays as it is. -/
theorem mapNames_eq_self {change : Name → Name} (h : ∀ name ∈ data.names, change name = name) :
    data.mapNames change = data := by
  cases data <;> simp_all [mapNames, names]

/-- Payloads that differ in the case of names at most are equal if they have the same names. -/
theorem eq_of_names (hfold : found.fold = data.fold) (hnames : found.names = data.names) :
    found = data := by
  cases found with
  | soa a =>
    cases data with
    | soa b =>
      cases a
      cases b
      simp_all [fold, names]
    | _ => exact absurd hfold (by simp [fold])
  | mx a =>
    cases data with
    | mx b =>
      cases a
      cases b
      simp_all [fold, names]
    | _ => exact absurd hfold (by simp [fold])
  | _ => cases data <;> simp_all [fold, names]

/-- What becomes of a payload that is written behind names. -/
structure HeardBehind (near : Prop) (earlier : List Name) (data found : RecordData) : Prop where
  /-- It stays the same up to case. -/
  same : found.fold = data.fold
  /-- Its names are heard in letters of their own and of names before them. -/
  heard : Heard near earlier data.names found.names
  /-- It stays as it is if its names agree with those before them on what they share. -/
  unchanged : (∀ name ∈ data.names, ∀ other ∈ earlier ++ data.names, name.SpellsAlike other) →
    found = data

/-- Names that have no trailing dots stay as they are if they agree with those before them. -/
theorem heardBehind {near : Prop} {earlier : List Name}
    (hfold : found.fold = (data.mapNames Name.dropDot).fold)
    (hheard : Heard near earlier data.names found.names)
    (hnames : ∀ name ∈ data.names, name.dropDot = name) : HeardBehind near earlier data found := by
  have hsame : found.fold = data.fold := by rw [hfold, mapNames_eq_self hnames]
  refine ⟨hsame, hheard, fun halike => eq_of_names hsame ?_⟩
  rw [hheard.eq_of_alike halike, List.map_congr_left hnames, List.map_id']

end RecordData

/-! ### Messages -/

namespace Record

theorem names_mapNames (change : Name → Name) (record : Record) :
    (record.mapNames change).names = record.names.map change := by
  show change record.name :: (record.data.mapNames change).names = _
  rw [record.data.names_mapNames]
  rfl

theorem length_names_fold (record : Record) : record.fold.names.length = record.names.length := by
  show record.data.fold.names.length + 1 = record.data.names.length + 1
  rw [record.data.names_fold, List.length_map]

end Record

namespace Message

/-- The names that are written in front of the payload of a record: those of the questions, those of
    the records before it, and its owner. -/
def namesBefore (message : Message) (i : Nat) (record : Record) : List Name :=
  message.questions.map Question.name ++ (message.records.take i).flatMap Record.names
    ++ [record.name]

variable {message found : Message}

/-- Records in the same sections have as many names. -/
theorem length_names_of_same (hsame : found.SameSections (message.mapNames Name.dropDot)) :
    found.records.map (fun record => record.names.length)
      = message.records.map fun record => record.names.length := by
  have hfound : ∀ records : List Record, records.map (fun record => record.names.length)
      = (records.map Record.fold).map fun record => record.names.length := fun records => by
    rw [List.map_map]
    exact List.map_congr_left fun record _ => record.length_names_fold.symm
  rw [hfound, records_of_same hsame, List.map_map]
  refine List.map_congr_left fun record _ => ?_
  rw [Function.comp_apply, Record.length_names_fold, Record.names_mapNames, List.length_map]

/-- The names of each payload are heard behind those that were written before it. -/
theorem heard_payload {near : Prop} {i : Nat} {record : Record}
    (hsame : found.SameSections (message.mapNames Name.dropDot))
    (hheard : Heard near [] message.names found.names) (hrecord : message.records[i]? = some record) :
    ∃ record', found.records[i]? = some record'
      ∧ record'.data.fold = (record.data.mapNames Name.dropDot).fold
      ∧ Heard near (message.namesBefore i record) record.data.names record'.data.names := by
  have hquestions : (found.questions.map Question.name).length
      = (message.questions.map Question.name).length := by
    simpa [mapNames, mapRecords] using congrArg List.length hsame.questions
  obtain ⟨-, hbehind⟩ := hheard.split hquestions
  obtain ⟨record', hrecord', hnames⟩ := hbehind.entry (length_names_of_same hsame) hrecord
  have hfold := congrArg (·[i]?) (records_of_same hsame)
  simp only [List.getElem?_map, hrecord, hrecord', Option.map_some, Option.some.injEq] at hfold
  exact ⟨record', hrecord', congrArg Record.data hfold, hnames.tail⟩

/-- **The letters of payloads.** If a message is encoded whose names are well formed and whose payloads
    fit their types, then its octets are decoded to a message with as many records in each section.
    Each payload is heard behind the names that were written before it: it is the same up to case,
    with its names in letters of their own and of names before them, and it comes back as it is if
    they agree on what they share. -/
theorem payload_letters (now : Instant) {message : Message} {octets : Octets}
    (hnames : ∀ name ∈ message.names, name.Ordinary)
    (hfits : ∀ record ∈ message.records, record.data.Fits record.type)
    (hencode : message.encode now = .ok octets) :
    ∃ found, decode octets = .ok found ∧ found.answers.length = message.answers.length
      ∧ found.authorities.length = message.authorities.length
      ∧ found.additionals.length = message.additionals.length
      ∧ ∀ (i : Nat) (record : Record), message.records[i]? = some record →
        ∃ record', found.records[i]? = some record'
          ∧ record.data.HeardBehind (octets.size ≤ Writer.maxPointer + 1)
            (message.namesBefore i record) record'.data := by
  obtain ⟨header, after, hcounts, hwrite, rfl⟩ := encode_eq_ok hencode
  obtain ⟨found, hsame, halike, hecho, hdecode⟩ := written_echo hcounts hfits
    (fun name hname => Name.length_wireLabels_le (hnames name hname)) hwrite
  rw [← write_layout] at hwrite
  have hsound := Writer.sound_empty true
  have hheard : Heard (after.size ≤ Writer.maxPointer + 1) [] (message.layout now header).names
      (found.layout now header).names :=
    (Layout.heard_names hsound rfl (Writer.indexed_empty true) (Writer.traced_empty _ _ true)
      (Layout.near_of_size hsound hwrite) hwrite halike (fun _ _ => id) hecho.stands).2.1
  rw [names_layout, names_layout] at hheard
  refine ⟨_, hdecode, ?_, ?_, ?_, fun i record hrecord => ?_⟩
  · simpa [received, mapNames, mapRecords] using congrArg List.length hsame.answers
  · simpa [received, mapNames, mapRecords] using congrArg List.length hsame.authorities
  · simpa [received, mapNames, mapRecords] using congrArg List.length hsame.additionals
  · obtain ⟨record', hrecord', hfold, hpayload⟩ := heard_payload hsame hheard hrecord
    have hreceived : (found.received now header).records
        = found.records.map (Record.received now) := by
      simp only [records, received, List.map_append]
    have hdots : ∀ name ∈ record.data.names, name.dropDot = name := fun name hname =>
      Name.dropDot_of_ordinary <| hnames name <| List.mem_append_right _ <| List.mem_flatMap.mpr
        ⟨record, List.mem_of_getElem? hrecord, List.mem_cons_of_mem _ hname⟩
    refine ⟨record'.received now, ?_, RecordData.heardBehind hfold hpayload hdots⟩
    rw [hreceived, List.getElem?_map, hrecord', Option.map_some]

/-- A question in capitals, and the name server of its name in small letters.  Of the labels that the
    name server shares with names before it, all have the same letters. -/
def settledReply : Message where
  header := { questions := 1, answers := 1 }
  questions := [⟨⟨['W', '.', 'x']⟩, .ns, .internet⟩]
  answers := [⟨⟨['w', '.', 'x']⟩, .ns, .internet, 60, none, .ns ⟨['n', '.', 'x']⟩⟩]

theorem payload_letters_settled :
    ∃ octets found, settledReply.encode 0 = .ok octets ∧ decode octets = .ok found
      ∧ ∃ record', found.records[0]? = some record' ∧ record'.data = .ns ⟨['n', '.', 'x']⟩ := by
  have hnames : ∀ name ∈ settledReply.names, name.Ordinary := by decide
  have hfits : ∀ record ∈ settledReply.records, record.data.Fits record.type := by
    intro record hrecord
    obtain rfl := List.mem_singleton.mp hrecord
    rfl
  obtain ⟨octets, hencode⟩ : ∃ octets, settledReply.encode 0 = .ok octets := ⟨_, rfl⟩
  obtain ⟨found, hdecode, -, -, -, hrecords⟩ := payload_letters 0 hnames hfits hencode
  obtain ⟨record', hrecord', hheard⟩ := hrecords 0 _ rfl
  exact ⟨octets, found, hencode, hdecode, record', hrecord', hheard.unchanged (by decide)⟩

/-- A question in capitals, and a name server of another name that has the name of the question in
    small letters. -/
def borrowedReply : Message where
  header := { questions := 1, answers := 1 }
  questions := [⟨⟨['A']⟩, .ns, .internet⟩]
  answers := [⟨⟨['b']⟩, .ns, .internet, 60, none, .ns ⟨['a']⟩⟩]

/-- The reply on the wire. The name server is a pointer to the question. -/
def borrowedOctets : Octets := #[0, 0, 0, 0, 0, 1, 0, 1, 0, 0, 0, 0, 1, 65, 0, 0, 2, 0, 1,
  1, 98, 0, 0, 2, 0, 1, 0, 0, 0, 60, 0, 2, 192, 12]

/-- The name server comes back in the capitals of the question. -/
theorem payload_letters_borrowed :
    ¬ ∀ (now : Instant) (message : Message) (octets : Octets),
        (∀ name ∈ message.names, name.Ordinary) →
        (∀ record ∈ message.records, record.data.Fits record.type) →
        message.encode now = .ok octets →
        ∃ found, decode octets = .ok found
          ∧ found.records.map Record.data = message.records.map Record.data := by
  intro h
  have hfits : ∀ record ∈ borrowedReply.records, record.data.Fits record.type := by
    intro record hrecord
    obtain rfl := List.mem_singleton.mp hrecord
    rfl
  have hencode : borrowedReply.encode 0 = .ok borrowedOctets := by cbv
  obtain ⟨found, hdecode, hdata⟩ := h 0 borrowedReply borrowedOctets (by decide) hfits hencode
  have hcapital : (decode borrowedOctets).map (fun found => found.records.map Record.data)
      = .ok [.ns ⟨['A']⟩] := by cbv
  rw [hdecode] at hcapital
  have hletters := hdata.symm.trans (Except.ok.inj hcapital)
  exact absurd hletters (by decide)

end Message

end DnsResolver
