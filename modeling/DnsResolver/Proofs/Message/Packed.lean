import DnsResolver.Proofs.Message.Heard

namespace DnsResolver

/-!
# Compression shrinks

What a writer without compression can write, every other writer can write as well, with no more
octets: a pointer has two octets, and the labels in its place have at least as many.  So no length
becomes larger either, and none that fitted two octets comes to exceed them.

* `Layout.shrinks` — two writers that write the same layout, one of them without compression.
* `Message.payloadSizes` — how many octets the payloads of the records take.
* `Message.packed_le_plain` — a message with and without compression.
-/

namespace Layout

/-- **Two writers.** A layout that one writer writes without compression is written by any other one,
    with no more octets, and none of its lengths is larger. The induction is on the layout; the two
    writers have nothing in common but what they write from now on. -/
theorem shrinks {layout : Layout} {pending : List Nat} {plain plain' : Writer} (packed : Writer)
    (hsound : plain.Sound pending) (hplain : plain.compress = false)
    (hwrite : layout.write plain = .ok () plain') :
    ∃ packed', layout.write packed = .ok () packed'
      ∧ packed'.size + plain.size ≤ plain'.size + packed.size
      ∧ List.Forall₂ (· ≤ ·) (layout.lengths packed) (layout.lengths plain) := by
  induction layout generalizing pending plain plain' packed with
  | octets part =>
    obtain rfl := octets_eq_ok hwrite
    refine ⟨_, rfl, ?_, List.Forall₂.nil⟩
    rw [Writer.size_putOctets, Writer.size_putOctets]
    omega
  | name name =>
    obtain ⟨hlabels, rfl⟩ := Name.write_eq_ok hwrite
    refine ⟨packed.putLabels name.wireLabels, ?_, ?_, List.Forall₂.nil⟩
    · show name.write packed = _
      rw [Name.write_apply, Label.checkAll_of_ordinary hlabels]
    · have hle := Writer.length_spelling_le hplain (fun label hlabel => (hlabels label hlabel).1) packed
      rw [Writer.putLabels_eq, Writer.putLabels_eq]
      simp only [Writer.size, Array.size_append, List.size_toArray]
      omega
  | refused error => exact absurd hwrite (by rintro ⟨⟩)
  | sized body ih =>
    obtain ⟨filled, hbody, hfits, rfl⟩ := sized_eq_ok hwrite
    obtain ⟨filled', hbody', hle, hlengths⟩ := ih (packed.putWord 0) hsound.reserve hplain hbody
    rw [Writer.size_putWord, Writer.size_putWord] at hle
    -- The length fits two octets, for the other one does.
    have hfits' : ¬65535 < filled'.size - packed.size - 2 := by omega
    refine ⟨filled'.patch packed.size (UInt16.ofNat (filled'.size - packed.size - 2)), ?_, ?_, ?_⟩
    · rw [write_sized, hbody']
      dsimp only
      rw [Record.closePayload_eq, if_neg hfits']
    · rw [Writer.size_patch, Writer.size_patch]
      omega
    · refine List.Forall₂.cons ?_ hlengths
      rw [Writing.left_of_ok hbody, Writing.left_of_ok hbody', Writer.size_putWord, Writer.size_putWord]
      omega
  | andThen first rest ihFirst ihRest =>
    obtain ⟨middle, hfirst, hrest⟩ := andThen_eq_ok hwrite
    have hkeeps := keeps_of_ok hsound hfirst
    obtain ⟨middle', hfirst', hle, hlengths⟩ := ihFirst packed hsound hplain hfirst
    obtain ⟨packed', hrest', hle', hlengths'⟩ :=
      ihRest middle' hkeeps.sound (hkeeps.compress.trans hplain) hrest
    refine ⟨packed', ?_, by omega, ?_⟩
    · rw [write_andThen, hfirst']
      exact hrest'
    · rw [lengths, lengths, Writing.left_of_ok hfirst, Writing.left_of_ok hfirst']
      exact List.rel_append hlengths hlengths'

theorem lengths_all {α : Type} {layout : α → Layout} {count : Nat}
    (h : ∀ entry writer, ((layout entry).lengths writer).length = count) (entries : List α)
    (writer : Writer) :
    ((all (entries.map layout)).lengths writer).length = entries.length * count := by
  induction entries generalizing writer with
  | nil => exact (Nat.zero_mul count).symm
  | cons entry entries ih =>
    show ((layout entry).lengths writer ++ (all (entries.map layout)).lengths _).length = _
    rw [List.length_append, h, ih, List.length_cons, Nat.succ_mul, Nat.add_comm]

end Layout

/-- There is no length in a payload but the one in front of it. -/
theorem RecordData.lengths_layout (data : RecordData) (writer : Writer) :
    data.layout.lengths writer = [] := by
  cases data with
  | txt text =>
    show (textLayout text).lengths writer = []
    unfold textLayout
    split
    · rfl
    · split <;> rfl
  | _ => rfl

namespace Message

/-- How many octets the payloads of a message take, record by record, when it is written with or
    without compression. -/
def payloadSizes (now : Instant) (header : Header) (message : Message) (compress : Bool) : List Nat :=
  (message.layout now header).lengths (.empty compress)

/-- There is one size for each record. -/
theorem length_payloadSizes (now : Instant) (header : Header) (message : Message) (compress : Bool) :
    (message.payloadSizes now header compress).length = message.records.length := by
  have hquestions : ∀ writer, ((Layout.all (message.questions.map Question.layout)).lengths
      writer).length = message.questions.length * 0 := Layout.lengths_all (fun _ _ => rfl) _
  have hrecords : ∀ writer, ((Layout.all (message.records.map (Record.layout now))).lengths
      writer).length = message.records.length * 1 := Layout.lengths_all (fun record writer => by
    show (_ :: record.data.layout.lengths _).length = 1
    rw [record.data.lengths_layout]
    rfl) _
  show ((Layout.all _).lengths _ ++ (Layout.all _).lengths _).length = _
  rw [List.length_append, hquestions, hrecords, Nat.mul_zero, Nat.zero_add, Nat.mul_one]

/-- Messages with the same sections are received with the same sections. -/
theorem SameSections.received {a b : Message} (h : a.SameSections b) (now : Instant)
    (header : Header) : (a.received now header).SameSections (b.received now header) := by
  have hquestions : ∀ section_ : List Question, (section_.map Question.received).map Question.fold
      = (section_.map Question.fold).map Question.received := fun section_ => by
    rw [List.map_map, List.map_map]
    rfl
  have hrecords : ∀ section_ : List Record, (section_.map (Record.received now)).map Record.fold
      = (section_.map Record.fold).map (Record.received now) := fun section_ => by
    rw [List.map_map, List.map_map]
    rfl
  refine ⟨(hquestions _).trans ?_, (hrecords _).trans ?_, (hrecords _).trans ?_, (hrecords _).trans ?_⟩
  · rw [h.questions, ← hquestions]
    rfl
  · rw [h.answers, ← hrecords]
    rfl
  · rw [h.authorities, ← hrecords]
    rfl
  · rw [h.additionals, ← hrecords]
    rfl

theorem SameSections.symm {a b : Message} (h : a.SameSections b) : b.SameSections a :=
  ⟨h.questions.symm, h.answers.symm, h.authorities.symm, h.additionals.symm⟩

theorem SameSections.trans {a b c : Message} (h : a.SameSections b) (h' : b.SameSections c) :
    a.SameSections c :=
  ⟨h.questions.trans h'.questions, h.answers.trans h'.answers, h.authorities.trans h'.authorities,
    h.additionals.trans h'.additionals⟩

/-- **Compression shrinks.** A message that can be written without compression can be written with it,
    in no more octets and with no larger payload. If the header has the sizes of the sections, no name
    has more than `maxJumps` labels and the payloads fit their types, both are read, under one header,
    with the same sections up to the case of names: those of the message without trailing dots. -/
theorem packed_le_plain (now : Instant) {header : Header} {message : Message} {plain : Octets}
    (hplain : Writer.build (message.writeSections now header) false = .ok plain) :
    ∃ packed, Writer.build (message.writeSections now header) true = .ok packed
      ∧ packed.size ≤ plain.size
      ∧ List.Forall₂ (· ≤ ·) (message.payloadSizes now header true)
          (message.payloadSizes now header false)
      ∧ (message.payloadSizes now header true).length = message.records.length
      ∧ (message.Counts header →
          (∀ name ∈ message.names, name.wireLabels.length ≤ Name.maxJumps) →
          (∀ record ∈ message.records, record.data.Fits record.type) →
          ∃ a b, decode plain = .ok a ∧ decode packed = .ok b ∧ a.header = b.header
            ∧ a.SameSections b
            ∧ a.SameSections ((message.mapNames Name.dropDot).received now header)) := by
  obtain ⟨plain', hwrite, rfl⟩ := Writer.build_eq_ok.mp hplain
  have hlayout := hwrite
  rw [← write_layout] at hlayout
  obtain ⟨packed', hpacked, hle, hsizes⟩ :=
    Layout.shrinks (.empty true) (Writer.sound_empty false) rfl hlayout
  rw [write_layout] at hpacked
  refine ⟨packed'.octets, Writer.build_eq_ok.mpr ⟨packed', hpacked, rfl⟩, hle, hsizes,
    length_payloadSizes now header message true, fun hcounts hnames hfits => ?_⟩
  obtain ⟨a, hsame, hdecode, -⟩ := written_heard hcounts hfits hnames hwrite
  obtain ⟨b, hsame', hdecode', -⟩ := written_heard hcounts hfits hnames hpacked
  have hreceived := hsame.received now header
  have hreceived' := hsame'.received now header
  exact ⟨_, _, hdecode, hdecode', rfl, hreceived.trans hreceived'.symm, hreceived⟩

/-- The reply without any pointer. -/
def mixedPlain : Octets := #[0, 7, 128, 0, 0, 1, 0, 2, 0, 0, 0, 0,
  1, 119, 1, 101, 1, 120, 0, 0, 1, 0, 1,
  1, 87, 1, 69, 1, 120, 0, 0, 5, 0, 1, 0, 0, 0, 60, 0, 7, 1, 77, 1, 69, 1, 88, 0,
  1, 109, 1, 101, 1, 120, 0, 0, 1, 0, 1, 0, 0, 0, 60, 0, 4, 192, 0, 2, 1]

theorem packed_le_plain_mixed :
    Writer.build (mixedReply.writeSections 0 mixedReply.header) false = .ok mixedPlain
      ∧ mixedReply.Counts mixedReply.header
      ∧ ∃ packed, Writer.build (mixedReply.writeSections 0 mixedReply.header) true = .ok packed
        ∧ packed.size ≤ mixedPlain.size
        ∧ List.Forall₂ (· ≤ ·) (mixedReply.payloadSizes 0 mixedReply.header true)
            (mixedReply.payloadSizes 0 mixedReply.header false)
        ∧ ∃ a b, decode mixedPlain = .ok a ∧ decode packed = .ok b ∧ a.SameSections b := by
  have hplain : Writer.build (mixedReply.writeSections 0 mixedReply.header) false = .ok mixedPlain := by
    cbv
  have hcounts : mixedReply.Counts mixedReply.header := ⟨rfl, rfl, rfl, rfl⟩
  obtain ⟨packed, hpacked, hsize, hpayloads, -, hread⟩ := packed_le_plain 0 hplain
  obtain ⟨a, b, ha, hb, -, hsame, -⟩ := hread hcounts mixedReply_names mixedReply_fits
  exact ⟨hplain, hcounts, packed, hpacked, hsize, hpayloads, a, b, ha, hb, hsame⟩

end Message

end DnsResolver
