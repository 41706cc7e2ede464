import DnsResolver.Proofs.Message.Layout

namespace DnsResolver

open Name (Spelled)

/-!
# The names that a writer remembers

A writer that compresses remembers where names start, so that it can point to them.  What it
remembers is described by the names that were written, each with what stood in front of it.

* `Spot`, `Layout.spots` — the names that a writing writes, and where.
* `Writer.Indexed` — every remembered name is a suffix of a written one, no two are the same, and no
  suffix is missing as long as pointers reach far enough.
* `Writer.Indexed.putLabels`, `Layout.indexed` — writing keeps it, whether it succeeds or not.
* `Writer.run_remembers` — what a writer remembers after any appending operations, and which names
  it replaces by pointers.
-/

/-- A name that was written, and the writer that it was appended to. -/
structure Spot where
  writer : Writer
  name : Name

/-- No label of the name was written out at an offset that is too large for a pointer. -/
def Spot.Near (spot : Spot) : Prop :=
  ∀ start ∈ spot.writer.starts spot.writer.size spot.name.wireLabels,
    start.offset ≤ Writer.maxPointer

/-- The names that are written of a layout, in their order. A name that cannot be written is not
    written at all. -/
def Layout.spots : Layout → Writer → List Spot
  | .octets _, _ | .refused _, _ => []
  | .name domain, writer =>
    match Label.checkAll domain.wireLabels with
    | .ok _ => [⟨writer, domain⟩]
    | .error _ => []
  | .sized body, writer => body.spots (writer.putWord 0)
  | .andThen first rest, writer =>
    first.spots writer
      ++ match first.write writer with
        | .ok _ middle => rest.spots middle
        | .error _ _ => []

/-- Labels are, up to case, the last ones of a name that was written. -/
def WrittenBefore (spots : List Spot) (labels : List Label) : Prop :=
  ∃ spot ∈ spots, ∃ suffix, suffix <:+ spot.name.wireLabels
    ∧ suffix.map Text.fold = labels.map Text.fold

theorem WrittenBefore.suffix {spots : List Spot} {labels shorter : List Label}
    (h : WrittenBefore spots labels) (hsuffix : shorter <:+ labels) : WrittenBefore spots shorter := by
  obtain ⟨spot, hspot, suffix, hname, hsame⟩ := h
  -- The same number of labels is dropped from both.
  have hdrop : shorter = labels.drop (labels.length - shorter.length) :=
    List.suffix_iff_eq_drop.mp hsuffix
  refine ⟨spot, hspot, suffix.drop (labels.length - shorter.length),
    (List.drop_suffix _ _).trans hname, ?_⟩
  rw [List.map_drop, hsame, ← List.map_drop, ← hdrop]

namespace Writer

variable {writer w : Writer} {spots : List Spot} {labels : List Label}

/-- What a writer remembers after names were written. -/
structure Indexed (writer : Writer) (spots : List Spot) : Prop where
  suffix : ∀ entry ∈ writer.names, ∃ spot ∈ spots, entry.labels <:+ spot.name.wireLabels
  distinct : writer.names.toList.Pairwise fun a b =>
    a.labels.map Text.fold ≠ b.labels.map Text.fold
  complete : (∀ spot ∈ spots, spot.Near) → ∀ labels, labels ≠ [] → WrittenBefore spots labels →
    ∃ entry ∈ writer.names, entry.labels.map Text.fold = labels.map Text.fold

theorem indexed_empty (compress : Bool) : Indexed (.empty compress) [] where
  suffix entry hentry := absurd hentry (Array.not_mem_empty entry)
  distinct := List.Pairwise.nil
  complete := fun _ _ _ ⟨_, hspot, _⟩ => absurd hspot List.not_mem_nil

/-- Only names are remembered. -/
theorem Indexed.of_names (h : writer.Indexed spots) (hnames : w.names = writer.names) :
    w.Indexed spots where
  suffix := hnames ▸ h.suffix
  distinct := hnames ▸ h.distinct
  complete := hnames ▸ h.complete

/-! ### Searching for what was written -/

/-- What is found was written before. -/
theorem Indexed.writtenBefore (h : writer.Indexed spots) {offset : Nat}
    (hfind : writer.find? labels = some offset) : WrittenBefore spots labels := by
  obtain ⟨entry, hentry, -, hsame⟩ := find?_eq_some hfind
  obtain ⟨spot, hspot, hsuffix⟩ := h.suffix entry hentry
  exact ⟨spot, hspot, entry.labels, hsuffix, hsame⟩

/-- What was written before is found, as long as pointers reach far enough. -/
theorem Indexed.find?_isSome (h : writer.Indexed spots) (hcompress : writer.compress = true)
    (hnear : ∀ spot ∈ spots, spot.Near) (hne : labels ≠ []) (hwritten : WrittenBefore spots labels) :
    (writer.find? labels).isSome = true := by
  obtain ⟨entry, hentry, hsame⟩ := h.complete hnear labels hne hwritten
  rw [← Option.ne_none_iff_isSome]
  exact fun hnone => (find?_eq_none hcompress).mp hnone entry hentry hsame

/-! ### Writing a name -/

/-- Names that are noted for the labels of one name differ from each other and from those before. -/
theorem distinct_putLabels (h : writer.Indexed spots) (hcompress : writer.compress = true)
    (labels : List Label) :
    (writer.putLabels labels).names.toList.Pairwise fun a b =>
      a.labels.map Text.fold ≠ b.labels.map Text.fold := by
  rw [putLabels_eq, Array.toList_append, List.pairwise_append]
  refine ⟨h.distinct, ?_, fun old hold new hnew => ?_⟩
  · -- Among themselves they differ in length.
    have hstarts := starts_pairwise writer writer.size labels
    have hnoted : (writer.noted labels).Pairwise fun a b => b.labels.length < a.labels.length := by
      unfold noted
      rw [if_pos hcompress]
      exact hstarts.filter _
    refine hnoted.imp fun {a b} hlength hsame => ?_
    have hsize := congrArg List.length hsame
    simp only [List.length_map] at hsize
    omega
  · -- They were searched for, and not found.
    have hnone := (mem_starts (mem_noted hnew)).2
    exact (find?_eq_none hcompress).mp hnone old (Array.mem_toList_iff.mp hold)

/-- **Writing a name** keeps what is known of the remembered ones. A suffix of it that is not noted
    was found, so it belongs to a name from before. -/
theorem Indexed.putLabels (h : writer.Indexed spots) (hcompress : writer.compress = true)
    (name : Name) :
    (writer.putLabels name.wireLabels).Indexed (spots ++ [⟨writer, name⟩]) := by
  have hnames : (writer.putLabels name.wireLabels).names
      = writer.names ++ (writer.noted name.wireLabels).toArray := by
    rw [putLabels_eq]
  refine ⟨fun entry hentry => ?_, distinct_putLabels h hcompress _, ?_⟩
  · rw [hnames, Array.mem_append] at hentry
    rcases hentry with hold | hnew
    · obtain ⟨spot, hspot, hsuffix⟩ := h.suffix entry hold
      exact ⟨spot, List.mem_append_left _ hspot, hsuffix⟩
    · have hstart := mem_starts (mem_noted (List.mem_toArray.mp hnew))
      exact ⟨⟨writer, name⟩, List.mem_append_right _ List.mem_cons_self, hstart.1⟩
  · intro hnear labels hne hwritten
    have hnearBefore : ∀ spot ∈ spots, spot.Near := fun spot hspot =>
      hnear spot (List.mem_append_left _ hspot)
    rw [hnames]
    -- For what was written before this name there is an entry already.
    have hbefore : WrittenBefore spots labels → ∃ entry ∈
        writer.names ++ (writer.noted name.wireLabels).toArray,
          entry.labels.map Text.fold = labels.map Text.fold := fun hold => by
      obtain ⟨entry, hentry, hsame⟩ := h.complete hnearBefore labels hne hold
      exact ⟨entry, Array.mem_append.mpr (Or.inl hentry), hsame⟩
    obtain ⟨spot, hspot, suffix, hsuffix, hsame⟩ := hwritten
    rcases List.mem_append.mp hspot with hold | hnew
    · exact hbefore ⟨spot, hold, suffix, hsuffix, hsame⟩
    obtain rfl := List.mem_singleton.mp hnew
    have hsome : suffix ≠ [] := fun hnil => by
      rw [hnil, List.map_nil] at hsame
      exact hne (List.map_eq_nil_iff.mp hsame.symm)
    rcases started_or_found hsuffix hsome writer.size with ⟨start, hstart, rfl⟩ | ⟨longer, hin, hfound⟩
    · have hnoted : start ∈ writer.noted name.wireLabels := by
        unfold noted
        rw [if_pos hcompress, List.mem_filter]
        exact ⟨hstart, decide_eq_true (hnear _ hspot start hstart)⟩
      exact ⟨start, Array.mem_append.mpr (Or.inr (List.mem_toArray.mpr hnoted)), hsame⟩
    · obtain ⟨offset, hoffset⟩ := Option.isSome_iff_exists.mp hfound
      obtain ⟨spot, hspot, suffix', hsuffix', hsame'⟩ := (h.writtenBefore hoffset).suffix hin
      exact hbefore ⟨spot, hspot, suffix', hsuffix', hsame'.trans hsame⟩

end Writer

/-- **Writing a layout** keeps what is known of the remembered names, wherever it fails. -/
theorem Layout.indexed (layout : Layout) {pending : List Nat} {writer : Writer} {spots : List Spot}
    (h : writer.Indexed spots) (hsound : writer.Sound pending) (hcompress : writer.compress = true) :
    (Writing.left layout.write writer).Indexed (spots ++ layout.spots writer) := by
  induction layout generalizing pending writer spots with
  | octets part =>
    rw [Layout.spots, List.append_nil]
    exact h.of_names rfl
  | name name =>
    show (Writing.left name.write writer).Indexed _
    rw [name.left_write, Layout.spots]
    cases Label.checkAll name.wireLabels with
    | ok _ => exact h.putLabels hcompress name
    | error error =>
      rw [List.append_nil]
      exact h
  | refused error =>
    rw [Layout.spots, List.append_nil]
    exact h
  | sized body ih =>
    have hopened : (writer.putWord 0).Indexed spots := h.of_names rfl
    have hbody := ih hopened hsound.reserve hcompress
    rcases left_sized body writer with hleft | ⟨n, hleft⟩
    · rw [hleft]
      exact hbody
    · rw [hleft]
      exact hbody.of_names rfl
  | andThen first rest ihFirst ihRest =>
    have hkeeps := first.keeps hsound
    have hfirst := ihFirst h hsound hcompress
    rw [left_andThen, Layout.spots]
    cases hwrite : first.write writer with
    | error error middle =>
      rw [Writing.left_of_error hwrite] at hfirst
      rwa [List.append_nil]
    | ok _ middle =>
      rw [Writing.left_of_ok hwrite] at hfirst hkeeps
      rw [← List.append_assoc]
      exact ihRest hfirst hkeeps.sound (hkeeps.compress.trans hcompress)

/-- What is written of a layout are names in it. -/
theorem Layout.mem_names {layout : Layout} {writer : Writer} {spot : Spot}
    (h : spot ∈ layout.spots writer) : spot.name ∈ layout.names := by
  induction layout generalizing writer with
  | octets part => exact absurd h List.not_mem_nil
  | name name =>
    rw [Layout.spots] at h
    cases hcheck : Label.checkAll name.wireLabels with
    | error error =>
      rw [hcheck] at h
      exact absurd h List.not_mem_nil
    | ok _ =>
      rw [hcheck] at h
      obtain rfl := List.mem_singleton.mp h
      exact List.mem_cons_self
  | refused error => exact absurd h List.not_mem_nil
  | sized body ih => exact ih h
  | andThen first rest ihFirst ihRest =>
    rw [Layout.spots] at h
    rw [Layout.names]
    rcases List.mem_append.mp h with hfirst | hrest
    · exact List.mem_append_left _ (ihFirst hfirst)
    · refine List.mem_append_right _ ?_
      cases hwrite : first.write writer with
      | error error middle =>
        rw [hwrite] at hrest
        exact absurd hrest List.not_mem_nil
      | ok _ middle =>
        rw [hwrite] at hrest
        exact ihRest hrest

/-! ### Appending operations -/

namespace Writer

/-- An operation that appends to what was written. -/
inductive Operation where
  | octet (n : UInt8)
  | word (n : UInt16)
  | long (n : UInt32)
  | octets (part : Octets)
  /-- A number of two octets that is left open. -/
  | placeholder
  | name (name : Name)
  | header (header : Header)
  | question (question : Question)
  | record (now : Instant) (record : Record)
  | payload (data : RecordData)

namespace Operation

/-- The operation as a writing step. -/
def run : Operation → Writing Unit
  | octet n => modify fun writer => writer.putOctet n
  | word n => modify fun writer => writer.putWord n
  | long n => modify fun writer => writer.putLong n
  | octets part => modify fun writer => writer.putOctets part
  | placeholder => modify fun writer => writer.putWord 0
  | name domain => domain.write
  | header front => modify front.write
  | question asked => asked.write
  | record now entry => entry.write now
  | payload data => data.write

/-- What the operation writes. -/
def layout : Operation → Layout
  | octet n => .octets #[n]
  | word n => .word n
  | long n => .long n
  | octets part => .octets part
  | placeholder => .word 0
  | name domain => .name domain
  | header front => front.layout
  | question asked => asked.layout
  | record now entry => entry.layout now
  | payload data => data.layout

theorem write_layout (operation : Operation) : operation.layout.write = operation.run := by
  cases operation with
  | octet n =>
    funext writer
    exact congrArg (EStateM.Result.ok ()) (putOctet_eq writer n).symm
  | word n => exact Layout.write_word n
  | long n => exact Layout.write_long n
  | octets part => rfl
  | placeholder => exact Layout.write_word 0
  | name name => rfl
  | header header => exact header.write_layout
  | question question => exact question.write_layout
  | record now record => exact record.write_layout now
  | payload data => exact data.write_layout

end Operation

/-- The writer after operations, of which any may have failed midway. -/
def run : List Operation → Writer → Writer
  | [], writer => writer
  | operation :: rest, writer => run rest (Writing.left operation.run writer)

/-- The names that operations wrote, also those of an operation that failed behind them. -/
def spots : List Operation → Writer → List Spot
  | [], _ => []
  | operation :: rest, writer =>
    operation.layout.spots writer ++ spots rest (Writing.left operation.run writer)

theorem mem_names_of_spots {operations : List Operation} {writer : Writer} {spot : Spot}
    (h : spot ∈ spots operations writer) :
    ∃ operation ∈ operations, spot.name ∈ operation.layout.names := by
  induction operations generalizing writer with
  | nil => exact absurd h List.not_mem_nil
  | cons operation rest ih =>
    rcases List.mem_append.mp h with hhere | hrest
    · exact ⟨operation, List.mem_cons_self, Layout.mem_names hhere⟩
    · obtain ⟨other, hother, hname⟩ := ih hrest
      exact ⟨other, List.mem_cons_of_mem _ hother, hname⟩

/-- Every operation keeps what is known of the remembered names, so any number of them does. -/
theorem run_indexed (operations : List Operation) {writer : Writer} {earlier : List Spot}
    (h : writer.Indexed earlier) (hsound : writer.Sound []) (hcompress : writer.compress = true) :
    (run operations writer).Indexed (earlier ++ spots operations writer)
      ∧ Keeps [] writer (run operations writer) := by
  induction operations generalizing writer earlier with
  | nil =>
    rw [spots, List.append_nil]
    exact ⟨h, Keeps.refl hsound⟩
  | cons operation rest ih =>
    have hindexed := operation.layout.indexed h hsound hcompress
    have hkeeps := operation.layout.keeps hsound
    rw [operation.write_layout] at hindexed hkeeps
    obtain ⟨hrun, hrest⟩ := ih hindexed hkeeps.sound (hkeeps.compress.trans hcompress)
    rw [spots, ← List.append_assoc]
    exact ⟨hrun, hkeeps.trans hrest⟩

/-! ### What is remembered after a run -/

variable {writer : Writer} {earlier : List Spot}

/-- A readable name that is not too long is read where it starts. -/
theorem read_of_readable {data : Octets} {entry : WrittenName} (h : entry.Readable (Known.of data))
    (hlength : entry.labels.length ≤ Name.maxJumps) :
    ∃ found stop, Name.read data entry.offset = .ok found stop
      ∧ found.sameAs (.ofLabels entry.labels) = true := by
  obtain ⟨-, jumps, labels, stop, hjumps, hspelled, hfold⟩ := h
  have hread : Name.readFrom data Name.maxJumps entry.offset [] none = .ok (labels, stop) :=
    Name.readFrom_eq_ok_iff.mpr ⟨jumps, by omega, hspelled⟩
  refine ⟨.ofLabels labels, stop, ?_, ?_⟩
  · unfold Name.read
    rw [hread]
  · rw [Name.sameAs_iff, Name.fold_ofLabels, Name.fold_ofLabels, hfold]

/-- The octets that are appended when a name is written. -/
def Appends (writer : Writer) (name : Name) (octets : List UInt8) : Prop :=
  ∃ after, name.write writer = .ok () after ∧ after.octets = writer.octets ++ octets.toArray

theorem appends_spelling (writer : Writer) {name : Name}
    (h : Label.checkAll name.wireLabels = .ok ()) :
    writer.Appends name (writer.spelling name.wireLabels) := by
  refine ⟨writer.putLabels name.wireLabels, ?_, by rw [putLabels_eq]⟩
  rw [Name.write_apply, h]

/-- What a writer remembers of the names that were written, and what that does to the next one. -/
structure Remembers (writer : Writer) (earlier : List Spot) : Prop where
  /-- A pointer can refer to every entry, and reading there gives its name. -/
  readable : ∀ entry ∈ writer.names, entry.offset ≤ maxPointer
    ∧ ∃ found stop, Name.read writer.octets entry.offset = .ok found stop
      ∧ found.sameAs (.ofLabels entry.labels) = true
  distinct : writer.names.toList.Pairwise fun a b => Label.sameAll a.labels b.labels = false
  /-- No suffix of a written name is missing, as long as no label was out of the reach of
      pointers. -/
  complete : (∀ spot ∈ earlier, spot.Near) → ∀ spot ∈ earlier, ∀ suffix, suffix ≠ [] →
    suffix <:+ spot.name.wireLabels →
      ∃ entry ∈ writer.names, Label.sameAll entry.labels suffix = true
  /-- Then the longest suffix of a name that was written before is replaced by a pointer. -/
  replaced : (∀ spot ∈ earlier, spot.Near) → ∀ (name : Name) (front back : List Label),
    Label.checkAll name.wireLabels = .ok () → name.wireLabels = front ++ back → back ≠ [] →
    WrittenBefore earlier back →
    (∀ longer, longer <:+ name.wireLabels → back.length < longer.length →
      ¬ WrittenBefore earlier longer) →
      ∃ entry ∈ writer.names, Label.sameAll entry.labels back = true
        ∧ writer.Appends name (front.flatMap Label.wire ++ pointer entry.offset)
  /-- A name of which nothing was written before is written out. -/
  writtenOut : ∀ name : Name, Label.checkAll name.wireLabels = .ok () →
    (∀ suffix, suffix ≠ [] → suffix <:+ name.wireLabels → ¬ WrittenBefore earlier suffix) →
      writer.Appends name (name.wireLabels.flatMap Label.wire ++ [0])

/-- What was not written before is not found. -/
theorem Indexed.find?_eq_none (h : writer.Indexed earlier) {labels : List Label}
    (hnot : ¬ WrittenBefore earlier labels) : writer.find? labels = none := by
  rw [Option.eq_none_iff_forall_ne_some]
  exact fun offset hfind => hnot (h.writtenBefore hfind)

/-- The longest suffix that was written before is what a search finds first. -/
theorem Indexed.replaced (h : writer.Indexed earlier) (hcompress : writer.compress = true)
    (hnear : ∀ spot ∈ earlier, spot.Near) {name : Name} {front back : List Label}
    (hcheck : Label.checkAll name.wireLabels = .ok ()) (hlabels : name.wireLabels = front ++ back)
    (hne : back ≠ []) (hwritten : WrittenBefore earlier back)
    (hlongest : ∀ longer, longer <:+ name.wireLabels → back.length < longer.length →
      ¬ WrittenBefore earlier longer) :
    ∃ entry ∈ writer.names, Label.sameAll entry.labels back = true
      ∧ writer.Appends name (front.flatMap Label.wire ++ pointer entry.offset) := by
  obtain ⟨offset, hfind⟩ := Option.isSome_iff_exists.mp
    (h.find?_isSome hcompress hnear hne hwritten)
  obtain ⟨entry, hentry, rfl, hsame⟩ := find?_eq_some hfind
  refine ⟨entry, hentry, (Label.sameAll_iff _ _).mpr hsame, ?_⟩
  have hspelling := appends_spelling writer hcheck
  rw [hlabels] at hlongest hspelling
  rwa [spelling_append fun suffix hsuffix hlength =>
    h.find?_eq_none (hlongest suffix hsuffix hlength), spelling_of_find? hne hfind] at hspelling

/-- **The remembered names.** After any operations that append to a fresh writer, of which any may
    have failed midway, the writer remembers the names that were written, if these have no more
    labels than reading follows pointers. -/
theorem run_remembers (operations : List Operation)
    (hcount : ∀ operation ∈ operations, ∀ name ∈ operation.layout.names,
      name.wireLabels.length ≤ Name.maxJumps) :
    Remembers (run operations .empty) (spots operations .empty) := by
  obtain ⟨hindexed, hkeeps⟩ := run_indexed operations (indexed_empty true) (sound_empty true) rfl
  rw [List.nil_append] at hindexed
  have hcompress : (run operations .empty).compress = true := hkeeps.compress
  refine ⟨fun entry hentry => ?_, ?_, fun hnear spot hspot suffix hne hsuffix => ?_, ?_, ?_⟩
  · have hreadable := hkeeps.sound.names entry hentry
    rw [known_nil] at hreadable
    refine ⟨hreadable.1, read_of_readable hreadable ?_⟩
    -- An entry is a suffix of a name, so it has no more labels than that.
    obtain ⟨spot, hspot, hsuffix⟩ := hindexed.suffix entry hentry
    obtain ⟨operation, hoperation, hname⟩ := mem_names_of_spots hspot
    exact hsuffix.length_le.trans (hcount operation hoperation _ hname)
  · refine hindexed.distinct.imp fun {a b} hdiffers => ?_
    rw [Bool.eq_false_iff]
    exact fun hsame => hdiffers ((Label.sameAll_iff _ _).mp hsame)
  · obtain ⟨entry, hentry, hsame⟩ :=
      hindexed.complete hnear suffix hne ⟨spot, hspot, suffix, hsuffix, rfl⟩
    exact ⟨entry, hentry, (Label.sameAll_iff _ _).mpr hsame⟩
  · exact fun hnear name front back hcheck hlabels hne hwritten hlongest =>
      hindexed.replaced hcompress hnear hcheck hlabels hne hwritten hlongest
  · intro name hcheck hnone
    have hspelling := appends_spelling (run operations .empty) hcheck
    have hout : (run operations .empty).spelling (name.wireLabels ++ [])
        = name.wireLabels.flatMap Label.wire ++ [0] := by
      refine spelling_append fun suffix hsuffix hlength => hindexed.find?_eq_none ?_
      rw [List.append_nil] at hsuffix
      exact hnone suffix (List.length_pos_iff.mp hlength) hsuffix
    rw [List.append_nil] at hout
    rwa [hout] at hspelling

/-- A question, a record that fails behind the first name in its payload, an octet, and a name of
    which that record wrote all. -/
def interruptedOperations : List Operation :=
  [.question ⟨⟨['e', '.', 'x']⟩, .soa, .internet⟩,
    .record 0 ⟨⟨['x']⟩, .soa, .internet, 60, none,
      .soa ⟨⟨['m', '.', 'E', '.', 'X']⟩, ⟨['a', '.', '.']⟩, 1, 2, 3, 4, 5⟩⟩,
    .octet 7, .name ⟨['M', '.', 'e', '.', 'x']⟩]

theorem run_remembers_interrupted :
    (∀ operation ∈ interruptedOperations, ∀ name ∈ operation.layout.names,
        name.wireLabels.length ≤ Name.maxJumps)
      ∧ Remembers (run interruptedOperations .empty) (spots interruptedOperations .empty)
      ∧ (∀ spot ∈ spots interruptedOperations .empty, spot.Near)
      ∧ (run interruptedOperations .empty).names.toList.map WrittenName.key
          = [(0, [['e'], ['x']]), (2, [['x']]), (21, [['m'], ['e'], ['x']])] := by
  have hcount : ∀ operation ∈ interruptedOperations, ∀ name ∈ operation.layout.names,
      name.wireLabels.length ≤ Name.maxJumps := by
    decide
  have hspots : (spots interruptedOperations .empty).map
      (fun spot => (spot.writer.starts spot.writer.size spot.name.wireLabels).map (·.offset))
        = [[0, 2], [], [21], []] := by
    cbv
  have hnear : ∀ spot ∈ spots interruptedOperations .empty, spot.Near := by
    intro spot hspot start hstart
    have hoffsets : (spot.writer.starts spot.writer.size spot.name.wireLabels).map (·.offset)
        ∈ [[0, 2], [], [21], []] := hspots ▸ List.mem_map.mpr ⟨spot, hspot, rfl⟩
    have hoffset : start.offset ∈ [[0, 2], [], [21], []].flatten :=
      List.mem_flatten.mpr ⟨_, hoffsets, List.mem_map.mpr ⟨start, hstart, rfl⟩⟩
    have hall : ∀ offset ∈ [[0, 2], [], [21], []].flatten, offset ≤ maxPointer := by decide
    exact hall _ hoffset
  exact ⟨hcount, run_remembers interruptedOperations hcount, hnear, by cbv⟩

end Writer

end DnsResolver
