import DnsResolver.Proofs.Name.Folded
import DnsResolver.Proofs.Name.Grammar
import DnsResolver.Proofs.Wire.Written

namespace DnsResolver

/-!
# What the labels of a name become

Labels are written one by one while names are noted, and a search for what is left of them sees
the names noted on the way.  These are longer than what is left, so they are never found: what is
written is decided by the names from before.

* `Writer.spelling` — the octets that labels are written with.
* `Writer.starts` — where labels are written out, and which names start there.
* `Writer.putLabels_eq` — the writer after labels, in closed form.
* `Writer.spelling_append` — only the longest suffix that was found is replaced by a pointer.
* `Writer.spelling_spelled` — what labels that are held as they are spelled can be derived to.
-/

/-- The octets of a label behind its length. -/
def Label.wire (label : Label) : List UInt8 := UInt8.ofNat label.length :: label.octets.toList

@[simp] theorem Label.length_wire (label : Label) : label.wire.length = label.length + 1 := by
  simp [Label.wire]

theorem Label.toArray_wire (label : Label) :
    label.wire.toArray = #[UInt8.ofNat label.length] ++ label.octets :=
  Array.toList_inj.mp (by simp [Label.wire])

/-- A label that is held in front of a name can be derived with it. -/
theorem Name.spelled_wire {known : Known} {jumps pos stop : Nat} {label : Label} {rest : List Label}
    (hlabel : label.Ordinary) (hheld : known.Holds pos label.wire)
    (hrest : Spelled known jumps (pos + label.wire.length) rest stop) :
    Spelled known jumps pos (label :: rest) stop := by
  obtain ⟨hne, hlength, hascii⟩ := hlabel
  refine .label hne hlength hascii hheld ?_
  rwa [Label.length_wire, Nat.add_comm label.length, ← Nat.add_assoc] at hrest

/-- What a search compares of a remembered name, and what it gives. -/
def WrittenName.key (name : WrittenName) : Nat × List Label :=
  (name.offset, name.labels.map Text.fold)

namespace Writer

open Name (Spelled)

variable {w w' writer : Writer} {labels : List Label}

/-! ### Noting names and writing labels -/

/-- Noting a name changes no octet. -/
theorem octets_remember (writer : Writer) (labels : List Label) :
    (writer.remember labels).octets = writer.octets := by
  unfold remember
  split <;> rfl

@[simp] theorem size_remember (writer : Writer) (labels : List Label) :
    (writer.remember labels).size = writer.size :=
  congrArg Array.size (octets_remember writer labels)

theorem putLabel_eq (writer : Writer) (label : Label) :
    writer.putLabel label = writer.putOctets (#[UInt8.ofNat label.length] ++ label.octets) := by
  rw [putLabel, putOctet_eq, putOctets_putOctets]

@[simp] theorem size_putLabel (writer : Writer) (label : Label) :
    (writer.putLabel label).size = writer.size + 1 + label.length := by
  rw [putLabel_eq, size_putOctets]
  simp
  omega

/-- The two octets of a pointer have both top bits set and the offset in the rest. -/
theorem pointer_octets {offset : Nat} (h : offset ≤ maxPointer) :
    192 ≤ (Wire.wordOctets (UInt16.ofNat (0xC000 + offset))).1.toNat
      ∧ Name.pointerTarget (Wire.wordOctets (UInt16.ofNat (0xC000 + offset))).1
          (Wire.wordOctets (UInt16.ofNat (0xC000 + offset))).2 = offset := by
  have hmax : maxPointer = 0x3FFF := rfl
  simp only [Wire.wordOctets, Name.pointerTarget, UInt16.toNat_ofNat', UInt8.toNat_ofNat']
  omega

/-! ### What labels become -/

/-- The two octets of a pointer to an offset. -/
def pointer (offset : Nat) : List UInt8 :=
  [(Wire.wordOctets (UInt16.ofNat (0xC000 + offset))).1,
    (Wire.wordOctets (UInt16.ofNat (0xC000 + offset))).2]

/-- The octets that labels are written with: a label behind its length, until a name is found
    that was written before. -/
def spelling (w : Writer) : List Label → List UInt8
  | [] => [0]
  | label :: rest =>
    match w.find? (label :: rest) with
    | some offset => pointer offset
    | none => label.wire ++ w.spelling rest

/-- Where the labels start that are written out from an offset on, each with the name that starts
    there. -/
def starts (w : Writer) : Nat → List Label → List WrittenName
  | _, [] => []
  | offset, label :: rest =>
    match w.find? (label :: rest) with
    | some _ => []
    | none => { offset, labels := label :: rest } :: w.starts (offset + 1 + label.length) rest

/-- The names that are noted while labels are written: those that a pointer can refer to. -/
def noted (w : Writer) (labels : List Label) : List WrittenName :=
  if w.compress then (w.starts w.size labels).filter (·.offset ≤ maxPointer) else []

/-! ### Searching -/

/-- What a search for labels finds is the offset of a remembered name that has them. -/
theorem find?_eq_some {offset : Nat} (h : writer.find? labels = some offset) :
    ∃ name ∈ writer.names, name.offset = offset
      ∧ name.labels.map Text.fold = labels.map Text.fold := by
  unfold find? at h
  split at h
  · obtain ⟨name, hfind, hoffset⟩ := Option.map_eq_some_iff.mp h
    have hspells := Array.find?_some hfind
    have hsame : Label.sameAll name.labels labels = true := by
      unfold WrittenName.spells at hspells
      exact (Bool.and_eq_true_iff.mp hspells).2
    exact ⟨name, Array.mem_of_find?_eq_some hfind, hoffset, (Label.sameAll_iff _ _).mp hsame⟩
  · exact absurd h (by simp)

/-- A search is decided by the keys of the remembered names. -/
theorem find?_eq (w : Writer) (labels : List Label) :
    w.find? labels
      = if w.compress then
          ((w.names.toList.map WrittenName.key).find? fun key =>
            decide (key.2 = labels.map Text.fold)).map Prod.fst
        else none := by
  have hspells : (fun known : WrittenName => known.spells labels labels.length)
      = (fun key : Nat × List Label => decide (key.2 = labels.map Text.fold)) ∘ WrittenName.key := by
    funext known
    rw [Bool.eq_iff_iff, Function.comp, decide_eq_true_iff]
    unfold WrittenName.spells WrittenName.key
    rw [Bool.and_eq_true_iff, Label.sameAll_iff, beq_iff_eq, known.count_eq]
    refine ⟨And.right, fun hsame => ⟨?_, hsame⟩⟩
    simpa using congrArg List.length hsame
  unfold find?
  rw [List.find?_map, ← hspells, Array.find?_toList, Option.map_map]
  rfl

/-- Nothing is found where no remembered name has the labels. -/
theorem find?_eq_none (hcompress : w.compress = true) :
    w.find? labels = none
      ↔ ∀ name ∈ w.names, name.labels.map Text.fold ≠ labels.map Text.fold := by
  rw [find?_eq, if_pos hcompress, Option.map_eq_none_iff, List.find?_eq_none]
  simp [WrittenName.key]

/-- Names that are noted in front are longer than what is left, so a search does not find them. -/
theorem find?_after_label {label : Label} {rest suffix : List Label}
    (hlength : suffix.length ≤ rest.length) :
    ((w.remember (label :: rest)).putLabel label).find? suffix = w.find? suffix := by
  rw [find?_eq, find?_eq, putLabel_eq]
  show (if (w.remember (label :: rest)).compress = true then
    (((w.remember (label :: rest)).names.toList.map WrittenName.key).find? _).map _ else none) = _
  -- The name that is noted differs from the suffix in the number of its labels.
  have hown : decide (Text.fold label :: rest.map Text.fold = suffix.map Text.fold) = false :=
    decide_eq_false fun hsame => by
      have hsize := congrArg List.length hsame
      simp only [List.length_map, List.length_cons] at hsize
      omega
  unfold remember
  split
  · simp only [Array.toList_push, List.map_append, List.map_cons, List.map_nil, List.find?_append,
      WrittenName.key, List.find?_cons, hown, List.find?_nil, Option.or_none]
  · rfl

/-! ### The closed form -/

/-- What is written is decided by what is found. -/
theorem spelling_congr
    (h : ∀ suffix, suffix.length ≤ labels.length → w'.find? suffix = w.find? suffix) :
    w'.spelling labels = w.spelling labels := by
  induction labels with
  | nil => rfl
  | cons label rest ih =>
    have hrest := ih fun suffix hlength => h suffix (Nat.le_succ_of_le hlength)
    rw [spelling, spelling, h _ (Nat.le_refl _), hrest]

theorem starts_congr
    (h : ∀ suffix, suffix.length ≤ labels.length → w'.find? suffix = w.find? suffix)
    (offset : Nat) : w'.starts offset labels = w.starts offset labels := by
  induction labels generalizing offset with
  | nil => rfl
  | cons label rest ih =>
    have hrest := ih fun suffix hlength => h suffix (Nat.le_succ_of_le hlength)
    rw [starts, starts, h _ (Nat.le_refl _), hrest]

/-- Noting a name appends it to the remembered ones, if a pointer can refer to it. -/
theorem names_remember (w : Writer) (labels : List Label) :
    (w.remember labels).names
      = w.names ++ (if w.compress then
          [{ offset := w.size, labels := labels : WrittenName }].filter (·.offset ≤ maxPointer)
        else []).toArray := by
  unfold remember
  by_cases hcompress : w.compress = true <;> by_cases hmax : w.size ≤ maxPointer <;>
    simp [hcompress, hmax]

@[simp] theorem compress_remember (w : Writer) (labels : List Label) :
    (w.remember labels).compress = w.compress := by
  unfold remember
  split <;> rfl

/-- **Writing labels**, in closed form. -/
theorem putLabels_eq (w : Writer) (labels : List Label) :
    w.putLabels labels
      = { octets := w.octets ++ (w.spelling labels).toArray
          names := w.names ++ (w.noted labels).toArray
          compress := w.compress } := by
  induction labels generalizing w with
  | nil =>
    rw [putLabels, putOctet_eq]
    simp [noted, starts, spelling, putOctets]
  | cons label rest ih =>
    rw [putLabels]
    cases hfind : w.find? (label :: rest) with
    | some offset =>
      simp only [putWord_eq]
      simp [noted, starts, spelling, hfind, putOctets, pointer]
    | none =>
      -- Behind the label the same names are found as in front of it.
      have hsame : ∀ suffix : List Label, suffix.length ≤ rest.length →
          ((w.remember (label :: rest)).putLabel label).find? suffix = w.find? suffix :=
        fun suffix hlength => find?_after_label hlength
      have hnames : ((w.remember (label :: rest)).putLabel label).names
          = (w.remember (label :: rest)).names := rfl
      have hcompress : ((w.remember (label :: rest)).putLabel label).compress = w.compress :=
        compress_remember w _
      have hoctets : ((w.remember (label :: rest)).putLabel label).octets
          = w.octets ++ label.wire.toArray := by
        rw [putLabel_eq]
        show (w.remember (label :: rest)).octets ++ _ = _
        rw [octets_remember, Label.toArray_wire]
      simp only
      rw [ih, hnames, hcompress, hoctets, names_remember, spelling_congr hsame]
      simp only [noted, hcompress, starts_congr hsame, size_putLabel, size_remember, spelling, starts,
        hfind]
      by_cases hon : w.compress = true
      · simp only [if_pos hon]
        by_cases hmax : w.size ≤ maxPointer <;> simp [hmax]
      · simp [hon]

theorem extends_putLabels (writer : Writer) (labels : List Label) :
    Extends writer (writer.putLabels labels) := by
  have hext := extends_putOctets writer (writer.spelling labels).toArray
  rw [putLabels_eq]
  exact ⟨hext.size_le, hext.octets⟩

theorem octets_putLabels (writer : Writer) (labels : List Label) :
    (writer.putLabels labels).octets = writer.octets ++ (writer.spelling labels).toArray := by
  rw [putLabels_eq]

theorem size_putLabels (writer : Writer) (labels : List Label) :
    (writer.putLabels labels).size = writer.size + (writer.spelling labels).length := by
  unfold size
  rw [octets_putLabels]
  simp

/-- Labels stand where the writer was, as it spells them, whatever is pending in front of them. -/
theorem known_putLabels {pending : List Nat} {writer : Writer}
    (hpending : ∀ i ∈ pending, i < writer.size) (labels : List Label) :
    ((writer.putLabels labels).known pending).Holds writer.size (writer.spelling labels) := by
  have hput := holds_putOctets hpending (writer.spelling labels).toArray
  rw [putLabels_eq]
  exact hput

theorem holds_putLabels (writer : Writer) (labels : List Label) :
    (Known.of (writer.putLabels labels).octets).Holds writer.size (writer.spelling labels) := by
  rw [← known_nil]
  exact known_putLabels (fun _ hi => absurd hi List.not_mem_nil) labels

/-! ### Which labels are written out -/

/-- The names that start at labels that are written out are suffixes that were not found. -/
theorem mem_starts {name : WrittenName} {offset : Nat} (h : name ∈ w.starts offset labels) :
    name.labels <:+ labels ∧ w.find? name.labels = none := by
  induction labels generalizing offset with
  | nil => exact absurd h List.not_mem_nil
  | cons label rest ih =>
    rw [starts] at h
    cases hfind : w.find? (label :: rest) with
    | some found =>
      rw [hfind] at h
      exact absurd h List.not_mem_nil
    | none =>
      rw [hfind] at h
      rcases List.mem_cons.mp h with rfl | hrest
      · exact ⟨List.suffix_refl _, hfind⟩
      · obtain ⟨hsuffix, hnone⟩ := ih hrest
        exact ⟨hsuffix.trans (List.suffix_cons label rest), hnone⟩

/-- They start among the octets that the labels are written with. -/
theorem offset_lt_of_mem_starts {name : WrittenName} {offset : Nat}
    (h : name ∈ w.starts offset labels) : name.offset < offset + (w.spelling labels).length := by
  induction labels generalizing offset with
  | nil => exact absurd h List.not_mem_nil
  | cons label rest ih =>
    rw [starts] at h
    rw [spelling]
    cases hfind : w.find? (label :: rest) with
    | some found =>
      rw [hfind] at h
      exact absurd h List.not_mem_nil
    | none =>
      rw [hfind] at h
      simp only [List.length_append, Label.length_wire]
      rcases List.mem_cons.mp h with rfl | hrest
      · show offset < _
        omega
      · have hlt := ih hrest
        omega

/-- Each of them has fewer labels than the ones in front of it. -/
theorem starts_pairwise (w : Writer) (offset : Nat) (labels : List Label) :
    (w.starts offset labels).Pairwise fun a b => b.labels.length < a.labels.length := by
  induction labels generalizing offset with
  | nil => exact List.Pairwise.nil
  | cons label rest ih =>
    rw [starts]
    split
    · exact List.Pairwise.nil
    · refine List.pairwise_cons.mpr ⟨fun name hname => ?_, ih _⟩
      exact Nat.lt_succ_of_le (mem_starts hname).1.length_le

/-- Only names that start at labels that are written out are noted. -/
theorem mem_noted {name : WrittenName} (h : name ∈ w.noted labels) :
    name ∈ w.starts w.size labels := by
  unfold noted at h
  split at h
  · exact (List.mem_filter.mp h).1
  · exact absurd h List.not_mem_nil

theorem offset_le_of_mem_noted {name : WrittenName} (h : name ∈ w.noted labels) :
    name.offset ≤ maxPointer := by
  unfold noted at h
  split at h
  · simpa using (List.mem_filter.mp h).2
  · exact absurd h List.not_mem_nil

/-- A suffix starts at a label that is written out, or belongs to one that was found. -/
theorem started_or_found {suffix : List Label} (h : suffix <:+ labels) (hne : suffix ≠ [])
    (offset : Nat) :
    (∃ name ∈ w.starts offset labels, name.labels = suffix)
      ∨ ∃ longer, suffix <:+ longer ∧ (w.find? longer).isSome = true := by
  induction labels generalizing offset with
  | nil => exact absurd (List.suffix_nil.mp h) hne
  | cons label rest ih =>
    rw [starts]
    cases hfind : w.find? (label :: rest) with
    | some found => exact Or.inr ⟨label :: rest, h, by rw [hfind]; rfl⟩
    | none =>
      rcases List.suffix_cons_iff.mp h with rfl | hrest
      · exact Or.inl ⟨_, List.mem_cons_self, rfl⟩
      · rcases ih hrest (offset + 1 + label.length) with ⟨name, hname, hlabels⟩ | hfound
        · exact Or.inl ⟨name, List.mem_cons_of_mem _ hname, hlabels⟩
        · exact Or.inr hfound

/-- Labels are written out as long as what is left of them is not found. -/
theorem spelling_append {front back : List Label}
    (h : ∀ suffix, suffix <:+ front ++ back → back.length < suffix.length → w.find? suffix = none) :
    w.spelling (front ++ back) = front.flatMap Label.wire ++ w.spelling back := by
  induction front with
  | nil => rfl
  | cons label front ih =>
    have hlonger : back.length < (label :: front ++ back).length := by
      rw [List.length_append, List.length_cons]
      omega
    have hnone : w.find? (label :: (front ++ back)) = none := h _ (List.suffix_refl _) hlonger
    have hrest := ih fun suffix hsuffix hlength =>
      h suffix (hsuffix.trans (List.suffix_cons label _)) hlength
    rw [List.cons_append, spelling, hnone, hrest, List.flatMap_cons, List.append_assoc]

/-- Ordinary labels take at most 64 octets each, and one more behind the last. -/
theorem length_spelling_le_room (hlabels : ∀ label ∈ labels, label.Ordinary) :
    (w.spelling labels).length ≤ 64 * labels.length + 1 := by
  induction labels with
  | nil => exact Nat.le_refl _
  | cons label rest ih =>
    obtain ⟨⟨-, hlength, -⟩, hrest⟩ := List.forall_mem_cons.mp hlabels
    have hmax : Label.maxLength = 63 := rfl
    rw [spelling, List.length_cons]
    cases w.find? (label :: rest) with
    | some offset =>
      simp only [pointer, List.length_cons, List.length_nil]
      omega
    | none =>
      have hbehind := ih hrest
      rw [List.length_append, Label.length_wire]
      omega

/-- Labels of which nothing is found are all written out. -/
theorem spelling_of_none (h : ∀ suffix, w.find? suffix = none) (labels : List Label) :
    w.spelling labels = labels.flatMap Label.wire ++ [0] := by
  have happend : w.spelling (labels ++ []) = labels.flatMap Label.wire ++ w.spelling [] :=
    spelling_append fun suffix _ _ => h suffix
  rwa [List.append_nil] at happend

/-- What is found is written as a pointer. -/
theorem spelling_of_find? {offset : Nat} (hne : labels ≠ []) (h : w.find? labels = some offset) :
    w.spelling labels = pointer offset := by
  cases labels with
  | nil => exact absurd rfl hne
  | cons label rest => rw [spelling, h]

/-! ### Labels on the wire -/

/-- Where a pointer is held, the name that it leads to can be derived with one pointer more. -/
theorem spelled_pointer {known : Known} {pos offset jumps stop : Nat} (hmax : offset ≤ maxPointer)
    (hback : offset < pos) (hspelled : Spelled known jumps offset labels stop)
    (hheld : known.Holds pos (pointer offset)) :
    Spelled known (jumps + 1) pos labels (pos + 2) := by
  obtain ⟨hmark, htarget⟩ := pointer_octets hmax
  unfold pointer at hheld
  rcases hword : Wire.wordOctets (UInt16.ofNat (0xC000 + offset)) with ⟨high, low⟩
  rw [hword] at hmark htarget hheld
  change Name.pointerTarget high low = offset at htarget
  obtain ⟨hhigh, hlow⟩ := Known.holds_cons.mp hheld
  exact .pointer hhigh hmark (Known.holds_cons.mp hlow).1 (htarget ▸ hback) (htarget ▸ hspelled)

/-- Labels are derived up to case, with no more pointers than there are labels. -/
structure Respelled (labels : List Label) (jumps : Nat) (found : List Label) : Prop where
  jumps_le : jumps ≤ labels.length
  same : found.map Text.fold = labels.map Text.fold

theorem Respelled.root : Respelled [] 0 [] := ⟨Nat.le_refl _, rfl⟩

/-- A label that is written out needs no pointer. -/
theorem Respelled.label {jumps : Nat} {found : List Label} (h : Respelled labels jumps found)
    (label : Label) : Respelled (label :: labels) jumps (label :: found) where
  jumps_le := Nat.le_succ_of_le h.jumps_le
  same := by rw [List.map_cons, List.map_cons, h.same]

/-- **Labels on the wire.** Where labels are held as a writer spells them, they can be derived, and so
    can every suffix that starts at a label that is written out.  `Good` is whatever is to hold of the
    labels, the pointers that they need and the labels that are derived; it is kept in front of a
    label that is written out, and holds of what is found.  The induction is on the labels. -/
theorem spelling_spelled {Good : List Label → Nat → List Label → Prop} {known : Known} {pos : Nat}
    (hlabels : ∀ label ∈ labels, label.Ordinary) (hheld : known.Holds pos (w.spelling labels))
    (hroot : Good [] 0 [])
    (hout : ∀ label rest jumps found, label :: rest <:+ labels → w.find? (label :: rest) = none →
      Good rest jumps found → Good (label :: rest) jumps (label :: found))
    (hfound : ∀ suffix offset, suffix <:+ labels → w.find? suffix = some offset →
      offset ≤ maxPointer ∧ offset < pos
        ∧ ∃ jumps found stop, Spelled known jumps offset found stop ∧ Good suffix (jumps + 1) found) :
    (∃ jumps found, Spelled known jumps pos found (pos + (w.spelling labels).length)
        ∧ Good labels jumps found)
      ∧ ∀ start ∈ w.starts pos labels, ∃ label rest jumps found stop, start.labels = label :: rest
        ∧ Spelled known jumps start.offset (label :: found) stop ∧ Good rest jumps found := by
  induction labels generalizing pos with
  | nil => exact ⟨⟨0, [], .root (Known.holds_cons.mp hheld).1, hroot⟩,
      fun start hstart => absurd hstart List.not_mem_nil⟩
  | cons label rest ih =>
    cases hfind : w.find? (label :: rest) with
    | some offset =>
      obtain ⟨hmax, hback, jumps, found, stop, hspelled, hgood⟩ :=
        hfound _ _ (List.suffix_refl _) hfind
      simp only [spelling, starts, hfind] at hheld ⊢
      exact ⟨⟨jumps + 1, found, spelled_pointer hmax hback hspelled hheld, hgood⟩,
        fun start hstart => absurd hstart List.not_mem_nil⟩
    | none =>
      obtain ⟨hlabel, hlabels⟩ := List.forall_mem_cons.mp hlabels
      simp only [spelling, starts, hfind] at hheld ⊢
      obtain ⟨hwire, hrest⟩ := Known.holds_append hheld
      obtain ⟨⟨jumps, found, hspelled, hgood⟩, hstarts⟩ := ih hlabels hrest
        (fun other behind jumps found hsuffix =>
          hout other behind jumps found (hsuffix.trans (List.suffix_cons _ _)))
        (fun suffix offset hsuffix hsome => by
          obtain ⟨hmax, hback, hderived⟩ := hfound _ _ (hsuffix.trans (List.suffix_cons _ _)) hsome
          exact ⟨hmax, Nat.lt_add_right _ hback, hderived⟩)
      have hhere : Spelled known jumps pos (label :: found)
          (pos + (label.wire ++ w.spelling rest).length) := by
        rw [List.length_append, ← Nat.add_assoc]
        exact Name.spelled_wire hlabel hwire hspelled
      refine ⟨⟨jumps, _, hhere, hout _ _ _ _ (List.suffix_refl _) hfind hgood⟩,
        fun start hstart => ?_⟩
      rcases List.mem_cons.mp hstart with rfl | hbehind
      · exact ⟨label, rest, jumps, found, _, rfl, hhere, hgood⟩
      · rw [Nat.add_right_comm] at hbehind
        exact hstarts start (by rwa [Label.length_wire, ← Nat.add_assoc])

/-! ### Without compression -/

theorem find?_plain (hplain : w.compress = false) (labels : List Label) : w.find? labels = none := by
  rw [find?_eq, hplain]
  rfl

/-- Without compression all labels are written out, which takes no fewer octets. -/
theorem length_spelling_le (hplain : w.compress = false) (hlabels : ∀ label ∈ labels, label ≠ [])
    (w' : Writer) : (w'.spelling labels).length ≤ (w.spelling labels).length := by
  induction labels with
  | nil => exact Nat.le_refl _
  | cons label rest ih =>
    have hrest := ih fun other hother => hlabels other (List.mem_cons_of_mem _ hother)
    have hpos : 0 < label.length := List.length_pos_iff.mpr (hlabels label List.mem_cons_self)
    rw [spelling, spelling, find?_plain hplain]
    cases w'.find? (label :: rest) with
    | some offset =>
      -- A pointer has two octets, and the label alone has as many.
      simp only [pointer, List.length_append, Label.length_wire, List.length_cons, List.length_nil]
      omega
    | none =>
      simp only [List.length_append]
      omega

end Writer

end DnsResolver
