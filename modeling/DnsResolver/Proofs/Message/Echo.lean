import DnsResolver.Proofs.Message.Standing

namespace DnsResolver

open Name (Spelled)
open Writer (PutsName)

/-!
# Writing what was heard

Names are found whatever their case is, so what a message says may differ in case from what was
written into it.  A second writer that writes what was heard finds the same names at the same
offsets: the two writers never differ in more than the case of the names that they remember.

* `Writer.Twin` — two writers with the same octets, that remember the same names up to case.
* `Writer.Twin.spelling` — labels that stand somewhere are written there by a twin as they stand.
* `Layout.Alike` — a layout with its names in another case.
* `Layout.echo` — what a layout leaves stands there in some case, and a twin that writes it as it
  stands stays a twin.
-/

/-! ### Labels of a name -/

namespace Name

/-- Labels that are, up to case, those of a name that can be written are written as they are. -/
theorem wireLabels_heard {name : Name} {found : List Label}
    (hlabels : ∀ label ∈ name.wireLabels, label.Ordinary)
    (hsame : found.map Text.fold = name.wireLabels.map Text.fold) :
    (∀ label ∈ found, label.Ordinary) ∧ (ofLabels found).wireLabels = found := by
  have hpartner : ∀ label ∈ found, ∃ other ∈ name.wireLabels, Text.fold other = Text.fold label :=
    fun label hlabel => List.mem_map.mp (hsame ▸ List.mem_map_of_mem hlabel)
  have hordinary : ∀ label ∈ found, label.Ordinary := fun label hlabel => by
    obtain ⟨other, hother, hfold⟩ := hpartner label hlabel
    rw [← Label.ordinary_fold, ← hfold, Label.ordinary_fold]
    exact hlabels other hother
  refine ⟨hordinary, wireLabels_ofLabels (fun label hlabel => (hordinary label hlabel).1) ?_⟩
  intro label hlabel hdot
  obtain ⟨other, hother, hfold⟩ := hpartner label hlabel
  -- A dot would be one in the other label as well.
  have hfolded : '.' ∈ Text.fold other := by
    rw [hfold]
    exact List.mem_map.mpr ⟨'.', hdot, rfl⟩
  obtain ⟨c, hc, hlower⟩ := List.mem_map.mp hfolded
  rw [(Text.toLower_eq_dot c).mp hlower] at hc
  exact not_mem_wireLabels hother hc

end Name

/-! ### Two writers -/

namespace Writer

variable {w w' : Writer} {labels found : List Label}

/-- Two writers with the same octets, that remember the same names up to case. -/
structure Twin (w w' : Writer) : Prop where
  octets : w'.octets = w.octets
  compress : w'.compress = w.compress
  keys : w'.names.toList.map WrittenName.key = w.names.toList.map WrittenName.key

namespace Twin

theorem refl (w : Writer) : Twin w w := ⟨rfl, rfl, rfl⟩

theorem size (h : Twin w w') : w'.size = w.size := congrArg Array.size h.octets

theorem putOctets (h : Twin w w') (part : Octets) : Twin (w.putOctets part) (w'.putOctets part) where
  octets := congrArg (· ++ part) h.octets
  compress := h.compress
  keys := h.keys

theorem putWord (h : Twin w w') (n : UInt16) : Twin (w.putWord n) (w'.putWord n) := by
  rw [putWord_eq, putWord_eq]
  exact h.putOctets _

theorem patch (h : Twin w w') (offset : Nat) (n : UInt16) :
    Twin (w.patch offset n) (w'.patch offset n) where
  octets := by
    unfold Writer.patch
    rw [h.octets]
  compress := h.compress
  keys := h.keys

/-- Both writers find the same. -/
theorem find? (h : Twin w w') (hsame : found.map Text.fold = labels.map Text.fold) :
    w'.find? found = w.find? labels := by
  rw [find?_eq, find?_eq, h.compress, h.keys, hsame]

/-- The names that start at labels that are written out are the same up to case. -/
theorem starts (h : Twin w w') (hsame : found.map Text.fold = labels.map Text.fold) (offset : Nat) :
    (w'.starts offset found).map WrittenName.key = (w.starts offset labels).map WrittenName.key := by
  induction labels generalizing found offset with
  | nil =>
    obtain rfl := List.map_eq_nil_iff.mp hsame
    rfl
  | cons label rest ih =>
    cases found with
    | nil => exact absurd hsame.symm (by simp)
    | cons other found =>
      obtain ⟨hlabel, hrest⟩ := List.cons.inj hsame
      have hlength : other.length = label.length := by
        rw [← Text.length_fold, hlabel, Text.length_fold]
      rw [Writer.starts, Writer.starts, h.find? hsame]
      cases w.find? (label :: rest) with
      | some offset => rfl
      | none =>
        rw [List.map_cons, List.map_cons, hlength, ih hrest]
        simp only [WrittenName.key, hsame]

/-- What is noted is the same up to case. -/
theorem noted (h : Twin w w') (hsame : found.map Text.fold = labels.map Text.fold) :
    (w'.noted found).map WrittenName.key = (w.noted labels).map WrittenName.key := by
  have hoffset : (fun name : WrittenName => decide (name.offset ≤ maxPointer))
      = (fun key : Nat × List Label => decide (key.1 ≤ maxPointer)) ∘ WrittenName.key := rfl
  unfold Writer.noted
  rw [h.compress, h.size]
  split
  · rw [hoffset, ← List.filter_map, ← List.filter_map, h.starts hsame]
  · rfl

/-- **Labels as they stand.** A twin writes the labels that stand somewhere with the octets that
    stand there. Where the writer wrote a label out, its case is heard; where it wrote a pointer, the
    twin writes the same one, whatever case is heard behind it. -/
theorem spelling (h : Twin w w') {known : Known} {jumps pos stop : Nat}
    (hlabels : ∀ label ∈ labels, label.Ordinary) (hheld : known.Holds pos (w.spelling labels))
    (hspelled : Spelled known jumps pos found stop)
    (hsame : found.map Text.fold = labels.map Text.fold) : w'.spelling found = w.spelling labels := by
  induction labels generalizing found jumps pos with
  | nil =>
    obtain rfl := List.map_eq_nil_iff.mp hsame
    rfl
  | cons label rest ih =>
    cases found with
    | nil => exact absurd hsame.symm (by simp)
    | cons other found =>
      rw [Writer.spelling, Writer.spelling, h.find? hsame]
      cases hfind : w.find? (label :: rest) with
      | some offset => rfl
      | none =>
        rw [Writer.spelling, hfind] at hheld
        obtain ⟨hhere, hbehind⟩ := Known.holds_append hheld
        rw [Label.length_wire] at hbehind
        obtain ⟨hne, hlength, hascii⟩ := hlabels label List.mem_cons_self
        have hordinary : ∀ label ∈ rest, label.Ordinary := fun label hlabel =>
          hlabels label (List.mem_cons_of_mem _ hlabel)
        cases hspelled with
        | label _ hlength' hascii' hheld' hrest =>
          obtain rfl := Spelled.label_unique hlength' hlength hascii' hascii hheld' hhere
          rw [show pos + (other.length + 1) = pos + 1 + other.length by omega] at hbehind
          dsimp only
          rw [ih hordinary hbehind hrest (List.cons.inj hsame).2]
        | pointer hhigh hmark =>
          -- The length of a label is no pointer.
          obtain ⟨octet, hoctet, _, hle, _⟩ := Spelled.length_octet hne hlength hhere
          obtain rfl : _ = octet := Option.some.inj (hhigh.symm.trans hoctet)
          omega

/-- Both writers stay twins if they write the same octets for labels that are the same up to case. -/
theorem putLabels (h : Twin w w') (hsame : found.map Text.fold = labels.map Text.fold)
    (hspelling : w'.spelling found = w.spelling labels) :
    Twin (w.putLabels labels) (w'.putLabels found) := by
  rw [putLabels_eq, putLabels_eq]
  refine ⟨?_, h.compress, ?_⟩
  · rw [h.octets, hspelling]
  · simp only [Array.toList_append, List.map_append, h.keys, h.noted hsame]

end Twin

end Writer

/-! ### Layouts in another case -/

namespace Layout

open Writer (Twin)

/-- The second layout has the names of the first one without trailing dots, in some case, and
    otherwise the same parts. -/
def Alike : Layout → Layout → Prop
  | octets part, heard => heard = .octets part
  | name domain, heard => ∃ found, heard = .name found ∧ found.fold = domain.dropDot.fold
  | refused _, _ => False
  | sized body, heard => ∃ body', heard = .sized body' ∧ body.Alike body'
  | andThen first rest, heard => ∃ first' rest', heard = .andThen first' rest' ∧ first.Alike first'
      ∧ rest.Alike rest'

/-- What a writing leaves in front of a place, a layout stands there in some case, and every twin can
    write it as it stands. -/
structure Echo (pending : List Nat) (before after : Writer) (heard : Layout) : Prop where
  stands : heard.Stands (after.known pending) before.size after.size
  rewritten : ∀ twin, Twin before twin → ∃ twin', heard.write twin = .ok () twin' ∧ Twin after twin'

/-- A name is heard in the case of the labels that it shares with earlier ones. -/
theorem echo_name {pending : List Nat} {before after : Writer} {name : Name}
    (hsound : before.Sound pending) (hwrite : name.write before = .ok () after)
    (hcount : name.wireLabels.length ≤ Name.maxJumps) :
    ∃ found : Name, found.fold = name.dropDot.fold ∧ Echo pending before after (.name found) := by
  obtain ⟨hlabels, rfl⟩ := Name.write_eq_ok hwrite
  have hputs : PutsName pending name.wireLabels before (before.putLabels name.wireLabels) :=
    Writer.putsName hlabels hsound
  obtain ⟨jumps, found, hjumps, hspelled, hsame⟩ := hputs.spelled
  obtain ⟨hordinary, hwire⟩ := Name.wireLabels_heard hlabels hsame
  -- The octets behind the writer are those that the labels are written with.
  have hheld : ((before.putLabels name.wireLabels).known pending).Holds before.size
      (before.spelling name.wireLabels) := Writer.known_putLabels hsound.pending_lt _
  refine ⟨.ofLabels found, ?_, ⟨jumps, found, Nat.le_trans hjumps hcount, hspelled, rfl⟩, ?_⟩
  · rw [Name.fold_ofLabels, hsame, ← Name.fold_ofLabels, Name.ofLabels_wireLabels]
  · intro twin htwin
    have hspelling := htwin.spelling hlabels hheld hspelled hsame
    refine ⟨twin.putLabels found, ?_, htwin.putLabels hsame hspelling⟩
    show (Name.ofLabels found).write twin = _
    rw [Name.write_apply, hwire, Label.checkAll_of_ordinary hordinary]

/-- **Echo.** What is written of a layout stands there in some case, and writing it again as it
    stands leaves a twin. The induction is on the layout; the twin goes from part to part. -/
theorem echo {layout : Layout} {pending : List Nat} {before after : Writer}
    (hsound : before.Sound pending) (hwrite : layout.write before = .ok () after)
    (hcount : ∀ name ∈ layout.names, name.wireLabels.length ≤ Name.maxJumps) :
    ∃ heard, layout.Alike heard ∧ Echo pending before after heard := by
  induction layout generalizing pending before after with
  | octets part =>
    obtain rfl := octets_eq_ok hwrite
    refine ⟨.octets part, rfl, ⟨?_, ?_⟩, fun twin htwin => ⟨_, rfl, htwin.putOctets part⟩⟩
    · exact Writer.holds_putOctets hsound.pending_lt part
    · exact Writer.size_putOctets before part
  | name name =>
    obtain ⟨found, hfound, hecho⟩ := echo_name hsound hwrite (hcount name List.mem_cons_self)
    exact ⟨.name found, ⟨found, rfl, hfound⟩, hecho⟩
  | refused error => exact absurd hwrite (by rintro ⟨⟩)
  | sized body ih =>
    obtain ⟨filled, hbody, hfits, rfl⟩ := sized_eq_ok hwrite
    obtain ⟨heard, halike, hstands, hrewritten⟩ := ih hsound.reserve hbody hcount
    have hgrown : (before.putWord 0).size ≤ filled.size := hstands.pos_le_stop
    rw [Writer.size_putWord] at hgrown hstands
    have hfirst : before.size ∉ pending := fun hmem => Nat.lt_irrefl _ (hsound.pending_lt _ hmem)
    have hsecond : before.size + 1 ∉ pending := fun hmem => by
      have hlt := hsound.pending_lt _ hmem
      omega
    refine ⟨.sized heard, ⟨heard, rfl, halike⟩, ?_, ?_⟩
    · refine ⟨_, Writer.holds_patch (by omega) hfirst hsecond, ?_, ?_⟩
      · rw [Writer.size_patch, UInt16.toNat_ofNat', Nat.mod_eq_of_lt (by omega)]
        omega
      · rw [Writer.size_patch]
        exact hstands.mono (Writer.known_within_patch pending)
    · intro twin htwin
      obtain ⟨twin', hwritten, htwin'⟩ := hrewritten _ (htwin.putWord 0)
      refine ⟨_, ?_, htwin'.patch before.size _⟩
      rw [write_sized, hwritten]
      dsimp only
      rw [Record.closePayload_eq, htwin.size, htwin'.size, if_neg (by omega)]
  | andThen first rest ihFirst ihRest =>
    obtain ⟨middle, hfirst, hrest⟩ := andThen_eq_ok hwrite
    have hkeeps := keeps_of_ok hsound hfirst
    have honward := keeps_of_ok hkeeps.sound hrest
    obtain ⟨first', halike, hstands, hrewritten⟩ := ihFirst hsound hfirst fun name hname =>
      hcount name (List.mem_append_left _ hname)
    obtain ⟨rest', halike', hstands', hrewritten'⟩ := ihRest hkeeps.sound hrest fun name hname =>
      hcount name (List.mem_append_right _ hname)
    refine ⟨.andThen first' rest', ⟨first', rest', rfl, halike, halike'⟩, ?_, ?_⟩
    · exact ⟨middle.size, hstands.mono (honward.onward.known pending), hstands'⟩
    · intro twin htwin
      obtain ⟨twin', hwritten, htwin'⟩ := hrewritten twin htwin
      obtain ⟨twin'', hwritten', htwin''⟩ := hrewritten' twin' htwin'
      refine ⟨twin'', ?_, htwin''⟩
      rw [write_andThen, hwritten]
      exact hwritten'

end Layout

end DnsResolver
