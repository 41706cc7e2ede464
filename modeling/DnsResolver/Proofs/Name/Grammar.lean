import DnsResolver.Name.Wire
import DnsResolver.Proofs.Wire.Known

namespace DnsResolver

/-!
# The grammar of names on the wire

A name in a message is a run of labels that ends in a zero octet or goes on at an earlier
offset.  `Spelled` is that grammar as a relation; it speaks about octets of which only some
need to be known, so it survives whatever happens to the others.

* `Spelled.mono`, `Spelled.unique` — more octets change no derivation, and no two
  derivations start at one place.
* `Spelled.confined` — a derivation uses only octets in front of the place where it stops.
* `readFrom_eq_ok_iff` — reading a name finds the derivations with few enough pointers.
-/

/-! ### Labels as octets -/

namespace Label

@[simp] theorem size_octets (label : Label) : label.octets.size = label.length := by
  simp [octets]

/-- The octets of an ASCII label give the label back. -/
theorem ofOctets_octets {label : Label} (hascii : label.all Text.isAscii = true) :
    ofOctets label.octets = label := by
  have hback : ∀ c ∈ label, Char.ofNat (UInt8.ofNat c.toNat).toNat = c := by
    intro c hc
    have hlt : c.toNat < 128 := by
      simpa [Text.isAscii] using List.all_eq_true.mp hascii c hc
    rw [UInt8.toNat_ofNat', Nat.mod_eq_of_lt (by omega), Char.ofNat_toNat]
  simp only [ofOctets, octets, List.map_map]
  exact (List.map_congr_left hback).trans (List.map_id _)

/-- The label that octets give has these octets. -/
theorem octets_ofOctets (octets : Octets) : (ofOctets octets).octets = octets := by
  have hback : ∀ octet ∈ octets.toList, UInt8.ofNat (Char.ofNat octet.toNat).toNat = octet := by
    intro octet _
    have hvalid : octet.toNat.isValidChar := Or.inl (by have := octet.toNat_lt; omega)
    have htoNat : (Char.ofNat octet.toNat).toNat = octet.toNat := by
      rw [Char.ofNat, dif_pos hvalid]
      rfl
    rw [htoNat, UInt8.ofNat_toNat]
  have hmap : ((ofOctets octets).map fun c => UInt8.ofNat c.toNat) = octets.toList := by
    rw [ofOctets, List.map_map]
    exact (List.map_congr_left hback).trans (List.map_id _)
  rw [Label.octets, hmap]

/-- The length octet of a label that is not too long is its length. -/
theorem toNat_length {label : Label} (hlen : label.length ≤ maxLength) :
    (UInt8.ofNat label.length).toNat = label.length := by
  have : maxLength = 63 := rfl
  rw [UInt8.toNat_ofNat', Nat.mod_eq_of_lt (by omega)]

end Label

namespace Name

/-! ### The grammar -/

/-- `Spelled known jumps pos labels stop`: at `pos` starts a name with the given labels, which
    follows `jumps` pointers, and the message goes on at `stop`. -/
inductive Spelled (known : Known) : Nat → Nat → List Label → Nat → Prop where
  | root {pos : Nat} (hzero : known pos = some 0) : Spelled known 0 pos [] (pos + 1)
  | label {jumps pos stop : Nat} {label : Label} {rest : List Label}
      (hne : label ≠ []) (hlen : label.length ≤ Label.maxLength)
      (hascii : label.all Text.isAscii = true)
      (hheld : known.Holds pos (UInt8.ofNat label.length :: label.octets.toList))
      (hrest : Spelled known jumps (pos + 1 + label.length) rest stop) :
      Spelled known jumps pos (label :: rest) stop
  | pointer {jumps pos stop : Nat} {labels : List Label} {high low : UInt8}
      (hhigh : known pos = some high) (hmark : 192 ≤ high.toNat)
      (hlow : known (pos + 1) = some low) (hback : pointerTarget high low < pos)
      (hrest : Spelled known jumps (pointerTarget high low) labels stop) :
      Spelled known (jumps + 1) pos labels (pos + 2)

namespace Spelled

variable {a b known : Known} {jumps jumps' pos stop stop' : Nat} {labels labels' : List Label}

theorem mono (h : Spelled a jumps pos labels stop) (hab : Known.Within a b) :
    Spelled b jumps pos labels stop := by
  induction h with
  | root hzero => exact root (hab _ _ hzero)
  | label hne hlen hascii hheld _ ih => exact label hne hlen hascii (hheld.mono hab) ih
  | pointer hhigh hmark hlow hback _ ih =>
    exact pointer (hab _ _ hhigh) hmark (hab _ _ hlow) hback ih

/-- The first octet tells which rule a derivation starts with: a label is at most 63 octets
    long, and a pointer has both of its top bits set. -/
theorem length_octet {label : Label} {octets : List UInt8} (hne : label ≠ [])
    (hlen : label.length ≤ Label.maxLength)
    (hheld : known.Holds pos (UInt8.ofNat label.length :: octets)) :
    ∃ octet, known pos = some octet ∧ 0 < octet.toNat ∧ octet.toNat ≤ 63
      ∧ octet.toNat = label.length := by
  have htoNat := Label.toNat_length hlen
  have hpos : 0 < label.length := List.length_pos_iff.mpr hne
  exact ⟨_, (Known.holds_cons.mp hheld).1, by omega, by rw [htoNat]; exact hlen, htoNat⟩

/-- Two labels that are held at one place are equal. -/
theorem label_unique {l l' : Label} (hlen : l.length ≤ Label.maxLength)
    (hlen' : l'.length ≤ Label.maxLength) (hascii : l.all Text.isAscii = true)
    (hascii' : l'.all Text.isAscii = true)
    (hheld : known.Holds pos (UInt8.ofNat l.length :: l.octets.toList))
    (hheld' : known.Holds pos (UInt8.ofNat l'.length :: l'.octets.toList)) : l = l' := by
  obtain ⟨hfirst, hrest⟩ := Known.holds_cons.mp hheld
  obtain ⟨hfirst', hrest'⟩ := Known.holds_cons.mp hheld'
  have hlength : l.length = l'.length := by
    have heq := Option.some.inj (hfirst.symm.trans hfirst')
    rw [← Label.toNat_length hlen, ← Label.toNat_length hlen', heq]
  have hoctets : l.octets.toList = l'.octets.toList := by
    apply List.ext_getElem
    · simpa using hlength
    · intro i hi hi'
      have h := hrest i l.octets.toList[i] (by simp)
      have h' := hrest' i l'.octets.toList[i] (by simp)
      exact Option.some.inj (h.symm.trans h')
  rw [← Label.ofOctets_octets hascii, ← Label.ofOctets_octets hascii', Array.toList_inj.mp hoctets]

/-- At one place starts at most one name. -/
theorem unique (h : Spelled known jumps pos labels stop)
    (h' : Spelled known jumps' pos labels' stop') :
    jumps = jumps' ∧ labels = labels' ∧ stop = stop' := by
  -- The rules exclude each other by the first octet, so both derivations use the same one.
  induction h generalizing jumps' labels' stop' with
  | root hzero =>
    cases h' with
    | root => exact ⟨rfl, rfl, rfl⟩
    | label hne hlen _ hheld _ =>
      obtain ⟨octet, hoctet, hpos, _⟩ := length_octet hne hlen hheld
      rw [hzero, Option.some.injEq] at hoctet
      subst hoctet
      exact absurd hpos (by decide)
    | pointer hhigh hmark =>
      rw [hzero, Option.some.injEq] at hhigh
      subst hhigh
      exact absurd hmark (by decide)
  | label hne hlen hascii hheld hrest ih =>
    obtain ⟨octet, hoctet, hpos, hle, hlength⟩ := length_octet hne hlen hheld
    cases h' with
    | root hzero =>
      rw [hzero, Option.some.injEq] at hoctet
      subst hoctet
      exact absurd hpos (by decide)
    | label hne' hlen' hascii' hheld' hrest' =>
      have heq := label_unique hlen hlen' hascii hascii' hheld hheld'
      subst heq
      obtain ⟨hjumps, hlabels, hstop⟩ := ih hrest'
      exact ⟨hjumps, by rw [hlabels], hstop⟩
    | pointer hhigh hmark =>
      rw [hhigh, Option.some.injEq] at hoctet
      subst hoctet
      omega
  | pointer hhigh hmark hlow hback hrest ih =>
    cases h' with
    | root hzero =>
      rw [hzero, Option.some.injEq] at hhigh
      subst hhigh
      exact absurd hmark (by decide)
    | label hne hlen _ hheld _ =>
      obtain ⟨octet, hoctet, _, hle, _⟩ := length_octet hne hlen hheld
      rw [hhigh, Option.some.injEq] at hoctet
      subst hoctet
      omega
    | pointer hhigh' _ hlow' _ hrest' =>
      have heq := Option.some.inj (hhigh.symm.trans hhigh')
      have heq' := Option.some.inj (hlow.symm.trans hlow')
      subst heq heq'
      obtain ⟨hjumps, hlabels, _⟩ := ih hrest'
      exact ⟨by rw [hjumps], hlabels, rfl⟩

/-! ### Where a derivation looks -/

/-- A derivation looks at the octet it starts at. -/
theorem known_pos (h : Spelled known jumps pos labels stop) : ∃ octet, known pos = some octet := by
  cases h with
  | root hzero => exact ⟨_, hzero⟩
  | label _ _ _ hheld => exact ⟨_, (Known.holds_cons.mp hheld).1⟩
  | pointer hhigh => exact ⟨_, hhigh⟩

theorem stop_le_size {data : Octets} (h : Spelled (Known.of data) jumps pos labels stop) :
    stop ≤ data.size := by
  induction h with
  | root hzero => exact (Array.getElem?_eq_some_iff.mp hzero).1
  | label _ _ _ _ _ ih => exact ih
  | pointer _ _ hlow => exact (Array.getElem?_eq_some_iff.mp hlow).1

theorem pos_lt_stop (h : Spelled known jumps pos labels stop) : pos < stop := by
  induction h with
  | root => omega
  | label _ _ _ _ _ ih => omega
  | pointer => omega

/-- A name that starts in front of a pointer either stops there, or comes to that very
    pointer: the octets of labels are ASCII, so no label reaches across its first octet. -/
theorem stop_or_reaches {p : Nat} {high : UInt8} (h : Spelled known jumps pos labels stop)
    (hp : pos ≤ p) (hhigh : known p = some high) (hmark : 192 ≤ high.toNat) :
    stop ≤ p + 1 ∨ ∃ suffix, Spelled known jumps p suffix stop := by
  induction h with
  | @root pos hzero =>
    have hne : pos ≠ p := by
      rintro rfl
      rw [hzero, Option.some.injEq] at hhigh
      subst hhigh
      exact absurd hmark (by decide)
    exact Or.inl (by omega)
  | @label jumps pos stop label rest hne hlen hascii hheld hrest ih =>
    by_cases hbehind : pos + 1 + label.length ≤ p
    · exact ih hbehind
    · -- The pointer would be the length octet of the label, or one of its characters.
      exfalso
      obtain ⟨octet, hoctet, _, hle, _⟩ := length_octet hne hlen hheld
      by_cases hsame : pos = p
      · subst hsame
        rw [hoctet, Option.some.injEq] at hhigh
        subst hhigh
        omega
      · obtain ⟨i, hi⟩ : ∃ i, p = pos + 1 + i := ⟨p - pos - 1, by omega⟩
        subst hi
        have hlt : i < label.length := by omega
        have hchar := (Known.holds_cons.mp hheld).2 i (UInt8.ofNat label[i].toNat)
          (by simp [Label.octets, hlt])
        have hsmall : label[i].toNat < 128 := by
          simpa [Text.isAscii] using List.all_eq_true.mp hascii label[i] (List.getElem_mem hlt)
        rw [hchar, Option.some.injEq] at hhigh
        rw [← hhigh, UInt8.toNat_ofNat'] at hmark
        omega
  | @pointer jumps pos stop labels high' low hhigh' hmark' hlow hback hrest _ =>
    by_cases hsame : pos = p
    · subst hsame
      exact Or.inr ⟨labels, pointer hhigh' hmark' hlow hback hrest⟩
    · exact Or.inl (by omega)

/-- **Confinement.** A derivation uses only octets in front of the place where it stops.  What
    is read behind a pointer stops in front of it: coming back to the pointer would need one
    pointer fewer than the pointer itself does, and both would start at one place. -/
theorem confined (h : Spelled known jumps pos labels stop) :
    Spelled (known.below stop) jumps pos labels stop := by
  induction h with
  | root hzero => exact root (Known.below_eq hzero (by omega))
  | label hne hlen hascii hheld hrest ih =>
    refine label hne hlen hascii (hheld.below ?_) ih
    have := hrest.pos_lt_stop
    simp only [List.length_cons, Array.length_toList, Label.size_octets]
    omega
  | @pointer jumps pos stop labels high low hhigh hmark hlow hback hrest ih =>
    -- The derivation behind the pointer is one jump shorter than the one at it.
    have hstop : stop ≤ pos + 1 := by
      rcases hrest.stop_or_reaches (by omega) hhigh hmark with hstop | ⟨suffix, hagain⟩
      · exact hstop
      · have hjumps := (hagain.unique (pointer hhigh hmark hlow hback hrest)).1
        omega
    exact pointer (Known.below_eq hhigh (by omega)) hmark (Known.below_eq hlow (by omega)) hback
      (ih.mono (Known.below_below (by omega) known))

end Spelled

/-! ### Reading -/

variable {data : Octets} {jumps used pos stop : Nat} {labels : List Label}

/-- Reading ends at a zero octet. -/
theorem readFrom_root (hzero : data[pos]? = some 0) (seen : List Label) (resume : Option Nat) :
    readFrom data jumps pos seen resume = .ok (seen.reverse, resume.getD (pos + 1)) := by
  rw [readFrom]
  simp [hzero]

/-- Reading goes on behind a label. -/
theorem readFrom_label {label : Label} (hne : label ≠ []) (hlen : label.length ≤ Label.maxLength)
    (hascii : label.all Text.isAscii = true)
    (hheld : (Known.of data).Holds pos (UInt8.ofNat label.length :: label.octets.toList))
    (seen : List Label) (resume : Option Nat) :
    readFrom data jumps pos seen resume
      = readFrom data jumps (pos + 1 + label.length) (label :: seen) resume := by
  have hlength := Label.toNat_length hlen
  have hpos : 0 < label.length := List.length_pos_iff.mpr hne
  have h63 : label.length ≤ 63 := hlen
  obtain ⟨hfirst, hchars⟩ := Known.holds_cons.mp hheld
  have hsome : label.octets.toList ≠ [] := by
    intro hnil
    have := congrArg List.length hnil
    simp only [Array.length_toList, Label.size_octets, List.length_nil] at this
    omega
  obtain ⟨hsize, hextract⟩ := hchars.extract hsome
  simp only [Array.length_toList, Label.size_octets, Array.toArray_toList] at hsize hextract
  rw [readFrom]
  simp only [show data[pos]? = some _ from hfirst, hlength]
  rw [if_neg (by omega), if_neg (by omega), if_pos hlen, if_neg (by omega), hextract,
    Label.ofOctets_octets hascii, hascii]
  simp

/-- Reading goes on where a pointer points to, and the message behind the first pointer. -/
theorem readFrom_pointer {high low : UInt8} (hhigh : data[pos]? = some high)
    (hmark : 192 ≤ high.toNat) (hlow : data[pos + 1]? = some low)
    (hback : pointerTarget high low < pos) (seen : List Label) (resume : Option Nat) :
    readFrom data (jumps + 1) pos seen resume
      = readFrom data jumps (pointerTarget high low) seen (resume.or (some (pos + 2))) := by
  rw [readFrom]
  simp only [hhigh, hlow]
  rw [if_pos hmark, if_neg (by omega)]

/-- A derivation with few enough pointers is what reading finds, behind the labels that were
    read before. -/
theorem readFrom_of_spelled (h : Spelled (Known.of data) used pos labels stop) (hused : used ≤ jumps)
    (seen : List Label) (resume : Option Nat) :
    readFrom data jumps pos seen resume = .ok (seen.reverse ++ labels, resume.getD stop) := by
  induction h generalizing jumps seen resume with
  | root hzero => rw [readFrom_root hzero, List.append_nil]
  | label hne hlen hascii hheld _ ih =>
    rw [readFrom_label hne hlen hascii hheld, ih hused]
    simp
  | pointer hhigh hmark hlow hback _ ih =>
    obtain ⟨jumps, rfl⟩ : ∃ n, jumps = n + 1 := ⟨jumps - 1, by omega⟩
    rw [readFrom_pointer hhigh hmark hlow hback, ih (Nat.le_of_succ_le_succ hused)]
    cases resume <;> simp

/-- Of a message that is cut off, reading finds the same name or comes to the end too early. -/
theorem readFrom_of_spelled_cut {known : Known} (h : Spelled known used pos labels stop)
    (hused : used ≤ jumps) (hdata : Known.Within (Known.of data) known) (seen : List Label)
    (resume : Option Nat) :
    readFrom data jumps pos seen resume = .ok (seen.reverse ++ labels, resume.getD stop)
      ∨ ∃ offset, readFrom data jumps pos seen resume = .error (.endOfStream offset) := by
  induction h generalizing jumps seen resume with
  | @root pos hzero =>
    cases hget : data[pos]? with
    | none => exact Or.inr ⟨pos, by rw [readFrom, hget]⟩
    | some octet =>
      obtain rfl : octet = 0 := Option.some.inj ((hdata pos octet hget).symm.trans hzero)
      exact Or.inl (by rw [readFrom_root hget, List.append_nil])
  | @label used pos stop label rest hne hlen hascii hheld _ ih =>
    by_cases hsize : pos + (label.length + 1) ≤ data.size
    · have hheld' := hheld.of_within hdata (by simpa using hsize)
      rw [readFrom_label hne hlen hascii hheld']
      simpa using ih hused (label :: seen) resume
    -- Either the length octet itself is missing, or the label behind it is cut off.
    · cases hget : data[pos]? with
      | none => exact Or.inr ⟨pos, by rw [readFrom, hget]⟩
      | some octet =>
        have hlength := Label.toNat_length hlen
        have hpos : 0 < label.length := List.length_pos_iff.mpr hne
        have h63 : label.length ≤ 63 := hlen
        obtain rfl : octet = UInt8.ofNat label.length :=
          Option.some.inj ((hdata pos octet hget).symm.trans (Known.holds_cons.mp hheld).1)
        refine Or.inr ⟨pos + 1 + label.length, ?_⟩
        rw [readFrom]
        simp only [hget, hlength]
        rw [if_neg (by omega), if_neg (by omega), if_pos hlen, if_pos (by omega)]
  | @pointer used pos stop labels high low hhigh hmark hlow hback _ ih =>
    obtain ⟨jumps, rfl⟩ : ∃ n, jumps = n + 1 := ⟨jumps - 1, by omega⟩
    cases hget : data[pos]? with
    | none => exact Or.inr ⟨pos, by rw [readFrom, hget]⟩
    | some octet =>
      obtain rfl : octet = high := Option.some.inj ((hdata pos octet hget).symm.trans hhigh)
      cases hget' : data[pos + 1]? with
      | none =>
        refine Or.inr ⟨pos + 1, ?_⟩
        rw [readFrom]
        simp only [hget, hget']
        rw [if_pos hmark]
      | some octet' =>
        obtain rfl : octet' = low := Option.some.inj ((hdata _ octet' hget').symm.trans hlow)
        rw [readFrom_pointer hget hmark hget' hback]
        have hrest := ih (Nat.le_of_succ_le_succ hused) seen (resume.or (some (pos + 2)))
        cases resume <;> simpa using hrest

/-- What reading finds has a derivation. -/
theorem spelled_of_readFrom {seen : List Label} {resume : Option Nat} {found : List Label × Nat}
    (h : readFrom data jumps pos seen resume = .ok found) :
    ∃ used labels stop, used ≤ jumps ∧ Spelled (Known.of data) used pos labels stop
      ∧ found = (seen.reverse ++ labels, resume.getD stop) := by
  fun_induction readFrom data jumps pos seen resume with
  -- Seven ways end in an error; the others are a pointer, the root and a label.
  | case1 | case2 | case3 | case4 | case7 | case8 | case10 => exact absurd h (by simp)
  | case5 pos seen resume high hhigh hmark low hlow target hback jumps ih =>
    obtain ⟨used, labels, stop, hused, hspelled, hfound⟩ := ih h
    refine ⟨used + 1, labels, pos + 2, by omega, ?_, ?_⟩
    · exact .pointer hhigh hmark hlow (by omega) hspelled
    · rw [hfound]
      cases resume <;> simp
  | case6 jumps pos seen resume length hlength hmark hzero =>
    refine ⟨0, [], pos + 1, Nat.zero_le _, ?_, ?_⟩
    · refine .root (show data[pos]? = some 0 from ?_)
      rw [hlength, UInt8.toNat_inj.mp (by simpa using hzero : length.toNat = (0 : UInt8).toNat)]
    · rw [List.append_nil]
      exact (Except.ok.inj h).symm
  | case9 jumps pos seen resume length hfirst hmark hzero hshort next hsize label hascii ih =>
    obtain ⟨used, labels, stop, hused, hspelled, hfound⟩ := ih h
    have hoctets : label.octets = data.extract (pos + 1) next := Label.octets_ofOctets _
    have hlength : label.length = length.toNat := by
      rw [← Label.size_octets, hoctets, Array.size_extract]
      omega
    refine ⟨used, label :: labels, stop, hused, ?_, ?_⟩
    · refine .label ?_ (by omega) (by simpa using hascii) ?_ (by rwa [hlength])
      · intro hnil
        rw [hnil] at hlength
        exact hzero hlength.symm
      · rw [hoctets, hlength, UInt8.ofNat_toNat]
        exact Known.holds_cons.mpr ⟨hfirst, Known.holds_extract data _ _⟩
    · simpa using hfound

/-- Reading finds exactly the derivations with few enough pointers. -/
theorem readFrom_eq_ok_iff :
    readFrom data jumps pos [] none = .ok (labels, stop)
      ↔ ∃ used ≤ jumps, Spelled (Known.of data) used pos labels stop := by
  constructor
  · intro h
    obtain ⟨used, labels', stop', hused, hspelled, hfound⟩ := spelled_of_readFrom h
    obtain ⟨rfl, rfl⟩ : labels = labels' ∧ stop = stop' := by simpa using hfound
    exact ⟨used, hused, hspelled⟩
  · rintro ⟨used, hused, hspelled⟩
    simpa using readFrom_of_spelled hspelled hused [] none

/-- A name that is read is the text of the labels that were found. -/
theorem read_eq_ok_iff {name : Name} :
    Name.read data pos = .ok name stop
      ↔ ∃ labels, readFrom data maxJumps pos [] none = .ok (labels, stop) ∧ name = ofLabels labels := by
  unfold Name.read
  cases readFrom data maxJumps pos [] none with
  | error error => simp
  | ok found =>
    obtain ⟨labels, next⟩ := found
    constructor
    · intro h
      injection h with hname hstop
      exact ⟨labels, by rw [hstop], hname.symm⟩
    · rintro ⟨labels', hfound, rfl⟩
      obtain ⟨rfl, rfl⟩ := Prod.mk.inj (Except.ok.inj hfound)
      rfl

end Name

end DnsResolver
