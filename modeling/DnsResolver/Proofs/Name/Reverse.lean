import DnsResolver.Name.Reverse
import DnsResolver.Proofs.Message.Payload
import DnsResolver.Proofs.Text.Numeral
import Mathlib

namespace DnsResolver

/-!
# Reverse names and their addresses

A reverse name is read as the address that it was made from, in any case and with any number of
trailing dots.  Under `ip6.arpa` no other name is read as an address; under `in-addr.arpa` the
numbers may be padded.

* `Ip.reverseLabels`, `Name.reverse_eq` — the labels of a reverse name in front of its zone.
* `Name.addressV4?_eq_some_iff`, `Name.addressV6?_eq_some_iff` — which labels stand for an address.
* `Name.Spells`, `Name.address_eq_ok_iff` — which names are read as an address.
* `Name.address_of_canonical` — reverse names are read back.
* `Name.reverse_of_address` — what is known of a name that is read as an address.
-/

/-! ### Octets and half-octets -/

namespace Name

/-- The two halves of an octet, the high one first. -/
def halves (octet : UInt8) : List Nat := [octet.toNat / 16, octet.toNat % 16]

theorem halves_lt {octet : UInt8} {n : Nat} (h : n ∈ halves octet) : n < 16 := by
  have := octet.toNat_lt
  simp only [halves, List.mem_cons, List.not_mem_nil, or_false] at h
  omega

theorem map_hexDigits_halves (octet : UInt8) :
    (halves octet).map Text.hexDigits = (nibbles octet).reverse := rfl

theorem pairNibbles_halves (octets : List UInt8) : pairNibbles (octets.flatMap halves) = octets := by
  induction octets with
  | nil => rfl
  | cons octet octets ih =>
    have hoctet : octet.toNat / 16 * 16 + octet.toNat % 16 = octet.toNat := by omega
    show UInt8.ofNat (octet.toNat / 16 * 16 + octet.toNat % 16) :: pairNibbles (octets.flatMap halves)
      = octet :: octets
    rw [hoctet, UInt8.ofNat_toNat, ih]

/-- An even number of half-octets are the halves of the octets that they form. -/
theorem halves_pairNibbles {count : Nat} {values : List Nat} (hlength : values.length = 2 * count)
    (hlt : ∀ n ∈ values, n < 16) : (pairNibbles values).flatMap halves = values := by
  -- Two values make one octet, so the induction is over the number of octets.
  induction count generalizing values with
  | zero =>
    obtain rfl : values = [] := List.length_eq_zero_iff.mp hlength
    rfl
  | succ count ih =>
    match values with
    | [] => simp at hlength
    | [_] => simp at hlength; omega
    | high :: low :: rest =>
      have hhigh := hlt high (by simp)
      have hlow := hlt low (by simp)
      have hrest := @ih rest (by simpa [Nat.mul_succ] using hlength) fun n hn =>
        hlt n (by simp [hn])
      rw [pairNibbles, List.flatMap_cons, hrest, halves, UInt8.toNat_ofNat',
        Nat.mod_eq_of_lt (by omega : high * 16 + low < 2 ^ 8)]
      have hdiv : (high * 16 + low) / 16 = high := by omega
      have hmod : (high * 16 + low) % 16 = low := by omega
      rw [hdiv, hmod]
      rfl

end Name

theorem IPv4.ofOctets?_eq_some_iff {octets : List UInt8} {ip : IPv4} :
    ofOctets? octets = some ip ↔ octets = ip.octets := by
  constructor
  · intro h
    unfold ofOctets? at h
    split at h
    · obtain rfl := Option.some.inj h
      rfl
    · exact absurd h (by simp)
  · rintro rfl
    exact ofOctets?_octets ip

theorem Wire.wordOctets_word (high low : UInt8) : wordOctets (word high low) = (high, low) := by
  have := high.toNat_lt
  have := low.toNat_lt
  refine Prod.ext (UInt8.toNat_inj.mp ?_) (UInt8.toNat_inj.mp ?_)
  all_goals
    simp only [wordOctets, word, UInt8.toNat_ofNat', UInt16.toNat_ofNat']
    omega

theorem IPv6.octets_of_pairOctets {octets : List UInt8} {groups : List UInt16}
    (h : pairOctets octets = some groups) :
    (groups.flatMap fun group => [(Wire.wordOctets group).1, (Wire.wordOctets group).2]) = octets := by
  fun_induction pairOctets octets generalizing groups with
  | case1 =>
    obtain rfl := Option.some.inj h
    rfl
  | case2 => exact absurd h (by simp)
  | case3 high low rest ih =>
    obtain ⟨groups, hgroups, rfl⟩ := Option.map_eq_some_iff.mp h
    rw [List.flatMap_cons, ih hgroups, Wire.wordOctets_word]
    rfl

theorem IPv6.ofOctets?_eq_some_iff {octets : List UInt8} {ip : IPv6} :
    ofOctets? octets = some ip ↔ octets = ip.octets := by
  constructor
  · intro h
    obtain ⟨groups, hgroups, hip⟩ := Option.bind_eq_some_iff.mp h
    unfold ofGroups? at hip
    split at hip
    · obtain rfl := Option.some.inj hip
      exact (octets_of_pairOctets hgroups).symm
    · exact absurd hip (by simp)
  · rintro rfl
    exact ofOctets?_octets ip

theorem IPv6.length_octets (ip : IPv6) : ip.octets.length = 16 := by
  simpa using ip.size_octets

/-! ### The labels of a reverse name -/

namespace Ip

/-- The zone of the reverse name of an address. -/
def reverseZone : Ip → List Char
  | .v4 _ => Name.reverseV4Zone
  | .v6 _ => Name.reverseV6Zone

/-- The labels of the reverse name of an address in front of its zone. -/
def reverseLabels : Ip → List Label
  | .v4 ip => ip.octets.reverse.map fun octet => Text.digits octet.toNat
  | .v6 ip => ip.octets.reverse.flatMap Name.nibbles

variable {ip : Ip} {label : Label}

theorem reverseLabels_ne_nil (ip : Ip) : ip.reverseLabels ≠ [] := by
  cases ip with
  | v4 ip => simp [reverseLabels, IPv4.octets]
  | v6 ip =>
    have hlength := ip.length_octets
    cases hoctets : ip.octets with
    | nil => simp [hoctets] at hlength
    | cons octet octets => simp [reverseLabels, hoctets, Name.nibbles]

theorem length_reverseLabels (ip : Ip) : ip.reverseLabels.length ≤ 32 := by
  cases ip with
  | v4 ip => simp [reverseLabels, IPv4.octets]
  | v6 ip =>
    have hnibbles : ∀ octet : UInt8, (Name.nibbles octet).length = 2 := fun _ => rfl
    simp [reverseLabels, List.length_flatMap, hnibbles, ip.length_octets]

/-- The labels are short, and of digits and lower-case letters. -/
theorem reverseLabels_spec (h : label ∈ ip.reverseLabels) :
    label ≠ [] ∧ label.length ≤ 3
      ∧ ∀ c ∈ label, Text.isAscii c = true ∧ c ≠ '.' ∧ c.toLower = c := by
  have hdigit : ∀ d, d < 16 →
      Text.isAscii d.digitChar = true ∧ d.digitChar ≠ '.' ∧ d.digitChar.toLower = d.digitChar := by
    decide
  have hhex : ∀ n, n < 16 → Text.hexDigits n ≠ [] ∧ (Text.hexDigits n).length ≤ 3
      ∧ ∀ c ∈ Text.hexDigits n, Text.isAscii c = true ∧ c ≠ '.' ∧ c.toLower = c := fun n hn => by
    rw [Text.hexDigits_of_lt hn]
    exact ⟨by simp, by simp, fun c hc => List.mem_singleton.mp hc ▸ hdigit n hn⟩
  cases ip with
  | v4 ip =>
    obtain ⟨octet, -, rfl⟩ := List.mem_map.mp h
    have hlt : octet.toNat < 10 ^ 3 := Nat.lt_of_lt_of_le octet.toNat_lt (by decide)
    refine ⟨Text.digits_ne_nil _, (Nat.length_toDigits_le_iff (by decide) (by decide)).mpr hlt,
      fun c hc => ?_⟩
    obtain ⟨hsmall, hchar⟩ := Text.eq_digitChar_of_isDigit (Text.isDigit_of_mem_digits hc)
    exact hchar ▸ hdigit _ (Nat.lt_trans hsmall (by decide))
  | v6 ip =>
    obtain ⟨octet, -, hlabel⟩ := List.mem_flatMap.mp h
    have hlt := octet.toNat_lt
    rcases List.mem_cons.mp hlabel with rfl | hlabel
    · exact hhex _ (by omega)
    · obtain rfl := List.mem_singleton.mp hlabel
      exact hhex _ (by omega)

end Ip

namespace Name

theorem reverse_eq (ip : Ip) :
    reverse ip = ⟨['.'].intercalate ip.reverseLabels ++ ip.reverseZone⟩ := by
  cases ip <;> rfl

theorem splitOn_reverseLabels (ip : Ip) :
    (['.'].intercalate ip.reverseLabels).splitOn '.' = ip.reverseLabels :=
  List.splitOn_intercalate '.'
    (fun _ hlabel hdot => ((Ip.reverseLabels_spec hlabel).2.2 '.' hdot).2.1 rfl)
    ip.reverseLabels_ne_nil

theorem labels_reverse (ip : Ip) :
    (reverse ip).labels = ip.reverseLabels ++ Name.labels ⟨ip.reverseZone.tail⟩ := by
  have hzone : ip.reverseZone = '.' :: ip.reverseZone.tail := by cases ip <;> rfl
  rw [reverse_eq, labels, hzone, List.splitOn_append_cons_self, splitOn_reverseLabels]
  rfl

/-- A reverse name may be written. -/
theorem ordinary_reverse (ip : Ip) : (reverse ip).Ordinary := by
  have hzone : (Name.labels ⟨ip.reverseZone.tail⟩).length = 2
      ∧ ∀ label ∈ Name.labels ⟨ip.reverseZone.tail⟩, label.Ordinary := by
    cases ip with
    | v4 => exact (by decide : (Name.labels ⟨reverseV4Zone.tail⟩).length = 2
        ∧ ∀ label ∈ Name.labels ⟨reverseV4Zone.tail⟩, label.Ordinary)
    | v6 => exact (by decide : (Name.labels ⟨reverseV6Zone.tail⟩).length = 2
        ∧ ∀ label ∈ Name.labels ⟨reverseV6Zone.tail⟩, label.Ordinary)
  refine Or.inr ⟨?_, fun label hlabel => ?_⟩
  · rw [labels_reverse, List.length_append, hzone.1]
    exact Nat.le_trans (Nat.add_le_add_right ip.length_reverseLabels 2) (by decide)
  · rw [labels_reverse] at hlabel
    rcases List.mem_append.mp hlabel with hfront | hback
    · obtain ⟨hne, hlength, hchars⟩ := Ip.reverseLabels_spec hfront
      exact ⟨hne, Nat.le_trans hlength (by decide), List.all_eq_true.mpr fun c hc => (hchars c hc).1⟩
    · exact hzone.2 label hback

/-- A reverse name is in lower case and has no trailing dot. -/
theorem canonical_reverse (ip : Ip) : (reverse ip).canonical = reverse ip := by
  have hlast : ip.reverseZone = ip.reverseZone.dropLast ++ ['a'] := by cases ip <;> rfl
  have hdots : (reverse ip).dropDots = reverse ip := by
    rw [reverse_eq, hlast]
    simp [dropDots, Text.dropEndWhile]
  have hlabels : ip.reverseLabels.map Text.fold = ip.reverseLabels :=
    (List.map_congr_left fun label hlabel =>
      (List.map_congr_left fun c hc => ((Ip.reverseLabels_spec hlabel).2.2 c hc).2.2).trans
        (List.map_id label)).trans (List.map_id _)
  have hfront : Text.fold (['.'].intercalate ip.reverseLabels) = ['.'].intercalate ip.reverseLabels := by
    have hfold := fold_ofLabels ip.reverseLabels
    rw [hlabels] at hfold
    exact congrArg Name.chars hfold
  have hzone : Text.fold ip.reverseZone = ip.reverseZone := by cases ip <;> rfl
  rw [canonical_of_dropDots hdots, reverse_eq]
  apply congrArg Name.mk
  unfold Text.fold at hfront hzone ⊢
  rw [List.map_append, hfront, hzone]

end Name

/-! ### The labels that stand for an address -/

/-- Reading all items of a list is reading each of them. -/
theorem mapM_eq_some_iff {α β : Type} {f : α → Option β} {items : List α} {values : List β} :
    items.mapM f = some values ↔ List.Forall₂ (fun item value => f item = some value) items values := by
  induction items generalizing values with
  | nil => cases values <;> simp
  | cons item items ih =>
    rw [List.mapM_cons]
    constructor
    · intro h
      obtain ⟨value, hvalue, h⟩ := Option.bind_eq_some_iff.mp h
      obtain ⟨rest, hrest, h⟩ := Option.bind_eq_some_iff.mp h
      obtain rfl := Option.some.inj h
      exact List.Forall₂.cons hvalue (ih.mp hrest)
    · rintro (_ | ⟨hvalue, hrest⟩)
      rw [hvalue, ih.mpr hrest]
      rfl

theorem Text.stripBack?_eq_some_iff {back cs front : List Char} :
    stripBack? back cs = some front ↔ cs = front ++ back := by
  unfold stripBack?
  constructor
  · intro h
    split at h
    · next hback =>
      obtain ⟨before, rfl⟩ := List.isSuffixOf_iff_suffix.mp hback
      obtain rfl := Option.some.inj h
      rw [List.length_append, Nat.add_sub_cancel, List.take_left]
    · exact absurd h (by simp)
  · rintro rfl
    rw [if_pos (List.isSuffixOf_iff_suffix.mpr (List.suffix_append front back)),
      List.length_append, Nat.add_sub_cancel, List.take_left]

namespace Name

variable {labels : List Label} {label : Label} {name : Name} {ip : Ip}

/-- Four numbers, padded or not, stand for the address with them as octets in reverse. -/
theorem addressV4?_eq_some_iff :
    addressV4? labels = some ip ↔ ∃ v4, ip = .v4 v4
      ∧ List.Forall₂ (fun label octet => Text.Padded octet.toNat label) labels v4.octets.reverse := by
  constructor
  · intro h
    obtain ⟨values, hvalues, h⟩ := Option.bind_eq_some_iff.mp h
    obtain ⟨v4, hoctets, h⟩ := Option.bind_eq_some_iff.mp h
    obtain rfl := Option.some.inj h
    refine ⟨v4, rfl, ?_⟩
    rw [← IPv4.ofOctets?_eq_some_iff.mp hoctets, ← List.forall₂_reverse_iff, List.reverse_reverse,
      List.forall₂_map_right_iff]
    refine (mapM_eq_some_iff.mp hvalues).imp fun label value hvalue => ?_
    obtain ⟨hle, hpadded⟩ := Text.numeral?_eq_some_iff.mp hvalue
    rwa [UInt8.toNat_ofNat', Nat.mod_eq_of_lt (by omega)]
  · rintro ⟨v4, rfl, hlabels⟩
    have hread : labels.reverse.mapM (Text.numeral? 255) = some (v4.octets.map UInt8.toNat) := by
      rw [mapM_eq_some_iff, List.forall₂_map_right_iff, ← List.reverse_reverse v4.octets,
        List.forall₂_reverse_iff]
      refine hlabels.imp fun label octet hpadded => Text.numeral?_eq_some_iff.mpr ⟨?_, hpadded⟩
      have := octet.toNat_lt
      omega
    have hoctets : (v4.octets.map UInt8.toNat).map UInt8.ofNat = v4.octets := by
      rw [List.map_map]
      exact (List.map_congr_left fun octet _ => UInt8.ofNat_toNat).trans (List.map_id _)
    rw [addressV4?, hread, Option.bind_eq_bind, Option.bind_some, hoctets,
      IPv4.ofOctets?_eq_some_iff.mpr rfl]
    rfl

/-- A label in lower case is read as a half-octet if it is the digit that is printed for it. -/
theorem nibble?_eq_some_iff {n : Nat} (hlower : Text.fold label = label) :
    nibble? label = some n ↔ n < 16 ∧ label = Text.hexDigits n := by
  unfold nibble?
  split
  · next c => exact Text.hexValue?_eq_some_iff (List.cons.inj hlower).1
  · next hlength =>
    refine ⟨fun h => absurd h (by simp), ?_⟩
    rintro ⟨hlt, rfl⟩
    exact absurd (Text.hexDigits_of_lt hlt) (hlength _)

theorem mapM_nibble?_eq_some_iff {values : List Nat}
    (hlower : ∀ label ∈ labels, Text.fold label = label) :
    labels.mapM nibble? = some values
      ↔ (∀ n ∈ values, n < 16) ∧ labels = values.map Text.hexDigits := by
  rw [mapM_eq_some_iff]
  induction labels generalizing values with
  | nil => cases values <;> simp
  | cons label labels ih =>
    have hread := fun n => @nibble?_eq_some_iff label n (hlower label List.mem_cons_self)
    have hrest := fun rest => @ih rest fun label hlabel =>
      hlower label (List.mem_cons_of_mem _ hlabel)
    cases values with
    | nil => simp
    | cons n rest =>
      rw [List.forall₂_cons, hread, hrest, List.forall_mem_cons, List.map_cons, List.cons.injEq]
      exact and_and_and_comm

/-- The labels of one reverse name stand for an IPv6 address, and no other ones in lower case. -/
theorem addressV6?_eq_some_iff (hlower : ∀ label ∈ labels, Text.fold label = label) :
    addressV6? labels = some ip ↔ ∃ v6, ip = .v6 v6 ∧ labels = (Ip.v6 v6).reverseLabels := by
  have hread : ∀ {values : List Nat}, labels.reverse.mapM nibble? = some values
      ↔ (∀ n ∈ values, n < 16) ∧ labels.reverse = values.map Text.hexDigits := fun {_} =>
    mapM_nibble?_eq_some_iff fun label hlabel => hlower label (List.mem_reverse.mp hlabel)
  have hprinted : ∀ v6 : IPv6, (v6.octets.flatMap halves).map Text.hexDigits
      = (Ip.v6 v6).reverseLabels.reverse := fun v6 => by
    rw [Ip.reverseLabels, List.reverse_flatMap, List.reverse_reverse, List.map_flatMap]
    rfl
  have hcount : ∀ v6 : IPv6, (v6.octets.flatMap halves).length = 32 := fun v6 => by
    have hhalves : ∀ octet : UInt8, (halves octet).length = 2 := fun _ => rfl
    simp [List.length_flatMap, hhalves, v6.length_octets]
  constructor
  · intro h
    obtain ⟨values, hvalues, h⟩ := Option.bind_eq_some_iff.mp h
    obtain ⟨hlt, hlabels⟩ := hread.mp hvalues
    split at h
    · next hlength =>
      obtain ⟨v6, hoctets, h⟩ := Option.bind_eq_some_iff.mp h
      obtain rfl := Option.some.inj h
      refine ⟨v6, rfl, List.reverse_injective ?_⟩
      rw [hlabels, ← hprinted, ← IPv6.ofOctets?_eq_some_iff.mp hoctets,
        halves_pairNibbles (show values.length = 2 * 16 from hlength) hlt]
    · exact absurd h (by simp)
  · rintro ⟨v6, rfl, rfl⟩
    have hvalues := hread.mpr ⟨fun n hn => ?_, (hprinted v6).symm⟩
    · rw [addressV6?, hvalues]
      show (if _ then _ else _) = _
      rw [if_pos (hcount v6), pairNibbles_halves, IPv6.ofOctets?_eq_some_iff.mpr rfl]
      rfl
    · obtain ⟨octet, -, hhalf⟩ := List.mem_flatMap.mp hn
      exact halves_lt hhalf

/-! ### The names that are read as an address -/

/-- The names in lower case and without trailing dots that stand for an address: its reverse name,
    and those with padded numbers in place of the octets of an IPv4 address. -/
def Spells (name : Name) : Ip → Prop
  | .v4 ip => ∃ labels, name.chars = ['.'].intercalate labels ++ reverseV4Zone
      ∧ List.Forall₂ (fun label octet => Text.Padded octet.toNat label) labels ip.octets.reverse
  | .v6 ip => name = reverse (.v6 ip)

/-- No name is under both zones. -/
theorem append_reverseV6Zone_ne (front front' : List Char) :
    front ++ reverseV6Zone ≠ front' ++ reverseV4Zone := by
  intro h
  -- Both end in `.arpa`, and the character in front of that tells them apart.
  have hsixth := congrArg (fun cs => cs.reverse[5]?) h
  simp only [List.reverse_append] at hsixth
  rw [List.getElem?_append_left (by decide), List.getElem?_append_left (by decide)] at hsixth
  exact absurd hsixth (by decide)

/-- Padded numbers have no dots. -/
theorem splitOn_of_padded {octets : List UInt8} (hne : octets ≠ [])
    (h : List.Forall₂ (fun label octet => Text.Padded octet.toNat label) labels octets) :
    (['.'].intercalate labels).splitOn '.' = labels := by
  refine List.splitOn_intercalate '.' (fun label hlabel hdot => ?_) ?_
  · obtain ⟨i, hi, rfl⟩ := List.getElem_of_mem hlabel
    have hpadded := h.get hi (h.length_eq ▸ hi)
    rcases Text.eq_plus_or_isDigit_of_mem hpadded hdot with hplus | hdigit
    · exact absurd hplus (by decide)
    · exact absurd hdigit (by decide)
  · rintro rfl
    exact hne (List.forall₂_nil_left_iff.mp h)

theorem spells_iff_of_v4 {front : List Char} (h : name.chars = front ++ reverseV4Zone) :
    name.Spells ip ↔ addressV4? (front.splitOn '.') = some ip := by
  rw [addressV4?_eq_some_iff]
  constructor
  · intro hspells
    cases ip with
    | v4 v4 =>
      obtain ⟨labels, hchars, hlabels⟩ := hspells
      obtain rfl := List.append_cancel_right (h.symm.trans hchars)
      rw [splitOn_of_padded (by simp [IPv4.octets]) hlabels]
      exact ⟨v4, rfl, hlabels⟩
    | v6 v6 =>
      have hchars := congrArg Name.chars (hspells.trans (reverse_eq (.v6 v6)))
      exact absurd (hchars.symm.trans h) (append_reverseV6Zone_ne _ _)
  · rintro ⟨v4, rfl, hlabels⟩
    exact ⟨_, by rw [h, List.intercalate_splitOn], hlabels⟩

theorem spells_iff_of_v6 {front : List Char} (h : name.chars = front ++ reverseV6Zone)
    (hlower : name.fold = name) :
    name.Spells ip ↔ addressV6? (front.splitOn '.') = some ip := by
  have hfront : Text.fold front = front := by
    have hfold := congrArg Name.chars hlower
    rw [fold, h, Text.fold, List.map_append] at hfold
    exact List.append_inj_left hfold (by simp)
  have hlabels : ∀ label ∈ front.splitOn '.', Text.fold label = label := by
    have hfold : front.splitOn '.' = (front.splitOn '.').map Text.fold := by
      have hsame := labels_fold ⟨front⟩
      rwa [fold, hfront] at hsame
    intro label hlabel
    rw [hfold] at hlabel
    obtain ⟨whole, -, rfl⟩ := List.mem_map.mp hlabel
    exact Text.fold_fold whole
  rw [addressV6?_eq_some_iff hlabels]
  -- Splitting what is in front of the zone gives the labels back, since they have no dots.
  constructor
  · intro hspells
    cases ip with
    | v4 v4 =>
      obtain ⟨labels, hchars, -⟩ := hspells
      exact absurd (h.symm.trans hchars) (append_reverseV6Zone_ne _ _)
    | v6 v6 =>
      have hchars := congrArg Name.chars (hspells.trans (reverse_eq (.v6 v6)))
      obtain rfl := List.append_cancel_right (h.symm.trans hchars)
      exact ⟨v6, rfl, splitOn_reverseLabels _⟩
  · rintro ⟨v6, rfl, hlabels⟩
    rw [← @List.intercalate_splitOn _ front _ _ '.', hlabels] at h
    exact congrArg Name.mk h

/-- **Reading a reverse name.** The names that are read as an address are those that stand for it,
    in any case and with any number of trailing dots. -/
theorem address_eq_ok_iff : name.address = .ok ip ↔ name.canonical.Spells ip := by
  have hlower : name.canonical.fold = name.canonical := congrArg Name.mk (Text.fold_fold _)
  have hchars : Text.fold name.dropDots.chars = name.canonical.chars := rfl
  simp only [address, hchars]
  -- The zones are tried one after the other, and a name that stands for an address is under its own.
  cases hv4 : Text.stripBack? reverseV4Zone name.canonical.chars with
  | some front =>
    rw [spells_iff_of_v4 (Text.stripBack?_eq_some_iff.mp hv4)]
    cases haddress : addressV4? (front.splitOn '.') <;> simp [haddress]
  | none =>
    cases hv6 : Text.stripBack? reverseV6Zone name.canonical.chars with
    | some front =>
      rw [spells_iff_of_v6 (Text.stripBack?_eq_some_iff.mp hv6) hlower]
      cases haddress : addressV6? (front.splitOn '.') <;> simp [haddress]
    | none =>
      have hno : ¬name.canonical.Spells ip := by
        intro hspells
        cases ip with
        | v4 v4 =>
          obtain ⟨labels, hv4', -⟩ := hspells
          exact absurd (hv4.symm.trans (Text.stripBack?_eq_some_iff.mpr hv4')) (by simp)
        | v6 v6 =>
          have hv6' := congrArg Name.chars (hspells.trans (reverse_eq (.v6 v6)))
          exact absurd (hv6.symm.trans (Text.stripBack?_eq_some_iff.mpr hv6')) (by simp)
      simp [hno]

theorem spells_reverse (ip : Ip) : (reverse ip).Spells ip := by
  cases ip with
  | v4 v4 =>
    refine ⟨(Ip.v4 v4).reverseLabels, congrArg Name.chars (reverse_eq (.v4 v4)), ?_⟩
    rw [Ip.reverseLabels, List.forall₂_map_left_iff]
    exact List.forall₂_same.mpr fun octet _ => Text.padded_digits octet.toNat
  | v6 v6 => rfl

/-- The reverse name of an address is read as it, in any case and with any number of dots. -/
theorem address_of_canonical (h : name.canonical = reverse ip) : name.address = .ok ip :=
  address_eq_ok_iff.mpr (h ▸ spells_reverse ip)

/-- There is nothing in front of the numbers of a reverse name. -/
theorem plain_labels_reverse (ip : Ip) {label : Label} (h : label ∈ (reverse ip).labels) :
    Text.Plain label := by
  have hhex : ∀ n, n < 16 → Text.Plain (Text.hexDigits n) := by decide
  rw [labels_reverse] at h
  rcases List.mem_append.mp h with hfront | hzone
  · cases ip with
    | v4 v4 =>
      obtain ⟨octet, -, rfl⟩ := List.mem_map.mp hfront
      exact Text.plain_digits octet.toNat
    | v6 v6 =>
      obtain ⟨octet, -, hnibble⟩ := List.mem_flatMap.mp hfront
      rw [← List.mem_reverse, ← map_hexDigits_halves] at hnibble
      obtain ⟨n, hn, rfl⟩ := List.mem_map.mp hnibble
      exact hhex n (halves_lt hn)
  · have hplain : ∀ label ∈ Name.labels ⟨ip.reverseZone.tail⟩, Text.Plain label := by
      cases ip with
      | v4 => exact (by decide : ∀ label ∈ Name.labels ⟨reverseV4Zone.tail⟩, Text.Plain label)
      | v6 => exact (by decide : ∀ label ∈ Name.labels ⟨reverseV6Zone.tail⟩, Text.Plain label)
    exact hplain label hzone

/-- A name that stands for an address with nothing in front of its numbers is the reverse name. -/
theorem eq_reverse_of_spells (h : name.Spells ip) (hplain : ∀ label ∈ name.labels, Text.Plain label) :
    name = reverse ip := by
  cases ip with
  | v6 v6 => exact h
  | v4 v4 =>
    obtain ⟨labels, hchars, hlabels⟩ := h
    have hpieces : name.labels = labels ++ Name.labels ⟨reverseV4Zone.tail⟩ := by
      have hzone : reverseV4Zone = '.' :: reverseV4Zone.tail := rfl
      rw [Name.labels, hchars, hzone, List.splitOn_append_cons_self,
        splitOn_of_padded (by simp [IPv4.octets]) hlabels]
      rfl
    have hprinted : List.Forall₂ (fun label octet => label = Text.digits octet.toNat) labels
        v4.octets.reverse := by
      have hboth := (List.forall₂_and_left labels v4.octets.reverse).mpr
        ⟨fun label hlabel => hplain label (hpieces ▸ List.mem_append_left _ hlabel), hlabels⟩
      exact hboth.imp fun label octet h => Text.eq_digits_of_padded h.2 h.1
    have hsame : labels = (Ip.v4 v4).reverseLabels := by
      rwa [← List.forall₂_map_right_iff (R := Eq), List.forall₂_eq_eq_eq] at hprinted
    rw [reverse_eq, ← hsame]
    exact congrArg Name.mk hchars

/-- **The reverse name of an address.** A name is read as an address exactly if it stands for it, in
    any case and with any number of trailing dots.  It then is the reverse name, except for plus
    signs and zeros in front of the numbers of an IPv4 address. -/
theorem reverse_of_address (name : Name) (ip : Ip) :
    (name.address = .ok ip ↔ name.canonical.Spells ip)
      ∧ (name.canonical = reverse ip
          ↔ name.address = .ok ip ∧ ∀ label ∈ name.canonical.labels, Text.Plain label) := by
  refine ⟨address_eq_ok_iff, ?_⟩
  rw [address_eq_ok_iff]
  constructor
  · intro h
    rw [h]
    exact ⟨spells_reverse ip, fun _ => plain_labels_reverse ip⟩
  · rintro ⟨hspells, hplain⟩
    exact eq_reverse_of_spells hspells hplain

/-- A zero in front of a number: the name is read as an address, but it is not its reverse name. -/
theorem reverse_of_address_padded :
    (ofString "010.2.0.192.in-addr.arpa").address = .ok (.v4 ⟨192, 0, 2, 10⟩)
      ∧ (ofString "010.2.0.192.in-addr.arpa").canonical ≠ reverse (.v4 ⟨192, 0, 2, 10⟩) := by
  decide

end Name

end DnsResolver
