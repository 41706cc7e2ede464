import DnsResolver.Address.IPv6
import DnsResolver.Proofs.Address.IPv4

namespace DnsResolver.IPv6

/-!
# IPv6 addresses in a text

The groups that an address is written without are zero, whichever run of them was chosen, and the
two colons in their place say how many there were: the others are read on both sides of them.

* `ZeroRun.Within`, `longestZeros_within` — what is found as a run of zero groups is one.
* `Closes`, `scanGroups_groupChars` — groups are read up to a text that closes them.
* `scan_chars` — a printed address is read off the front of such a text.
-/

open Text (Stops stops_cons)

variable {groups seen more : List UInt16} {run current best : ZeroRun} {rest : List Char}

/-! ### Runs of zero groups -/

/-- A run is a part of the groups, and all groups in it are zero. -/
structure ZeroRun.Within (run : ZeroRun) (groups : List UInt16) : Prop where
  le : run.start + run.length ≤ groups.length
  zero : ∀ i, run.start ≤ i → i < run.start + run.length → groups[i]? = some 0

theorem ZeroRun.within_empty (groups : List UInt16) : ZeroRun.Within ⟨0, 0⟩ groups :=
  ⟨Nat.zero_le _, fun i _ hi => absurd hi (Nat.not_lt_zero i)⟩

theorem ZeroRun.Within.append (h : run.Within groups) (more : List UInt16) :
    run.Within (groups ++ more) where
  le := by
    rw [List.length_append]
    exact h.le.trans (Nat.le_add_right _ _)
  zero i hstart hi := by
    rw [List.getElem?_append_left (Nat.lt_of_lt_of_le hi h.le)]
    exact h.zero i hstart hi

/-- A run at the end of the groups grows by a zero group behind it. -/
theorem ZeroRun.Within.grow (h : run.Within groups) (hend : run.start + run.length = groups.length) :
    ZeroRun.Within ⟨run.start, run.length + 1⟩ (groups ++ [0]) where
  le := by
    simp only [List.length_append, List.length_singleton]
    omega
  zero i hstart hi := by
    have hlast : i < run.start + (run.length + 1) := hi
    rcases Nat.lt_or_ge i groups.length with hlt | hge
    · rw [List.getElem?_append_left hlt]
      exact h.zero i hstart (by omega)
    · obtain rfl : i = groups.length := by omega
      simp

/-- The run that groups end with, behind a zero group. -/
theorem grown_within (hcurrent : current.Within seen)
    (hend : current.length = 0 ∨ current.start + current.length = seen.length) :
    ∃ grown : ZeroRun, (if current.length = 0 then (⟨seen.length, 1⟩ : ZeroRun)
        else ⟨current.start, current.length + 1⟩) = grown
      ∧ grown.Within (seen ++ [0]) ∧ grown.start + grown.length = (seen ++ [0]).length := by
  by_cases hnone : current.length = 0
  · have hstart : ZeroRun.Within ⟨seen.length, 0⟩ seen :=
      ⟨Nat.le_refl _, fun i hlow hhigh => absurd hhigh (Nat.not_lt.mpr hlow)⟩
    exact ⟨_, if_pos hnone, hstart.grow rfl, by simp⟩
  · have hlast := hend.resolve_left hnone
    refine ⟨_, if_neg hnone, hcurrent.grow hlast, ?_⟩
    simp only [List.length_append, List.length_singleton]
    omega

/-- What is found among groups of which some were seen: the run they end with may go on. -/
theorem longestZeros_within (hcurrent : current.Within seen)
    (hend : current.length = 0 ∨ current.start + current.length = seen.length)
    (hbest : best.Within seen) :
    (longestZeros seen.length current best more).Within (seen ++ more) := by
  induction more generalizing seen current best with
  | nil =>
    rw [List.append_nil]
    exact hbest
  | cons group more ih =>
    have hseen : seen ++ group :: more = (seen ++ [group]) ++ more := by simp
    have hlength : seen.length + 1 = (seen ++ [group]).length := by simp
    rw [longestZeros, hseen, hlength]
    by_cases hzero : group = 0
    · subst hzero
      obtain ⟨grown, hgrown, hwithin, hlast⟩ := grown_within hcurrent hend
      have hbetter : (if best.length < grown.length then grown else best).Within (seen ++ [0]) := by
        split
        · exact hwithin
        · exact hbest.append _
      simp only [if_true, hgrown]
      exact ih hwithin (Or.inr hlast) hbetter
    · rw [if_neg hzero]
      exact ih (ZeroRun.within_empty _) (Or.inl rfl) (hbest.append _)

/-- Groups are made of those in front of a run, of its zeros, and of those behind it. -/
theorem ZeroRun.Within.split (h : run.Within groups) :
    groups = groups.take run.start ++ (List.replicate run.length 0
      ++ groups.drop (run.start + run.length)) := by
  have hzeros : (groups.drop run.start).take run.length = List.replicate run.length 0 := by
    refine List.eq_replicate_iff.mpr ⟨?_, fun group hgroup => ?_⟩
    · have hle := h.le
      simp only [List.length_take, List.length_drop]
      omega
    · obtain ⟨i, hi, hget⟩ := List.getElem_of_mem hgroup
      have hlength : i < run.length := Nat.lt_of_lt_of_le hi (List.length_take_le _ _)
      have hzero := h.zero (run.start + i) (by omega) (by omega)
      have hat : groups[run.start + i]? = some group := by
        rw [List.getElem_take, List.getElem_drop] at hget
        exact List.getElem?_eq_some_iff.mpr ⟨_, hget⟩
      exact Option.some.inj (hat.symm.trans hzero)
  rw [← hzeros, ← List.drop_drop, List.take_append_drop, List.take_append_drop]

/-! ### Groups -/

/-- Whether a character is a digit of base sixteen. -/
def isGroupDigit (c : Char) : Bool := (Text.hexValue? c).isSome

theorem isGroupDigit_of_isDigit {c : Char} (h : c.isDigit = true) : isGroupDigit c = true := by
  rw [isGroupDigit, Text.hexValue?, if_pos h]
  rfl

theorem stops_isDigit (h : Stops isGroupDigit rest) : Stops Char.isDigit rest := by
  intro c hc
  have hnot := h c hc
  by_contra hdigit
  rw [isGroupDigit_of_isDigit (by simpa using hdigit)] at hnot
  exact absurd hnot (by simp)

/-- A text with which groups that are read in front of it cannot go on. -/
structure Closes (rest : List Char) : Prop where
  digit : Stops isGroupDigit rest
  dot : rest.head? ≠ some '.'
  next : ∀ room, scanGroups false room rest = ⟨[], false, rest⟩

/-- Whatever follows a character that is no part of groups. -/
theorem closes_cons {c : Char} (hdigit : isGroupDigit c = false) (hdot : c ≠ '.') (hcolon : c ≠ ':')
    (rest : List Char) : Closes (c :: rest) where
  digit := stops_cons.mpr hdigit
  dot := by simpa using hdot
  next room := by
    cases room with
    | zero => rfl
    | succ room =>
      rw [scanGroups]
      · rfl
      · exact fun _ hcons => hcolon (List.cons.inj hcons).1

/-- A text that starts with no digit starts with no group. -/
theorem scanGroup_eq_none (h : Stops isGroupDigit rest) : scanGroup rest = none := by
  have hspan : rest.span (fun c => (Text.hexValue? c).isSome) = ([], rest) :=
    Text.span_append (fun _ h => absurd h List.not_mem_nil) h
  unfold scanGroup
  rw [hspan]
  rfl

/-- A text that starts with neither a digit nor a dot starts with no dotted address. -/
theorem scanV4_eq_none (hdigit : Stops isGroupDigit rest) (hdot : rest.head? ≠ some '.') :
    IPv4.scan rest = none := by
  refine IPv4.scan_eq_none ?_
  rwa [Text.dropWhile_of_stops (stops_isDigit hdigit)]

/-- There is no group between two colons. -/
theorem closes_colons (rest : List Char) : Closes (':' :: ':' :: rest) where
  digit := stops_cons.mpr rfl
  dot := by simp
  next room := by
    have hdigit : Stops isGroupDigit (':' :: rest) := stops_cons.mpr rfl
    cases room with
    | zero => rfl
    | succ room =>
      unfold scanGroups
      simp only [Bool.false_eq_true, if_false, scanV4_eq_none hdigit (by simp), ite_self,
        scanGroup_eq_none hdigit]

/-- A printed group is read, unless another digit follows it. -/
theorem scanGroup_hexDigits (group : UInt16) (hrest : Stops isGroupDigit rest) :
    scanGroup (Text.hexDigits group.toNat ++ rest) = some (group, rest) := by
  have hlt := group.toNat_lt
  have hlength : (Text.hexDigits group.toNat).length ≤ 4 :=
    (Nat.length_toDigits_le_iff (by decide) (by decide)).mpr (by omega)
  have hspan : (Text.hexDigits group.toNat ++ rest).span (fun c => (Text.hexValue? c).isSome)
      = (Text.hexDigits group.toNat, rest) :=
    Text.span_append (fun c hc => Text.isSome_hexValue?_of_mem hc) hrest
  unfold scanGroup
  simp only [hspan]
  rw [if_neg, Text.hexNumber_hexDigits, UInt16.ofNat_toNat]
  simp only [Bool.or_eq_true, decide_eq_true_eq, List.isEmpty_iff]
  rintro (hnil | hlong)
  · exact Text.hexDigits_ne_nil _ hnil
  · omega

/-- A group is no dotted address, unless a dot follows it. -/
theorem scan_hexDigits_eq_none (n : Nat) (hdigit : Stops isGroupDigit rest)
    (hdot : rest.head? ≠ some '.') : IPv4.scan (Text.hexDigits n ++ rest) = none := by
  have hdots : ∀ run : List Char, (∀ c ∈ run, c ≠ '.') →
      ((run ++ rest).dropWhile Char.isDigit).head? ≠ some '.' := by
    intro run hrun
    induction run with
    | nil => rwa [List.nil_append, Text.dropWhile_of_stops (stops_isDigit hdigit)]
    | cons c run ih =>
      obtain ⟨hc, hrun⟩ := List.forall_mem_cons.mp hrun
      rw [List.cons_append, List.dropWhile_cons]
      split
      · exact ih hrun
      · simpa using hc
  refine IPv4.scan_eq_none (hdots _ fun c hc hsame => ?_)
  have hsome := Text.isSome_hexValue?_of_mem hc
  rw [hsame] at hsome
  exact absurd hsome (by decide)

/-- Groups in base sixteen with a colon in front of each. -/
def tailChars (groups : List UInt16) : List Char :=
  groups.flatMap fun group => ':' :: Text.hexDigits group.toNat

theorem groupChars_cons (group : UInt16) (groups : List UInt16) :
    groupChars (group :: groups) = Text.hexDigits group.toNat ++ tailChars groups := by
  induction groups generalizing group with
  | nil => simp [groupChars, tailChars, List.intercalate]
  | cons next groups ih =>
    have hnext := ih next
    simp only [groupChars, List.intercalate, List.map_cons] at hnext ⊢
    rw [List.intersperse_cons_cons, List.flatten_cons, List.flatten_cons, hnext, tailChars,
      tailChars, List.flatMap_cons]
    simp

/-- What stands in front of a group: a colon, unless it is the first one. -/
def lead (first : Bool) : List Char := if first then [] else [':']

/-- A printed group is read, and what follows it. -/
theorem scanGroups_cons (first : Bool) (group : UInt16) (room : Nat)
    (hdigit : Stops isGroupDigit rest) (hdot : rest.head? ≠ some '.') :
    scanGroups first (room + 1) (lead first ++ (Text.hexDigits group.toNat ++ rest))
      = ⟨group :: (scanGroups false room rest).groups, (scanGroups false room rest).dotted,
          (scanGroups false room rest).rest⟩ := by
  have hv4 := scan_hexDigits_eq_none group.toNat hdigit hdot
  have hgroup := scanGroup_hexDigits group hdigit
  rw [scanGroups.eq_def]
  cases first <;> simp [lead, hv4, hgroup]

/-- What follows a group that is printed in front of a text that closes the groups. -/
theorem stops_tailChars (groups : List UInt16) (hrest : Closes rest) :
    Stops isGroupDigit (tailChars groups ++ rest) ∧ (tailChars groups ++ rest).head? ≠ some '.' := by
  cases groups with
  | nil => exact ⟨hrest.digit, hrest.dot⟩
  | cons group groups => exact ⟨stops_cons.mpr rfl, by simp [tailChars]⟩

/-- Printed groups behind others are read, if there is room for them. -/
theorem scanGroups_tailChars {room : Nat} (hroom : groups.length ≤ room) (hrest : Closes rest) :
    scanGroups false room (tailChars groups ++ rest) = ⟨groups, false, rest⟩ := by
  induction groups generalizing room with
  | nil => exact hrest.next room
  | cons group groups ih =>
    obtain ⟨room, rfl⟩ := Nat.exists_eq_add_of_le' (Nat.le_of_add_left_le hroom)
    obtain ⟨hdigit, hdot⟩ := stops_tailChars groups hrest
    have htail : tailChars (group :: groups) ++ rest
        = lead false ++ (Text.hexDigits group.toNat ++ (tailChars groups ++ rest)) := by
      simp [tailChars, lead]
    rw [htail, scanGroups_cons false group room hdigit hdot, ih (Nat.le_of_succ_le_succ hroom)]

/-- **Groups.** Printed groups are read, if there is room for them. -/
theorem scanGroups_groupChars {room : Nat} (hroom : groups.length ≤ room) (hrest : Closes rest) :
    scanGroups true room (groupChars groups ++ rest) = ⟨groups, false, rest⟩ := by
  cases groups with
  | nil =>
    cases room with
    | zero => rfl
    | succ room =>
      have hv4 := scanV4_eq_none hrest.digit hrest.dot
      show scanGroups true (room + 1) rest = _
      rw [scanGroups.eq_def]
      simp only [if_true, hv4, ite_self, scanGroup_eq_none hrest.digit]
  | cons group groups =>
    obtain ⟨room, rfl⟩ := Nat.exists_eq_add_of_le' (Nat.le_of_add_left_le hroom)
    obtain ⟨hdigit, hdot⟩ := stops_tailChars groups hrest
    have hfront : groupChars (group :: groups) ++ rest
        = lead true ++ (Text.hexDigits group.toNat ++ (tailChars groups ++ rest)) := by
      rw [groupChars_cons, List.append_assoc]
      rfl
    rw [hfront, scanGroups_cons true group room hdigit hdot,
      scanGroups_tailChars (Nat.le_of_succ_le_succ hroom) hrest]

/-- A dotted address in place of the last two groups is read behind one group. -/
theorem scanGroups_dotted (group : UInt16) (v4 : IPv4) (room : Nat)
    (hrest : Stops Char.isDigit rest) :
    scanGroups true (room + 3) (Text.hexDigits group.toNat ++ ':' :: (v4.chars ++ rest))
      = ⟨[group, Wire.word v4.a v4.b, Wire.word v4.c v4.d], true, rest⟩ := by
  have hdigit : Stops isGroupDigit (':' :: (v4.chars ++ rest)) := stops_cons.mpr rfl
  have hlast : scanGroups false (room + 2) (':' :: (v4.chars ++ rest))
      = ⟨[Wire.word v4.a v4.b, Wire.word v4.c v4.d], true, rest⟩ := by
    rw [scanGroups.eq_def]
    simp [v4.scan_chars hrest]
  have hcons := scanGroups_cons true group (room + 2) hdigit (by simp)
  rw [hlast] at hcons
  exact hcons

/-! ### Addresses -/

theorem ofGroups?_groups (ip : IPv6) : ofGroups? ip.groups = some ip := by
  rw [ofGroups?, dif_pos ip.length_groups]

/-- The two groups that the octets of a dotted address form. -/
theorem word_ofOctets? {high low : UInt16} {v4 : IPv4}
    (h : IPv4.ofOctets? [(Wire.wordOctets high).1, (Wire.wordOctets high).2,
      (Wire.wordOctets low).1, (Wire.wordOctets low).2] = some v4) :
    Wire.word v4.a v4.b = high ∧ Wire.word v4.c v4.d = low := by
  obtain rfl := Option.some.inj h
  exact ⟨Wire.word_wordOctets high, Wire.word_wordOctets low⟩

/-- An address under `::ffff:0:0/96` has the two groups of a dotted address behind fixed ones. -/
theorem groups_of_mapped? {ip : IPv6} {v4 : IPv4} (h : ip.mapped? = some v4) :
    ip.groups = [0, 0, 0, 0, 0, 0xFFFF, Wire.word v4.a v4.b, Wire.word v4.c v4.d] := by
  unfold mapped? at h
  split at h
  · next high low heq =>
    obtain ⟨hhigh, hlow⟩ := word_ofOctets? h
    rw [heq, hhigh, hlow]
  · exact absurd h (by simp)

/-- An address that is written with a dotted address behind one group is read. -/
theorem scan_mapped {ip : IPv6} {v4 : IPv4} (h : ip.mapped? = some v4)
    (hrest : Stops Char.isDigit rest) :
    scan ("::ffff:".toList ++ v4.chars ++ rest) = some (ip, rest) := by
  have htext : "::ffff:".toList ++ v4.chars ++ rest = groupChars [] ++ ':' :: ':'
      :: (Text.hexDigits (0xFFFF : UInt16).toNat ++ ':' :: (v4.chars ++ rest)) := by
    rw [show Text.hexDigits (0xFFFF : UInt16).toNat = ['f', 'f', 'f', 'f'] by decide]
    rfl
  have hhead := fun inner : List Char =>
    @scanGroups_groupChars [] _ 8 (Nat.zero_le 8) (closes_colons inner)
  have hall := ofGroups?_groups ip
  rw [groups_of_mapped? h] at hall
  rw [htext, scan]
  simp only [hhead, List.length_nil, scanGroups_dotted 0xFFFF v4 4 hrest]
  exact congrArg (Option.map fun ip => (ip, rest)) hall

/-- An address that is written with two colons in place of a run of zero groups is read. -/
theorem scan_zeros {ip : IPv6} (h : run.Within ip.groups) (hzeros : 1 < run.length)
    (hrest : Closes rest) :
    scan (groupChars (ip.groups.take run.start) ++ [':', ':']
      ++ groupChars (ip.groups.drop (run.start + run.length)) ++ rest) = some (ip, rest) := by
  have hle := h.le
  have height := ip.length_groups
  have htake : (ip.groups.take run.start).length = run.start := by
    rw [List.length_take]
    omega
  have hdrop : (ip.groups.drop (run.start + run.length)).length
      = 8 - (run.start + run.length) := by
    rw [List.length_drop, height]
  have hhead := fun inner : List Char =>
    @scanGroups_groupChars (ip.groups.take run.start) _ 8 (by omega) (closes_colons inner)
  have htail : scanGroups true (7 - run.start)
        (groupChars (ip.groups.drop (run.start + run.length)) ++ rest)
      = ⟨ip.groups.drop (run.start + run.length), false, rest⟩ :=
    scanGroups_groupChars (by omega) hrest
  have hcount : 8 - run.start - (8 - (run.start + run.length)) = run.length := by omega
  have hall : ofGroups? (ip.groups.take run.start ++ (List.replicate run.length 0
      ++ ip.groups.drop (run.start + run.length))) = some ip := by
    rw [← h.split]
    exact ofGroups?_groups ip
  simp only [List.append_assoc, List.cons_append, List.nil_append, scan, hhead, htake]
  rw [if_neg (by omega)]
  simp [htail, hdrop, hcount, hall]

/-- **Addresses.** A printed address is read off the front of a text that closes its groups. -/
theorem scan_chars (ip : IPv6) (hrest : Closes rest) : scan (ip.chars ++ rest) = some (ip, rest) := by
  have hwithin : (longestZeros 0 ⟨0, 0⟩ ⟨0, 0⟩ ip.groups).Within ip.groups :=
    @longestZeros_within [] ip.groups _ _ (ZeroRun.within_empty _) (Or.inl rfl)
      (ZeroRun.within_empty _)
  unfold chars
  cases hmapped : ip.mapped? with
  | some v4 => exact scan_mapped hmapped (stops_isDigit hrest.digit)
  | none =>
    by_cases hzeros : 1 < (longestZeros 0 ⟨0, 0⟩ ⟨0, 0⟩ ip.groups).length
    · simp only [if_pos hzeros]
      exact scan_zeros hwithin hzeros hrest
    · have hall : scanGroups true 8 (groupChars ip.groups ++ rest) = ⟨ip.groups, false, rest⟩ :=
        scanGroups_groupChars (Nat.le_of_eq ip.length_groups) hrest
      simp only [if_neg hzeros, scan, hall, ip.length_groups, if_true, ofGroups?_groups,
        Option.map_some]

end DnsResolver.IPv6
