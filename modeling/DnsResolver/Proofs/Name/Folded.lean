import DnsResolver.Proofs.Name.Ordinary
import Mathlib.Data.List.DropRight

namespace DnsResolver

/-!
# Names in lower case

Names that are equal up to ASCII case are written in the same way: their labels differ in case
only, and either all of them can be written or none can.

* `Name.wireLabels`, `Name.write_apply` — the labels that a name is written with.
* `Label.checkAll_eq_ok_iff` — which labels can be written.
* `Name.ordinary_wireLabels`, `Name.length_wireLabels_le` — those of a name that may be written.
* `Name.wireLabels_fold` — folding a name folds the labels that it is written with.
* `Name.wireLabels_ofLabels` — a name that is joined from labels is written with them.
* `Name.canonical` — names as they are compared: in lower case and without trailing dots.
-/

namespace Text

theorem toNat_toLower (c : Char) :
    c.toLower.toNat = if 65 ≤ c.toNat ∧ c.toNat ≤ 90 then c.toNat + 32 else c.toNat := by
  have hupper : (c.val ≥ 'A'.val ∧ c.val ≤ 'Z'.val) ↔ 65 ≤ c.toNat ∧ c.toNat ≤ 90 := by
    simp only [ge_iff_le, UInt32.le_iff_toNat_le]
    rfl
  unfold Char.toLower
  by_cases h : 65 ≤ c.toNat ∧ c.toNat ≤ 90
  · rw [dif_pos (hupper.mpr h), if_pos h]
    show (c.val + 32).toNat = c.val.toNat + 32
    rw [UInt32.toNat_add]
    have : c.val.toNat ≤ 90 := h.2
    exact Nat.mod_eq_of_lt (by simp; omega)
  · rw [dif_neg (fun hc => h (hupper.mp hc)), if_neg h]

theorem toLower_eq_dot (c : Char) : c.toLower = '.' ↔ c = '.' := by
  have hdot : '.'.toNat = 46 := rfl
  have h := toNat_toLower c
  rw [← Char.toNat_inj, ← Char.toNat_inj, hdot]
  split at h <;> omega

theorem isAscii_toLower (c : Char) : isAscii c.toLower = isAscii c := by
  have h := toNat_toLower c
  unfold isAscii
  split at h
  · rw [h, decide_eq_decide]
    omega
  · rw [h]

/-- Folding twice is folding once. -/
@[simp] theorem fold_fold (cs : List Char) : fold (fold cs) = fold cs := by
  have hchar : ∀ c : Char, c.toLower.toLower = c.toLower := fun c => by
    have h := toNat_toLower c
    have h' := toNat_toLower c.toLower
    apply Char.toNat_inj.mp
    split at h <;> split at h' <;> omega
  simp only [fold, List.map_map]
  exact List.map_congr_left fun c _ => hchar c

end Text

/-! ### Labels that can be written -/

namespace Label

variable {label : Label} {labels : List Label}

theorem check_eq_ok_iff : check label = .ok () ↔ label.Ordinary := by
  constructor
  · intro h
    unfold check at h
    split at h
    · exact absurd h (by simp)
    · next hlength =>
      split at h
      · exact absurd h (by simp)
      · next hne =>
        split at h
        · exact absurd h (by simp)
        · next hascii =>
          have hall : label.all Text.isAscii = true := by simpa using hascii
          rw [utf8Length_of_ascii hall] at hlength
          exact ⟨by simpa using hne, Nat.not_lt.mp hlength, hall⟩
  · intro h
    have hone := checkAll_of_ordinary fun other hother => List.mem_singleton.mp hother ▸ h
    rw [checkAll] at hone
    split at hone
    · assumption
    · exact absurd hone (by simp)

theorem checkAll_eq_ok_iff : checkAll labels = .ok () ↔ ∀ label ∈ labels, label.Ordinary := by
  refine ⟨fun h => ?_, checkAll_of_ordinary⟩
  induction labels with
  | nil => exact fun label hlabel => absurd hlabel List.not_mem_nil
  | cons label labels ih =>
    rw [checkAll] at h
    cases hcheck : check label with
    | error error =>
      rw [hcheck] at h
      exact absurd h (by simp)
    | ok _ =>
      rw [hcheck] at h
      rw [List.forall_mem_cons]
      exact ⟨check_eq_ok_iff.mp hcheck, ih h⟩

/-- Case plays no part in whether a label can be written. -/
theorem ordinary_fold : Ordinary (Text.fold label) ↔ label.Ordinary := by
  unfold Ordinary
  rw [Text.length_fold]
  simp [Text.fold, Text.isAscii_toLower]

theorem checkAll_fold :
    checkAll (labels.map Text.fold) = .ok () ↔ checkAll labels = .ok () := by
  simp [checkAll_eq_ok_iff, ordinary_fold]

end Label

/-! ### The labels that a name is written with -/

namespace Name

/-- The labels that a name is written with: one trailing dot does not count, and the root has
    none. -/
def wireLabels (name : Name) : List Label :=
  if name.dropDot.isRoot then [] else name.dropDot.labels

theorem ofLabels_wireLabels (name : Name) : ofLabels name.wireLabels = name.dropDot := by
  unfold wireLabels
  by_cases hroot : name.dropDot.isRoot = true
  · rw [if_pos hroot]
    have hchars : name.dropDot.chars = [] := by simpa [isRoot] using hroot
    show (⟨[]⟩ : Name) = name.dropDot
    rw [← hchars]
  · rw [if_neg hroot, ofLabels_labels]

/-- A name that may be written is written with ordinary labels. -/
theorem ordinary_wireLabels {name : Name} (h : name.Ordinary) :
    ∀ label ∈ name.wireLabels, label.Ordinary := by
  unfold wireLabels
  rw [dropDot_of_ordinary h]
  split
  · exact fun label hlabel => absurd hlabel List.not_mem_nil
  · next hroot =>
    rcases h with rfl | ⟨-, hlabels⟩
    · exact absurd rfl hroot
    · exact hlabels

/-- There are no more of them than reading follows pointers. -/
theorem length_wireLabels_le {name : Name} (h : name.Ordinary) :
    name.wireLabels.length ≤ maxJumps := by
  unfold wireLabels
  rw [dropDot_of_ordinary h]
  split
  · exact Nat.zero_le _
  · next hroot =>
    rcases h with rfl | ⟨hcount, -⟩
    · exact absurd rfl hroot
    · exact hcount

/-- Writing a name writes its labels, if all of them can be written. -/
theorem write_apply (name : Name) (writer : Writer) :
    name.write writer
      = match Label.checkAll name.wireLabels with
        | .ok _ => .ok () (writer.putLabels name.wireLabels)
        | .error error => .error error writer := by
  unfold write wireLabels
  by_cases hroot : name.dropDot.isRoot = true
  · simp only [if_pos hroot]
    rfl
  · cases hcheck : Label.checkAll name.dropDot.labels <;> simp only [if_neg hroot, hcheck]

theorem labels_fold (name : Name) : name.fold.labels = name.labels.map Text.fold := by
  obtain ⟨chars⟩ := name
  show (Text.fold chars).splitOn '.' = (chars.splitOn '.').map Text.fold
  induction chars with
  | nil => rfl
  | cons c chars ih =>
    have hcons : Text.fold (c :: chars) = c.toLower :: Text.fold chars := rfl
    rw [hcons, List.splitOn_cons_eq_if_modifyHead, List.splitOn_cons_eq_if_modifyHead, ih]
    simp only [beq_iff_eq, Text.toLower_eq_dot]
    by_cases hdot : c = '.'
    · rw [if_pos hdot, if_pos hdot]
      rfl
    · rw [if_neg hdot, if_neg hdot]
      cases chars.splitOn '.' <;> rfl

theorem dropDot_fold (name : Name) : name.fold.dropDot = name.dropDot.fold := by
  unfold dropDot fold Text.fold
  simp only [List.getLast?_map, Option.map_eq_some_iff, Text.toLower_eq_dot, exists_eq_right]
  split
  · simp [List.map_dropLast]
  · rfl

/-- Folding a name folds the labels that it is written with. -/
theorem wireLabels_fold (name : Name) : name.fold.wireLabels = name.wireLabels.map Text.fold := by
  have hroot : name.dropDot.fold.isRoot = name.dropDot.isRoot := by
    simp [isRoot, fold, Text.fold]
  unfold wireLabels
  rw [dropDot_fold, hroot, labels_fold]
  split <;> rfl

/-- Names are equal up to case and a trailing dot if they are written with the same labels up to
    case. -/
theorem fold_dropDot_eq_iff {a b : Name} :
    a.dropDot.fold = b.dropDot.fold ↔ a.wireLabels.map Text.fold = b.wireLabels.map Text.fold := by
  constructor
  · intro h
    -- A name without its trailing dot is folded into the text that its labels are the pieces of.
    rw [← wireLabels_fold, ← wireLabels_fold, wireLabels, wireLabels, dropDot_fold, dropDot_fold, h]
  · intro h
    rw [← ofLabels_wireLabels, ← ofLabels_wireLabels, fold_ofLabels, fold_ofLabels, h]

/-- When a name can be written, what one trailing dot less leaves is written in the same way. -/
theorem wireLabels_dropDot {name : Name} (h : Label.checkAll name.wireLabels = .ok ()) :
    name.dropDot.wireLabels = name.wireLabels := by
  have hdot : name.dropDot.dropDot = name.dropDot := by
    by_cases hroot : name.dropDot.isRoot = true
    · have hchars : name.dropDot.chars = [] := by simpa [isRoot] using hroot
      refine if_neg ?_
      simp [hchars]
    · refine dropDot_of_ne_nil fun label hlabel => ?_
      rw [wireLabels, if_neg hroot] at h
      exact (Label.checkAll_eq_ok_iff.mp h label hlabel).1
  unfold wireLabels
  rw [hdot]

/-- What stands between the dots has no dot. -/
theorem not_mem_labels {name : Name} {label : Label} (h : label ∈ name.labels) : '.' ∉ label := by
  obtain ⟨chars⟩ := name
  change label ∈ chars.splitOn '.' at h
  induction chars generalizing label with
  | nil =>
    obtain rfl : label = [] := by simpa using h
    exact List.not_mem_nil
  | cons c chars ih =>
    rw [List.splitOn_cons_eq_if_modifyHead] at h
    by_cases hdot : (c == '.') = true
    · rw [if_pos hdot] at h
      rcases List.mem_cons.mp h with rfl | hrest
      · exact List.not_mem_nil
      · exact ih hrest
    · rw [if_neg hdot] at h
      -- The character goes to the front of the first piece.
      cases hpieces : chars.splitOn '.' with
      | nil =>
        rw [hpieces] at h
        exact absurd h List.not_mem_nil
      | cons piece pieces =>
        rw [hpieces, List.modifyHead_cons] at h
        have hdotted : '.' ≠ c := fun hsame => hdot (beq_iff_eq.mpr hsame.symm)
        rcases List.mem_cons.mp h with rfl | hrest
        · have hpiece : '.' ∉ piece := ih (by rw [hpieces]; exact List.mem_cons_self)
          simp [hdotted, hpiece]
        · exact ih (by rw [hpieces]; exact List.mem_cons_of_mem _ hrest)

theorem not_mem_wireLabels {name : Name} {label : Label} (h : label ∈ name.wireLabels) :
    '.' ∉ label := by
  unfold wireLabels at h
  split at h
  · exact absurd h List.not_mem_nil
  · exact not_mem_labels h

/-- A name that is joined from labels is written with these labels. -/
theorem wireLabels_ofLabels {labels : List Label} (hsome : ∀ label ∈ labels, label ≠ [])
    (hdot : ∀ label ∈ labels, '.' ∉ label) : (ofLabels labels).wireLabels = labels := by
  by_cases hnil : labels = []
  · rw [hnil]
    rfl
  · have hlabels := labels_ofLabels hnil hdot
    have hdropped : (ofLabels labels).dropDot = ofLabels labels :=
      dropDot_of_ne_nil fun label hlabel => hsome label (hlabels ▸ hlabel)
    have hroot : ¬(ofLabels labels).isRoot = true := fun hroot => by
      have hchars : (ofLabels labels).chars = [] := by simpa [isRoot] using hroot
      have hempty : ofLabels labels = root := congrArg Name.mk hchars
      rw [hempty] at hlabels
      -- The root is one piece, which is empty.
      exact hsome [] (hlabels ▸ List.mem_cons_self) rfl
    unfold wireLabels
    rw [hdropped, if_neg hroot, hlabels]

/-! ### Names as they are compared -/

/-- A name in the form in which names are compared: in lower case and without trailing dots. -/
def canonical (name : Name) : Name := name.dropDots.fold

@[simp] theorem dropDots_dropDots (name : Name) : name.dropDots.dropDots = name.dropDots := by
  simp [dropDots, Text.dropEndWhile, List.dropWhile_idempotent]

@[simp] theorem canonical_dropDots (name : Name) : name.dropDots.canonical = name.canonical := by
  rw [canonical, dropDots_dropDots, canonical]

theorem dropDots_fold (name : Name) : name.fold.dropDots = name.dropDots.fold := by
  have hdot : ((· == '.') ∘ Char.toLower : Char → Bool) = (· == '.') := by
    funext c
    rw [Function.comp_apply, Bool.beq_eq_decide_eq, Bool.beq_eq_decide_eq, decide_eq_decide]
    exact Text.toLower_eq_dot c
  simp [dropDots, fold, Text.fold, Text.dropEndWhile, ← List.map_reverse, List.dropWhile_map, hdot]

theorem canonical_eq_of_sameAs {a b : Name} (h : a.sameAs b = true) :
    a.canonical = b.canonical := by
  rw [canonical, canonical, ← dropDots_fold, ← dropDots_fold, (sameAs_iff a b).mp h]

/-- A name without trailing dots is only folded. -/
theorem canonical_of_dropDots {name : Name} (h : name.dropDots = name) :
    name.canonical = name.fold := by
  rw [canonical, h]

theorem dropDot_dropDots (name : Name) : name.dropDots.dropDot = name.dropDots := by
  refine if_neg fun hdot => ?_
  have hlast := List.head?_dropWhile_not (· == '.') name.chars.reverse
  rw [dropDots, Text.dropEndWhile, List.getLast?_reverse] at hdot
  rw [hdot] at hlast
  exact absurd hlast (by decide)

end Name

end DnsResolver
