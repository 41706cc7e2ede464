import DnsResolver.Name.Wire

namespace DnsResolver

/-!
# Names that may be written

A label of a name is written behind one octet for its length, and in ASCII.  What else is read may
not be written again, so these are the names that a message can be asked to carry.

* `Label.Ordinary`, `Name.Ordinary` — labels and names that may be written.
* `Name.fold_ofLabels` — folding a name folds its labels.
* `Label.checkAll_of_ordinary` — nothing is wrong with ordinary labels.
-/

/-- A label of 1 to 63 ASCII characters. -/
def Label.Ordinary (label : Label) : Prop :=
  label ≠ [] ∧ label.length ≤ Label.maxLength ∧ label.all Text.isAscii = true

instance (label : Label) : Decidable label.Ordinary :=
  inferInstanceAs (Decidable (label ≠ [] ∧ label.length ≤ Label.maxLength
    ∧ label.all Text.isAscii = true))

namespace Name

/-- The root, or at most `maxJumps` labels of 1 to 63 ASCII characters between the dots. -/
def Ordinary (name : Name) : Prop :=
  name = root ∨ (name.labels.length ≤ maxJumps ∧ ∀ label ∈ name.labels, label.Ordinary)

instance (name : Name) : Decidable name.Ordinary :=
  inferInstanceAs (Decidable (name = root ∨ (name.labels.length ≤ maxJumps
    ∧ ∀ label ∈ name.labels, label.Ordinary)))

/-- The labels of a name fold one by one, for the dot between them does not change. -/
theorem fold_ofLabels (labels : List Label) :
    (ofLabels labels).fold = ofLabels (labels.map Text.fold) := by
  have hjoin : Text.fold (['.'].intercalate labels) = ['.'].intercalate (labels.map Text.fold) := by
    induction labels with
    | nil => rfl
    | cons label rest ih =>
      cases rest with
      | nil => simp [List.intercalate]
      | cons next rest =>
        simp only [List.intercalate, Text.fold] at ih ⊢
        simp [ih]
        rfl
  exact congrArg Name.mk hjoin

/-- Without an empty label there is no trailing dot. -/
theorem dropDot_of_ne_nil {name : Name} (h : ∀ label ∈ name.labels, label ≠ []) :
    name.dropDot = name := by
  unfold dropDot
  refine if_neg fun hlast => ?_
  -- What follows a last dot is an empty label.
  have hchars : name.chars.dropLast ++ ['.'] = name.chars := by
    obtain ⟨hne, hget⟩ := List.getLast?_eq_some_iff.mp hlast
    rw [hget]
    simp
  have hempty : [] ∈ name.labels := by
    rw [labels, ← hchars, List.splitOn_append_cons_self]
    simp
  exact h [] hempty rfl

theorem dropDot_of_ordinary {name : Name} (h : name.Ordinary) : name.dropDot = name := by
  rcases h with rfl | ⟨_, hlabels⟩
  · rfl
  · exact dropDot_of_ne_nil fun label hlabel => (hlabels label hlabel).1

end Name

/-- An ASCII character is one octet in UTF-8. -/
theorem Label.utf8Length_of_ascii {label : Label} (h : label.all Text.isAscii = true) :
    Text.utf8Length label = label.length := by
  induction label with
  | nil => rfl
  | cons c rest ih =>
    obtain ⟨hc, hrest⟩ := Bool.and_eq_true_iff.mp h
    have hlt : c.toNat < 128 := by
      simpa [Text.isAscii] using hc
    have hval : c.val.toNat ≤ 127 := Nat.le_of_lt_succ hlt
    have hone : c.utf8Size = 1 := Char.utf8Size_eq_one_iff.mpr (UInt32.le_iff_toNat_le.mpr hval)
    have hsum : Text.utf8Length (c :: rest) = c.utf8Size + Text.utf8Length rest := rfl
    rw [hsum, hone, ih hrest, List.length_cons, Nat.add_comm]

/-- Nothing is wrong with ordinary labels. -/
theorem Label.checkAll_of_ordinary {labels : List Label} (h : ∀ label ∈ labels, label.Ordinary) :
    Label.checkAll labels = .ok () := by
  induction labels with
  | nil => rfl
  | cons label rest ih =>
    obtain ⟨hne, hlength, hascii⟩ := h label List.mem_cons_self
    have hutf8 := utf8Length_of_ascii hascii
    have hcheck : Label.check label = .ok () := by
      unfold Label.check
      rw [hutf8, if_neg (by omega), if_neg (by simpa using hne), hascii]
      rfl
    rw [Label.checkAll, hcheck]
    exact ih fun other hother => h other (List.mem_cons_of_mem _ hother)

end DnsResolver
