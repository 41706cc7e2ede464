import DnsResolver.Text.Ascii

namespace DnsResolver

/-!
# Domain names

A name is kept in its written form: the characters, with a dot between two labels. The
root is the empty text. Any text can stand in a name; only names whose labels are all
writable can be put on the wire.

* `Label.sameAll_iff`, `Name.sameAs_iff` — equality up to case is equality of the folded names.
* `Name.labels_ofLabels` — the labels of a name are the ones it was joined from.
-/

/-- The characters between two dots of a name. -/
abbrev Label := List Char

/-- Equality of labels, which ignores ASCII case. -/
def Label.sameAll (a b : List Label) : Bool := a.isEqv b Text.sameFold

theorem Label.sameAll_iff (a b : List Label) :
    Label.sameAll a b = true ↔ a.map Text.fold = b.map Text.fold := by
  induction a generalizing b with
  | nil => cases b <;> simp [sameAll]
  | cons x a ih =>
    cases b with
    | nil => simp [sameAll]
    | cons y b =>
      have h := ih b
      simp only [sameAll] at h ⊢
      simp [List.isEqv, h, Text.sameFold_iff]

/-- A domain name in written form. -/
structure Name where
  chars : List Char
  deriving DecidableEq

namespace Name

/-- The name with the given text. -/
def ofString (text : String) : Name := ⟨text.toList⟩

/-- The text of a name. -/
def toString (name : Name) : String := String.ofList name.chars

instance : ToString Name := ⟨Name.toString⟩

/-- The name of the root zone. -/
def root : Name := ⟨[]⟩

/-- Whether a name is the root. -/
def isRoot (name : Name) : Bool := name.chars.isEmpty

/-- The pieces between the dots. A text without a dot is one piece, the empty text too. -/
def labels (name : Name) : List Label := name.chars.splitOn '.'

/-- The name with the given labels; no label at all is the root. -/
def ofLabels (labels : List Label) : Name := ⟨['.'].intercalate labels⟩

/-- The name in lower case. -/
def fold (name : Name) : Name := ⟨Text.fold name.chars⟩

/-- Equality of names, which ignores ASCII case. -/
def sameAs (a b : Name) : Bool := Text.sameFold a.chars b.chars

/-- The name without its trailing dot, if it has one. -/
def dropDot (name : Name) : Name :=
  if name.chars.getLast? = some '.' then ⟨name.chars.dropLast⟩ else name

/-- The name without any of its trailing dots. -/
def dropDots (name : Name) : Name := ⟨Text.dropEndWhile (· == '.') name.chars⟩

theorem sameAs_iff (a b : Name) : a.sameAs b = true ↔ a.fold = b.fold := by
  simp [sameAs, fold, Text.sameFold_iff]

@[simp] theorem labels_ofLabels {labels : List Label} (nonempty : labels ≠ [])
    (noDot : ∀ label ∈ labels, '.' ∉ label) : (ofLabels labels).labels = labels :=
  List.splitOn_intercalate '.' noDot nonempty

@[simp] theorem ofLabels_labels (name : Name) : ofLabels name.labels = name := by
  cases name
  simp [ofLabels, labels, List.intercalate_splitOn]

end Name

end DnsResolver
