import DnsResolver.Proofs.Name.Written
import Mathlib.Data.List.Infix

namespace DnsResolver

/-!
# In whose letters a name is read

Where a name ends in labels that were written before, they are not written again: a pointer leads to
the letters in which they stand there.  So a name that is read may have letters of names that were
written before it, but never any others.

* `Name.Voiced` — labels in the letters of names, or of the first ones, that end in them up to case.
* `Name.SpellsAlike`, `Name.Voiced.eq_of_alike` — where names agree on the letters of the labels that
  they share, nothing is changed.
* `Name.Heard` — names one after the other, each in letters of its own and of those before it.
* `Writer.Traced` — every remembered name can be derived to letters of the names that were written.
* `Writer.Traced.putLabels` — writing labels keeps it.
-/

namespace Name

variable {near : Prop} {name : Name} {names more : List Name} {labels labels' heard : List Label}

/-! ### Labels in the letters of names -/

/-- The last labels of a name are the given ones, up to case. -/
def EndsIn (name : Name) (labels : List Label) : Prop :=
  ∃ suffix, suffix <:+ name.wireLabels ∧ suffix.map Text.fold = labels.map Text.fold

/-- Labels are heard in the letters of names: each of them as it stands in one of the names, which
    ends in it and in the labels behind it up to case.  If `near` holds, it is the first name that
    does. -/
inductive Voiced (near : Prop) (names : List Name) : List Label → List Label → Prop where
  | root : Voiced near names [] []
  | label {label other : Label} {rest tail heard : List Label} {front back : List Name} {name : Name}
      (hnames : names = front ++ name :: back) (hsuffix : other :: tail <:+ name.wireLabels)
      (hsame : (other :: tail).map Text.fold = (label :: rest).map Text.fold)
      (hfirst : near → ∀ earlier ∈ front, ¬ earlier.EndsIn (label :: rest))
      (hrest : Voiced near names rest heard) : Voiced near names (label :: rest) (other :: heard)

namespace Voiced

/-- Names that are written later change nothing. -/
theorem append (h : Voiced near names labels heard) (more : List Name) :
    Voiced near (names ++ more) labels heard := by
  induction h with
  | root => exact .root
  | @label _ _ _ _ _ front back name hnames hsuffix hsame hfirst _ ih =>
    have hmore : names ++ more = front ++ name :: (back ++ more) := by
      rw [hnames, List.append_assoc, List.cons_append]
    exact .label hmore hsuffix hsame hfirst ih

/-- A label of a name in its own letters, if no name before it ends in it. -/
theorem own {label : Label} (hsuffix : label :: labels <:+ name.wireLabels)
    (hfirst : near → ∀ earlier ∈ names, ¬ earlier.EndsIn (label :: labels))
    (h : Voiced near (names ++ [name]) labels heard) :
    Voiced near (names ++ [name]) (label :: labels) (label :: heard) :=
  .label rfl hsuffix rfl hfirst h

/-- The case of what was written plays no part. -/
theorem congr (h : Voiced near names labels heard)
    (hsame : labels.map Text.fold = labels'.map Text.fold) : Voiced near names labels' heard := by
  induction h generalizing labels' with
  | root =>
    obtain rfl := List.map_eq_nil_iff.mp hsame.symm
    exact .root
  | label hnames hsuffix hvoice hfirst _ ih =>
    cases labels' with
    | nil => exact absurd hsame (by simp)
    | cons label' rest' =>
      refine .label hnames hsuffix (hvoice.trans hsame) ?_ (ih (List.cons.inj hsame).2)
      rintro hnear other hother ⟨suffix, hends, hsame'⟩
      exact hfirst hnear other hother ⟨suffix, hends, hsame'.trans hsame.symm⟩

end Voiced

/-! ### Names that agree on their letters -/

/-- Wherever both names end in the same labels up to case, they have the same letters there. -/
def SpellsAlike (a b : Name) : Prop :=
  ∀ labels ∈ a.wireLabels.tails, ∀ others ∈ b.wireLabels.tails,
    others.map Text.fold = labels.map Text.fold → others = labels

instance (a b : Name) : Decidable (a.SpellsAlike b) :=
  inferInstanceAs (Decidable (∀ labels ∈ a.wireLabels.tails, ∀ others ∈ b.wireLabels.tails,
    others.map Text.fold = labels.map Text.fold → others = labels))

/-- Labels of a name are heard as they are, if all names spell alike what they share with it. -/
theorem Voiced.eq_of_alike (h : Voiced near names labels heard) (hsuffix : labels <:+ name.wireLabels)
    (halike : ∀ other ∈ names, name.SpellsAlike other) : heard = labels := by
  induction h with
  | root => rfl
  | label hnames hother hsame _ _ ih =>
    have hhere := halike _ (by simp [hnames]) _ ((List.mem_tails _ _).mpr hsuffix) _
      ((List.mem_tails _ _).mpr hother) hsame
    rw [ih ((List.suffix_cons _ _).trans hsuffix), (List.cons.inj hhere).1]

/-! ### Names one after the other -/

/-- Names are heard one after the other, each in letters of its own and of the names before it. -/
inductive Heard (near : Prop) : List Name → List Name → List Name → Prop where
  | nil {earlier : List Name} : Heard near earlier [] []
  | cons {earlier names founds : List Name} {name : Name} {heard : List Label}
      (hvoiced : Voiced near (earlier ++ [name]) name.wireLabels heard)
      (hrest : Heard near (earlier ++ [name]) names founds) :
      Heard near earlier (name :: names) (ofLabels heard :: founds)

namespace Heard

variable {earlier front back front' back' founds : List Name}

theorem append (h : Heard near earlier front front')
    (hback : Heard near (earlier ++ front) back back') :
    Heard near earlier (front ++ back) (front' ++ back') := by
  induction h with
  | nil => rwa [List.append_nil] at hback
  | cons hvoiced _ ih =>
    refine .cons hvoiced (ih ?_)
    rwa [List.append_assoc, List.singleton_append]

/-- Two runs of names are heard one after the other. -/
theorem split (h : Heard near earlier (front ++ back) (front' ++ back'))
    (hlength : front'.length = front.length) :
    Heard near earlier front front' ∧ Heard near (earlier ++ front) back back' := by
  induction front generalizing earlier front' with
  | nil =>
    obtain rfl := List.length_eq_zero_iff.mp hlength
    exact ⟨.nil, by rwa [List.append_nil]⟩
  | cons name front ih =>
    cases front' with
    | nil => exact absurd hlength (by simp)
    | cons found front' =>
      cases h with
      | cons hvoiced hrest =>
        obtain ⟨hfront, hback⟩ := ih hrest (Nat.succ.inj hlength)
        rw [List.append_assoc, List.singleton_append] at hback
        exact ⟨.cons hvoiced hfront, hback⟩

theorem tail {found : Name} (h : Heard near earlier (name :: names) (found :: founds)) :
    Heard near (earlier ++ [name]) names founds := by
  cases h with
  | cons _ hrest => exact hrest

/-- The names of one entry of a list are heard behind those of the entries before it. -/
theorem entry {α : Type} {names : α → List Name} {entries found : List α} {i : Nat} {value : α}
    (hlengths : found.map (fun entry => (names entry).length)
      = entries.map fun entry => (names entry).length)
    (h : Heard near earlier (entries.flatMap names) (found.flatMap names))
    (hvalue : entries[i]? = some value) :
    ∃ value', found[i]? = some value'
      ∧ Heard near (earlier ++ (entries.take i).flatMap names) (names value) (names value') := by
  induction entries generalizing earlier found i with
  | nil => exact absurd hvalue (by simp)
  | cons first rest ih =>
    cases found with
    | nil => exact absurd hlengths (by simp)
    | cons first' rest' =>
      obtain ⟨hfirst, hrest⟩ := List.cons.inj hlengths
      rw [List.flatMap_cons, List.flatMap_cons] at h
      obtain ⟨hhere, hbehind⟩ := h.split hfirst
      cases i with
      | zero =>
        obtain rfl := Option.some.inj hvalue
        exact ⟨first', rfl, by rwa [List.take_zero, List.flatMap_nil, List.append_nil]⟩
      | succ i =>
        obtain ⟨value', hfound, hheard⟩ := ih hrest hbehind hvalue
        refine ⟨value', hfound, ?_⟩
        rwa [List.take_succ_cons, List.flatMap_cons, ← List.append_assoc]

/-- Names that agree with those before them are heard as they are, without a trailing dot. -/
theorem eq_of_alike (h : Heard near earlier names founds)
    (halike : ∀ name ∈ names, ∀ other ∈ earlier ++ names, name.SpellsAlike other) :
    founds = names.map dropDot := by
  induction h with
  | nil => rfl
  | @cons earlier names founds name heard hvoiced _ ih =>
    have hheard : heard = name.wireLabels := hvoiced.eq_of_alike (List.suffix_refl _)
      fun other hother => halike name List.mem_cons_self other (by
        rw [List.append_cons]
        exact List.mem_append_left _ hother)
    have hrest := ih fun name' hname' other hother =>
      halike name' (List.mem_cons_of_mem _ hname') other (by rwa [List.append_cons])
    rw [List.map_cons, hrest, hheard, ofLabels_wireLabels]

end Heard

end Name

/-! ### What a writer remembers -/

namespace Writer

open Name (Spelled Voiced)

variable {near : Prop} {pending : List Nat} {earlier : List Name} {after writer : Writer}

/-- Every remembered name can be derived to letters of names. -/
def Traced (near : Prop) (known : Known) (names : List Name) (writer : Writer) : Prop :=
  ∀ entry ∈ writer.names, ∃ jumps heard stop, Spelled known jumps entry.offset heard stop
    ∧ Voiced near names entry.labels heard

theorem traced_empty (near : Prop) (known : Known) (compress : Bool) :
    Traced near known [] (.empty compress) :=
  fun entry hentry => absurd hentry (Array.not_mem_empty entry)

theorem Traced.mono {a b : Known} (h : Traced near a earlier writer) (hab : Known.Within a b)
    (hnames : after.names = writer.names) : Traced near b earlier after := by
  intro entry hentry
  obtain ⟨jumps, heard, stop, hspelled, hvoiced⟩ := h entry (hnames ▸ hentry)
  exact ⟨jumps, heard, stop, hspelled.mono hab, hvoiced⟩

/-- **Writing labels.** The labels of a name are written so that they are derived in letters of the
    name and of those that were written before it, and so is every name that is remembered then.
    They are those of the first name if the writer finds all that was written. -/
theorem Traced.putLabels {name : Name} (h : Traced near (writer.known pending) earlier writer)
    (hsound : writer.Sound pending) (hlabels : ∀ label ∈ name.wireLabels, label.Ordinary)
    (hcomplete : near → ∀ labels, labels ≠ [] → writer.find? labels = none →
      ∀ other ∈ earlier, ¬ other.EndsIn labels) :
    Traced near ((writer.putLabels name.wireLabels).known pending) (earlier ++ [name])
        (writer.putLabels name.wireLabels)
      ∧ ∃ jumps heard, Spelled ((writer.putLabels name.wireLabels).known pending) jumps writer.size
          heard (writer.putLabels name.wireLabels).size
        ∧ Voiced near (earlier ++ [name]) name.wireLabels heard := by
  have hwithin := (extends_putLabels writer name.wireLabels).known pending
  have hout : ∀ label rest (_ : Nat) heard, label :: rest <:+ name.wireLabels →
      writer.find? (label :: rest) = none → Voiced near (earlier ++ [name]) rest heard →
      Voiced near (earlier ++ [name]) (label :: rest) (label :: heard) :=
    fun label rest _ heard hsuffix hnone hrest => hrest.own hsuffix fun hnear =>
      hcomplete hnear _ (List.cons_ne_nil _ _) hnone
  have hfound : ∀ suffix offset, suffix <:+ name.wireLabels → writer.find? suffix = some offset →
      offset ≤ maxPointer ∧ offset < writer.size
        ∧ ∃ jumps heard stop,
          Spelled ((writer.putLabels name.wireLabels).known pending) jumps offset heard stop
            ∧ Voiced near (earlier ++ [name]) suffix heard := by
    intro suffix offset _ hfind
    obtain ⟨entry, hentry, rfl, hsame⟩ := find?_eq_some hfind
    obtain ⟨jumps, heard, stop, hspelled, hvoiced⟩ := h entry hentry
    obtain ⟨octet, hoctet⟩ := hspelled.known_pos
    exact ⟨(hsound.names entry hentry).1, lt_size_of_known hoctet, jumps, heard, stop,
      hspelled.mono hwithin, (hvoiced.append [name]).congr hsame⟩
  obtain ⟨⟨jumps, heard, hspelled, hvoiced⟩, hstarts⟩ := spelling_spelled hlabels
    (known_putLabels hsound.pending_lt _) Voiced.root hout hfound
  refine ⟨fun entry hentry => ?_, jumps, heard, ?_, hvoiced⟩
  · have hnames : (writer.putLabels name.wireLabels).names
        = writer.names ++ (writer.noted name.wireLabels).toArray := by rw [putLabels_eq]
    rw [hnames, Array.mem_append] at hentry
    rcases hentry with hold | hnew
    · obtain ⟨jumps, heard, stop, hspelled, hvoiced⟩ := h entry hold
      exact ⟨jumps, heard, stop, hspelled.mono hwithin, hvoiced.append [name]⟩
    · have hstart := mem_noted (List.mem_toArray.mp hnew)
      obtain ⟨hsuffix, hnone⟩ := mem_starts hstart
      obtain ⟨label, rest, jumps, heard, stop, hwhole, hspelled, hrest⟩ := hstarts entry hstart
      rw [hwhole] at hsuffix hnone ⊢
      exact ⟨jumps, label :: heard, stop, hspelled, hout label rest jumps heard hsuffix hnone hrest⟩
  · rw [size_putLabels]
    exact hspelled

end Writer

end DnsResolver
