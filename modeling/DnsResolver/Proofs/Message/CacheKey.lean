import DnsResolver.Cache
import DnsResolver.Proofs.Message.Query
import DnsResolver.Proofs.Name.Pieces

namespace DnsResolver

/-!
# Cache keys

A cache key is the question as it stands on the wire, in lower case and without pointers: it says
itself where it ends.  So a key is never the beginning of another one, and it tells its question up
to case, a trailing dot and the names that the codes of the type and the class have.

* `Question.spelledOut`, `Question.cacheKey_eq_ok_iff` — which questions have a key, and its octets.
* `Question.eq_of_spelledOut_append` — what stands at the front of octets is one question only.
* `Question.cacheKey_identifies` — questions that are equal, and questions whose keys are.
-/

/-- Labels that stand in front of a zero octet are told by the octets there. -/
theorem Label.wires_injective {labels labels' : List Label} {rest rest' : List UInt8}
    (hlabels : ∀ label ∈ labels, label.Ordinary) (hlabels' : ∀ label ∈ labels', label.Ordinary)
    (h : labels.flatMap Label.wire ++ [0] ++ rest = labels'.flatMap Label.wire ++ [0] ++ rest') :
    labels = labels' ∧ rest = rest' := by
  let octets : Octets := (labels.flatMap Label.wire ++ [0] ++ rest).toArray
  have hheld : (Known.of octets).Holds 0 (labels.flatMap Label.wire ++ [0] ++ rest) := by
    intro i octet hi
    simpa [octets, Known.of] using hi
  -- Both names start at one place of the same octets.
  have hspelled := Name.spelled_of_wires hlabels (Known.holds_append hheld).1
  have hspelled' := Name.spelled_of_wires hlabels' (Known.holds_append (h ▸ hheld)).1
  obtain ⟨-, rfl, -⟩ := hspelled.unique hspelled'
  exact ⟨rfl, List.append_cancel_left h⟩

namespace Question

variable {question question' : Question} {key : Octets}

/-! ### The octets of a key -/

/-- The numbers of the type and the class of a question. -/
def codeOctets (question : Question) : List UInt8 :=
  [(Wire.wordOctets question.type.code).1, (Wire.wordOctets question.type.code).2,
    (Wire.wordOctets question.recordClass.code).1, (Wire.wordOctets question.recordClass.code).2]

/-- A question in lower case on the wire, with all of its labels written out. -/
def spelledOut (question : Question) : List UInt8 :=
  (question.name.wireLabels.map Text.fold).flatMap Label.wire ++ [0] ++ question.codeOctets

theorem cacheKey_eq (question : Question) :
    question.cacheKey
      = (Label.checkAll (question.name.wireLabels.map Text.fold)).map fun _ =>
          question.spelledOut.toArray := by
  have hplain : ∀ suffix, (Writer.empty false).find? suffix = none := Writer.find?_plain rfl
  unfold cacheKey Writer.build
  rw [write_apply, Name.wireLabels_fold]
  cases Label.checkAll (question.name.wireLabels.map Text.fold) with
  | error error => rfl
  | ok _ =>
    show Except.ok ((Writer.empty false).putQuestion _ question).octets = Except.ok _
    unfold Writer.putQuestion
    rw [Writer.putLabels_eq, Writer.spelling_of_none hplain, Writer.putWord_eq, Writer.putWord_eq]
    simp [Writer.putOctets, Writer.empty, spelledOut, codeOctets]

/-- A question has a key if its name can be written. -/
theorem cacheKey_eq_ok_iff :
    question.cacheKey = .ok key
      ↔ (∀ label ∈ question.name.wireLabels, label.Ordinary) ∧ key = question.spelledOut.toArray := by
  rw [cacheKey_eq, ← Label.checkAll_eq_ok_iff, ← Label.checkAll_fold]
  cases Label.checkAll (question.name.wireLabels.map Text.fold) <;> simp [Except.map, eq_comm]

/-- A question with a key can be written in a query. -/
theorem checkAll_of_cacheKey (h : question.cacheKey = .ok key) :
    Label.checkAll question.name.wireLabels = .ok () :=
  Label.checkAll_eq_ok_iff.mpr (cacheKey_eq_ok_iff.mp h).1

/-! ### Keys tell their questions -/

/-- **What stands at the front.** Of questions that can be written only one stands, written out, at
    the front of octets, up to case and by the numbers of its type and its class. -/
theorem eq_of_spelledOut_append {rest rest' : List UInt8}
    (hlabels : ∀ label ∈ question.name.wireLabels, label.Ordinary)
    (hlabels' : ∀ label ∈ question'.name.wireLabels, label.Ordinary)
    (h : question.spelledOut ++ rest = question'.spelledOut ++ rest') :
    question.name.wireLabels.map Text.fold = question'.name.wireLabels.map Text.fold
      ∧ question.type.code = question'.type.code
      ∧ question.recordClass.code = question'.recordClass.code ∧ rest = rest' := by
  have hfolded : ∀ {name : Name}, (∀ label ∈ name.wireLabels, label.Ordinary) →
      ∀ label ∈ name.wireLabels.map Text.fold, Label.Ordinary label := fun hname =>
    List.forall_mem_map.mpr fun label hlabel => Label.ordinary_fold.mpr (hname label hlabel)
  unfold spelledOut at h
  rw [List.append_assoc _ question.codeOctets, List.append_assoc _ question'.codeOctets] at h
  obtain ⟨hnames, hcodes⟩ := Label.wires_injective (hfolded hlabels) (hfolded hlabels') h
  have hword : ∀ {n n' : UInt16}, (Wire.wordOctets n).1 = (Wire.wordOctets n').1 →
      (Wire.wordOctets n).2 = (Wire.wordOctets n').2 → n = n' := fun {n n'} hhigh hlow => by
    rw [← Wire.word_wordOctets n, hhigh, hlow, Wire.word_wordOctets]
  -- The codes are four octets on both sides.
  obtain ⟨htypeHigh, htypeLow, hclassHigh, hclassLow, hrest⟩ : (Wire.wordOctets question.type.code).1
      = (Wire.wordOctets question'.type.code).1 ∧ _ ∧ _ ∧ _ ∧ rest = rest' := by
    simpa [codeOctets] using hcodes
  exact ⟨hnames, hword htypeHigh htypeLow, hword hclassHigh hclassLow, hrest⟩

/-- Questions with the same key have the same name up to case, the same type and the same class,
    by number. -/
theorem cacheKey_injective (h : question.cacheKey = .ok key) (h' : question'.cacheKey = .ok key) :
    question.name.wireLabels.map Text.fold = question'.name.wireLabels.map Text.fold
      ∧ question.type.code = question'.type.code
      ∧ question.recordClass.code = question'.recordClass.code := by
  obtain ⟨hlabels, hkey⟩ := cacheKey_eq_ok_iff.mp h
  obtain ⟨hlabels', hkey'⟩ := cacheKey_eq_ok_iff.mp h'
  have hsame : question.spelledOut ++ [] = question'.spelledOut ++ [] := by
    simpa using hkey.symm.trans hkey'
  obtain ⟨hnames, htype, hclass, -⟩ := eq_of_spelledOut_append hlabels hlabels' hsame
  exact ⟨hnames, htype, hclass⟩

/-- Equal questions have the same key, or none in the same way. -/
theorem cacheKey_congr (h : question.sameAs question' = true) :
    question.cacheKey = question'.cacheKey := by
  obtain ⟨⟨hname, htype⟩, hclass⟩ : (question.name.sameAs question'.name = true
      ∧ question.type = question'.type) ∧ question.recordClass = question'.recordClass := by
    simpa [sameAs] using h
  unfold cacheKey
  rw [(Name.sameAs_iff _ _).mp hname, htype, hclass]

/-- **Cache keys identify questions.** A question has a key exactly if its name can be written.  Equal
    questions have the same key or fail in the same way.  Keys are the same exactly if the names are
    equal up to case and a trailing dot and the numbers of the types and of the classes are equal, and
    no key is the beginning of a longer one. -/
theorem cacheKey_identifies (a b : Question) :
    ((∃ key, a.cacheKey = .ok key) ↔ ∀ label ∈ a.name.wireLabels, label.Ordinary)
      ∧ (a.sameAs b = true → a.cacheKey = b.cacheKey)
      ∧ ∀ key key', a.cacheKey = .ok key → b.cacheKey = .ok key' →
        (key = key' ↔ a.name.dropDot.sameAs b.name.dropDot = true ∧ a.type.code = b.type.code
          ∧ a.recordClass.code = b.recordClass.code)
        ∧ (key.toList <+: key'.toList → key = key') := by
  refine ⟨⟨?_, fun h => ⟨_, cacheKey_eq_ok_iff.mpr ⟨h, rfl⟩⟩⟩, cacheKey_congr, ?_⟩
  · rintro ⟨key, hkey⟩
    exact (cacheKey_eq_ok_iff.mp hkey).1
  intro key key' hkey hkey'
  obtain ⟨hlabels, rfl⟩ := cacheKey_eq_ok_iff.mp hkey
  obtain ⟨hlabels', rfl⟩ := cacheKey_eq_ok_iff.mp hkey'
  rw [Name.sameAs_iff, Name.fold_dropDot_eq_iff]
  refine ⟨⟨fun hsame => ?_, ?_⟩, fun hfront => ?_⟩
  · exact cacheKey_injective hkey (hsame ▸ hkey')
  · rintro ⟨hnames, htype, hclass⟩
    unfold spelledOut codeOctets
    rw [hnames, htype, hclass]
  · -- What follows the one key in the other follows one and the same question.
    obtain ⟨rest, hrest⟩ := hfront
    have hwhole : a.spelledOut ++ rest = b.spelledOut ++ [] := by simpa using hrest
    obtain ⟨-, -, -, hnil⟩ := eq_of_spelledOut_append hlabels hlabels' hwhole
    simpa [hnil] using hrest

/-- A question in other letters and with a trailing dot. -/
theorem cacheKey_identifies_dotted :
    let asked : Question := ⟨⟨['E', 'x', '.', 'C', 'O', 'M', '.']⟩, .mx, .internet⟩
    let again : Question := ⟨⟨['e', 'x', '.', 'c', 'o', 'm']⟩, .unknown 15, .internet⟩
    let key : Octets := #[2, 101, 120, 3, 99, 111, 109, 0, 0, 15, 0, 1]
    asked.cacheKey = .ok key ∧ again.cacheKey = .ok key
      ∧ asked.name.dropDot.sameAs again.name.dropDot = true := by
  have hasked : cacheKey ⟨⟨['E', 'x', '.', 'C', 'O', 'M', '.']⟩, .mx, .internet⟩
      = .ok #[2, 101, 120, 3, 99, 111, 109, 0, 0, 15, 0, 1] := by cbv
  have hagain : cacheKey ⟨⟨['e', 'x', '.', 'c', 'o', 'm']⟩, .unknown 15, .internet⟩
      = .ok #[2, 101, 120, 3, 99, 111, 109, 0, 0, 15, 0, 1] := by cbv
  exact ⟨hasked, hagain, (((cacheKey_identifies _ _).2.2 _ _ hasked hagain).1.mp rfl).1⟩

end Question

theorem Cache.key?_eq_some_iff {question : Question} {key : Trie.Key} :
    Cache.key? question = some key
      ↔ ∃ octets, question.cacheKey = .ok octets ∧ octets.toList = key := by
  unfold Cache.key?
  cases question.cacheKey <;> simp

end DnsResolver
