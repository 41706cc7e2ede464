import DnsResolver.Proofs.Toml.Quoted
import DnsResolver.Toml.Nested

namespace DnsResolver.Toml

/-!
# Values that are read back

A text spells a value if it is read as that value wherever a value is expected, and up to its own
end: what stands behind it must not go on with a scalar or a blank.

* `Ends` — what may stand behind a value.
* `Value.Spells` — the texts of a value.
* `spells_quote`, `spells_digits`, `spells_flag` — strings, numbers and truth values.
* `spells_array`, `spells_itemLines` — arrays, and those with one item to a line.
-/

open Text (Stops stops_cons ne_of_apply notMem_of_apply)

/-- What may stand behind a value. -/
def Ends (rest : List Char) : Prop := Stops (fun c => isAtom c || isBlank c) rest

/-- A character that a value may start with. -/
def opensValue (c : Char) : Bool := isAtom c || c = '['

/-- A text is read as a value that holds values in no more than `nesting` others. -/
structure Value.Spells (nesting : Nat) (value : Value) (text : List Char) : Prop where
  opens : text.head?.any opensValue = true
  read : ∀ {limit depth rest}, nesting ≤ depth → text.length ≤ limit → Ends rest →
    readNested limit depth (text ++ rest) = some (value, rest)

variable {cs run text rest : List Char} {c : Char} {n limit depth nesting size : Nat}

/-! ### What stands around a value -/

theorem opensValue_of_isAtom (h : isAtom c = true) : opensValue c = true := by
  simp [opensValue, h]

theorem isBlank_of_opensValue (h : opensValue c = true) : isBlank c = false := by
  rw [isBlank, Bool.or_eq_false_iff, decide_eq_false_iff_not, decide_eq_false_iff_not]
  exact ⟨ne_of_apply h rfl, ne_of_apply h rfl⟩

theorem isAtom_of_isQuote (h : isQuote c = true) : isAtom c = true := by
  rw [isQuote, Bool.or_eq_true, decide_eq_true_eq, decide_eq_true_eq] at h
  rcases h with rfl | rfl <;> rfl

theorem stops_isQuote_of_ends (h : Ends rest) : Stops isQuote rest := by
  intro c hc
  have hatom : isAtom c = false := (Bool.or_eq_false_iff.mp (h c hc)).1
  exact Bool.eq_false_iff.mpr fun hquote => by simp [isAtom_of_isQuote hquote] at hatom

/-- The characters that are skipped, or begin what is skipped. -/
def skipped : List Char := ['\r', '\n', ' ', '\t', '#']

theorem skipLines_cons (h : c ∉ skipped) : skipLines false (c :: rest) = some (c :: rest) := by
  simp only [skipped, List.mem_cons, List.not_mem_nil, or_false, not_or] at h
  simp [skipLines, isBlank, h]

theorem notMem_skipped (h : opensValue c = true) : c ∉ skipped := notMem_of_apply h rfl

theorem skipBlanks_of_opensValue (h : opensValue c = true) :
    skipBlanks (c :: rest) = c :: rest :=
  Text.dropWhile_of_stops (stops_cons.mpr (isBlank_of_opensValue h))

theorem skipLines_blanks (h : ∀ c ∈ run, isBlank c = true) :
    skipLines false (run ++ rest) = skipLines false rest := by
  induction run with
  | nil => rfl
  | cons c run ih =>
    have hblank := h c List.mem_cons_self
    have hnewline : c ≠ '\n' := ne_of_apply hblank rfl
    have hcarriage : c ≠ '\r' := ne_of_apply hblank rfl
    rw [← ih fun c hc => h c (List.mem_cons_of_mem _ hc)]
    simp [skipLines, hnewline, hcarriage, hblank]

/-! ### Scalars -/

/-- A scalar is read up to its end. -/
theorem takeScalar_append {seen : List Char} (hrun : ∀ c ∈ run, isAtom c = true)
    (hrest : Ends rest) : takeScalar seen [] (run ++ rest) = (seen.reverse ++ run, rest) := by
  induction run generalizing seen with
  | nil =>
    cases rest with
    | nil => simp [takeScalar]
    | cons c rest =>
      obtain ⟨hatom, hblank⟩ := Bool.or_eq_false_iff.mp (stops_cons.mp hrest)
      simp [takeScalar, hatom, hblank]
  | cons c run ih =>
    have hatom := hrun c List.mem_cons_self
    have hnext : takeScalar (c :: seen) [] (run ++ rest) = _ :=
      ih fun c hc => hrun c (List.mem_cons_of_mem _ hc)
    rw [List.reverse_cons, List.append_assoc] at hnext
    simpa [takeScalar, hatom, isBlank_of_opensValue (opensValue_of_isAtom hatom)] using hnext

theorem isAtom_of_isDigit (h : c.isDigit = true) : isAtom c = true := by
  rw [isAtom, Bool.not_eq_true', List.contains_eq_mem, decide_eq_false_iff_not]
  exact notMem_of_apply h rfl

/-- A text without underscores is one group. -/
theorem ungroup?_of_notMem {isDigit : Char → Bool} (h : '_' ∉ cs) :
    ungroup? isDigit cs = some cs := by
  have hone : cs.splitOn '_' = [cs] := by
    have hall : ∀ group ∈ [cs], '_' ∉ group := by simpa using h
    simpa using List.splitOn_intercalate '_' hall (by simp)
  simp [ungroup?, hone]

theorem notMem_digits (h : c.isDigit = false) : c ∉ Text.digits n := fun hmem => by
  simp [Text.isDigit_of_mem_digits hmem] at h

theorem splitSign_digits (n : Nat) : splitSign (Text.digits n) = (false, Text.digits n) := by
  unfold splitSign
  split
  · next heq => exact absurd (heq ▸ List.mem_cons_self) (notMem_digits (c := '-') rfl)
  · next heq => exact absurd (heq ▸ List.mem_cons_self) (notMem_digits (c := '+') rfl)
  · rfl

theorem isWhole_digits (n : Nat) : isWhole (Text.digits n) = true := by
  have hnone : (Text.digits n).dropWhile Char.isDigit = [] :=
    List.dropWhile_eq_nil_iff.mpr fun c hc => Text.isDigit_of_mem_digits hc
  have hlength : (Text.digits n).length = 1 ∨ (Text.digits n).head? ≠ some '0' := by
    refine Decidable.or_iff_not_imp_right.mpr fun hzero => ?_
    rw [(Text.plain_digits n).2 (Decidable.not_not.mp hzero)]
    rfl
  simpa [isWhole, hnone, Text.digits_ne_nil] using hlength

/-- A printed number that 128 bits hold is an integer. -/
theorem integer?_digits (h : fits128 n = true) :
    integer? (Text.digits n) = some (.integer (some n)) := by
  -- The second character of the mark of a base is no digit.
  have hmark : ∀ mark rest, mark.isDigit = false → Text.digits n ≠ '0' :: mark :: rest :=
    fun mark rest hmark heq => notMem_digits hmark (heq ▸ List.mem_cons_of_mem _ List.mem_cons_self)
  have hdecimal : integer? (Text.digits n) = decimalInteger? (Text.digits n) := by
    unfold integer?
    split
    · next heq => exact absurd heq (hmark 'x' _ rfl)
    · next heq => exact absurd heq (hmark 'o' _ rfl)
    · next heq => exact absurd heq (hmark 'b' _ rfl)
    · rfl
  have hunderscore : '_' ∉ Text.digits n := notMem_digits rfl
  rw [hdecimal]
  simp [decimalInteger?, splitSign_digits, isWhole_digits, ungroup?_of_notMem hunderscore,
    Text.decimal?_digits, withSign, Value.ofNumber, h]

theorem scalar?_digits (h : fits128 n = true) :
    scalar? (Text.digits n) = some (.integer (some n)) := by
  have htrue : Text.digits n ≠ "true".toList := fun heq =>
    absurd (by rw [heq]; simp) (notMem_digits (n := n) (c := 't') rfl)
  have hfalse : Text.digits n ≠ "false".toList := fun heq =>
    absurd (by rw [heq]; simp) (notMem_digits (n := n) (c := 'f') rfl)
  rw [scalar?, if_neg htrue, if_neg hfalse, integer?_digits h, Option.some_or]

/-! ### Flat values -/

/-- What starts like a scalar or a string is neither an array nor a table. -/
theorem readNested_flat (h : isAtom c = true) :
    readNested limit depth (c :: cs) = readFlat (c :: cs) := by
  cases depth with
  | zero => rfl
  | succ depth =>
    have hbracket : c ≠ '[' := ne_of_apply h rfl
    have hbrace : c ≠ '\x7b' := ne_of_apply h rfl
    unfold readNested
    split
    · next heq => exact absurd (List.cons.inj heq).1 hbracket
    · next heq => exact absurd (List.cons.inj heq).1 hbrace
    · rfl

/-- A scalar that is read as a value spells it. -/
theorem spells_scalar {value : Value} (hne : text ≠ []) (hatom : ∀ c ∈ text, isAtom c = true)
    (hquote : Stops isQuote text) (hvalue : scalar? text = some value) :
    value.Spells 0 text := by
  obtain ⟨c, tail, rfl⟩ := List.exists_cons_of_ne_nil hne
  have hfirst : isAtom c = true := hatom c List.mem_cons_self
  refine ⟨?_, fun _ _ hrest => ?_⟩
  · simpa using opensValue_of_isAtom hfirst
  · have htake : takeScalar [] [] _ = _ := takeScalar_append hatom hrest
    rw [List.cons_append] at htake ⊢
    rw [readNested_flat hfirst, readFlat, if_neg (by simp [stops_cons.mp hquote]),
      readScalar, htake]
    simp [hvalue]

theorem spells_digits (h : fits128 n = true) :
    (Value.integer (some n)).Spells 0 (Text.digits n) := by
  have hdigit : ∀ {c}, c ∈ Text.digits n → c.isDigit = true := Text.isDigit_of_mem_digits
  refine spells_scalar (Text.digits_ne_nil n) (fun c hc => isAtom_of_isDigit (hdigit hc))
    (fun c hc => Bool.eq_false_iff.mpr fun hquote => ?_) (scalar?_digits h)
  rw [isQuote, Bool.or_eq_true, decide_eq_true_eq, decide_eq_true_eq] at hquote
  rcases hquote with rfl | rfl <;> exact absurd (hdigit (List.mem_of_head? hc)) (by decide)

theorem spells_flag (b : Bool) :
    (Value.boolean b).Spells 0 (if b then "true" else "false").toList := by
  cases b with
  | false =>
    exact spells_scalar (by decide) (List.all_eq_true.mp (by decide)) (stops_cons.mpr rfl) rfl
  | true =>
    exact spells_scalar (by decide) (List.all_eq_true.mp (by decide)) (stops_cons.mpr rfl) rfl

theorem quote_eq_cons (text : List Char) : ∃ c tail, quote text = c :: tail ∧ isQuote c = true := by
  unfold quote
  cases QuoteForm.of text with
  | basic => exact ⟨'"', _, rfl, rfl⟩
  | literal => exact ⟨'\'', _, rfl, rfl⟩
  | multiBasic => exact ⟨'"', _, rfl, rfl⟩
  | multiLiteral => exact ⟨'\'', _, rfl, rfl⟩

theorem spells_quote (text : List Char) : (Value.string text).Spells 0 (quote text) := by
  obtain ⟨c, tail, hquote, hc⟩ := quote_eq_cons text
  have hatom : isAtom c = true := isAtom_of_isQuote hc
  refine ⟨?_, fun {_ _ rest} _ _ hrest => ?_⟩
  · simpa [hquote] using opensValue_of_isAtom hatom
  · have hread := readQuoted_quote text (stops_isQuote_of_ends hrest)
    rw [hquote, List.cons_append] at hread ⊢
    rw [readNested_flat hatom, readFlat, if_pos (by simpa using hc), hread]
    rfl

/-! ### Arrays -/

variable {item : List Char → Option (Value × List Char)} {value : Value}
  {pairs : List (Value × List Char)}

theorem ends_cons (h : c ∈ ['\n', ',', ']']) : Ends (c :: rest) := by
  have hnone : (['\n', ',', ']'].any fun d => isAtom d || isBlank d) = false := by decide
  exact stops_cons.mpr (Bool.eq_false_iff.mpr (List.any_eq_false.mp hnone c h))

theorem head_of_opensValue (h : text.head?.any opensValue = true) :
    ∃ c tail, text = c :: tail ∧ opensValue c = true := by
  cases text with
  | nil => exact absurd h (by simp)
  | cons c tail => exact ⟨c, tail, rfl, by simpa using h⟩

/-- An item with a comma behind it is one more item. -/
theorem readItems_cons (hopens : text.head?.any opensValue = true)
    (hitem : item (text ++ ',' :: rest) = some (value, ',' :: rest)) :
    readItems item (limit + 1) (text ++ ',' :: rest)
      = (readItems item limit rest).map fun (values, rest) => (value :: values, rest) := by
  obtain ⟨c, tail, rfl, hc⟩ := head_of_opensValue hopens
  have hbracket : c ≠ ']' := ne_of_apply hc rfl
  have hcomma : ',' ∉ skipped := by decide
  rw [List.cons_append] at hitem ⊢
  simp [readItems, skipLines_cons (notMem_skipped hc), hbracket, hitem, skipLines_cons hcomma]
  cases readItems item limit rest <;> rfl

/-- An item with a bracket behind it is the last one. -/
theorem readItems_last (hopens : text.head?.any opensValue = true)
    (hitem : item (text ++ ']' :: rest) = some (value, ']' :: rest)) :
    readItems item (limit + 1) (text ++ ']' :: rest) = some ([value], rest) := by
  obtain ⟨c, tail, rfl, hc⟩ := head_of_opensValue hopens
  have hbracket : c ≠ ']' := ne_of_apply hc rfl
  have hclose : ']' ∉ skipped := by decide
  rw [List.cons_append] at hitem ⊢
  simp [readItems, skipLines_cons (notMem_skipped hc), hbracket, hitem, skipLines_cons hclose]

theorem readItems_close : readItems item (limit + 1) (']' :: rest) = some ([], rest) := by
  simp [readItems, skipLines_cons (by decide : ']' ∉ skipped)]

theorem readItems_newline : readItems item limit ('\n' :: cs) = readItems item limit cs := by
  cases limit with
  | zero => rfl
  | succ limit => simp [readItems, skipLines]

theorem readItems_blanks (h : ∀ c ∈ run, isBlank c = true) :
    readItems item limit (run ++ cs) = readItems item limit cs := by
  cases limit with
  | zero => rfl
  | succ limit => rw [readItems, readItems, skipLines_blanks h]

/-- Values one to a line, each with a comma behind it. -/
def itemLines (indent : List Char) (pairs : List (Value × List Char)) : List Char :=
  pairs.flatMap fun (_, text) => indent ++ text ++ [',', '\n']

theorem length_itemLines (indent : List Char) (pairs : List (Value × List Char)) :
    pairs.length ≤ (itemLines indent pairs).length
      ∧ ∀ pair ∈ pairs, pair.2.length ≤ (itemLines indent pairs).length := by
  induction pairs with
  | nil => simp
  | cons pair pairs ih =>
    simp only [itemLines, List.flatMap_cons, List.length_append, List.length_cons,
      List.mem_cons, forall_eq_or_imp] at ih ⊢
    refine ⟨by omega, by omega, fun pair hpair => ?_⟩
    exact Nat.le_add_left_of_le (ih.2 pair hpair)

/-- Values one to a line are read up to the bracket that closes the array. -/
theorem readItems_itemLines {indent : List Char} (hindent : ∀ c ∈ indent, isBlank c = true)
    (hspells : ∀ pair ∈ pairs, pair.1.Spells nesting pair.2) (hdepth : nesting ≤ depth)
    (hsize : ∀ pair ∈ pairs, pair.2.length ≤ size) (hlimit : pairs.length < limit) :
    readItems (readNested size depth) limit (itemLines indent pairs ++ ']' :: rest)
      = some (pairs.map Prod.fst, rest) := by
  induction pairs generalizing limit with
  | nil =>
    obtain ⟨limit, rfl⟩ := Nat.exists_eq_add_of_lt hlimit
    simpa [itemLines] using readItems_close
  | cons pair pairs ih =>
    obtain ⟨value, text⟩ := pair
    obtain ⟨limit, rfl⟩ : ∃ more, limit = more + 1 := ⟨limit - 1, by omega⟩
    have hvalue : value.Spells nesting text := hspells _ List.mem_cons_self
    have hends : Ends (',' :: '\n' :: (itemLines indent pairs ++ ']' :: rest)) :=
      ends_cons (by decide)
    have hitem := hvalue.read hdepth (hsize _ List.mem_cons_self) hends
    have htail := ih (fun pair hpair => hspells pair (List.mem_cons_of_mem _ hpair))
      (fun pair hpair => hsize pair (List.mem_cons_of_mem _ hpair)) (Nat.lt_of_succ_lt_succ hlimit)
    have hsplit : itemLines indent ((value, text) :: pairs) ++ ']' :: rest
        = indent ++ (text ++ ',' :: '\n' :: (itemLines indent pairs ++ ']' :: rest)) := by
      simp [itemLines]
    rw [hsplit, readItems_blanks hindent, readItems_cons hvalue.opens hitem, readItems_newline, htail]
    rfl

/-- An array spells its items if they are read up to the bracket. -/
theorem spells_array {values : List Value}
    (h : ∀ limit depth rest, nesting ≤ depth → text.length < limit →
      readItems (readNested limit depth) limit (text ++ ']' :: rest) = some (values, rest)) :
    (Value.array .inline values).Spells (nesting + 1) ('[' :: text ++ [']']) := by
  refine ⟨rfl, fun {limit depth rest} hdepth hlimit _ => ?_⟩
  obtain ⟨depth, rfl⟩ : ∃ less, depth = less + 1 := ⟨depth - 1, by omega⟩
  have hlonger : text.length < limit := by
    simp only [List.cons_append, List.length_cons, List.length_append] at hlimit
    omega
  rw [List.append_assoc]
  show (readItems (readNested limit depth) limit (text ++ ']' :: rest)).map _ = _
  rw [h limit depth rest (Nat.le_of_succ_le_succ hdepth) hlonger]
  rfl

theorem spells_nil : (Value.array .inline []).Spells 1 ['[', ']'] := by
  have hnone : (Value.array .inline []).Spells (0 + 1) ('[' :: [] ++ [']']) :=
    spells_array fun limit _ _ _ hlimit => by
      obtain ⟨limit, rfl⟩ : ∃ less, limit = less + 1 := ⟨limit - 1, by simp at hlimit; omega⟩
      exact readItems_close
  exact hnone

theorem spells_singleton (h : value.Spells nesting text) :
    (Value.array .inline [value]).Spells (nesting + 1) ('[' :: text ++ [']']) :=
  spells_array fun limit depth rest hdepth hlimit => by
    obtain ⟨less, hless⟩ : ∃ less, limit = less + 1 := ⟨limit - 1, by omega⟩
    have hends : Ends (']' :: rest) := ends_cons (by decide)
    conv => lhs; arg 2; rw [hless]
    exact readItems_last h.opens (h.read hdepth (Nat.le_of_lt hlimit) hends)

/-- An array with one item to a line. -/
theorem spells_itemLines {indent : List Char} (hindent : ∀ c ∈ indent, isBlank c = true)
    (hspells : ∀ pair ∈ pairs, pair.1.Spells nesting pair.2) :
    (Value.array .inline (pairs.map Prod.fst)).Spells (nesting + 1)
      ('[' :: '\n' :: itemLines indent pairs ++ [']']) :=
  spells_array fun limit depth rest hdepth hlimit => by
    obtain ⟨hcount, hsize⟩ := length_itemLines indent pairs
    rw [List.length_cons] at hlimit
    rw [List.cons_append, readItems_newline]
    exact readItems_itemLines hindent hspells hdepth
      (fun pair hpair => Nat.le_trans (hsize pair hpair) (by omega)) (by omega)

end DnsResolver.Toml
