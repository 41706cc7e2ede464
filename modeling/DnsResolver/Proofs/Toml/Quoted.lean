import DnsResolver.Proofs.Text.Front
import DnsResolver.Toml.Scalar

namespace DnsResolver.Toml

/-!
# Quoted strings that are read back

A string is read back in whichever form it was written, as long as no quote stands behind it.

* `Escape.Spells` — the characters behind a backslash that stand for a character.
* `escapeChar_cases` — a character is written as it is, or with an escape that stands for it.
* `readBasic_basicBody`, `readLiteral_append`, `readMultiBasic_multiBasicBody`,
  `readMultiLiteral_append` — the four forms.
* `readQuoted_quote` — all of them.
-/

open Text (Stops stops_cons ne_of_apply)

/-- What has been read of an escape, and the characters that are to come, stand for a
    character. -/
inductive Escape.Spells : Escape → List Char → Char → Prop
  | last {escape : Escape} {d c : Char} : escape.step d = some (.done c) → Spells escape [d] c
  | more {escape next : Escape} {d c : Char} {code : List Char} :
      escape.step d = some (.more next) → Spells next code c → Spells escape (d :: code) c

variable {cs code rest seen : List Char} {c : Char} {escape : Escape} {run n : Nat}

/-! ### Escapes -/

theorem hexValue?_upperHexDigit (h : n < 16) : Text.hexValue? (upperHexDigit n) = some n := by
  have hall : ∀ n < 16, Text.hexValue? (upperHexDigit n) = some n := by decide
  exact hall n h

/-- Four digits stand for a character of at most seven bits. -/
theorem Escape.spells_digits (h : c.toNat < 128) :
    Escape.begun.Spells
      ['u', '0', '0', upperHexDigit (c.toNat / 16), upperHexDigit (c.toNat % 16)] c := by
  have hhigh := hexValue?_upperHexDigit (n := c.toNat / 16) (by omega)
  have hlow := hexValue?_upperHexDigit (n := c.toNat % 16) (by omega)
  have hvalue : c.toNat / 16 * 16 + c.toNat % 16 = c.toNat := by omega
  have hchar : charOfCode? c.toNat = some c := by
    rw [charOfCode?, if_pos (Or.inl (by omega)), Char.ofNat_toNat]
  have hthird : (hex 2 0).step (upperHexDigit (c.toNat / 16))
      = some (.more (hex 1 (c.toNat / 16))) := by
    simp [step, hhigh]
  have hlast : (hex 1 (c.toNat / 16)).step (upperHexDigit (c.toNat % 16)) = some (.done c) := by
    simp [step, hlow, hvalue, hchar]
  exact .more rfl (.more rfl (.more rfl (.more hthird (.last hlast))))

theorem toNat_lt_of_isControl (h : isControl c = true) : c.toNat < 128 := by
  simp only [isControl, Bool.or_eq_true, Bool.and_eq_true, decide_eq_true_eq] at h
  omega

/-- A character is written as it is, or with an escape that stands for it. -/
theorem escapeChar_cases (c : Char) :
    (escapeChar c = [c] ∧ isPlain c = true ∧ c ≠ '\\')
      ∨ ∃ code, escapeChar c = '\\' :: code ∧ Escape.begun.Spells code c := by
  have hletter : ∀ d, Escape.begun.step d = some (.done c) →
      ∃ code, ['\\', d] = '\\' :: code ∧ Escape.begun.Spells code c :=
    fun d hd => ⟨[d], rfl, .last hd⟩
  fun_cases escapeChar c with
  | case1 h => exact Or.inr (hletter 't' (h ▸ rfl))
  | case2 _ h => exact Or.inr (hletter 'n' (h ▸ rfl))
  | case3 _ _ h => exact Or.inr (hletter 'b' (h ▸ rfl))
  | case4 _ _ _ h => exact Or.inr (hletter 'f' (h ▸ rfl))
  | case5 _ _ _ _ h => exact Or.inr (hletter 'r' (h ▸ rfl))
  | case6 _ _ _ _ _ h => exact Or.inr (hletter '\\' (by rw [h]; rfl))
  | case7 _ _ _ _ _ _ hcontrol =>
    exact Or.inr ⟨_, rfl, Escape.spells_digits (toNat_lt_of_isControl hcontrol)⟩
  | case8 _ hnewline _ _ _ hbackslash hcontrol =>
    exact Or.inl ⟨rfl, by simp [isPlain, hcontrol, hnewline], hbackslash⟩

/-! ### One line -/

theorem isPlain_iff : isPlain c = true ↔ isControl c = false ∧ c ≠ '\n' := by
  simp [isPlain]

/-- An open escape is read to its end. -/
theorem readBasic_escape (h : escape.Spells code c) :
    readBasic (some escape) seen (code ++ rest) = readBasic none (c :: seen) rest := by
  induction h with
  | last hstep => simp only [List.cons_append, List.nil_append, readBasic, hstep]
  | more hstep _ ih => simp only [List.cons_append, readBasic, hstep, ih]

/-- A basic string is read up to the quote that closes it. -/
theorem readBasic_basicBody :
    readBasic none seen (basicBody cs ++ '"' :: rest) = some (seen.reverse ++ cs, rest) := by
  induction cs generalizing seen with
  | nil => simp [basicBody, readBasic]
  | cons c cs ih =>
    have htail : readBasic none (c :: seen) (basicBody cs ++ '"' :: rest)
        = some (seen.reverse ++ c :: cs, rest) := by
      rw [ih, List.reverse_cons, List.append_assoc]; rfl
    rw [basicBody, List.flatMap_cons, ← basicBody, List.append_assoc]
    by_cases hquote : c = '"'
    · rw [if_pos hquote, ← htail, hquote]
      have hspells : Escape.begun.Spells ['"'] '"' := .last rfl
      exact readBasic_escape hspells
    · rw [if_neg hquote, ← htail]
      rcases escapeChar_cases c with ⟨heq, hplain, hbackslash⟩ | ⟨code, heq, hspells⟩
      · rw [heq, List.singleton_append, readBasic, if_neg hquote, if_neg hbackslash, if_pos hplain]
      · rw [heq, List.cons_append]
        exact readBasic_escape hspells

/-- A literal string is read up to the quote that closes it. -/
theorem readLiteral_append (h : ∀ c ∈ cs, isPlain c = true ∧ c ≠ '\'') :
    readLiteral seen (cs ++ '\'' :: rest) = some (seen.reverse ++ cs, rest) := by
  induction cs generalizing seen with
  | nil => simp [readLiteral]
  | cons c cs ih =>
    obtain ⟨hplain, hquote⟩ := h c List.mem_cons_self
    rw [List.cons_append, readLiteral, if_neg hquote, if_pos hplain,
      ih fun c hc => h c (List.mem_cons_of_mem _ hc), List.reverse_cons, List.append_assoc]
    rfl

/-! ### Several lines -/

theorem Escape.ne_of_step {c : Char} {after : Escaped} (h : begun.step c = some after) :
    c ≠ '\n' ∧ c ≠ '\r' ∧ c ≠ ' ' ∧ c ≠ '\t' := by
  refine ⟨?_, ?_, ?_, ?_⟩ <;> rintro rfl <;> simp [step] at h

/-- One more character of an open escape. No escape starts with a line end or a blank. -/
theorem readMultiBasic_step {after : Escaped} (h : escape.step c = some after) :
    readMultiBasic (.escape escape) seen (c :: rest) = match after with
      | .more next => readMultiBasic (.escape next) seen rest
      | .done c => readMultiBasic (.text 0) (c :: seen) rest := by
  cases escape with
  | begun =>
    obtain ⟨hnewline, hcarriage, hspace, htab⟩ := Escape.ne_of_step h
    simp only [readMultiBasic, hnewline, hcarriage, hspace, htab, h]
    cases after <;> rfl
  | hex left value =>
    simp only [readMultiBasic, h]
    cases after <;> rfl

theorem readMultiBasic_escape (h : escape.Spells code c) :
    readMultiBasic (.escape escape) seen (code ++ rest)
      = readMultiBasic (.text 0) (c :: seen) rest := by
  induction h with
  | last hstep => exact readMultiBasic_step hstep
  | more hstep _ ih => exact (readMultiBasic_step hstep).trans ih

/-- A character other than a quote is read behind at most two quotes. -/
theorem readMultiBasic_escapeChar (hquote : c ≠ '"') (hrun : run ≤ 2) :
    readMultiBasic (.text run) seen (escapeChar c ++ rest)
      = readMultiBasic (.text 0) (c :: seen) rest := by
  have hfew : ¬ 3 ≤ run := by omega
  rcases escapeChar_cases c with ⟨heq, hplain, hbackslash⟩ | ⟨code, heq, hspells⟩
  · have hcarriage : c ≠ '\r' := ne_of_apply hplain rfl
    rw [heq]
    simp [readMultiBasic, hquote, hfew, hbackslash, hcarriage, hplain]
  · rw [heq, ← readMultiBasic_escape hspells]
    simp [readMultiBasic, hfew]

theorem ne_of_stops_isQuote (h : Stops isQuote (c :: rest)) : c ≠ '"' ∧ c ≠ '\'' := by
  simpa [isQuote] using h

/-- The quotes that close a string are the last three of at most five. -/
theorem readMultiBasic_close (hrun : run ≤ 2) (hrest : Stops isQuote rest) :
    readMultiBasic (.text run) seen ('"' :: '"' :: '"' :: rest) = some (seen.reverse, rest) := by
  obtain rfl | rfl | rfl : run = 0 ∨ run = 1 ∨ run = 2 := by omega
  -- Behind fewer than five the next character tells that there are no more.
  · cases rest with
    | nil => rfl
    | cons c rest => simp [readMultiBasic, ne_of_stops_isQuote hrest]
  · cases rest with
    | nil => rfl
    | cons c rest => simp [readMultiBasic, ne_of_stops_isQuote hrest]
  · rfl

/-- A multi-line basic string is read up to the quotes that close it. -/
theorem readMultiBasic_multiBasicBody (hrun : run ≤ 2) (hrest : Stops isQuote rest) :
    readMultiBasic (.text run) seen (multiBasicBody run cs ++ '"' :: '"' :: '"' :: rest)
      = some (seen.reverse ++ cs, rest) := by
  induction cs generalizing run seen with
  | nil => simp [multiBasicBody, readMultiBasic_close hrun hrest]
  | cons c cs ih =>
    have htail : ∀ {run}, run ≤ 2 →
        readMultiBasic (.text run) (c :: seen) (multiBasicBody run cs ++ '"' :: '"' :: '"' :: rest)
          = some (seen.reverse ++ c :: cs, rest) := fun hrun => by
      rw [ih hrun, List.reverse_cons, List.append_assoc]; rfl
    have hnone : 0 ≤ 2 := by decide
    rw [multiBasicBody]
    split
    · next hquote =>
      subst hquote
      -- The third quote in a row is escaped, so there are never more than two in front.
      split
      · next htwo =>
        rw [← htail hnone, htwo]
        rfl
      · next htwo =>
        have hfour : run ≠ 4 := by omega
        rw [← htail (by omega : run + 1 ≤ 2)]
        simp [readMultiBasic, hfour]
    split
    · next hquote hnewline =>
      subst hnewline
      have hfew : ¬ 3 ≤ run := by omega
      rw [← htail hnone]
      simp [readMultiBasic, hfew]
    · next hquote _ =>
      rw [List.append_assoc, readMultiBasic_escapeChar hquote hrun, htail hnone]

theorem readMultiLiteral_close (hrun : run ≤ 2) (hrest : Stops isQuote rest) :
    readMultiLiteral run false seen ('\'' :: '\'' :: '\'' :: rest) = some (seen.reverse, rest) := by
  obtain rfl | rfl | rfl : run = 0 ∨ run = 1 ∨ run = 2 := by omega
  · cases rest with
    | nil => rfl
    | cons c rest => simp [readMultiLiteral, ne_of_stops_isQuote hrest]
  · cases rest with
    | nil => rfl
    | cons c rest => simp [readMultiLiteral, ne_of_stops_isQuote hrest]
  · rfl

/-- A multi-line literal string is read up to the quotes that close it. -/
theorem readMultiLiteral_append (hrun : run ≤ 2) (hcontrol : ∀ c ∈ cs, isControl c = false)
    (htriple : hasTriple '\'' run cs = false) (hrest : Stops isQuote rest) :
    readMultiLiteral run false seen (cs ++ '\'' :: '\'' :: '\'' :: rest)
      = some (seen.reverse ++ cs, rest) := by
  induction cs generalizing run seen with
  | nil => simp [readMultiLiteral_close hrun hrest]
  | cons c cs ih =>
    have hcs : ∀ c ∈ cs, isControl c = false := fun c hc => hcontrol c (List.mem_cons_of_mem _ hc)
    have hc : isControl c = false := hcontrol c List.mem_cons_self
    have htail : ∀ {run}, run ≤ 2 → hasTriple '\'' run cs = false →
        readMultiLiteral run false (c :: seen) (cs ++ '\'' :: '\'' :: '\'' :: rest)
          = some (seen.reverse ++ c :: cs, rest) := fun hrun htriple => by
      rw [ih hrun hcs htriple, List.reverse_cons, List.append_assoc]; rfl
    rw [hasTriple] at htriple
    by_cases hquote : c = '\''
    · simp only [hquote, if_true, Bool.or_eq_false_iff, decide_eq_false_iff_not] at htriple
      have hfour : run ≠ 4 := by omega
      rw [← htail (by omega : run + 1 ≤ 2) htriple.2]
      simp [readMultiLiteral, hquote, hfour]
    · rw [if_neg hquote] at htriple
      have hfew : ¬ 3 ≤ run := by omega
      have hcarriage : c ≠ '\r' := by
        rintro rfl
        exact absurd hc (by decide)
      have hplain : isPlain c = true ∨ c = '\n' := by
        rw [isPlain_iff]
        tauto
      rw [← htail (Nat.zero_le 2) htriple]
      simp [readMultiLiteral, hquote, hfew, hcarriage, hplain]

/-! ### Any form -/

theorem of_eq_literal (h : QuoteForm.of cs = .literal) :
    ∀ c ∈ cs, isPlain c = true ∧ c ≠ '\'' := by
  have hcond : (!cs.any isControl && !cs.contains '\n' && !cs.contains '\'') = true := by
    unfold QuoteForm.of at h
    grind
  simp only [Bool.and_eq_true, Bool.not_eq_true', List.any_eq_false, List.contains_eq_mem,
    decide_eq_false_iff_not] at hcond
  obtain ⟨⟨hcontrol, hnewline⟩, hquote⟩ := hcond
  intro c hc
  have hplain : isPlain c = true :=
    isPlain_iff.mpr ⟨by simpa using hcontrol c hc, fun h => hnewline (h ▸ hc)⟩
  exact ⟨hplain, fun h => hquote (h ▸ hc)⟩

theorem of_eq_multiLiteral (h : QuoteForm.of cs = .multiLiteral) :
    (∀ c ∈ cs, isControl c = false) ∧ hasTriple '\'' 0 cs = false := by
  have hcond : (!cs.any isControl && !hasTriple '\'' 0 cs) = true := by
    unfold QuoteForm.of at h
    grind
  simpa using hcond

/-- A character that can begin a line end. -/
def opensLineEnd (c : Char) : Bool := c = '\n' || c = '\r'

theorem opensLineEnd_of_isPlain (h : isPlain c = true) : opensLineEnd c = false := by
  rw [opensLineEnd, Bool.or_eq_false_iff, decide_eq_false_iff_not, decide_eq_false_iff_not]
  exact ⟨ne_of_apply h rfl, ne_of_apply h rfl⟩

/-- The line end in front of a string with line ends is dropped. A string without them begins with
    nothing that could be taken for one. -/
theorem skipLineEnd_opening {body : List Char}
    (h : '\n' ∉ cs → Stops opensLineEnd body) :
    skipLineEnd ((if cs.contains '\n' then ['\n'] else []) ++ body) = body := by
  split
  · rfl
  · next hnone =>
    have hstops := h (by simpa using hnone)
    cases body with
    | nil => rfl
    | cons c body =>
      obtain ⟨hnewline, hcarriage⟩ : c ≠ '\n' ∧ c ≠ '\r' := by simpa [opensLineEnd] using hstops
      simp [skipLineEnd, hnewline, hcarriage]

theorem readQuoted_basic (h : ∀ more, cs ≠ '"' :: '"' :: more) :
    readQuoted ('"' :: cs) = readBasic none [] cs := by
  unfold readQuoted
  split
  · next heq => exact absurd (List.cons.inj heq).2 (h _)
  · next heq => rw [(List.cons.inj heq).2]
  · next heq => exact absurd (List.cons.inj heq).1 (by decide)
  · next heq => exact absurd (List.cons.inj heq).1 (by decide)
  · next hbasic _ _ => exact absurd rfl (hbasic cs)

theorem readQuoted_literal (h : ∀ more, cs ≠ '\'' :: '\'' :: more) :
    readQuoted ('\'' :: cs) = readLiteral [] cs := by
  unfold readQuoted
  split
  · next heq => exact absurd (List.cons.inj heq).1 (by decide)
  · next heq => exact absurd (List.cons.inj heq).1 (by decide)
  · next heq => exact absurd (List.cons.inj heq).2 (h _)
  · next heq => rw [(List.cons.inj heq).2]
  · next hliteral => exact absurd rfl (hliteral cs)

/-! ### Where the forms begin -/

/-- A character that is written begins with itself or a backslash. -/
theorem escapeChar_eq_cons (c : Char) :
    ∃ d tail, escapeChar c = d :: tail ∧ isPlain d = true ∧ (d = c ∨ d = '\\') := by
  rcases escapeChar_cases c with ⟨heq, hplain, -⟩ | ⟨code, heq, -⟩
  · exact ⟨c, [], heq, hplain, Or.inl rfl⟩
  · exact ⟨'\\', code, heq, rfl, Or.inr rfl⟩

/-- A basic string does not begin with three quotes. -/
theorem basicBody_ne (hrest : Stops isQuote rest) (more : List Char) :
    basicBody cs ++ '"' :: rest ≠ '"' :: '"' :: more := by
  intro heq
  cases cs with
  | nil =>
    obtain rfl := (List.cons.inj heq).2
    exact (ne_of_stops_isQuote hrest).1 rfl
  | cons c cs =>
    rw [basicBody, List.flatMap_cons] at heq
    split at heq
    · exact absurd (List.cons.inj heq).1 (by decide)
    · next hquote =>
      obtain ⟨d, tail, hhead, -, hd⟩ := escapeChar_eq_cons c
      rw [hhead] at heq
      obtain rfl := (List.cons.inj heq).1
      rcases hd with hd | hd
      · exact hquote hd.symm
      · exact absurd hd (by decide)

/-- A literal string does not begin with three quotes. -/
theorem literal_ne (h : ∀ c ∈ cs, isPlain c = true ∧ c ≠ '\'') (hrest : Stops isQuote rest)
    (more : List Char) : cs ++ '\'' :: rest ≠ '\'' :: '\'' :: more := by
  intro heq
  cases cs with
  | nil =>
    obtain rfl := (List.cons.inj heq).2
    exact (ne_of_stops_isQuote hrest).2 rfl
  | cons c cs => exact (h c List.mem_cons_self).2 (List.cons.inj heq).1

theorem stops_multiBasicBody (h : '\n' ∉ cs) :
    Stops opensLineEnd (multiBasicBody 0 cs ++ '"' :: rest) := by
  cases cs with
  | nil => exact stops_cons.mpr rfl
  | cons c cs =>
    have hnewline : c ≠ '\n' := fun hc => h (hc ▸ List.mem_cons_self)
    rw [multiBasicBody, if_neg hnewline]
    split
    · exact stops_cons.mpr rfl
    · obtain ⟨d, tail, hhead, hplain, -⟩ := escapeChar_eq_cons c
      rw [hhead]
      exact stops_cons.mpr (opensLineEnd_of_isPlain hplain)

theorem stops_multiLiteral (h : '\n' ∉ cs) (hcontrol : ∀ c ∈ cs, isControl c = false) :
    Stops opensLineEnd (cs ++ '\'' :: rest) := by
  cases cs with
  | nil => exact stops_cons.mpr rfl
  | cons c cs =>
    have hnewline : c ≠ '\n' := fun hc => h (hc ▸ List.mem_cons_self)
    have hplain : isPlain c = true := isPlain_iff.mpr ⟨hcontrol c List.mem_cons_self, hnewline⟩
    exact stops_cons.mpr (opensLineEnd_of_isPlain hplain)

/-- **Strings.** A string is read as it was written, if no quote stands behind it. -/
theorem readQuoted_quote (cs : List Char) (hrest : Stops isQuote rest) :
    readQuoted (quote cs ++ rest) = some (cs, rest) := by
  unfold quote
  cases hform : QuoteForm.of cs with
  | basic =>
    show readQuoted ('"' :: (basicBody cs ++ ['"'] ++ rest)) = _
    rw [List.append_assoc, List.singleton_append, readQuoted_basic (basicBody_ne hrest)]
    exact readBasic_basicBody
  | literal =>
    have hliteral := of_eq_literal hform
    show readQuoted ('\'' :: (cs ++ ['\''] ++ rest)) = _
    rw [List.append_assoc, List.singleton_append, readQuoted_literal (literal_ne hliteral hrest)]
    exact readLiteral_append hliteral
  | multiBasic =>
    show readMultiBasic (.text 0) [] (skipLineEnd (_ ++ multiBasicBody 0 cs ++ _ ++ rest)) = _
    simp only [List.append_assoc, List.cons_append, List.nil_append]
    rw [skipLineEnd_opening stops_multiBasicBody]
    exact readMultiBasic_multiBasicBody (Nat.zero_le 2) hrest
  | multiLiteral =>
    obtain ⟨hcontrol, htriple⟩ := of_eq_multiLiteral hform
    show readMultiLiteral 0 false [] (skipLineEnd (_ ++ cs ++ _ ++ rest)) = _
    simp only [List.append_assoc, List.cons_append, List.nil_append]
    rw [skipLineEnd_opening fun h => stops_multiLiteral h hcontrol]
    exact readMultiLiteral_append (Nat.zero_le 2) hcontrol htriple hrest

end DnsResolver.Toml
