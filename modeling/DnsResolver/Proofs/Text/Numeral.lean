import DnsResolver.Proofs.Name.Folded
import DnsResolver.Text.Numeral
import Mathlib.Data.List.Induction

namespace DnsResolver.Text

/-!
# What numerals spell

A numeral that is read is the printed number, apart from what may stand in front of it: a plus sign
and zeros.  A digit of base sixteen in lower case is the only one for its value.

* `Padded`, `numeral?_eq_some_iff` — which numerals are read as a number.
* `eq_digits_of_padded`, `plain_digits` — without anything in front, it is the printed number.
* `hexDigits_of_lt`, `hexValue?_eq_some_iff` — single digits of base sixteen.
-/

variable {n limit : Nat} {cs : List Char} {c : Char}

/-! ### Decimal numerals -/

/-- The printed number, behind zeros and a plus sign that may stand in front of them. -/
def Padded (n : Nat) (cs : List Char) : Prop :=
  ∃ sign zeros, (sign = [] ∨ sign = ['+']) ∧ cs = sign ++ List.replicate zeros '0' ++ digits n

/-- That a text starts with no plus sign, and with no zero unless it is just that. -/
def Plain (cs : List Char) : Prop := cs.head? ≠ some '+' ∧ (cs.head? = some '0' → cs = ['0'])

instance (cs : List Char) : Decidable (Plain cs) :=
  inferInstanceAs (Decidable (cs.head? ≠ some '+' ∧ (cs.head? = some '0' → cs = ['0'])))

theorem padded_digits (n : Nat) : Padded n (digits n) := ⟨[], 0, Or.inl rfl, rfl⟩

theorem digits_ne_nil (n : Nat) : digits n ≠ [] := Nat.toDigits_ne_nil

theorem isDigit_of_mem_digits (h : c ∈ digits n) : c.isDigit = true :=
  Nat.isDigit_of_mem_toDigits (by decide) (by decide) h

theorem isDigit_of_mem_zeros_append {zeros : Nat} (h : c ∈ List.replicate zeros '0' ++ digits n) :
    c.isDigit = true := by
  rcases List.mem_append.mp h with hzero | hdigit
  · rw [List.eq_of_mem_replicate hzero]
    rfl
  · exact isDigit_of_mem_digits hdigit

theorem eq_plus_or_isDigit_of_mem (h : Padded n cs) (hc : c ∈ cs) : c = '+' ∨ c.isDigit = true := by
  obtain ⟨sign, zeros, hsign, rfl⟩ := h
  rw [List.append_assoc] at hc
  rcases List.mem_append.mp hc with hc | hc
  · rcases hsign with rfl | rfl
    · exact absurd hc List.not_mem_nil
    · exact Or.inl (List.mem_singleton.mp hc)
  · exact Or.inr (isDigit_of_mem_zeros_append hc)

theorem eq_digitChar_of_isDigit (h : c.isDigit = true) :
    c.toNat - 48 < 10 ∧ (c.toNat - 48).digitChar = c := by
  obtain ⟨hlow, hhigh⟩ : 48 ≤ c.toNat ∧ c.toNat ≤ 57 := by
    simpa [Char.isDigit, UInt32.le_iff_toNat_le] using h
  have hlt : c.toNat - 48 < 10 := by omega
  refine ⟨hlt, Char.toNat_inj.mp ?_⟩
  rw [Nat.toNat_digitChar_of_lt_ten hlt]
  omega

/-- A digit is the printed form of its value. -/
theorem digits_of_isDigit (h : c.isDigit = true) : digits (c.toNat - 48) = [c] := by
  obtain ⟨hlt, hchar⟩ := eq_digitChar_of_isDigit h
  rw [digits, Nat.toDigits_of_lt_base hlt, hchar]

/-- Digits spell the number that is printed as them, apart from zeros in front. -/
theorem zeros_append_digits (hne : cs ≠ []) (hdigits : ∀ c ∈ cs, c.isDigit = true) :
    ∃ zeros, cs = List.replicate zeros '0' ++ digits (Nat.ofDigitChars 10 cs 0) := by
  -- Printing adds the last digit behind the others, so the induction is from the back.
  induction cs using List.reverseRecOn with
  | nil => exact absurd rfl hne
  | append_singleton front c ih =>
    have hdigit := hdigits c (by simp)
    have hlast := digits_of_isDigit hdigit
    have hvalue : Nat.ofDigitChars 10 (front ++ [c]) 0
        = 10 * Nat.ofDigitChars 10 front 0 + (c.toNat - 48) := by
      rw [Nat.ofDigitChars_append, Nat.ofDigitChars_cons, Nat.ofDigitChars_nil]
      rfl
    rw [hvalue]
    by_cases hfront : front = []
    · subst hfront
      exact ⟨0, by rw [Nat.ofDigitChars_nil, Nat.mul_zero, Nat.zero_add, hlast]; rfl⟩
    · obtain ⟨zeros, hzeros⟩ := ih hfront fun c hc => hdigits c (by simp [hc])
      rcases Nat.eq_zero_or_pos (Nat.ofDigitChars 10 front 0) with hnought | hpos
      · -- The zero that is in front of the last digit is one more to pass over.
        refine ⟨zeros + 1, ?_⟩
        rw [hnought, Nat.mul_zero, Nat.zero_add, hlast, List.replicate_succ']
        rw [hnought] at hzeros
        conv => lhs; rw [hzeros]
        rfl
      · refine ⟨zeros, ?_⟩
        have hlonger : digits (10 * Nat.ofDigitChars 10 front 0 + (c.toNat - 48))
            = digits (Nat.ofDigitChars 10 front 0) ++ [c] := by
          rw [← hlast]
          exact (Nat.toDigits_append_toDigits (by decide) hpos (eq_digitChar_of_isDigit hdigit).1).symm
        rw [hlonger, ← List.append_assoc, ← hzeros]

theorem decimal?_eq_some_iff :
    decimal? cs = some n ↔ ∃ zeros, cs = List.replicate zeros '0' ++ digits n := by
  constructor
  · intro h
    unfold decimal? at h
    split at h
    · exact absurd h (by simp)
    · next hdigits =>
      obtain rfl := Option.some.inj h
      obtain ⟨hne, hall⟩ : cs ≠ [] ∧ ∀ c ∈ cs, c.isDigit = true := by simpa using hdigits
      exact zeros_append_digits hne hall
  · rintro ⟨zeros, rfl⟩
    have hall : (List.replicate zeros '0' ++ digits n).all Char.isDigit = true :=
      List.all_eq_true.mpr fun c hc => isDigit_of_mem_zeros_append hc
    have hne : (List.replicate zeros '0' ++ digits n).isEmpty = false := by
      simp [digits_ne_nil]
    rw [decimal?, hne, hall, Nat.ofDigitChars_append, Nat.ofDigitChars_replicate_zero, Nat.mul_zero]
    exact congrArg some Nat.ofDigitChars_ten_toDigits

/-- **Numerals.** A numeral is read as a number within the limit if it is the printed number, with
    a plus sign and zeros at most in front of it. -/
theorem numeral?_eq_some_iff : numeral? limit cs = some n ↔ n ≤ limit ∧ Padded n cs := by
  have hunsigned : ∀ {ds : List Char}, (decimal? ds).filter (· ≤ limit) = some n
      ↔ n ≤ limit ∧ ∃ zeros, ds = List.replicate zeros '0' ++ digits n := fun {ds} => by
    rw [Option.filter_eq_some_iff, decimal?_eq_some_iff, and_comm, decide_eq_true_iff]
  -- A printed number does not start with a plus sign, so a plus sign is not part of it.
  have hplus : ∀ {zeros rest}, List.replicate zeros '0' ++ digits n ≠ '+' :: rest := by
    intro zeros rest h
    have hmem : '+' ∈ List.replicate zeros '0' ++ digits n := h ▸ List.mem_cons_self
    exact absurd (isDigit_of_mem_zeros_append hmem) (by decide)
  unfold numeral?
  split
  · next rest =>
    refine hunsigned.trans (and_congr_right fun _ => ⟨?_, ?_⟩)
    · rintro ⟨zeros, rfl⟩
      exact ⟨['+'], zeros, Or.inr rfl, rfl⟩
    · rintro ⟨sign, zeros, rfl | rfl, h⟩
      · exact absurd h.symm hplus
      · exact ⟨zeros, (List.cons.inj h).2⟩
  · next hsign =>
    refine hunsigned.trans (and_congr_right fun _ => ⟨?_, ?_⟩)
    · rintro ⟨zeros, h⟩
      exact ⟨[], zeros, Or.inl rfl, h⟩
    · rintro ⟨sign, zeros, rfl | rfl, h⟩
      · exact ⟨zeros, h⟩
      · exact absurd h (hsign _)

/-- With nothing in front, a numeral is the printed number. -/
theorem eq_digits_of_padded (h : Padded n cs) (hplain : Plain cs) : cs = digits n := by
  obtain ⟨sign, zeros, rfl | rfl, rfl⟩ := h
  · cases zeros with
    | zero => rfl
    | succ zeros =>
      have hone : '0' :: (List.replicate zeros '0' ++ digits n) = ['0'] := hplain.2 rfl
      have hnil : List.replicate zeros '0' ++ digits n = [] := (List.cons.inj hone).2
      exact absurd (List.append_eq_nil_iff.mp hnil).2 (digits_ne_nil n)
  · exact absurd rfl hplain.1

/-- A printed number has nothing in front of it. -/
theorem plain_digits (n : Nat) : Plain (digits n) := by
  constructor
  · intro hplus
    exact absurd (isDigit_of_mem_digits (List.mem_of_head? hplus)) (by decide)
  · intro hzero
    obtain ⟨rest, hrest⟩ := List.head?_eq_some_iff.mp hzero
    by_cases hnil : rest = []
    · rw [hrest, hnil]
    · -- The digits behind the zero spell the same number, but there are too few of them.
      have hvalue : Nat.ofDigitChars 10 rest 0 = n := by
        have hread := congrArg (fun cs => Nat.ofDigitChars 10 cs 0) hrest
        simp only [digits, Nat.ofDigitChars_ten_toDigits, Nat.ofDigitChars_cons] at hread
        exact hread.symm
      obtain ⟨zeros, hzeros⟩ := zeros_append_digits hnil fun c hc =>
        isDigit_of_mem_digits (hrest ▸ List.mem_cons_of_mem _ hc)
      have hlength := congrArg List.length hzeros
      rw [hvalue, hrest, List.length_append, List.length_cons] at hlength
      omega

/-! ### Digits of base sixteen -/

theorem hexDigits_of_lt (h : n < 16) : hexDigits n = [n.digitChar] := Nat.toDigits_of_lt_base h

/-- A character in lower case has at most one value as a digit of base sixteen, and is the digit
    that is printed for it. -/
theorem hexValue?_eq_some_iff (hlower : c.toLower = c) :
    hexValue? c = some n ↔ n < 16 ∧ [c] = hexDigits n := by
  have hprinted : ∀ d, d < 16 →
      d.digitChar.toNat = if d < 10 then d + 48 else d + 87 := by decide
  have hread : ∀ d, d < 16 → hexValue? d.digitChar = some d := by decide
  constructor
  · intro h
    have hdigit : c.isDigit = true ↔ 48 ≤ c.toNat ∧ c.toNat ≤ 57 := by
      simp [Char.isDigit, UInt32.le_iff_toNat_le]
    have hupper := toNat_toLower c
    rw [hlower] at hupper
    unfold hexValue? at h
    -- Of the three ranges of characters that are read, lower case leaves two.
    have hvalue : n < 16 ∧ c.toNat = if n < 10 then n + 48 else n + 87 := by
      grind
    rw [hexDigits_of_lt hvalue.1]
    refine ⟨hvalue.1, congrArg (fun c => [c]) (Char.toNat_inj.mp ?_)⟩
    rw [hprinted n hvalue.1, hvalue.2]
  · rintro ⟨hlt, hsame⟩
    rw [hexDigits_of_lt hlt] at hsame
    rw [(List.cons.inj hsame).1, hread n hlt]

end DnsResolver.Text
