namespace DnsResolver.Text

/-!
# Numerals

Decimal numerals as they occur in address text, type names and reverse names, and the
digits of base sixteen.

* `decimal?_digits` — a printed number reads back.
-/

/-- The value of a digit of base sixteen, in either case. -/
def hexValue? (c : Char) : Option Nat :=
  if c.isDigit then some (c.toNat - 48)
  else if 97 ≤ c.toNat ∧ c.toNat ≤ 102 then some (c.toNat - 87)
  else if 65 ≤ c.toNat ∧ c.toNat ≤ 70 then some (c.toNat - 55)
  else none

/-- The number that a run of digits of base sixteen spells, after `seen`. -/
def hexNumber (seen : Nat) (digits : List Char) : Nat :=
  digits.foldl (fun value c => value * 16 + (hexValue? c).getD 0) seen

/-- A text of one or more decimal digits. -/
def decimal? (cs : List Char) : Option Nat :=
  if cs.isEmpty || !cs.all Char.isDigit then none else some (Nat.ofDigitChars 10 cs 0)

/-- A decimal numeral of at most `limit`, with leading zeros and one leading plus sign
    allowed. -/
def numeral? (limit : Nat) (cs : List Char) : Option Nat :=
  let digits := match cs with
    | '+' :: rest => rest
    | _ => cs
  (decimal? digits).filter (· ≤ limit)

/-- The decimal digits of a number. -/
def digits (n : Nat) : List Char := Nat.toDigits 10 n

/-- The digits of base sixteen of a number, in lower case and without leading zeros. -/
def hexDigits (n : Nat) : List Char := Nat.toDigits 16 n

theorem decimal?_digits (n : Nat) : decimal? (digits n) = some n := by
  have all : (digits n).all Char.isDigit = true :=
    List.all_eq_true.mpr fun c h => Nat.isDigit_of_mem_toDigits (by decide) (by decide) h
  have nonempty : (digits n).isEmpty = false := by
    cases h : digits n with
    | nil => exact absurd h Nat.toDigits_ne_nil
    | cons => rfl
  rw [decimal?, all, nonempty]
  simp [digits]

end DnsResolver.Text
