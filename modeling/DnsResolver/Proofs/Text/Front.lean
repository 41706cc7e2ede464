import DnsResolver.Proofs.Text.Numeral
import DnsResolver.Text.Blank
import Mathlib.Data.List.TakeDrop

namespace DnsResolver.Text

/-!
# What is read off the front of a text

A run of characters is read up to the first one that is none of them.  So what was written is read
again when the text behind it does not go on with such a character.

* `Stops` — a text does not go on with characters of some kind.
* `span_append` — a run of characters in front of such a text.
* `trim_append` — the blanks around a text.
* `hexNumber_hexDigits` — a number in base sixteen reads back.
-/

variable {p : Char → Bool} {run rest cs : List Char} {c d : Char} {n : Nat}

/-! ### Characters told apart -/

theorem ne_of_apply (hc : p c = true) (hd : p d = false) : c ≠ d := by
  rintro rfl
  simp [hd] at hc

theorem notMem_of_apply (hc : p c = true) (hnone : cs.any p = false) : c ∉ cs :=
  fun hmem => List.any_eq_false.mp hnone c hmem hc

/-! ### Runs of characters -/

/-- A text does not start with a character that satisfies `p`. -/
def Stops (p : Char → Bool) (rest : List Char) : Prop := ∀ c, rest.head? = some c → p c = false

@[simp] theorem stops_nil : Stops p [] := fun _ h => absurd h (by simp)

@[simp] theorem stops_cons : Stops p (c :: rest) ↔ p c = false := by
  simp [Stops]

theorem takeWhile_of_stops (h : Stops p rest) : rest.takeWhile p = [] := by
  cases rest with
  | nil => rfl
  | cons c rest => rw [List.takeWhile_cons, stops_cons.mp h]; rfl

theorem dropWhile_of_stops (h : Stops p rest) : rest.dropWhile p = rest := by
  cases rest with
  | nil => rfl
  | cons c rest => rw [List.dropWhile_cons, stops_cons.mp h]; rfl

theorem takeWhile_append (hrun : ∀ c ∈ run, p c = true) (hrest : Stops p rest) :
    (run ++ rest).takeWhile p = run := by
  rw [List.takeWhile_append_of_pos hrun, takeWhile_of_stops hrest, List.append_nil]

theorem dropWhile_append (hrun : ∀ c ∈ run, p c = true) (hrest : Stops p rest) :
    (run ++ rest).dropWhile p = rest := by
  rw [List.dropWhile_append_of_pos hrun, dropWhile_of_stops hrest]

theorem span_append (hrun : ∀ c ∈ run, p c = true) (hrest : Stops p rest) :
    (run ++ rest).span p = (run, rest) := by
  rw [List.span_eq_takeWhile_dropWhile, takeWhile_append hrun hrest, dropWhile_append hrun hrest]

/-- Blanks around a text that neither starts nor ends with one are dropped. -/
theorem trim_append {before after : List Char} (hbefore : ∀ c ∈ before, isBlank c = true)
    (hafter : ∀ c ∈ after, isBlank c = true) (hne : cs ≠ []) (hfront : Stops isBlank cs)
    (hback : Stops isBlank cs.reverse) : trim (before ++ cs ++ after) = cs := by
  have hfront' : Stops isBlank (cs ++ after) := by
    obtain ⟨c, rest, rfl⟩ := List.exists_cons_of_ne_nil hne
    simpa using hfront
  have hafter' : ∀ c ∈ after.reverse, isBlank c = true :=
    fun c hc => hafter c (List.mem_reverse.mp hc)
  rw [trim, List.append_assoc, dropWhile_append hbefore hfront', List.reverse_append,
    dropWhile_append hafter' hback, List.reverse_reverse]

/-! ### Numbers in base sixteen -/

theorem hexValue?_digitChar (h : n < 16) : hexValue? n.digitChar = some n := by
  have hall : ∀ n < 16, hexValue? n.digitChar = some n := by decide
  exact hall n h

/-- A number that is too large for one digit ends in the digit of its remainder. -/
theorem hexDigits_of_le (h : 16 ≤ n) : hexDigits n = hexDigits (n / 16) ++ [(n % 16).digitChar] :=
  Nat.toDigits_of_base_le (by decide) h

/-- A printed number reads back. -/
theorem hexNumber_hexDigits (n : Nat) : hexNumber 0 (hexDigits n) = n := by
  induction n using Nat.strongRecOn with
  | ind n ih =>
    rcases Nat.lt_or_ge n 16 with hlt | hge
    · rw [hexDigits_of_lt hlt, hexNumber, List.foldl_cons, hexValue?_digitChar hlt]
      simp
    · have hlast : n % 16 < 16 := Nat.mod_lt n (by decide)
      have hfront : hexNumber 0 (hexDigits (n / 16)) = n / 16 := ih _ (by omega)
      rw [hexNumber] at hfront
      rw [hexDigits_of_le hge, hexNumber, List.foldl_append, hfront, List.foldl_cons,
        hexValue?_digitChar hlast]
      simp only [Option.getD_some, List.foldl_nil]
      omega

theorem hexDigits_ne_nil (n : Nat) : hexDigits n ≠ [] := Nat.toDigits_ne_nil

theorem isSome_hexValue?_of_mem (h : c ∈ hexDigits n) : (hexValue? c).isSome = true := by
  induction n using Nat.strongRecOn with
  | ind n ih =>
    rcases Nat.lt_or_ge n 16 with hlt | hge
    · rw [hexDigits_of_lt hlt, List.mem_singleton] at h
      rw [h, hexValue?_digitChar hlt]
      rfl
    · rw [hexDigits_of_le hge] at h
      rcases List.mem_append.mp h with hfront | hlast
      · exact ih _ (by omega) hfront
      · rw [List.mem_singleton.mp hlast, hexValue?_digitChar (Nat.mod_lt n (by decide))]
        rfl

end DnsResolver.Text
