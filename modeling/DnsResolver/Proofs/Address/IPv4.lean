import DnsResolver.Address.IPv4
import DnsResolver.Proofs.Text.Front

namespace DnsResolver.IPv4

/-!
# IPv4 addresses in a text

* `scan_chars` — a printed address is read off the front of a text.
* `scan_eq_none` — a text in which no dot follows the first digits does not start with an address.
-/

open Text (Stops stops_cons)

variable {cs rest : List Char}

/-- A printed part of an address is read, unless digits follow it. -/
theorem scanPart_digits (octet : UInt8) (hrest : Stops Char.isDigit rest) :
    scanPart (Text.digits octet.toNat ++ rest) = some (octet, rest) := by
  have hlt := octet.toNat_lt
  have hlength : (Text.digits octet.toNat).length ≤ 3 :=
    (Nat.length_toDigits_le_iff (by decide) (by decide)).mpr (by omega)
  have hvalue : Nat.ofDigitChars 10 (Text.digits octet.toNat) 0 = octet.toNat :=
    Nat.ofDigitChars_ten_toDigits
  -- A zero in front would be the whole number.
  have hzero : ¬ (1 < (Text.digits octet.toNat).length
      ∧ (Text.digits octet.toNat).head? = some '0') := by
    rintro ⟨hlong, hhead⟩
    rw [(Text.plain_digits octet.toNat).2 hhead] at hlong
    exact absurd hlong (by decide)
  unfold scanPart
  rw [Text.span_append (fun c hc => Text.isDigit_of_mem_digits hc) hrest]
  simp only [hvalue]
  rw [if_neg]
  · rw [UInt8.ofNat_toNat]
  · simp only [Bool.or_eq_true, Bool.and_eq_true, decide_eq_true_eq, List.isEmpty_iff, beq_iff_eq]
    rintro (((hnil | hlong) | hpadded) | hlarge)
    · exact Text.digits_ne_nil _ hnil
    · omega
    · exact hzero hpadded
    · omega

theorem stops_dot (cs : List Char) : Stops Char.isDigit ('.' :: cs) := stops_cons.mpr rfl

/-- A printed address is read, unless digits follow it. -/
theorem scan_chars (ip : IPv4) (hrest : Stops Char.isDigit rest) :
    scan (ip.chars ++ rest) = some (ip, rest) := by
  obtain ⟨a, b, c, d⟩ := ip
  have hchars : chars ⟨a, b, c, d⟩ ++ rest
      = Text.digits a.toNat ++ '.' :: (Text.digits b.toNat ++ '.' :: (Text.digits c.toNat
        ++ '.' :: (Text.digits d.toNat ++ rest))) := by
    simp [chars, octets, List.intercalate]
  have hdotPart : ∀ (octet : UInt8) {rest : List Char}, Stops Char.isDigit rest →
      scanDotPart ('.' :: (Text.digits octet.toNat ++ rest)) = some (octet, rest) :=
    fun octet _ h => scanPart_digits octet h
  rw [hchars, scan]
  simp only [scanPart_digits a (stops_dot _), hdotPart b (stops_dot _), hdotPart c (stops_dot _),
    hdotPart d hrest, Option.bind_eq_bind, Option.bind_some]
  rfl

/-- An address has a dot behind its first digits. -/
theorem scan_eq_none (h : (cs.dropWhile Char.isDigit).head? ≠ some '.') : scan cs = none := by
  have hpart : ∀ octet rest, scanPart cs = some (octet, rest) → rest = cs.dropWhile Char.isDigit := by
    intro octet rest hscan
    unfold scanPart at hscan
    rw [List.span_eq_takeWhile_dropWhile] at hscan
    simp only at hscan
    split at hscan
    · exact absurd hscan (by simp)
    · exact (congrArg Prod.snd (Option.some.inj hscan)).symm
  rw [scan]
  cases hscan : scanPart cs with
  | none => rfl
  | some found =>
    obtain ⟨octet, rest⟩ := found
    obtain rfl := hpart octet rest hscan
    have hdot : scanDotPart (cs.dropWhile Char.isDigit) = none := by
      unfold scanDotPart
      split
      · next heq =>
        rw [heq] at h
        exact absurd rfl h
      · rfl
    simp only [Option.bind_eq_bind, Option.bind_some, hdot, Option.bind_none]

end DnsResolver.IPv4
