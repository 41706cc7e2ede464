namespace DnsResolver

/-- A run of octets: a message, or a part of one. -/
abbrev Octets := Array UInt8

namespace Wire

/-!
# Numbers in network order

Numbers of two and four octets, the most significant octet first.

* `word_wordOctets`, `long_longOctets` — reading the written octets gives the number back.
-/

/-- The number of two octets. -/
def word (high low : UInt8) : UInt16 := UInt16.ofNat (high.toNat * 256 + low.toNat)

/-- The two octets of a number. -/
def wordOctets (n : UInt16) : UInt8 × UInt8 :=
  (UInt8.ofNat (n.toNat / 256), UInt8.ofNat n.toNat)

/-- The number of four octets. -/
def long (a b c d : UInt8) : UInt32 :=
  UInt32.ofNat (((a.toNat * 256 + b.toNat) * 256 + c.toNat) * 256 + d.toNat)

/-- The four octets of a number. -/
def longOctets (n : UInt32) : List UInt8 :=
  [UInt8.ofNat (n.toNat / 16777216), UInt8.ofNat (n.toNat / 65536), UInt8.ofNat (n.toNat / 256),
   UInt8.ofNat n.toNat]

theorem word_wordOctets (n : UInt16) : word (wordOctets n).1 (wordOctets n).2 = n := by
  have h := n.toNat_lt
  apply UInt16.toNat_inj.mp
  simp only [word, wordOctets, UInt16.toNat_ofNat', UInt8.toNat_ofNat']
  omega

theorem long_longOctets (n : UInt32) :
    ∃ a b c d, longOctets n = [a, b, c, d] ∧ long a b c d = n := by
  refine ⟨_, _, _, _, rfl, ?_⟩
  have h := n.toNat_lt
  apply UInt32.toNat_inj.mp
  simp only [long, UInt32.toNat_ofNat', UInt8.toNat_ofNat']
  omega

end Wire

end DnsResolver
