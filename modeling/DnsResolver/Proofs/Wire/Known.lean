import DnsResolver.Wire.BigEndian

namespace DnsResolver

/-!
# Octets of which some are known

While a message is written some of its octets are still open, and a step that reads a message
looks at some of its octets only.  Both are said with a partial view of the octets.

* `Known.Within` — one view has everything that another one has.
* `Known.Holds` — a run of octets stands at an offset.
* `Known.Holds.extract` — what a message holds is what reading cuts out of it.
-/

/-- The octets that are known, by their offsets. -/
abbrev Known := Nat → Option UInt8

namespace Known

/-- All octets of a message. -/
def of (octets : Octets) : Known := fun i => octets[i]?

/-- What is known in front of an offset. -/
def below (known : Known) (bound : Nat) : Known := fun i => if i < bound then known i else none

/-- Everything that `a` knows is known to `b`. -/
def Within (a b : Known) : Prop := ∀ i octet, a i = some octet → b i = some octet

/-- The octets from an offset on start with the given ones. -/
def Holds (known : Known) (pos : Nat) (octets : List UInt8) : Prop :=
  ∀ i octet, octets[i]? = some octet → known (pos + i) = some octet

variable {a b c known : Known} {pos : Nat}

theorem Within.trans (hab : Within a b) (hbc : Within b c) : Within a c :=
  fun i octet h => hbc i octet (hab i octet h)

theorem below_below {m n : Nat} (h : m ≤ n) (known : Known) :
    Within (known.below m) (known.below n) := by
  intro i octet hi
  unfold below at hi ⊢
  by_cases hm : i < m
  · rw [if_pos hm] at hi
    rw [if_pos (by omega), hi]
  · rw [if_neg hm] at hi
    exact absurd hi (by simp)

theorem below_eq {bound i : Nat} {octet : UInt8} (h : known i = some octet) (hi : i < bound) :
    known.below bound i = some octet := by
  rw [below, if_pos hi, h]

theorem Holds.mono {octets : List UInt8} (h : Holds a pos octets) (hab : Within a b) : Holds b pos octets :=
  fun i octet hi => hab _ _ (h i octet hi)

@[simp] theorem holds_nil : Holds known pos [] := by
  intro i octet h
  simp at h

theorem holds_cons {octet : UInt8} {rest : List UInt8} :
    Holds known pos (octet :: rest) ↔ known pos = some octet ∧ Holds known (pos + 1) rest := by
  -- An index into the run is one into its rest, moved by the first octet.
  constructor
  · intro h
    refine ⟨h 0 octet rfl, fun i o hi => ?_⟩
    rw [show pos + 1 + i = pos + (i + 1) by omega]
    exact h (i + 1) o (by simpa using hi)
  · rintro ⟨hhead, htail⟩ i o hi
    cases i with
    | zero =>
      rw [List.getElem?_cons_zero, Option.some.injEq] at hi
      rw [Nat.add_zero, hhead, hi]
    | succ i =>
      rw [show pos + (i + 1) = pos + 1 + i by omega]
      exact htail i o (by simpa using hi)

theorem holds_append {front back : List UInt8} (h : Holds known pos (front ++ back)) :
    Holds known pos front ∧ Holds known (pos + front.length) back := by
  refine ⟨fun i octet hi => h i octet ?_, fun i octet hi => ?_⟩
  · have hlt : i < front.length := (List.getElem?_eq_some_iff.mp hi).1
    rw [List.getElem?_append_left hlt, hi]
  · rw [Nat.add_assoc]
    refine h (front.length + i) octet ?_
    rw [List.getElem?_append_right (Nat.le_add_right _ _), Nat.add_sub_cancel_left, hi]

theorem Holds.below {octets : List UInt8} (h : Holds known pos octets) {bound : Nat}
    (hb : pos + octets.length ≤ bound) : Holds (known.below bound) pos octets := by
  intro i octet hi
  have hlt : i < octets.length := (List.getElem?_eq_some_iff.mp hi).1
  exact below_eq (h i octet hi) (by omega)

/-- What is known about a message is in it, as far as it goes. -/
theorem Holds.of_within {data : Octets} {octets : List UInt8} (h : Holds known pos octets)
    (hdata : Within (of data) known) (hsize : pos + octets.length ≤ data.size) :
    Holds (of data) pos octets := by
  intro i octet hi
  have hlt : i < octets.length := (List.getElem?_eq_some_iff.mp hi).1
  have hget : of data (pos + i) = some data[pos + i] := by simp [of]
  -- Both views know this octet, so they know the same one.
  have hval := (hdata _ _ hget).symm.trans (h i octet hi)
  rw [hget, hval]

/-- A message holds what is cut out of it. -/
theorem holds_extract (data : Octets) (pos stop : Nat) :
    Holds (of data) pos (data.extract pos stop).toList := by
  intro i octet hi
  rw [Array.getElem?_toList, Array.getElem?_extract] at hi
  split at hi
  · exact hi
  · exact absurd hi (by simp)

/-- Octets that a message holds lie inside of it and are what is cut out there. -/
theorem Holds.extract {data : Octets} {octets : List UInt8} (h : Holds (of data) pos octets)
    (hne : octets ≠ []) :
    pos + octets.length ≤ data.size
      ∧ data.extract pos (pos + octets.length) = octets.toArray := by
  have hlen : 0 < octets.length := List.length_pos_iff.mpr hne
  -- The message reaches as far as the last octet that it holds.
  have hlast := h (octets.length - 1) (octets[octets.length - 1]) (by simp)
  have hsize : pos + octets.length ≤ data.size := by
    have := (Array.getElem?_eq_some_iff.mp hlast).1
    omega
  refine ⟨hsize, ?_⟩
  apply Array.ext
  · simp
    omega
  · intro i hi hi'
    have hin : i < octets.length := by simpa using hi'
    have hget := h i octets[i] (by simp [hin])
    obtain ⟨_, hval⟩ := Array.getElem?_eq_some_iff.mp hget
    simpa using hval

end Known

end DnsResolver
