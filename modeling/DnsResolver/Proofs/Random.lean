import DnsResolver.Client.Session
import DnsResolver.Random
import Mathlib.Algebra.Order.Floor.Div

namespace DnsResolver

/-!
# Indices from the random generator

An index is the high half of a wide product.  So it is below its bound, whatever is drawn; and the
draws that are refused are those that would make some indices more likely than others.

* `Random.draw`, `Random.after` — the draws of a generator by their number.
* `Random.drawBelow_spec` — which draw an index comes from.
* `Random.nextIndex_lt` — an index is below its bound.
* `Random.exists_accepts_iff` — every index comes from as many draws as any other.
* `Environment.drawsBelow_of_random` — the generator keeps the range that a client expects.
-/

namespace Random

variable {bound : UInt64}

/-! ### Wide products -/

theorem wideProduct_fst_toNat (a b : UInt64) :
    (wideProduct a b).1.toNat = a.toNat * b.toNat / UInt64.size := by
  have hproduct : a.toNat * b.toNat < UInt64.size * UInt64.size :=
    Nat.mul_lt_mul'' a.toNat_lt_size b.toNat_lt_size
  exact Nat.mod_eq_of_lt (Nat.div_lt_of_lt_mul hproduct)

theorem wideProduct_snd_toNat (a b : UInt64) :
    (wideProduct a b).2.toNat = a.toNat * b.toNat % UInt64.size := rfl

/-- The high half of a product is below each factor that is not zero. -/
theorem wideProduct_fst_lt (hbound : 0 < bound) (bits : UInt64) :
    (wideProduct bits bound).1 < bound := by
  rw [UInt64.lt_iff_toNat_lt, wideProduct_fst_toNat]
  exact Nat.div_lt_of_lt_mul ((Nat.mul_lt_mul_right hbound).mpr bits.toNat_lt_size)

/-! ### The draws of an index -/

/-- A generator after a number of draws. -/
def after (random : Random) (i : Nat) : Random := (fun random => random.next.2)^[i] random

/-- Draw `i` of a generator. -/
def draw (random : Random) (i : Nat) : UInt64 := (random.after i).next.1

theorem after_succ (random : Random) (i : Nat) :
    random.after (i + 1) = random.next.2.after i :=
  Function.iterate_succ_apply _ i random

theorem draw_succ (random : Random) (i : Nat) :
    random.draw (i + 1) = random.next.2.draw i := by
  rw [draw, draw, after_succ]

/-- A draw that is refused leads to the next one. -/
theorem drawBelow_succ (bound least : UInt64) (retries : Nat) (random : Random) :
    drawBelow bound least (retries + 1) random
      = if (wideProduct random.next.1 bound).2 < least then
          drawBelow bound least retries random.next.2
        else ((wideProduct random.next.1 bound).1, random.next.2) := rfl

/-- An index comes from the first draw that is not refused, or from the last one that is made. The
    induction is on the draws that may still be refused. -/
theorem drawBelow_spec (bound least : UInt64) (retries : Nat) (random : Random) :
    ∃ made ≤ retries,
      (∀ i < made, (wideProduct (random.draw i) bound).2 < least)
      ∧ (made < retries → least ≤ (wideProduct (random.draw made) bound).2)
      ∧ drawBelow bound least retries random
        = ((wideProduct (random.draw made) bound).1, random.after (made + 1)) := by
  induction retries generalizing random with
  | zero => exact ⟨0, Nat.le_refl 0, by simp, by simp, rfl⟩
  | succ retries ih =>
    rw [drawBelow_succ]
    by_cases hrefused : (wideProduct random.next.1 bound).2 < least
    · rw [if_pos hrefused]
      obtain ⟨made, hmade, hearlier, hlast, hrun⟩ := ih random.next.2
      rw [← draw_succ, ← after_succ] at hrun
      refine ⟨made + 1, by omega, ?_, fun h => ?_, hrun⟩
      · rintro (_ | i) hi
        · exact hrefused
        · rw [draw_succ]
          exact hearlier i (by omega)
      · rw [draw_succ]
        exact hlast (by omega)
    · rw [if_neg hrefused]
      exact ⟨0, Nat.zero_le _, by simp, fun _ => UInt64.not_lt.mp hrefused, rfl⟩

theorem nextIndexWithin_lt (retries bound : Nat) (random : Random) :
    (nextIndexWithin retries bound random).1 < max bound 1 := by
  obtain ⟨made, -, -, -, hrun⟩ := drawBelow_spec (UInt64.ofNat (max bound 1))
    (threshold (UInt64.ofNat (max bound 1))) retries random
  simp only [nextIndexWithin, hrun]
  -- A bound that is a multiple of the size of a word counts as zero, and so does the index.
  rcases Nat.eq_zero_or_pos (UInt64.ofNat (max bound 1)).toNat with hzero | hpos
  · rw [wideProduct_fst_toNat, hzero, Nat.mul_zero, Nat.zero_div]
    omega
  · have hlt := UInt64.lt_iff_toNat_lt.mp
      (wideProduct_fst_lt (UInt64.lt_iff_toNat_lt.mpr hpos) (random.draw made))
    exact Nat.lt_of_lt_of_le hlt (Nat.mod_le _ _)

/-- **Range.** An index is below its bound; no bound counts as one. -/
theorem nextIndex_lt (bound : Nat) (random : Random) : (random.nextIndex bound).1 < max bound 1 :=
  nextIndexWithin_lt maxRetries bound random

/-! ### Fairness -/

/-- What a word is too long by for the bound to divide it. -/
theorem threshold_toNat (hbound : 0 < bound) :
    (threshold bound).toNat = UInt64.size % bound.toNat := by
  have hlt := bound.toNat_lt_size
  have hneg : (0 - bound).toNat = UInt64.size - bound.toNat := by
    rw [UInt64.toNat_sub, UInt64.toNat_zero, Nat.add_zero]
    exact Nat.mod_eq_of_lt (Nat.sub_lt (by decide) (UInt64.lt_iff_toNat_lt.mp hbound))
  rw [threshold, UInt64.toNat_mod, hneg, ← Nat.mod_eq_sub_mod hlt.le]

/-- A number is in a part of a given size, and so far behind its beginning. -/
private theorem part_iff {size : Nat} (hsize : 0 < size) (rest product index : Nat) :
    rest ≤ product % size ∧ product / size = index
      ↔ index * size + rest ≤ product ∧ product < (index + 1) * size := by
  have hsplit := Nat.div_add_mod' product size
  have hmod := Nat.mod_lt product hsize
  constructor
  · rintro ⟨hrest, rfl⟩
    rw [Nat.add_one_mul]
    omega
  · rintro ⟨hfrom, hto⟩
    have hindex : product / size = index := Nat.div_eq_of_lt_le (by omega) hto
    rw [hindex] at hsplit
    exact ⟨by omega, hindex⟩

/-- A draw leads to an index and is not refused when its product with the bound lies in the part of
    that number, past what is left over. -/
theorem accepts_iff_product (hbound : 0 < bound) (bits : UInt64) (index : Nat) :
    threshold bound ≤ (wideProduct bits bound).2 ∧ (wideProduct bits bound).1.toNat = index
      ↔ index * UInt64.size + UInt64.size % bound.toNat ≤ bits.toNat * bound.toNat
        ∧ bits.toNat * bound.toNat < (index + 1) * UInt64.size := by
  rw [UInt64.le_iff_toNat_le, threshold_toNat hbound, wideProduct_snd_toNat, wideProduct_fst_toNat]
  exact part_iff (by decide) _ _ _

/-- **Fairness.** The draws that lead to an index below the bound and are not refused follow one
    another, and there are as many of them for every index. -/
theorem exists_accepts_iff (hbound : 0 < bound) {index : Nat} (hindex : index < bound.toNat) :
    ∃ first, first + UInt64.size / bound.toNat ≤ UInt64.size
      ∧ ∀ bits : UInt64,
        threshold bound ≤ (wideProduct bits bound).2 ∧ (wideProduct bits bound).1.toNat = index
          ↔ first ≤ bits.toNat ∧ bits.toNat < first + UInt64.size / bound.toNat := by
  have hpos : 0 < bound.toNat := UInt64.lt_iff_toNat_lt.mp hbound
  have hword : bound.toNat * (UInt64.size / bound.toNat) + UInt64.size % bound.toNat = UInt64.size :=
    Nat.div_add_mod _ _
  -- The products are multiples of the bound, in a range as long as one of these multiples.
  let start := index * UInt64.size + UInt64.size % bound.toNat
  have hend : start + bound.toNat * (UInt64.size / bound.toNat) = (index + 1) * UInt64.size := by
    rw [Nat.add_one_mul]
    omega
  have hshift : (start + bound.toNat * (UInt64.size / bound.toNat)) ⌈/⌉ bound.toNat
      = start ⌈/⌉ bound.toNat + UInt64.size / bound.toNat := by
    rw [Nat.ceilDiv_eq_add_pred_div, Nat.ceilDiv_eq_add_pred_div, ← Nat.add_mul_div_left _ _ hpos]
    congr 1
    omega
  refine ⟨start ⌈/⌉ bound.toNat, ?_, fun bits => ?_⟩
  · rw [← hshift, hend, ceilDiv_le_iff_le_mul hpos]
    exact Nat.mul_le_mul_right _ hindex
  · have hto : bits.toNat < ((index + 1) * UInt64.size) ⌈/⌉ bound.toNat
        ↔ bound.toNat * bits.toNat < (index + 1) * UInt64.size :=
      lt_iff_lt_of_le_iff_le (ceilDiv_le_iff_le_mul hpos)
    rw [accepts_iff_product hbound, ← hshift, hend, hto, ceilDiv_le_iff_le_mul hpos,
      Nat.mul_comm bits.toNat]

end Random

/-- An environment that draws its indices from a generator keeps their range. -/
theorem Environment.drawsBelow_of_random {σ : Type} {environment : Environment σ}
    (h : ∀ bound world, ∃ random : Random,
      (environment.drawIndex bound world).1 = (random.nextIndex bound).1) :
    environment.DrawsBelow := by
  intro bound world hbound
  obtain ⟨random, hdraw⟩ := h bound world
  rw [hdraw]
  exact Nat.lt_of_lt_of_eq (Random.nextIndex_lt bound random) (Nat.max_eq_left hbound)

end DnsResolver
