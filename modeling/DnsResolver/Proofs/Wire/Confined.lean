import DnsResolver.Proofs.Wire.Known
import DnsResolver.Wire.Reader

namespace DnsResolver

/-!
# Reading steps that depend only on what they consume

A successful step is *confined* when it looked at nothing behind the place where it ended.
Then the same octets in front of another rest give the same value, and a message that is cut
off in front of that place fails for want of octets, and in no other way.

* `Confined.bind`, `Confined.many` — confined steps one after the other are confined.
* `Confined.octets` and the numbers read from octets — the steps that look at octets are.
-/

namespace Reader

variable {α β : Type}

/-! ### Running steps -/

@[simp] theorem pure_apply (value : α) (data : Octets) (pos : Nat) :
    (pure value : Reader α) data pos = .ok value pos := rfl

theorem bind_apply (step : Reader α) (next : α → Reader β) (data : Octets) (pos : Nat) :
    (step >>= next) data pos
      = match step data pos with
        | .ok value reached => next value data reached
        | .error error reached => .error error reached := by
  show EStateM.bind (step data) (fun value => next value data) pos = _
  unfold EStateM.bind
  cases step data pos <;> rfl

/-- A sequence that succeeds ran both of its steps. -/
theorem bind_eq_ok {step : Reader α} {next : α → Reader β} {data : Octets} {pos stop : Nat}
    {result : β} (h : (step >>= next) data pos = .ok result stop) :
    ∃ value reached, step data pos = .ok value reached ∧ next value data reached = .ok result stop := by
  rw [bind_apply] at h
  cases hstep : step data pos with
  | ok value reached =>
    rw [hstep] at h
    exact ⟨value, reached, rfl, h⟩
  | error error reached =>
    rw [hstep] at h
    exact absurd h (by simp)

/-- A sequence that fails does so in its first step or behind it. -/
theorem bind_eq_error {step : Reader α} {next : α → Reader β} {data : Octets} {pos stop : Nat}
    {error : FormatError} (h : (step >>= next) data pos = .error error stop) :
    step data pos = .error error stop
      ∨ ∃ value reached, step data pos = .ok value reached
          ∧ next value data reached = .error error stop := by
  rw [bind_apply] at h
  cases hstep : step data pos with
  | ok value reached =>
    rw [hstep] at h
    exact Or.inr ⟨value, reached, rfl, h⟩
  | error error' reached =>
    rw [hstep] at h
    obtain ⟨rfl, rfl⟩ := EStateM.Result.error.inj h
    exact Or.inl rfl

/-- Octets are read when they are all there. -/
theorem octets_apply (length : Nat) (data : Octets) (pos : Nat) :
    Reader.octets length data pos
      = if offsetLimit ≤ pos + length then .error (.endOfStream pos) pos
        else if pos + length ≤ data.size then
          .ok (data.extract pos (pos + length)) (pos + length)
        else .error (.endOfStream (pos + length)) pos := by
  unfold Reader.octets sliceAt
  by_cases hlimit : offsetLimit ≤ pos + length
  · rw [if_pos hlimit, if_pos hlimit]
  by_cases hsize : pos + length ≤ data.size
  · rw [if_neg hlimit, if_neg hlimit, if_pos hsize, if_pos hsize]
  · rw [if_neg hlimit, if_neg hlimit, if_neg hsize, if_neg hsize]

theorem octets_eq_ok_iff {length : Nat} {data part : Octets} {pos stop : Nat} :
    Reader.octets length data pos = .ok part stop
      ↔ pos + length < offsetLimit ∧ pos + length ≤ data.size
        ∧ data.extract pos (pos + length) = part ∧ pos + length = stop := by
  rw [octets_apply]
  by_cases hlimit : offsetLimit ≤ pos + length
  · rw [if_pos hlimit]
    simp [Nat.not_lt.mpr hlimit]
  by_cases hsize : pos + length ≤ data.size
  · rw [if_neg hlimit, if_pos hsize]
    simp [Nat.not_le.mp hlimit, hsize]
  · rw [if_neg hlimit, if_neg hsize]
    simp [hsize]

theorem map_eq_bind (f : α → β) (step : Reader α) :
    f <$> step = step >>= fun value => pure (f value) := by
  funext data pos
  rw [bind_apply]
  show EStateM.map f (step data) pos = _
  unfold EStateM.map
  cases step data pos <;> rfl

/-! ### Confinement -/

/-- `data'` has the octets of `data` in front of `bound`, as far as it goes. -/
def Agrees (data data' : Octets) (bound : Nat) : Prop :=
  ∀ i, i < bound → i < data'.size → data'[i]? = data[i]?

theorem Agrees.mono {data data' : Octets} {m n : Nat} (h : Agrees data data' n) (hmn : m ≤ n) :
    Agrees data data' m :=
  fun i hi hsize => h i (by omega) hsize

theorem Agrees.below_within {data data' : Octets} {n : Nat} (h : Agrees data data' n)
    (hsize : n ≤ data'.size) : ((Known.of data).below n).Within (Known.of data') := by
  intro i octet hi
  by_cases hn : i < n
  · rw [Known.below, if_pos hn] at hi
    exact (h i hn (by omega)).trans hi
  · rw [Known.below, if_neg hn] at hi
    exact absurd hi (by simp)

/-- A message that is cut off in front of the bound is a part of the other one. -/
theorem Agrees.within {data data' : Octets} {n : Nat} (h : Agrees data data' n)
    (hcut : data'.size < n) : (Known.of data').Within (Known.of data) := by
  intro i octet hi
  have hsize := (Array.getElem?_eq_some_iff.mp hi).1
  exact (h i (by omega) hsize).symm.trans hi

/-- What it means that a step, which gives `value` and ends at `stop`, looked at nothing behind
    `stop`. -/
structure EndsAt (step : Reader α) (data : Octets) (pos : Nat) (value : α) (stop : Nat) : Prop where
  forward : pos ≤ stop
  inside : stop ≤ data.size
  again : ∀ data', Agrees data data' stop → stop ≤ data'.size → step data' pos = .ok value stop
  cut : ∀ data', Agrees data data' stop → pos ≤ data'.size → data'.size < stop →
    ∃ offset reached, step data' pos = .error (.endOfStream offset) reached

/-- A step that looks at nothing behind the place where it ends. -/
def Confined (step : Reader α) : Prop :=
  ∀ ⦃data : Octets⦄ ⦃pos : Nat⦄ ⦃value : α⦄ ⦃stop : Nat⦄, pos ≤ data.size →
    step data pos = .ok value stop → EndsAt step data pos value stop

namespace Confined

variable {step : Reader α} {next : α → Reader β}

theorem pure (value : α) : Confined (pure value : Reader α) := by
  intro data pos found stop hpos h
  obtain ⟨rfl, rfl⟩ : value = found ∧ pos = stop := by simpa using h
  exact ⟨Nat.le_refl _, hpos, fun _ _ _ => rfl, fun _ _ _ hcut => by omega⟩

/-- Two steps one after the other.  A message that is cut off fails in the first step or in the
    second, by where the cut is. -/
theorem bind (hstep : Confined step) (hnext : ∀ value, Confined (next value)) :
    Confined (step >>= next) := by
  intro data pos result stop hpos h
  obtain ⟨value, reached, hfirst, hsecond⟩ := bind_eq_ok h
  have hone := hstep hpos hfirst
  have htwo := hnext value hone.inside hsecond
  refine ⟨Nat.le_trans hone.forward htwo.forward, htwo.inside, ?_, ?_⟩
  · intro data' hagrees hsize
    have := htwo.forward
    rw [bind_apply, hone.again data' (hagrees.mono htwo.forward) (by omega)]
    exact htwo.again data' hagrees hsize
  · intro data' hagrees hpos' hcut
    rw [bind_apply]
    -- The cut is behind the first step, which then succeeds again, or inside of it.
    by_cases hreached : reached ≤ data'.size
    · rw [hone.again data' (hagrees.mono htwo.forward) hreached]
      exact htwo.cut data' hagrees hreached hcut
    · obtain ⟨offset, at', herror⟩ :=
        hone.cut data' (hagrees.mono htwo.forward) hpos' (by omega)
      exact ⟨offset, at', by rw [herror]⟩

theorem map (f : α → β) (hstep : Confined step) : Confined (f <$> step) := by
  rw [map_eq_bind]
  exact hstep.bind fun value => pure (f value)

/-- A step that never succeeds. -/
theorem fail (error : FormatError) : Confined (Reader.fail error : Reader α) := by
  intro data pos value stop _ h
  exact absurd h (by simp [Reader.fail])

theorem position : Confined Reader.position := by
  intro data pos found stop hpos h
  obtain ⟨rfl, rfl⟩ : pos = found ∧ pos = stop := by simpa [Reader.position] using h
  exact ⟨Nat.le_refl _, hpos, fun _ _ _ => rfl, fun _ _ _ hcut => by omega⟩

/-! ### The steps that look at octets -/

theorem octet : Confined Reader.octet := by
  intro data pos value stop _ h
  unfold Reader.octet octetAt at h
  cases hget : data[pos]? with
  | none =>
    rw [hget] at h
    exact absurd h (by simp)
  | some found =>
    rw [hget] at h
    obtain ⟨rfl, rfl⟩ : found = value ∧ pos + 1 = stop := by simpa using h
    have hsize := (Array.getElem?_eq_some_iff.mp hget).1
    refine ⟨by omega, by omega, ?_, ?_⟩
    · intro data' hagrees hsize'
      have hsame := hagrees pos (by omega) (by omega)
      simp only [Reader.octet, octetAt, hsame, hget]
    · intro data' _ hpos' hcut
      -- The only octet that was read is the one that is cut off.
      have hnone : data'[pos]? = none := Array.getElem?_eq_none (by omega)
      exact ⟨pos, pos, by simp only [Reader.octet, octetAt, hnone]⟩

/-- Messages that agree in front of an offset have the same octets up to there. -/
private theorem extract_eq {data data' : Octets} {pos stop : Nat} (hagrees : Agrees data data' stop)
    (hsize : stop ≤ data.size) (hsize' : stop ≤ data'.size) :
    data'.extract pos stop = data.extract pos stop := by
  apply Array.ext_getElem?
  intro i
  rw [Array.getElem?_extract, Array.getElem?_extract, Nat.min_eq_left hsize, Nat.min_eq_left hsize']
  split
  · exact hagrees _ (by omega) (by omega)
  · rfl

theorem octets (length : Nat) : Confined (Reader.octets length) := by
  intro data pos value stop _ h
  obtain ⟨hlimit, hsize, hvalue, rfl⟩ := octets_eq_ok_iff.mp h
  refine ⟨by omega, hsize, ?_, ?_⟩
  · intro data' hagrees hsize'
    have hvalue' := (extract_eq hagrees hsize hsize').trans hvalue
    exact octets_eq_ok_iff.mpr ⟨hlimit, hsize', hvalue', rfl⟩
  · intro data' _ _ hcut
    refine ⟨pos + length, pos, ?_⟩
    rw [octets_apply, if_neg (Nat.not_le.mpr hlimit), if_neg (by omega)]

theorem word : Confined Reader.word := (octets 2).bind fun _ => pure _

theorem long : Confined Reader.long := (octets 4).bind fun _ => pure _

/-! ### Repetition -/

theorem manyAfter (hstep : Confined step) (count : Nat) (seen : List α) :
    Confined (Reader.manyAfter step count seen) := by
  induction count generalizing seen with
  | zero => exact pure _
  | succ count ih => exact hstep.bind fun value => ih (value :: seen)

theorem many (hstep : Confined step) (count : Nat) : Confined (Reader.many step count) :=
  hstep.manyAfter count []

end Confined

end Reader

end DnsResolver
