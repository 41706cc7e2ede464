import DnsResolver.Proofs.Client.Steps
import Mathlib

namespace DnsResolver

open DnsResolver.Task

/-!
# Asking the servers of a list in turn

Asking goes round the list, from a random server on, until an attempt ends in something other
than a transport failure.

* `timesTried_eq` — how often each server of a list is tried, going round it.
* `Asking.turn`, `Asking.before` — an attempt by its number, and the session it starts in.
* `Asking.place_eq_word` — the place of an attempt in the list, in machine words.
* `Asking.attemptsFrom_spec` — which attempt is the last, and what the asking ends with.
* `Asking.failover` — the attempts, their order and their end, for the asking as a whole.
-/

/-- Whether something ended in a failure after which the next server is tried. -/
def IsTransportFailure {α : Type} (outcome : Except Error α) : Prop :=
  ∃ error, outcome = .error error ∧ error.isTransport = true

@[simp] theorem isTransportFailure_error {α : Type} (error : Error) :
    IsTransportFailure (.error error : Except Error α) ↔ error.isTransport = true :=
  ⟨fun ⟨_, herror, htransport⟩ => Except.error.inj herror ▸ htransport,
    fun htransport => ⟨error, rfl, htransport⟩⟩

/-! ### Turns -/

/-- How many of the first `attempts` attempts go to the server at a place in a list of `size`
    servers, when the first of them goes to the one at `first`. -/
def timesTried (size first place attempts : Nat) : Nat :=
  Nat.count (fun i => (first + i) % size = place) attempts

section Turns

variable {size first place : Nat}

/-- The attempts that go to a place are those in one residue class. -/
private theorem turn_iff (hplace : place < size) (i : Nat) :
    (first + i) % size = place ↔ i ≡ place + (size - first % size) [MOD size] := by
  have hfirst : first % size < size := Nat.mod_lt _ (Nat.zero_lt_of_lt hplace)
  have hback : first + (size - first % size) = size * (first / size + 1) := by
    have := Nat.div_add_mod first size
    rw [Nat.mul_add_one]
    omega
  have hi : i ≡ first + i + (size - first % size) [MOD size] := by
    have hsum : first + i + (size - first % size) = i + size * (first / size + 1) := by omega
    rw [hsum, Nat.ModEq, Nat.add_mul_mod_self_left]
  constructor
  · intro hturn
    refine hi.trans (Nat.ModEq.add_right _ ?_)
    rw [Nat.ModEq, hturn, Nat.mod_eq_of_lt hplace]
  · intro hclass
    have hturn : first + i ≡ place [MOD size] :=
      Nat.ModEq.add_right_cancel' _ (hi.symm.trans hclass)
    rwa [Nat.ModEq, Nat.mod_eq_of_lt hplace] at hturn

/-- Each server gets its turn in every full round, and those that come first in a round once
    more when it is cut off. -/
theorem timesTried_eq (hplace : place < size) (attempts : Nat) :
    timesTried size first place attempts
      = attempts / size
        + if (place + (size - first % size)) % size < attempts % size then 1 else 0 := by
  unfold timesTried
  simp only [turn_iff hplace]
  exact Nat.count_modEq_card attempts (Nat.zero_lt_of_lt hplace) _

/-- Whole rounds try every server equally often. -/
theorem timesTried_rounds (hplace : place < size) (rounds : Nat) :
    timesTried size first place (rounds * size) = rounds := by
  have hsize : 0 < size := Nat.zero_lt_of_lt hplace
  rw [timesTried_eq hplace, Nat.mul_div_cancel _ hsize, Nat.mul_mod_left, if_neg (Nat.not_lt_zero _),
    Nat.add_zero]

/-- When a server's turn comes, no server was tried less often than it. -/
theorem timesTried_fair {other attempts : Nat} (hturn : (first + attempts) % size = place)
    (hother : other < size) :
    timesTried size first place attempts ≤ timesTried size first other attempts := by
  have hplace : place < size := hturn ▸ Nat.mod_lt _ (Nat.zero_lt_of_lt hother)
  -- The residue of the turn itself is not below it, so nothing is added to the full rounds.
  have hlast : (place + (size - first % size)) % size = attempts % size :=
    ((turn_iff hplace attempts).mp hturn).symm
  rw [timesTried_eq hplace, timesTried_eq hother, hlast, if_neg (Nat.lt_irrefl _)]
  exact Nat.le_add_right _ _

end Turns

/-! ### Attempts by their number -/

/-- A question that is put to the servers of a list. -/
structure Asking (σ : Type) where
  client : Client σ
  servers : List NameServer
  nonempty : 0 < servers.length
  question : Question
  recursionDesired : Bool
  /-- Where the client stands before the first attempt. -/
  session : Session σ

namespace Asking

variable {σ : Type} (asking : Asking σ)

/-- The asking itself. -/
def run : EStateM.Result Error (Session σ) Message :=
  asking.client.queryServers asking.servers asking.question asking.recursionDesired asking.session

/-- How many attempts may be made. -/
def total : Nat := max asking.client.settings.retries 1 * asking.servers.length

/-- The index that is drawn. -/
def first : Nat :=
  (asking.client.environment.drawIndex asking.servers.length asking.session.world).1

/-- The place in the list of the server that attempt `i` goes to. -/
def place (i : Nat) : Nat := (asking.first + i) % asking.servers.length

theorem place_lt (i : Nat) : asking.place i < asking.servers.length :=
  Nat.mod_lt _ asking.nonempty

/-- A drawn index in its range and the number of an attempt add up within a machine word, if one round
    more than all attempts can be counted in it; then the place is the same in machine words. -/
theorem place_eq_word (hdraws : asking.client.environment.DrawsBelow) {i : Nat}
    (hfits : (max asking.client.settings.retries 1 + 1) * asking.servers.length < UInt64.size)
    (hi : i < asking.total) :
    asking.place i
      = ((UInt64.ofNat asking.first + UInt64.ofNat i) % UInt64.ofNat asking.servers.length).toNat := by
  have hfirst : asking.first < asking.servers.length := hdraws _ _ asking.nonempty
  have hsum : asking.first + i < UInt64.size := by
    rw [Nat.add_one_mul] at hfits
    unfold total at hi
    omega
  have hlength : asking.servers.length < UInt64.size := by
    rw [Nat.add_one_mul] at hfits
    omega
  simp only [UInt64.size] at hsum hlength
  simp only [place, UInt64.toNat_mod, UInt64.toNat_add, UInt64.toNat_ofNat', Nat.reducePow]
  rw [Nat.mod_eq_of_lt hlength, ← Nat.add_mod, Nat.mod_eq_of_lt hsum]

/-- The server that attempt `i` goes to. -/
def server (i : Nat) : NameServer := asking.servers.get ⟨asking.place i, asking.place_lt i⟩

/-- Attempt `i`. -/
def turn (i : Nat) : Task σ Message :=
  asking.client.exchange (asking.server i) asking.question asking.recursionDesired

/-- The session in which attempt `i` starts: an index was drawn, and the attempts before it
    were made. -/
def before : Nat → Session σ
  | 0 =>
    asking.session.noting
      (asking.client.environment.drawIndex asking.servers.length asking.session.world).2
      (.asked asking.servers asking.question asking.recursionDesired asking.first)
  | i + 1 => left (asking.turn i) (before i)

/-- What attempt `i` ends with. -/
def ending (i : Nat) : Except Error Message := outcome (asking.turn i) (asking.before i)

theorem attempt (i : Nat) :
    ∃ events, asking.client.Attempt (asking.server i) asking.question asking.recursionDesired
        (asking.before i) events (asking.ending i)
      ∧ (asking.before (i + 1)).log = events ++ (asking.before i).log := by
  obtain ⟨events, hattempt, hlog, -⟩ := asking.client.exchange_attempt _ _ _ _
  exact ⟨events, hattempt, hlog⟩

theorem cache_before (i : Nat) : (asking.before i).cache = asking.session.cache := by
  induction i with
  | zero => rfl
  | succ i ih =>
    obtain ⟨_, _, _, hcache⟩ := asking.client.exchange_attempt (asking.server i) asking.question
      asking.recursionDesired (asking.before i)
    exact hcache.trans ih

/-- How often the first `attempts` attempts went to the server at a place. -/
def timesTried (place attempts : Nat) : Nat :=
  DnsResolver.timesTried asking.servers.length asking.first place attempts

/-- The attempts from number `i` on, of which `more` are left to make. -/
def attemptsFrom (i more : Nat) : EStateM.Result Error (Session σ) Message :=
  asking.client.attempts asking.servers asking.nonempty asking.question asking.recursionDesired
    asking.total (asking.first + i) more (asking.before i)

theorem run_eq : asking.run = asking.attemptsFrom 0 asking.total := by
  unfold run Client.queryServers
  rw [dif_pos asking.nonempty]
  rfl

/-- A transport failure leads to the next attempt, and anything else is the end. -/
theorem attemptsFrom_succ (i more : Nat) :
    asking.attemptsFrom i (more + 1)
      = match asking.ending i with
        | .ok response => .ok response (asking.before (i + 1))
        | .error error =>
          if error.isTransport then asking.attemptsFrom (i + 1) more
          else .error error (asking.before (i + 1)) := by
  show (Task.attempt (asking.turn i) >>= _) (asking.before i) = _
  rw [bind_apply, attempt_apply]
  show (match asking.ending i with | .ok _ => _ | .error _ => _ : Task σ Message) _ = _
  cases asking.ending i with
  | ok response => rfl
  | error error =>
    by_cases htransport : error.isTransport = true
    · simp only [if_pos htransport]
      rfl
    · simp only [if_neg htransport]
      rfl

/-- What the attempts from number `i` on come to: those before number `made` end in transport
    failures, and number `made` is the last, unless none is left to make. -/
theorem attemptsFrom_spec (i more : Nat) :
    ∃ made, i ≤ made ∧ made ≤ i + more
      ∧ (∀ j, i ≤ j → j < made → IsTransportFailure (asking.ending j))
      ∧ (made < i + more → ¬ IsTransportFailure (asking.ending made)
          ∧ asking.attemptsFrom i more = finish (asking.ending made) (asking.before (made + 1)))
      ∧ (made = i + more →
          asking.attemptsFrom i more = .error (.resolutionFailed asking.total) (asking.before made)) := by
  induction more generalizing i with
  | zero => exact ⟨i, Nat.le_refl _, Nat.le_refl _, by omega, by omega, fun _ => rfl⟩
  | succ more ih =>
    have hstep := asking.attemptsFrom_succ i more
    by_cases hfailed : IsTransportFailure (asking.ending i)
    · obtain ⟨error, herror, htransport⟩ := hfailed
      simp only [herror, if_pos htransport] at hstep
      obtain ⟨made, hfrom, hto, hfailures, hsettled, hexhausted⟩ := ih (i + 1)
      rw [hstep]
      refine ⟨made, by omega, by omega, ?_, fun h => hsettled (by omega), fun h => hexhausted (by omega)⟩
      intro j hij hj
      rcases Nat.eq_or_lt_of_le hij with rfl | hlt
      · exact ⟨error, herror, htransport⟩
      · exact hfailures j hlt hj
    · refine ⟨i, Nat.le_refl _, by omega, by omega, fun _ => ⟨hfailed, ?_⟩, by omega⟩
      rw [hstep]
      cases hending : asking.ending i with
      | ok response => rfl
      | error error =>
        rw [hending, isTransportFailure_error] at hfailed
        exact if_neg hfailed

/-! ### The whole asking -/

/-- The asking ends like one of its attempts, or because there is none left. -/
theorem run_end :
    ∃ outcome i, asking.run = finish outcome (asking.before i)
      ∧ (outcome = .error (.resolutionFailed asking.total) ∨ ∃ j, outcome = asking.ending j) := by
  obtain ⟨made, -, hto, -, hsettled, hexhausted⟩ := asking.attemptsFrom_spec 0 asking.total
  rw [Nat.zero_add] at hto hsettled hexhausted
  rw [run_eq]
  rcases Nat.lt_or_eq_of_le hto with hlt | heq
  · exact ⟨_, _, (hsettled hlt).2, Or.inr ⟨made, rfl⟩⟩
  · exact ⟨.error (.resolutionFailed asking.total), made, hexhausted heq, Or.inl rfl⟩

/-- **Failover.** Going round the list from the drawn index on, attempts are made until one of
    them does not end in a transport failure, and that one settles the asking.  Each attempt
    notes what a single attempt with its server notes, and nothing else is noted.  No server is
    tried again before all were tried as often; when all attempts fail, each server had its
    share of them; and one server without failures is enough, if the others fail only in
    transport. -/
theorem failover :
    ∃ made ≤ asking.total,
      (∀ i < made, IsTransportFailure (asking.ending i))
      ∧ (made < asking.total → ¬ IsTransportFailure (asking.ending made)
          ∧ asking.run = finish (asking.ending made) (asking.before (made + 1)))
      ∧ (made = asking.total →
          asking.run = .error (.resolutionFailed asking.total) (asking.before made))
      ∧ (∀ i, ∃ events,
          asking.client.Attempt (asking.server i) asking.question asking.recursionDesired
              (asking.before i) events (asking.ending i)
            ∧ (asking.before (i + 1)).log = events ++ (asking.before i).log)
      ∧ (∀ i, ∀ other < asking.servers.length,
          asking.timesTried (asking.place i) i ≤ asking.timesTried other i)
      ∧ (∀ other < asking.servers.length,
          asking.timesTried other asking.total = max asking.client.settings.retries 1)
      ∧ ∀ good < asking.servers.length,
          (∀ i ≤ made, i < asking.total → ∀ error, asking.ending i = .error error →
            error.isTransport = true ∧ asking.place i ≠ good) →
          ∃ response, asking.run = .ok response (asking.before (made + 1)) := by
  obtain ⟨made, -, hto, hfailures, hsettled, hexhausted⟩ := asking.attemptsFrom_spec 0 asking.total
  rw [Nat.zero_add] at hto hsettled hexhausted
  rw [← run_eq] at hsettled hexhausted
  have hshare : ∀ other < asking.servers.length,
      asking.timesTried other asking.total = max asking.client.settings.retries 1 :=
    fun other hother => timesTried_rounds hother _
  refine ⟨made, hto, fun i => hfailures i (Nat.zero_le i), hsettled, hexhausted, asking.attempt,
    fun i other hother => timesTried_fair rfl hother, hshare, fun good hgood hothers => ?_⟩
  -- The good server has a turn among all attempts, and at its turn there is no failure.
  have hmade : made < asking.total := by
    by_contra hall
    have hnever : asking.timesTried good asking.total = 0 := by
      refine Nat.count_iff_forall_not.mpr fun i hi hturn => ?_
      obtain ⟨error, herror, -⟩ := hfailures i (Nat.zero_le i) (by omega)
      exact (hothers i (by omega) hi error herror).2 hturn
    rw [hshare good hgood] at hnever
    omega
  obtain ⟨hended, hrun⟩ := hsettled hmade
  cases hending : asking.ending made with
  | ok response => exact ⟨response, by rw [hrun, hending]; rfl⟩
  | error error =>
    rw [hending, isTransportFailure_error] at hended
    exact absurd (hothers made (Nat.le_refl _) hmade error hending).1 hended

end Asking

end DnsResolver
