import DnsResolver.Proofs.Client.Budget
import DnsResolver.Proofs.Client.Following
import DnsResolver.Proofs.Client.Integrity
import Mathlib

namespace DnsResolver

open DnsResolver.Task

/-!
# Chasing a name from reply to reply

A chase asks for a name, and again for the name that the reply leads to, as long as replies lead on
without a record that is looked for.  Its calls are numbered here as if nothing ever stopped it.

* `Client.resolve_asks` — one call is served from the cache, or it is one asking.
* `Chasing.name`, `Chasing.reply` — the calls of a chase by their number.
* `Chasing.Ends`, `Chasing.run_spec` — which call is the last, and what the chase ends with there.
* `Chasing.hop_bound` — how many calls a chase makes, and when it fails for their number.
* `Chasing.records_linked` — where the records come from that a chase returns.
-/

/-! ### One call -/

namespace Client

variable {σ : Type} (client : Client σ)

/-- A call is served from the cache, or it is one asking of the client's servers. -/
theorem resolve_asks (question : Question) (session : Session σ) :
    (∃ response, outcome (client.resolve question) session = .ok response
        ∧ (left (client.resolve question) session).log = session.log)
      ∨ ∃ looked : Session σ, looked.log = session.log
        ∧ outcome (client.resolve question) session
          = outcome (client.queryServers client.servers question client.settings.recursionDesired)
              looked
        ∧ (left (client.resolve question) session).log
          = (left (client.queryServers client.servers question client.settings.recursionDesired)
              looked).log := by
  have hrun := client.resolve_apply question session
  have hlog := client.look_log question session
  cases hlook : client.look question session with
  | mk found looked =>
    rw [hlook] at hrun hlog
    cases found with
    | some response =>
      have hend : client.resolve question session = finish (.ok response) looked := hrun
      exact Or.inl ⟨response, outcome_of_apply hend, left_of_apply hend ▸ hlog⟩
    | none =>
      refine Or.inr ⟨looked, hlog, ?_⟩
      unfold outcome left
      simp only [hrun]
      cases client.queryServers client.servers question client.settings.recursionDesired looked with
      | error error session' => exact ⟨rfl, rfl⟩
      | ok response session' => exact ⟨rfl, client.kept_log question response session'⟩

/-- A call notes one asking of the client's servers, or nothing. -/
theorem resolve_log (question : Question) (session : Session σ) :
    ∃ events, (left (client.resolve question) session).log = events ++ session.log
      ∧ (events = []
        ∨ client.Asks question client.settings.recursionDesired client.servers events) := by
  rcases client.resolve_asks question session with ⟨_, _, hlog⟩ | ⟨looked, hlooked, _, hlog⟩
  · exact ⟨[], hlog, Or.inl rfl⟩
  · obtain ⟨events, hevents, hasks⟩ :=
      client.queryServers_log client.servers question client.settings.recursionDesired looked
    exact ⟨events, by rw [hlog, hevents, hlooked], hasks⟩

/-- A call does not end in an exhausted hop budget by itself. -/
theorem resolve_ne_hops (hkeeps : client.environment.KeepsHops) (question : Question)
    (session : Session σ) (hops : Nat) :
    outcome (client.resolve question) session ≠ .error (.hopCountExceeded hops) := by
  rcases client.resolve_asks question session with ⟨response, hok, _⟩ | ⟨looked, _, hasked, _⟩
  · rw [hok]
    exact fun h => absurd h (by simp)
  · rw [hasked]
    intro hhops
    have hrun := finish_outcome
      (client.queryServers client.servers question client.settings.recursionDesired) looked
    rw [hhops] at hrun
    exact queryServers_ne_hops hkeeps hrun.symm hops rfl

end Client

/-! ### Calls by their number -/

/-- A chase of the records of a type for a name. -/
structure Chasing (σ : Type) where
  client : Client σ
  type : RecordType
  domain : Name
  /-- Where the client stands before the first call. -/
  session : Session σ

namespace Chasing

variable {σ : Type} (chasing : Chasing σ)

/-- The chase itself. -/
def run : EStateM.Result Error (Session σ) (List Record) :=
  chasing.client.chase chasing.domain chasing.type chasing.session

/-- A call for a name. -/
def call (name : Name) : Task σ Message := chasing.client.resolveName name chasing.type

/-- The name that the reply to a call leads to. -/
def led (name : Name) : Except Error Message → Name
  | .ok response => Followed.goal chasing.type name response.answers
  | .error _ => name

/-- The name that call `i` is for, and the session in which it is made. -/
def state : Nat → Name × Session σ
  | 0 => (chasing.domain.dropDots, chasing.session)
  | i + 1 =>
    (chasing.led (state i).1 (outcome (chasing.call (state i).1) (state i).2),
      left (chasing.call (state i).1) (state i).2)

/-- The name that call `i` is for. -/
def name (i : Nat) : Name := (chasing.state i).1

/-- The session in which call `i` is made. -/
def before (i : Nat) : Session σ := (chasing.state i).2

/-- The reply to call `i`. -/
def reply (i : Nat) : Except Error Message :=
  outcome (chasing.call (chasing.name i)) (chasing.before i)

/-- That the reply to call `i` is a message without an error. -/
def Replied (i : Nat) (response : Message) : Prop :=
  chasing.reply i = .ok response ∧ response.header.rcode = .noError

/-- The names that the reply to call `i` passes, beginning with the one that was asked for. -/
def passed (i : Nat) (response : Message) : List Name :=
  chasing.name i :: Followed.path chasing.type (chasing.name i) response.answers

/-- The records that are found in the reply to call `i`. -/
def found (i : Nat) (response : Message) : List Record :=
  Followed.collected chasing.type (chasing.name i) response.answers

theorem before_succ (i : Nat) :
    chasing.before (i + 1) = left (chasing.call (chasing.name i)) (chasing.before i) := rfl

theorem name_succ {i : Nat} {response : Message} (h : chasing.reply i = .ok response) :
    chasing.name (i + 1) = Followed.goal chasing.type (chasing.name i) response.answers := by
  show chasing.led (chasing.name i) (chasing.reply i) = _
  rw [h, led]

/-- The names that are asked for have no trailing dots. -/
theorem dropDots_name (i : Nat) : (chasing.name i).dropDots = chasing.name i := by
  induction i with
  | zero => exact Name.dropDots_dropDots chasing.domain
  | succ i ih =>
    cases hreply : chasing.reply i with
    | ok response => rw [chasing.name_succ hreply, Followed.dropDots_goal ih]
    | error error =>
      have hstays : chasing.name (i + 1) = chasing.name i := by
        show chasing.led (chasing.name i) (chasing.reply i) = _
        rw [hreply, led]
      rw [hstays, ih]

/-- The question of call `i`. -/
def question (i : Nat) : Question := ⟨chasing.name i, chasing.type, .internet⟩

theorem call_eq (i : Nat) :
    chasing.call (chasing.name i) = chasing.client.resolve (chasing.question i) := by
  have hname : (chasing.name i).dropDot = chasing.name i := by
    rw [← chasing.dropDots_name i, Name.dropDot_dropDots]
  rw [call, Client.resolveName, Question.about, hname, question]

/-! ### What a reply comes to -/

/-- The reply to call `i` leads to another name and has no record that is looked for. -/
def Moves (i : Nat) : Prop :=
  ∃ response, chasing.Replied i response
    ∧ ((chasing.passed i response).map Name.canonical).Nodup
    ∧ chasing.found i response = []
    ∧ (chasing.name (i + 1)).canonical ≠ (chasing.name i).canonical

/-- The aliases in the reply to call `i` come back to a name that they have passed. -/
def Loops (i : Nat) : Prop :=
  ∃ response, chasing.Replied i response
    ∧ ¬ ((chasing.passed i response).map Name.canonical).Nodup

/-- The reply to call `i` has records that are looked for, or leads nowhere else. -/
def Settles (i : Nat) (records : List Record) : Prop :=
  ∃ response, chasing.Replied i response
    ∧ ((chasing.passed i response).map Name.canonical).Nodup
    ∧ chasing.found i response = records
    ∧ (records = [] → (chasing.name (i + 1)).canonical = (chasing.name i).canonical)

/-- Call `i` fails, or its reply reports an error. -/
def Fails (i : Nat) (error : Error) : Prop :=
  chasing.reply i = .error error
    ∨ ∃ response, chasing.reply i = .ok response ∧ response.check (chasing.name i) = .error error

/-- What the chase ends with at call `i`, when its reply does not lead on. -/
inductive Ends (i : Nat) : Except Error (List Record) → Prop
  | failed {error} (h : chasing.Fails i error) : Ends i (.error error)
  | looped (h : chasing.Loops i) : Ends i (.error (.hopCountExceeded maxHops))
  | settled {records} (h : chasing.Settles i records) : Ends i (.ok records)

end Chasing

/-- Only a reply without an error passes the check. -/
theorem Message.check_eq_ok_iff (response : Message) (domain : Name) :
    response.check domain = .ok () ↔ response.header.rcode = .noError := by
  unfold check
  cases response.header.rcode <;> simp

theorem Message.check_ne_hops (response : Message) (domain : Name) (hops : Nat) :
    response.check domain ≠ .error (.hopCountExceeded hops) := by
  unfold check
  cases response.header.rcode <;> simp

namespace Chasing

variable {σ : Type} {chasing : Chasing σ} {i : Nat} {error : Error} {records : List Record}
  {ending : Except Error (List Record)} {response response' : Message}

theorem Replied.unique (h : chasing.Replied i response) (h' : chasing.Replied i response') :
    response = response' :=
  Except.ok.inj (h.1.symm.trans h'.1)

theorem Replied.not_fails (h : chasing.Replied i response) : ¬ chasing.Fails i error := by
  rintro (herror | ⟨response', hreply, hcheck⟩)
  · exact absurd (h.1.symm.trans herror) (by simp)
  · obtain rfl := Except.ok.inj (h.1.symm.trans hreply)
    rw [(Message.check_eq_ok_iff _ _).mpr h.2] at hcheck
    exact absurd hcheck (by simp)

/-- Only at a reply that does not lead on does a chase end. -/
theorem Ends.not_moves (h : chasing.Ends i ending) : ¬ chasing.Moves i := by
  rintro ⟨response, hreplied, hnodup, hfound, hmoved⟩
  cases h with
  | failed hfails => exact hreplied.not_fails hfails
  | looped hloops =>
    obtain ⟨response', hreplied', hrepeated⟩ := hloops
    exact hrepeated (hreplied.unique hreplied' ▸ hnodup)
  | settled hsettles =>
    obtain ⟨response', hreplied', -, hrecords, hstays⟩ := hsettles
    rw [← hreplied.unique hreplied', hfound] at hrecords
    exact hmoved (hstays hrecords.symm)

theorem Settles.ends_eq (h : chasing.Settles i records) (hends : chasing.Ends i ending) :
    ending = .ok records := by
  obtain ⟨response, hreplied, hnodup, hfound, -⟩ := h
  cases hends with
  | failed hfails => exact absurd hfails hreplied.not_fails
  | looped hloops =>
    obtain ⟨response', hreplied', hrepeated⟩ := hloops
    exact absurd (hreplied.unique hreplied' ▸ hnodup) hrepeated
  | settled hsettles =>
    obtain ⟨response', hreplied', -, hfound', -⟩ := hsettles
    rw [← hfound, ← hfound', hreplied.unique hreplied']

/-! ### The chase with its bound -/

variable (chasing) in
/-- The chase from call `i` on, with a number of calls left to make. -/
def chaseFrom (i hops : Nat) : EStateM.Result Error (Session σ) (List Record) :=
  chasing.client.chaseFrom chasing.type hops (chasing.name i) (chasing.before i)

variable (chasing) in
/-- A call fails, or there is a reply without an error. -/
theorem replied_or_fails (i : Nat) :
    (∃ response, chasing.Replied i response) ∨ ∃ error, chasing.Fails i error := by
  cases hreply : chasing.reply i with
  | error error => exact Or.inr ⟨error, Or.inl hreply⟩
  | ok response =>
    cases hcheck : response.check (chasing.name i) with
    | error error => exact Or.inr ⟨error, Or.inr ⟨response, hreply, hcheck⟩⟩
    | ok _ => exact Or.inl ⟨response, hreply, (Message.check_eq_ok_iff _ _).mp hcheck⟩

variable (chasing) in
/-- The chase from call `i` on begins with that call. -/
theorem chaseFrom_bind (i hops : Nat) :
    chasing.chaseFrom i (hops + 1)
      = match chasing.reply i with
        | .error error => .error error (chasing.before (i + 1))
        | .ok response =>
          (do
            Task.ofExcept (response.check (chasing.name i))
            let followed ←
              Task.ofExcept (Followed.ofAnswer response.answers (chasing.name i) chasing.type)
            if !followed.records.isEmpty || followed.target.sameAs (chasing.name i) then
              return followed.records
            else
              chasing.client.chaseFrom chasing.type hops followed.target : Task σ (List Record))
            (chasing.before (i + 1)) := by
  have hcall : chasing.call (chasing.name i) (chasing.before i)
      = finish (chasing.reply i) (chasing.before (i + 1)) := (finish_outcome _ _).symm
  show (chasing.call (chasing.name i) >>= _) (chasing.before i) = _
  rw [bind_apply, hcall]
  cases chasing.reply i <;> rfl

/-- A call that fails ends the chase. -/
theorem chaseFrom_fails (h : chasing.Fails i error) (hops : Nat) :
    chasing.chaseFrom i (hops + 1) = .error error (chasing.before (i + 1)) := by
  rw [chaseFrom_bind]
  rcases h with hreply | ⟨response, hreply, hcheck⟩
  · rw [hreply]
  · simp only [hreply, bind_apply, ofExcept_apply, hcheck, finish]

/-- The answer of a reply is followed to the name of the next call, unless its aliases come back. -/
theorem followed_eq (h : chasing.Replied i response) :
    Followed.ofAnswer response.answers (chasing.name i) chasing.type
      = if ((chasing.passed i response).map Name.canonical).Nodup then
          .ok ⟨chasing.found i response, chasing.name (i + 1)⟩
        else .error (.hopCountExceeded maxHops) := by
  rw [Followed.ofAnswer_eq _ _ (chasing.dropDots_name i), chasing.name_succ h.1]
  rfl

variable (chasing) in
/-- The name of the next call is the same up to case exactly if it compares as the same name. -/
theorem sameAs_name_succ (i : Nat) :
    (chasing.name (i + 1)).sameAs (chasing.name i) = true
      ↔ (chasing.name (i + 1)).canonical = (chasing.name i).canonical := by
  rw [Name.sameAs_iff, Name.canonical_of_dropDots (chasing.dropDots_name i),
    Name.canonical_of_dropDots (chasing.dropDots_name (i + 1))]

/-- What the chase does with a reply without an error: aliases that come back end it, and so do
    records that are found and a name that stays the same. -/
theorem chaseFrom_replied (h : chasing.Replied i response) (hops : Nat) :
    chasing.chaseFrom i (hops + 1)
      = if ((chasing.passed i response).map Name.canonical).Nodup then
          if chasing.found i response = []
              ∧ (chasing.name (i + 1)).canonical ≠ (chasing.name i).canonical then
            chasing.chaseFrom (i + 1) hops
          else .ok (chasing.found i response) (chasing.before (i + 1))
        else .error (.hopCountExceeded maxHops) (chasing.before (i + 1)) := by
  have hcheck := (Message.check_eq_ok_iff response (chasing.name i)).mpr h.2
  rw [chaseFrom_bind, h.1]
  simp only [bind_apply, ofExcept_apply, hcheck, finish, followed_eq h]
  by_cases hnodup : ((chasing.passed i response).map Name.canonical).Nodup
  · simp only [if_pos hnodup]
    have hends : (!(chasing.found i response).isEmpty
        || (chasing.name (i + 1)).sameAs (chasing.name i)) = true
        ↔ ¬ (chasing.found i response = []
          ∧ (chasing.name (i + 1)).canonical ≠ (chasing.name i).canonical) := by
      rw [Bool.or_eq_true, sameAs_name_succ, Bool.not_eq_true', List.isEmpty_eq_false_iff,
        not_and_or, ne_eq, not_not]
    by_cases hmoves : chasing.found i response = []
        ∧ (chasing.name (i + 1)).canonical ≠ (chasing.name i).canonical
    · rw [if_pos hmoves, if_neg (fun hend => hends.mp hend hmoves)]
      rfl
    · rw [if_neg hmoves, if_pos (hends.mpr hmoves)]
      rfl
  · simp only [if_neg hnodup]

variable (chasing) in
/-- The chase ends at call `i`, or goes on with the next one. -/
theorem chaseFrom_succ (i hops : Nat) :
    (∃ ending, chasing.Ends i ending
        ∧ chasing.chaseFrom i (hops + 1) = finish ending (chasing.before (i + 1)))
      ∨ chasing.Moves i ∧ chasing.chaseFrom i (hops + 1) = chasing.chaseFrom (i + 1) hops := by
  rcases chasing.replied_or_fails i with ⟨response, hreplied⟩ | ⟨error, hfails⟩
  · have hrun := chaseFrom_replied hreplied hops
    by_cases hnodup : ((chasing.passed i response).map Name.canonical).Nodup
    · rw [if_pos hnodup] at hrun
      by_cases hmoves : chasing.found i response = []
          ∧ (chasing.name (i + 1)).canonical ≠ (chasing.name i).canonical
      · rw [if_pos hmoves] at hrun
        exact Or.inr ⟨⟨response, hreplied, hnodup, hmoves.1, hmoves.2⟩, hrun⟩
      · rw [if_neg hmoves] at hrun
        have hstays : chasing.found i response = [] →
            (chasing.name (i + 1)).canonical = (chasing.name i).canonical :=
          fun hempty => not_not.mp fun hmoved => hmoves ⟨hempty, hmoved⟩
        exact Or.inl ⟨_, .settled ⟨response, hreplied, hnodup, rfl, hstays⟩, hrun⟩
    · rw [if_neg hnodup] at hrun
      exact Or.inl ⟨_, .looped ⟨response, hreplied, hnodup⟩, hrun⟩
  · exact Or.inl ⟨_, .failed hfails, chaseFrom_fails hfails hops⟩

variable (chasing) in
/-- The chase ends at the first call whose reply does not lead on, or at its bound. -/
theorem chaseFrom_spec (i hops : Nat) :
    (∃ last ending, i ≤ last ∧ last < i + hops ∧ (∀ j, i ≤ j → j < last → chasing.Moves j)
        ∧ chasing.Ends last ending
        ∧ chasing.chaseFrom i hops = finish ending (chasing.before (last + 1)))
      ∨ (∀ j, i ≤ j → j < i + hops → chasing.Moves j)
        ∧ chasing.chaseFrom i hops
          = .error (.hopCountExceeded maxHops) (chasing.before (i + hops)) := by
  induction hops generalizing i with
  | zero => exact Or.inr ⟨by omega, rfl⟩
  | succ hops ih =>
    rcases chasing.chaseFrom_succ i hops with ⟨ending, hends, hrun⟩ | ⟨hmoves, hrun⟩
    · exact Or.inl ⟨i, ending, Nat.le_refl _, by omega, by omega, hends, hrun⟩
    · have hfirst : ∀ {last}, (∀ j, i + 1 ≤ j → j < last → chasing.Moves j) →
          ∀ j, i ≤ j → j < last → chasing.Moves j := fun hrest j hij hj => by
        rcases Nat.eq_or_lt_of_le hij with rfl | hlt
        · exact hmoves
        · exact hrest j hlt hj
      rw [hrun]
      rcases ih (i + 1) with ⟨last, ending, hfrom, hto, hrest, hends, hrun'⟩ | ⟨hrest, hrun'⟩
      · exact Or.inl ⟨last, ending, by omega, by omega, hfirst hrest, hends, hrun'⟩
      · rw [show i + 1 + hops = i + (hops + 1) by omega] at hrest hrun'
        exact Or.inr ⟨hfirst hrest, hrun'⟩

variable (chasing) in
/-- The chase ends at the first call whose reply does not lead on, if that is one of the first 64,
    and otherwise after these. -/
theorem run_spec :
    (∃ last < maxHops, ∃ ending, (∀ i < last, chasing.Moves i) ∧ chasing.Ends last ending
        ∧ chasing.run = finish ending (chasing.before (last + 1)))
      ∨ (∀ i < maxHops, chasing.Moves i)
        ∧ chasing.run = .error (.hopCountExceeded maxHops) (chasing.before maxHops) := by
  rcases chasing.chaseFrom_spec 0 maxHops with
    ⟨last, ending, _, hto, hmoves, hends, hrun⟩ | ⟨hmoves, hrun⟩
  · rw [Nat.zero_add] at hto
    exact Or.inl ⟨last, hto, ending, fun i => hmoves i (Nat.zero_le i), hends, hrun⟩
  · rw [Nat.zero_add] at hmoves hrun
    exact Or.inr ⟨fun i => hmoves i (Nat.zero_le i), hrun⟩

/-! ### The number of calls -/

variable (chasing) in
/-- What the chase ends with. -/
def result : Except Error (List Record) :=
  outcome (chasing.client.chase chasing.domain chasing.type) chasing.session

theorem result_of_run {session' : Session σ} (h : chasing.run = finish ending session') :
    chasing.result = ending :=
  outcome_of_apply h

/-- Without an exhausted hop budget from outside, calls do not fail for it. -/
theorem Fails.ne_hops (h : chasing.Fails i error) (hkeeps : chasing.client.environment.KeepsHops)
    (hops : Nat) : error ≠ .hopCountExceeded hops := by
  rintro rfl
  rcases h with hreply | ⟨response, _, hcheck⟩
  · rw [reply, call_eq] at hreply
    exact chasing.client.resolve_ne_hops hkeeps _ _ hops hreply
  · exact Message.check_ne_hops _ _ hops hcheck

/-- Where a chase ends, it fails for the number of calls only if the aliases come back. -/
theorem Ends.eq_hops_iff (h : chasing.Ends i ending)
    (hkeeps : chasing.client.environment.KeepsHops) (hops : Nat) :
    ending = .error (.hopCountExceeded hops) ↔ hops = maxHops ∧ chasing.Loops i := by
  cases h with
  | failed hfails =>
    refine ⟨fun heq => absurd (Except.error.inj heq) (hfails.ne_hops hkeeps hops), ?_⟩
    rintro ⟨_, response, hreplied, _⟩
    exact absurd hfails hreplied.not_fails
  | looped hloops =>
    refine ⟨fun heq => ⟨?_, hloops⟩, fun hhops => by rw [hhops.1]⟩
    exact (Error.hopCountExceeded.inj (Except.error.inj heq)).symm
  | settled hsettles =>
    refine ⟨fun heq => absurd heq (by simp), ?_⟩
    rintro ⟨_, hloops⟩
    exact absurd (hsettles.ends_eq (.looped hloops)) (by simp)

variable (chasing) in
/-- That the only record in the reply to call `i` makes its name an alias. -/
def Aliased (i : Nat) : Prop :=
  ∃ response record target, chasing.Replied i response ∧ response.answers = [record]
    ∧ record.name.sameAs (chasing.name i) = true ∧ record.data = .cname target

/-- An alias for another name moves the chase on. -/
theorem Aliased.moves (h : chasing.Aliased i)
    (hother : (chasing.name i).canonical ≠ (chasing.name (i + 1)).canonical) : chasing.Moves i := by
  obtain ⟨response, record, target, hreplied, hanswers, _, _⟩ := h
  have hnext := chasing.name_succ hreplied.1
  rw [hanswers] at hnext
  cases halias : record.alias? chasing.type (chasing.name i) with
  | none =>
    rw [Followed.goal_of_none halias] at hnext
    exact absurd (congrArg Name.canonical hnext.symm) hother
  | some next =>
    rw [Followed.goal_of_alias halias] at hnext
    obtain rfl : chasing.name (i + 1) = next := hnext
    refine ⟨response, hreplied, ?_, ?_, hother.symm⟩
    · rw [passed, hanswers, Followed.path_of_alias halias, Followed.path]
      simpa using hother
    · rw [found, hanswers, Followed.collected_of_alias halias, Followed.collected]

/-- The aliases of a chain of different names lead on. -/
theorem moves_of_aliased {length : Nat} (haliased : ∀ i < length, chasing.Aliased i)
    (hother : ∀ i ≤ length, ∀ j < i, (chasing.name j).canonical ≠ (chasing.name i).canonical) :
    ∀ i < length, chasing.Moves i :=
  fun i hi => (haliased i hi).moves (hother (i + 1) hi i (Nat.lt_succ_self i))

/-- A chase that is led on to a call that settles it resolves exactly if that call is within its
    bound, to the records that are found there. -/
theorem resolves_iff {length : Nat} (hlead : ∀ i < length, chasing.Moves i)
    (hsettles : chasing.Settles length records) :
    ((∃ found, chasing.result = .ok found) ↔ length + 1 ≤ maxHops)
      ∧ ∀ found, chasing.result = .ok found → found = records := by
  have hstops : ¬ chasing.Moves length := (Ends.settled hsettles).not_moves
  rcases chasing.run_spec with ⟨last, hlast, ending, hmoves, hends, hrun⟩ | ⟨hmoves, hrun⟩
  · obtain rfl : length = last := by
      rcases Nat.lt_trichotomy length last with hlt | heq | hgt
      · exact absurd (hmoves length hlt) hstops
      · exact heq
      · exact absurd (hlead last hgt) hends.not_moves
    have hresult : chasing.result = .ok records :=
      (result_of_run hrun).trans (hsettles.ends_eq hends)
    refine ⟨⟨fun _ => hlast, fun _ => ⟨records, hresult⟩⟩, fun found hfound => ?_⟩
    exact Except.ok.inj (hfound.symm.trans hresult)
  · have hresult : chasing.result = .error (.hopCountExceeded maxHops) :=
      result_of_run (hrun : _ = finish (.error _) _)
    have hlong : ¬ length + 1 ≤ maxHops := fun hshort => hstops (hmoves length hshort)
    simp [hresult, hlong]

/-- **The bound of a chase.** Whatever the replies are, a chase makes at most 64 calls, each for the
    name that the replies before it led to, and goes on for as long as they lead on.  When no
    exhausted hop budget comes from outside, it fails for the number of calls exactly when the
    aliases in its last reply come back to a name that they have passed, or 64 replies have led on
    without a record that is looked for.  So a chain of different names, with one alias in each
    reply, resolves exactly when it needs no more than 64 calls, to the records that its last reply
    has. -/
theorem hop_bound (chasing : Chasing σ) :
    ∃ last < maxHops,
      left (chasing.client.chase chasing.domain chasing.type) chasing.session
        = chasing.before (last + 1)
      ∧ (∀ i ≤ last, ∃ events,
          (chasing.before (i + 1)).log = events ++ (chasing.before i).log
          ∧ (events = [] ∨ chasing.client.Asks (chasing.question i)
              chasing.client.settings.recursionDesired chasing.client.servers events))
      ∧ (∀ i < last, chasing.Moves i)
      ∧ (last + 1 < maxHops → ¬ chasing.Moves last)
      ∧ (chasing.client.environment.KeepsHops → ∀ hops,
          chasing.result = .error (.hopCountExceeded hops)
            ↔ hops = maxHops ∧ (chasing.Loops last ∨ ∀ i < maxHops, chasing.Moves i))
      ∧ ∀ length records, (∀ i < length, chasing.Aliased i) →
          (∀ i ≤ length, ∀ j < i, (chasing.name j).canonical ≠ (chasing.name i).canonical) →
          chasing.Settles length records →
          ((∃ found, chasing.result = .ok found) ↔ length + 1 ≤ maxHops)
            ∧ ∀ found, chasing.result = .ok found → found = records := by
  have hcalls : ∀ i, ∃ events,
      (chasing.before (i + 1)).log = events ++ (chasing.before i).log
      ∧ (events = [] ∨ chasing.client.Asks (chasing.question i)
          chasing.client.settings.recursionDesired chasing.client.servers events) := fun i => by
    rw [before_succ, call_eq]
    exact chasing.client.resolve_log (chasing.question i) (chasing.before i)
  have hchain : ∀ length records, (∀ i < length, chasing.Aliased i) →
      (∀ i ≤ length, ∀ j < i, (chasing.name j).canonical ≠ (chasing.name i).canonical) →
      chasing.Settles length records →
      ((∃ found, chasing.result = .ok found) ↔ length + 1 ≤ maxHops)
        ∧ ∀ found, chasing.result = .ok found → found = records :=
    fun _ _ haliased hother hsettles => resolves_iff (moves_of_aliased haliased hother) hsettles
  rcases chasing.run_spec with ⟨last, hlast, ending, hmoves, hends, hrun⟩ | ⟨hmoves, hrun⟩
  · refine ⟨last, hlast, left_of_apply hrun, fun i _ => hcalls i, hmoves,
      fun _ => hends.not_moves, fun hkeeps hops => ?_, hchain⟩
    have hall : ¬ ∀ i < maxHops, chasing.Moves i := fun h => hends.not_moves (h last hlast)
    rw [result_of_run hrun, hends.eq_hops_iff hkeeps hops]
    simp [hall]
  · have hresult : chasing.result = .error (.hopCountExceeded maxHops) :=
      result_of_run (hrun : _ = finish (.error _) _)
    have hlast : maxHops - 1 + 1 = maxHops := by decide
    refine ⟨maxHops - 1, by decide, by rw [left_of_error hrun, hlast], fun i _ => hcalls i,
      fun i hi => hmoves i (by omega), fun h => by omega, fun _ hops => ?_, hchain⟩
    rw [hresult]
    constructor
    · intro heq
      exact ⟨(Error.hopCountExceeded.inj (Except.error.inj heq)).symm, Or.inr hmoves⟩
    · rintro ⟨rfl, -⟩
      rfl

/-! ### Where the records come from -/

variable (chasing) in
/-- That messages are the replies to the first calls, in their order and without an error. -/
inductive Received : List Message → Prop
  | none : Received []
  | next {replies response} (hearlier : Received replies)
      (hreplied : chasing.Replied replies.length response) : Received (replies ++ [response])

/-- The name that a call is for is linked to the domain by CNAME records of the replies before it,
    in the order in which they came. -/
theorem linked_name (count : Nat) (hmoves : ∀ i < count, chasing.Moves i) :
    ∃ replies, chasing.Received replies ∧ replies.length = count
      ∧ ∃ links, links.Sublist (replies.flatMap (·.answers))
        ∧ Linked chasing.domain links (chasing.name count) := by
  induction count with
  | zero =>
    exact ⟨[], .none, rfl, [], List.Sublist.refl _, .here (Name.canonical_dropDots chasing.domain)⟩
  | succ count ih =>
    obtain ⟨replies, hreceived, rfl, links, hsub, hlinked⟩ := ih fun i hi => hmoves i (by omega)
    obtain ⟨response, hreplied, -⟩ := hmoves replies.length (Nat.lt_succ_self _)
    obtain ⟨more, hmore, hgoal⟩ :=
      Followed.linked_goal chasing.type (chasing.name replies.length) response.answers
    refine ⟨replies ++ [response], hreceived.next hreplied, by simp, links ++ more, ?_, ?_⟩
    · simpa using hsub.append hmore
    · rw [chasing.name_succ hreplied.1]
      exact hlinked.append hgoal

/-- **No unrelated records.** Each record that a chase returns is of the type that is looked for and
    stands in the answer of the last reply.  Its owner is linked to the domain by CNAME records that
    stand before it, in the order of the links, in the answers of the replies without an error that
    came in the chase. -/
theorem records_linked (chasing : Chasing σ) {session' : Session σ}
    (h : chasing.run = .ok records session') :
    ∃ earlier last, chasing.Received (earlier ++ [last])
      ∧ session' = chasing.before (earlier.length + 1)
      ∧ ∀ record ∈ records, record.type = chasing.type ∧ record ∈ last.answers
        ∧ ∃ links, (links ++ [record]).Sublist ((earlier ++ [last]).flatMap (·.answers))
          ∧ Linked chasing.domain links record.name := by
  rcases chasing.run_spec with ⟨made, -, ending, hmoves, hends, hrun⟩ | ⟨-, hrun⟩
  · obtain ⟨earlier, hreceived, rfl, links, hsub, hlinked⟩ := linked_name made hmoves
    rw [h] at hrun
    cases hends with
    | failed | looped => exact absurd hrun (by simp [finish])
    | settled hsettles =>
      obtain ⟨rfl, rfl⟩ := EStateM.Result.ok.inj hrun
      obtain ⟨last, hreplied, -, rfl, -⟩ := hsettles
      refine ⟨earlier, last, hreceived.next hreplied, rfl, fun record hrecord => ?_⟩
      obtain ⟨htype, hmem, more, hmore, hlinkedMore⟩ := Followed.linked_collected hrecord
      refine ⟨htype, hmem, links ++ more, ?_, hlinked.append hlinkedMore⟩
      simpa using hsub.append hmore
  · rw [h] at hrun
    exact absurd hrun (by simp)

end Chasing

/-! ### Names with aliases -/

namespace Alias

/-- The one server there is. -/
def server : NameServer := .udp (.v4 ⟨192, 0, 2, 53⟩)

/-- A reply whose only record makes the name `a` an alias of the name `B`. -/
def renamed : Octets :=
  #[0, 0, 0x80, 0, 0, 0, 0, 1, 0, 0, 0, 0, 1, 0x61, 0, 0, 5, 0, 1, 0, 0, 0, 60, 0, 3, 1, 0x42, 0]

/-- A reply whose only record is an address of the name `b`. -/
def addressed : Octets :=
  #[0, 0, 0x80, 0, 0, 0, 0, 1, 0, 0, 0, 0, 1, 0x62, 0, 0, 1, 0, 1, 0, 0, 0, 60, 0, 4, 192, 0, 2, 1]

/-- A reply that makes the name `c` an alias of the name `d`, and that one an alias of `C`. -/
def circular : Octets :=
  #[0, 0, 0x80, 0, 0, 0, 0, 2, 0, 0, 0, 0,
    1, 0x63, 0, 0, 5, 0, 1, 0, 0, 0, 60, 0, 3, 1, 0x64, 0,
    1, 0x64, 0, 0, 5, 0, 1, 0, 0, 0, 60, 0, 3, 1, 0x43, 0]

/-- A client whose server tells names by their first letter. -/
def client : Client Unit where
  servers := [server]
  settings := {}
  environment :=
    { send := fun _ message _ _ =>
        let letter := message.getD 13 0
        (.ok (if letter = 0x61 then renamed else if letter = 0x63 then circular else addressed), ())
      drawId := fun _ => (0, ())
      drawIndex := fun _ _ => (0, ())
      clock := fun _ => (0, ()) }

/-- The chase of the addresses of a name. -/
def chasing (name : Name) : Chasing Unit := ⟨client, .a, name, { world := () }⟩

theorem keepsHops (name : Name) : (chasing name).client.environment.KeepsHops := by
  intro server message timeout world hops
  simp [chasing, client]

/-- A record that makes a name an alias of another. -/
def link (name target : Name) : Record := ⟨name, .cname, .internet, 60, none, .cname target⟩

/-- The address of the name `b`. -/
def address : Record := ⟨⟨['b']⟩, .a, .internet, 60, none, .a ⟨192, 0, 2, 1⟩⟩

/-- A reply of the server with records for an answer. -/
def said (octets : Octets) (answers : List Record) : Message where
  header := { isResponse := true, answers := UInt16.ofNat answers.length }
  answers := answers
  origin := some ⟨server, .udp, octets.size⟩

theorem replied_renamed :
    (chasing ⟨['a']⟩).Replied 0 (said renamed [link ⟨['a']⟩ ⟨['B']⟩]) :=
  ⟨by cbv, rfl⟩

theorem replied_addressed : (chasing ⟨['a']⟩).Replied 1 (said addressed [address]) :=
  ⟨by cbv, rfl⟩

theorem replied_circular :
    (chasing ⟨['c']⟩).Replied 0
      (said circular [link ⟨['c']⟩ ⟨['d']⟩, link ⟨['d']⟩ ⟨['C']⟩]) :=
  ⟨by cbv, rfl⟩

theorem aliased : (chasing ⟨['a']⟩).Aliased 0 :=
  ⟨_, _, _, replied_renamed, rfl, by decide, rfl⟩

theorem name_one : (chasing ⟨['a']⟩).name 1 = ⟨['B']⟩ :=
  Chasing.name_succ _ replied_renamed.1

theorem settles : (chasing ⟨['a']⟩).Settles 1 [address] := by
  refine ⟨_, replied_addressed, ?_, ?_, by simp⟩
  · rw [Chasing.passed, name_one]
    decide
  · rw [Chasing.found, name_one]
    decide

theorem loops : (chasing ⟨['c']⟩).Loops 0 :=
  ⟨_, replied_circular, by decide⟩

end Alias

/-- The name `a` is found under the name `B` with a second call, and the name `c` not at all,
    although nothing is asked after the first call. -/
theorem Chasing.hop_bound_alias :
    (Alias.chasing ⟨['a']⟩).result = .ok [Alias.address]
      ∧ (Alias.chasing ⟨['c']⟩).result = .error (.hopCountExceeded maxHops)
      ∧ left (Alias.client.chase ⟨['c']⟩ .a) { world := () } = (Alias.chasing ⟨['c']⟩).before 1 := by
  constructor
  · obtain ⟨_, _, _, _, _, _, _, hchain⟩ := hop_bound (Alias.chasing ⟨['a']⟩)
    have haliased : ∀ i < 1, (Alias.chasing ⟨['a']⟩).Aliased i := fun i hi => by
      obtain rfl : i = 0 := by omega
      exact Alias.aliased
    have hother : ∀ i ≤ 1, ∀ j < i, ((Alias.chasing ⟨['a']⟩).name j).canonical
        ≠ ((Alias.chasing ⟨['a']⟩).name i).canonical := fun i hi j hj => by
      obtain ⟨rfl, rfl⟩ : j = 0 ∧ i = 1 := by omega
      rw [Alias.name_one]
      decide
    obtain ⟨hresolves, hfound⟩ := hchain 1 _ haliased hother Alias.settles
    obtain ⟨found, hresult⟩ := hresolves.mpr (by decide)
    rw [hresult, hfound found hresult]
  · obtain ⟨last, _, hleft, _, hmoves, _, hhops, _⟩ := hop_bound (Alias.chasing ⟨['c']⟩)
    obtain rfl : last = 0 := by
      by_contra hlast
      exact (Ends.looped Alias.loops).not_moves (hmoves 0 (Nat.pos_of_ne_zero hlast))
    exact ⟨(hhops (Alias.keepsHops _) maxHops).mpr ⟨rfl, Or.inl Alias.loops⟩, hleft⟩

/-- The address that is found for the name `a` is linked to it by records of the replies that came
    before it. -/
theorem Chasing.records_linked_alias :
    ∃ session', (Alias.chasing ⟨['a']⟩).run = .ok [Alias.address] session'
      ∧ ∃ replies links, (Alias.chasing ⟨['a']⟩).Received replies
        ∧ (links ++ [Alias.address]).Sublist (replies.flatMap (·.answers))
        ∧ Linked ⟨['a']⟩ links ⟨['b']⟩ := by
  have hrun : (Alias.chasing ⟨['a']⟩).run
      = .ok [Alias.address] ((Alias.chasing ⟨['a']⟩).before 2) := by cbv
  obtain ⟨earlier, last, hreceived, _, hrecords⟩ := records_linked (Alias.chasing ⟨['a']⟩) hrun
  obtain ⟨_, _, links, hsub, hlinked⟩ := hrecords Alias.address (List.mem_singleton_self _)
  exact ⟨_, hrun, earlier ++ [last], links, hreceived, hsub, hlinked⟩

end DnsResolver
