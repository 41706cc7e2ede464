import DnsResolver.Proofs.Cache.Changes
import DnsResolver.Proofs.Cache.Lifetime
import Mathlib

namespace DnsResolver.Cache

/-!
# What a cache serves

A cache erases dead replies when it comes by them. None of that can be seen from outside: it
serves what a cache would that only ever stored, and looked at lifetimes when asked.

* `Call.leftOf` — what a call makes of the reply under a key, lifetimes apart.
* `found_after`, `served_after` — a call changes what is stored in just that way, up to the dead, and
  what is served from then on.
* `holds_eq_some_iff` — what is under a key after a history comes from the last reply stored there.
* `get_run` — what a cache serves after a history.
-/

/-- What can be done with a cache. -/
inductive Operation where
  | insert (question : Question) (response : Message)
  | get (question : Question)
  | remove (question : Question)
  | clear
  | purge
  deriving DecidableEq

/-- Something that is done with a cache, and the instant that the clock shows. -/
structure Call where
  time : Instant
  operation : Operation
  deriving DecidableEq

/-- The cache after a call. -/
def after (cache : Cache) (call : Call) : Cache :=
  match call.operation with
  | .insert question response => cache.insert call.time question response
  | .get question => (cache.get call.time question).2
  | .remove question => (cache.remove question).2
  | .clear => cache.clear
  | .purge => (cache.purge call.time).2

/-- The cache after the calls of a history, the earliest first. -/
def run (cache : Cache) (history : List Call) : Cache := history.foldl after cache

namespace Call

/-- Whether a call can change what is stored other than by erasing the dead. -/
def isChange (call : Call) : Bool :=
  match call.operation with
  | .insert .. | .remove _ | .clear => true
  | .get _ | .purge => false

/-- Whether a call takes away what was stored under a key, or stores something in its place. -/
def Replaces (key : Trie.Key) (call : Call) : Prop :=
  match call.operation with
  | .insert question response => key? question = some key ∧ response.lifetimeRecords ≠ []
  | .remove question => key? question = some key
  | .clear => True
  | .get _ | .purge => False

/-- What a call makes of the reply under a key, if nothing is erased for being dead. -/
def leftOf (minTtl maxTtl : UInt32) (key : Trie.Key) (call : Call) (found : Option Message) :
    Option Message :=
  match call.operation with
  | .insert question response =>
    if key? question = some key ∧ response.lifetimeRecords ≠ [] then
      some (kept minTtl maxTtl call.time response)
    else found
  | .remove question => if key? question = some key then none else found
  | .clear => none
  | .get _ | .purge => found

end Call

/-- What is under a key after a history if nothing is erased for being dead. -/
def holds (minTtl maxTtl : UInt32) (key : Trie.Key) (history : List Call) : Option Message :=
  history.foldl (fun found call => call.leftOf minTtl maxTtl key found) none

/-- That a response was stored under a key at an instant, and neither taken away nor replaced
    since then. -/
def LastStored (history : List Call) (key : Trie.Key) (time : Instant) (response : Message) : Prop :=
  ∃ earlier asked later, history = earlier ++ ⟨time, .insert asked response⟩ :: later
    ∧ key? asked = some key ∧ response.lifetimeRecords ≠ [] ∧ ∀ call ∈ later, ¬ call.Replaces key

variable {minTtl maxTtl : UInt32} {history : List Call} {key : Trie.Key} {time now : Instant}
  {response : Message}

/-! ### One call -/

/-- As long as nothing live is dropped, it makes no difference to what is served. -/
theorem filter_isLive {keeps : Message → Bool} (found : Option Message)
    (hkeeps : ∀ message, message.isLive now = true → keeps message = true) :
    (found.filter keeps).filter (Message.isLive now) = found.filter (Message.isLive now) := by
  cases found with
  | none => rfl
  | some message =>
    by_cases hlive : message.isLive now = true
    · rw [Option.filter_some (p := keeps), if_pos (hkeeps message hlive)]
    · rw [Option.filter_some (p := keeps), Option.filter_some, if_neg hlive]
      split
      · rw [Option.filter_some, if_neg hlive]
      · rfl

/-- A cache with the shape and the bounds that it started with. -/
structure Within (minTtl maxTtl : UInt32) (cache : Cache) : Prop where
  valid : cache.entries.root.Valid []
  minTtl_eq : cache.minTtl = minTtl
  maxTtl_eq : cache.maxTtl = max minTtl maxTtl

theorem within_empty (minTtl maxTtl : UInt32) : Within minTtl maxTtl (.empty minTtl maxTtl) where
  valid := Trie.Node.valid_root
  minTtl_eq := rfl
  maxTtl_eq := by
    show (if maxTtl < minTtl then minTtl else maxTtl) = if minTtl ≤ maxTtl then maxTtl else minTtl
    grind

theorem Leaves.within {cache left : Cache} {change : Trie.Key → Option Message → Option Message}
    (hleaves : cache.Leaves change left) (h : Within minTtl maxTtl cache) :
    Within minTtl maxTtl left :=
  ⟨hleaves.valid, hleaves.minTtl.trans h.minTtl_eq, hleaves.maxTtl.trans h.maxTtl_eq⟩

/-- A call changes what is stored as `leftOf` says, apart from what it erases for being dead. -/
theorem found_after {cache : Cache} (h : Within minTtl maxTtl cache) (call : Call) :
    Within minTtl maxTtl (cache.after call)
      ∧ ∀ key, ∃ keeps : Message → Bool,
        (∀ message, message.isLive call.time = true → keeps message = true)
          ∧ (cache.after call).entries.find? key
            = (call.leftOf minTtl maxTtl key (cache.entries.find? key)).filter keeps := by
  have hall : ∀ found : Option Message, found = found.filter fun _ => true := by
    rintro (_ | _) <;> rfl
  obtain ⟨time, operation⟩ := call
  cases operation with
  | insert question response =>
    show Within _ _ (cache.insert time question response)
      ∧ ∀ key, ∃ keeps : Message → Bool, _ ∧ (cache.insert time question response).entries.find? key
        = Option.filter keeps
          (if key? question = some key ∧ response.lifetimeRecords ≠ [] then
            some (kept minTtl maxTtl time response)
          else cache.entries.find? key)
    by_cases hrecords : response.lifetimeRecords = []
    · rw [insert_eq_self (Or.inl hrecords)]
      refine ⟨h, fun key => ⟨fun _ => true, fun _ _ => rfl, ?_⟩⟩
      rw [if_neg (fun hstores => hstores.2 hrecords)]
      exact hall _
    · cases hkey : key? question with
      | none =>
        rw [insert_eq_self (Or.inr hkey)]
        refine ⟨h, fun key => ⟨fun _ => true, fun _ _ => rfl, ?_⟩⟩
        rw [if_neg (by simp)]
        exact hall _
      | some under =>
        obtain ⟨due, hleaves⟩ := leaves_insert h.valid hkey hrecords time time
        refine ⟨hleaves.within h, fun key =>
          ⟨fun message => !due || message.isLive time, fun message hlive => ?_, ?_⟩⟩
        · exact (congrArg (!due || ·) hlive).trans (Bool.or_true _)
        · rw [hleaves.find, stored_eq_kept h.minTtl_eq h.maxTtl_eq]
          simp only [Option.some.injEq, ne_eq, hrecords, not_false_eq_true, and_true,
            eq_comm (a := key)]
  | get question =>
    obtain ⟨_, hleaves⟩ := leaves_get h.valid time question
    refine ⟨hleaves.within h, fun key => ?_⟩
    by_cases hkey : key? question = some key
    · exact ⟨_, fun _ hlive => hlive, (hleaves.find key).trans (if_pos hkey)⟩
    · exact ⟨_, fun _ _ => rfl, ((hleaves.find key).trans (if_neg hkey)).trans (hall _)⟩
  | remove question =>
    have hleaves := leaves_remove h.valid question
    exact ⟨hleaves.within h, fun key => ⟨_, fun _ _ => rfl, (hleaves.find key).trans (hall _)⟩⟩
  | clear =>
    have hleaves := leaves_clear h.valid
    exact ⟨hleaves.within h, fun key => ⟨_, fun _ _ => rfl, (hleaves.find key).trans (hall _)⟩⟩
  | purge =>
    have hleaves := leaves_purge h.valid time
    exact ⟨hleaves.within h, fun key => ⟨_, fun _ hlive => hlive, hleaves.find key⟩⟩

/-- **A step.** A call changes what is served from then on as it changes what is stored. -/
theorem served_after {cache : Cache} (h : Within minTtl maxTtl cache) (call : Call) :
    Within minTtl maxTtl (cache.after call)
      ∧ ∀ key now, call.time ≤ now →
        ((cache.after call).entries.find? key).filter (Message.isLive now)
          = (call.leftOf minTtl maxTtl key (cache.entries.find? key)).filter (Message.isLive now) := by
  obtain ⟨hwithin, hfound⟩ := found_after h call
  refine ⟨hwithin, fun key now hle => ?_⟩
  obtain ⟨keeps, hkeeps, hfind⟩ := hfound key
  rw [hfind]
  exact filter_isLive _ fun message hlive => hkeeps message (Message.isLive_of_le hle hlive)

/-! ### What is stored -/

namespace Call

variable {call : Call}

theorem leftOf_of_not_replaces (h : ¬ call.Replaces key) (found : Option Message) :
    call.leftOf minTtl maxTtl key found = found := by
  unfold Replaces at h
  unfold leftOf
  split at h <;> simp_all

theorem leftOf_of_replaces (h : call.Replaces key) (found found' : Option Message) :
    call.leftOf minTtl maxTtl key found = call.leftOf minTtl maxTtl key found' := by
  unfold Replaces at h
  unfold leftOf
  split at h <;> simp_all

/-- A call that replaces what is under a key leaves something there if it stores it. -/
theorem leftOf_eq_some_iff (h : call.Replaces key) {found : Option Message} {reply : Message} :
    call.leftOf minTtl maxTtl key found = some reply
      ↔ ∃ asked response, call = ⟨call.time, .insert asked response⟩ ∧ key? asked = some key
          ∧ response.lifetimeRecords ≠ [] ∧ reply = kept minTtl maxTtl call.time response := by
  obtain ⟨time, operation⟩ := call
  cases operation with
  | insert question response =>
    have hstores : key? question = some key ∧ response.lifetimeRecords ≠ [] := h
    show (if _ then _ else _) = _ ↔ _
    rw [if_pos hstores]
    constructor
    · intro heq
      exact ⟨question, response, rfl, hstores.1, hstores.2, (Option.some.inj heq).symm⟩
    · rintro ⟨_, _, heq, -, -, rfl⟩
      obtain ⟨-, rfl⟩ := Operation.insert.inj (Call.mk.inj heq).2
      rfl
  | get | purge => exact h.elim
  | remove question =>
    have hremoved : key? question = some key := h
    simp [leftOf, hremoved]
  | clear => simp [leftOf]

end Call

/-- The last reply stored under a key, when the history goes on. -/
theorem lastStored_append (call : Call) :
    LastStored (history ++ [call]) key time response
      ↔ (∃ asked, call = ⟨time, .insert asked response⟩ ∧ key? asked = some key
          ∧ response.lifetimeRecords ≠ [])
        ∨ ¬ call.Replaces key ∧ LastStored history key time response := by
  constructor
  · rintro ⟨earlier, asked, later, heq, hkey, hrecords, hlater⟩
    rcases List.eq_nil_or_concat later with rfl | ⟨later, last, rfl⟩
    · obtain ⟨-, hcall⟩ := List.append_inj' heq rfl
      exact Or.inl ⟨asked, List.singleton_inj.mp hcall, hkey, hrecords⟩
    · rw [List.concat_eq_append, ← List.cons_append, ← List.append_assoc] at heq
      obtain ⟨hhistory, hcall⟩ := List.append_inj' heq rfl
      obtain rfl := List.singleton_inj.mp hcall
      rw [List.concat_eq_append] at hlater
      exact Or.inr ⟨hlater call (by simp), earlier, asked, later, hhistory, hkey, hrecords,
        fun other hother => hlater other (by simp [hother])⟩
  · rintro (⟨asked, rfl, hkey, hrecords⟩ | ⟨hcall, earlier, asked, later, rfl, hkey, hrecords, hlater⟩)
    · exact ⟨history, asked, [], rfl, hkey, hrecords, by simp⟩
    · refine ⟨earlier, asked, later ++ [call], by simp, hkey, hrecords, fun other hother => ?_⟩
      rcases List.mem_append.mp hother with hother | hother
      · exact hlater other hother
      · exact List.mem_singleton.mp hother ▸ hcall

theorem holds_append (call : Call) :
    holds minTtl maxTtl key (history ++ [call])
      = call.leftOf minTtl maxTtl key (holds minTtl maxTtl key history) := by
  simp [holds]

/-- What is under a key is the last reply that was stored there. -/
theorem holds_eq_some_iff {reply : Message} :
    holds minTtl maxTtl key history = some reply
      ↔ ∃ time response, LastStored history key time response
          ∧ reply = kept minTtl maxTtl time response := by
  induction history using List.reverseRecOn with
  | nil =>
    constructor
    · intro h
      simp [holds] at h
    · rintro ⟨_, _, ⟨_, _, _, heq, _⟩, _⟩
      simp at heq
  | append_singleton history call ih =>
    simp only [holds_append, lastStored_append]
    by_cases hcall : call.Replaces key
    · rw [Call.leftOf_eq_some_iff hcall]
      constructor
      · rintro ⟨asked, response, heq, hkey, hrecords, hreply⟩
        exact ⟨call.time, response, Or.inl ⟨asked, heq, hkey, hrecords⟩, hreply⟩
      · rintro ⟨time, response, ⟨asked, rfl, hkey, hrecords⟩ | ⟨hnot, _⟩, hreply⟩
        · exact ⟨asked, response, rfl, hkey, hrecords, hreply⟩
        · exact absurd hcall hnot
    · rw [Call.leftOf_of_not_replaces hcall, ih]
      constructor
      · rintro ⟨time, response, hlast, hreply⟩
        exact ⟨time, response, Or.inr ⟨hcall, hlast⟩, hreply⟩
      · rintro ⟨time, response, ⟨asked, rfl, hkey, hrecords⟩ | ⟨-, hlast⟩, hreply⟩
        · exact absurd ⟨hkey, hrecords⟩ hcall
        · exact ⟨time, response, hlast, hreply⟩

/-- Only changes count. -/
theorem holds_filter :
    holds minTtl maxTtl key (history.filter Call.isChange) = holds minTtl maxTtl key history := by
  induction history using List.reverseRecOn with
  | nil => rfl
  | append_singleton history call ih =>
    rw [List.filter_append, holds_append]
    by_cases hcall : call.isChange = true
    · rw [List.filter_cons_of_pos hcall, List.filter_nil, holds_append, ih]
    · rw [List.filter_cons_of_neg hcall, List.filter_nil, List.append_nil, ih]
      refine (Call.leftOf_of_not_replaces ?_ _).symm
      unfold Call.isChange at hcall
      unfold Call.Replaces
      split at hcall <;> simp_all

/-! ### A history -/

theorem run_append (cache : Cache) (history : List Call) (call : Call) :
    cache.run (history ++ [call]) = (cache.run history).after call := by
  simp [run]

/-- **A run.** From the last call of a history on, the cache serves what is stored and live. -/
theorem served_run (hordered : (history.map Call.time).Pairwise (· ≤ ·)) :
    Within minTtl maxTtl ((empty minTtl maxTtl).run history)
      ∧ ∀ key now, (∀ call ∈ history, call.time ≤ now) →
        (((empty minTtl maxTtl).run history).entries.find? key).filter (Message.isLive now)
          = (holds minTtl maxTtl key history).filter (Message.isLive now) := by
  induction history using List.reverseRecOn with
  | nil => exact ⟨within_empty minTtl maxTtl, fun key now _ => congrArg _ (find?_empty key)⟩
  | append_singleton history call ih =>
    rw [List.map_append, List.pairwise_append] at hordered
    obtain ⟨hearlier, -, -⟩ := hordered
    obtain ⟨hwithin, hserved⟩ := ih hearlier
    obtain ⟨hwithin', hstep⟩ := served_after hwithin call
    rw [run_append]
    refine ⟨hwithin', fun key now hnow => ?_⟩
    rw [hstep key now (hnow call (by simp)), holds_append]
    by_cases hcall : call.Replaces key
    · rw [Call.leftOf_of_replaces hcall]
    · rw [Call.leftOf_of_not_replaces hcall, Call.leftOf_of_not_replaces hcall]
      exact hserved key now fun earlier hearlier => hnow earlier (by simp [hearlier])

/-- A lookup after a history finds what is stored and live. -/
theorem get_run_eq (hordered : (history.map Call.time ++ [now]).Pairwise (· ≤ ·))
    (question : Question) :
    (((empty minTtl maxTtl).run history).get now question).1
      = ((key? question).bind fun key => holds minTtl maxTtl key history).filter
          (Message.isLive now) := by
  obtain ⟨hcalls, -, hnow⟩ := List.pairwise_append.mp hordered
  obtain ⟨hwithin, hserved⟩ := served_run hcalls
  rw [(leaves_get hwithin.valid now question).1]
  cases key? question with
  | none => rfl
  | some key =>
    exact hserved key now fun call hcall => hnow _ (List.mem_map_of_mem hcall) now (by simp)

/-- **What a cache serves.** As long as the clock does not go back, a lookup after any history
    finds the reply that was last stored under the key of its question, if each of its
    lifetime records has a whole second left: with every lifetime within the bounds and
    counted from the storing on, and as it came otherwise.  So nothing is served that was
    stored as many seconds ago as the upper bound says, and neither purges nor lookups make
    any difference, wherever they come in the history. -/
theorem get_run (minTtl maxTtl : UInt32) (history : List Call) (question : Question) (now : Instant)
    (hordered : (history.map Call.time ++ [now]).Pairwise (· ≤ ·)) :
    (∀ reply, (((empty minTtl maxTtl).run history).get now question).1 = some reply
        ↔ ∃ key time response, key? question = some key ∧ LastStored history key time response
          ∧ (∀ record ∈ response.lifetimeRecords,
              now + Instant.second
                ≤ time + (lifetime minTtl maxTtl time record).toNat * Instant.second)
          ∧ reply = kept minTtl maxTtl time response)
      ∧ (∀ key time response, key? question = some key → LastStored history key time response →
          time + (max minTtl maxTtl).toNat * Instant.second ≤ now →
          (((empty minTtl maxTtl).run history).get now question).1 = none)
      ∧ ∀ other : List Call, (other.map Call.time ++ [now]).Pairwise (· ≤ ·) →
          other.filter Call.isChange = history.filter Call.isChange →
          (((empty minTtl maxTtl).run other).get now question).1
            = (((empty minTtl maxTtl).run history).get now question).1 := by
  refine ⟨fun reply => ?_, ?_, ?_⟩
  · rw [get_run_eq hordered, Option.filter_eq_some_iff]
    simp only [Option.bind_eq_some_iff, holds_eq_some_iff]
    constructor
    · rintro ⟨⟨key, hkey, time, response, hlast, rfl⟩, hlive⟩
      exact ⟨key, time, response, hkey, hlast, isLive_kept_iff.mp hlive, rfl⟩
    · rintro ⟨key, time, response, hkey, hlast, hleft, rfl⟩
      exact ⟨⟨key, hkey, time, response, hlast, rfl⟩, isLive_kept_iff.mpr hleft⟩
  · intro key time response hkey hlast hnow
    have hholds : holds minTtl maxTtl key history = some (kept minTtl maxTtl time response) :=
      holds_eq_some_iff.mpr ⟨time, response, hlast, rfl⟩
    obtain ⟨_, _, _, _, _, hrecords, _⟩ := hlast
    rw [get_run_eq hordered, hkey, Option.bind_some, hholds, Option.filter_some,
      not_isLive_kept hrecords hnow]
    rfl
  · intro other hother hsame
    rw [get_run_eq hother, get_run_eq hordered]
    have hholds : ∀ key, holds minTtl maxTtl key other = holds minTtl maxTtl key history :=
      fun key => by rw [← holds_filter, hsame, holds_filter]
    simp only [hholds]

/-- The question for the address of a host. -/
def hostQuestion : Question := .about ⟨['a']⟩ .a

/-- A reply to it with an address for five seconds. -/
def hostReply : Message where
  header := { isResponse := true, questions := 1, answers := 1 }
  questions := [hostQuestion]
  answers := [⟨⟨['a']⟩, .a, .internet, 5, none, .a ⟨192, 0, 2, 1⟩⟩]

/-- With ten seconds as the lower bound, the reply is still served after nine seconds, and a purge
    on the way does not matter. -/
theorem get_run_purged :
    (((empty 10 300).run [⟨0, .insert hostQuestion hostReply⟩, ⟨3 * Instant.second, .purge⟩]).get
        (9 * Instant.second) hostQuestion).1
      = some (kept 10 300 0 hostReply) := by
  refine ((get_run 10 300 _ hostQuestion (9 * Instant.second) (by decide)).1 _).mpr
    ⟨[1, 97, 0, 0, 1, 0, 1], 0, hostReply, by cbv,
      ⟨[], hostQuestion, [⟨3 * Instant.second, .purge⟩], rfl, by cbv, by decide, ?_⟩, ?_, rfl⟩
  · intro call hcall
    obtain rfl := List.mem_singleton.mp hcall
    exact id
  · decide

end DnsResolver.Cache
