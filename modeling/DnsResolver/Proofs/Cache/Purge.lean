import DnsResolver.Proofs.Cache.History

namespace DnsResolver

/-!
# Purges

A purge goes over all stored replies and erases the dead ones from the trie, one after the other.
That leaves the live ones as they were, and nothing for a second purge to do.

* `Message.Lasts` — that a whole second is left to each record that decides a lifetime.
* `Cache.mem_entries_purge`, `Cache.length_entries_purge` — what a purge leaves, and what it counts.
* `Cache.inserts_run` — the number of stored replies is counted.
* `Cache.purge_run` — purges after a history, and those that an insertion starts.
-/

/-- That each lifetime record expires, and that a whole second is left to it at an instant. -/
def Message.Lasts (now : Instant) (message : Message) : Prop :=
  ∀ record ∈ message.lifetimeRecords,
    ∃ expiry, record.expires = some expiry ∧ now + Instant.second ≤ expiry

namespace Cache

variable {minTtl maxTtl : UInt32} {history : List Call} {key : Trie.Key} {time now : Instant}
  {response reply : Message} {entry : Trie.Entry Message}

/-- A reply that is kept is live as long as it lasts: each of its records expires. -/
theorem isLive_kept_iff_lasts :
    (kept minTtl maxTtl time response).isLive now = true
      ↔ (kept minTtl maxTtl time response).Lasts now := by
  rw [Message.isLive_iff, Message.Lasts, kept, Message.lifetimeRecords_mapRecords,
    List.forall_mem_map, List.forall_mem_map]
  refine forall₂_congr fun record _ => (Record.ttlAt_pos_iff rfl now).trans ?_
  simp

/-! ### One purge -/

section Valid

variable {cache : Cache} (h : cache.entries.root.Valid [])
include h

/-- A purge leaves the live replies, as they are. -/
theorem mem_entries_purge :
    entry ∈ (cache.purge now).2.entries.entries
      ↔ entry ∈ cache.entries.entries ∧ entry.value.isLive now = true := by
  have hleaves := leaves_purge h now
  rw [← Trie.find?_eq_some_iff hleaves.valid, hleaves.find, Option.filter_eq_some_iff,
    Trie.find?_eq_some_iff h]

/-- It counts the replies that it erases. -/
theorem length_entries_purge :
    (cache.purge now).1 + (cache.purge now).2.entries.entries.length
      = cache.entries.entries.length := by
  have hcount : (cache.purge now).1
      = (cache.entries.entries.filter fun entry => !entry.value.isLive now).length :=
    (Trie.eraseWhere_spec h fun _ response => !response.isLive now).2.2
  have hleft : (cache.purge now).2.entries.entries.Perm
      (cache.entries.entries.filter fun entry => entry.value.isLive now) := by
    -- The keys are distinct, so entries with the same members are equally many.
    have hnodup : ∀ {trie : Trie Message}, trie.root.Valid [] → trie.entries.Nodup := fun hvalid =>
      List.Nodup.of_map _ hvalid.nodup_keys
    refine (List.perm_ext_iff_of_nodup (hnodup (leaves_purge h now).valid)
      ((hnodup h).sublist List.filter_sublist)).mpr fun entry => ?_
    rw [mem_entries_purge h, List.mem_filter]
  rw [hcount, hleft.length_eq, Nat.add_comm]
  exact (List.length_eq_length_filter_add _).symm

/-- A second purge at the same instant has nothing to do. -/
theorem purge_purge : ((cache.purge now).2.purge now).1 = 0 := by
  have hvalid := (leaves_purge h now).valid
  have hcount : ((cache.purge now).2.purge now).1
      = ((cache.purge now).2.entries.entries.filter fun entry => !entry.value.isLive now).length :=
    (Trie.eraseWhere_spec hvalid fun _ response => !response.isLive now).2.2
  rw [hcount, List.length_eq_zero_iff, List.filter_eq_nil_iff]
  intro entry hentry
  rw [((mem_entries_purge h).mp hentry).2]
  exact Bool.false_ne_true

/-- Right after an insertion that starts a purge every reply is live. -/
theorem isLive_of_mem_insert {question : Question} (hkey : key? question = some key)
    (hrecords : response.lifetimeRecords ≠ []) (hdue : (cache.inserts + 1) % purgeInterval = 0)
    (hentry : entry ∈ (cache.insert now question response).entries.entries) :
    entry.value.isLive now = true := by
  rw [insert_eq hkey hrecords, if_pos hdue] at hentry
  exact ((mem_entries_purge (leaves_filled h now key response).valid).mp hentry).2

end Valid

/-! ### A history -/

theorem insert_run (cache : Cache) (question : Question) :
    (cache.run history).insert time question response
      = cache.run (history ++ [⟨time, .insert question response⟩]) :=
  (run_append cache history ⟨time, .insert question response⟩).symm

/-- Whether a call stores a reply. -/
def Call.stores (call : Call) : Bool :=
  match call.operation with
  | .insert question response => (key? question).isSome && !response.lifetimeRecords.isEmpty
  | _ => false

theorem inserts_after (cache : Cache) (call : Call) :
    (cache.after call).inserts = cache.inserts + call.stores.toNat := by
  obtain ⟨time, operation⟩ := call
  cases operation with
  | insert question response =>
    show (cache.insert time question response).inserts
      = cache.inserts + ((key? question).isSome && !response.lifetimeRecords.isEmpty).toNat
    by_cases hrecords : response.lifetimeRecords = []
    · rw [insert_eq_self (Or.inl hrecords), hrecords]
      simp
    · cases hkey : key? question with
      | none =>
        rw [insert_eq_self (Or.inr hkey)]
        rfl
      | some key =>
        have hstores : response.lifetimeRecords.isEmpty = false := by simpa using hrecords
        rw [insert_eq hkey hrecords, hstores]
        split <;> rfl
  | get question =>
    show (cache.get time question).2.inserts = _
    unfold get
    split
    · rfl
    · split
      · rfl
      · split <;> rfl
  | remove question =>
    show (cache.remove question).2.inserts = _
    unfold remove
    split
    · rfl
    · split <;> rfl
  | clear => rfl
  | purge => rfl

/-- The number of stored replies is counted. -/
theorem inserts_run :
    ((empty minTtl maxTtl).run history).inserts = history.countP Call.stores := by
  induction history using List.reverseRecOn with
  | nil => rfl
  | append_singleton history call ih =>
    rw [run_append, inserts_after, ih, List.countP_append]
    cases hstores : call.stores <;> simp [hstores]

/-- Whatever is stored after a history was stored last under its key. -/
theorem found_run :
    Within minTtl maxTtl ((empty minTtl maxTtl).run history)
      ∧ ∀ key reply, ((empty minTtl maxTtl).run history).entries.find? key = some reply →
          holds minTtl maxTtl key history = some reply := by
  -- The last call works on what the calls in front of it left, so the induction is from the back.
  induction history using List.reverseRecOn with
  | nil => exact ⟨within_empty minTtl maxTtl, fun key reply h => h ▸ (find?_empty key).symm⟩
  | append_singleton history call ih =>
    obtain ⟨hwithin, hholds⟩ := ih
    obtain ⟨hwithin', hfound⟩ := found_after hwithin call
    rw [run_append]
    refine ⟨hwithin', fun key reply hreply => ?_⟩
    obtain ⟨keeps, -, hfind⟩ := hfound key
    rw [hfind, Option.filter_eq_some_iff] at hreply
    rw [holds_append, ← hreply.1]
    by_cases hcall : call.Replaces key
    · exact Call.leftOf_of_replaces hcall _ _
    · -- A call that does not replace the reply may drop it, but not change it.
      have hbefore := (Call.leftOf_of_not_replaces hcall _).symm.trans hreply.1
      rw [hholds key reply hbefore, hbefore]

/-- A stored reply is the last one that was stored under its key, as it is kept. -/
theorem exists_of_mem_run (h : entry ∈ ((empty minTtl maxTtl).run history).entries.entries) :
    ∃ time response, LastStored history entry.key time response
      ∧ entry.value = kept minTtl maxTtl time response := by
  obtain ⟨hwithin, hholds⟩ := @found_run minTtl maxTtl history
  exact holds_eq_some_iff.mp (hholds _ _ ((Trie.find?_eq_some_iff hwithin.valid).mpr h))

/-- **Purges.** After any history each stored reply is one that was stored, with all lifetimes
    running from then on.  A purge erases exactly those with a lifetime record that no whole second
    is left to, counts them, and leaves the others as they are; a second one at the same instant
    erases nothing.  An insertion whose number is a multiple of 512 leaves only replies that last. -/
theorem purge_run (minTtl maxTtl : UInt32) (history : List Call) (now : Instant) :
    (∀ entry ∈ ((empty minTtl maxTtl).run history).entries.entries,
        ∃ time response, LastStored history entry.key time response
          ∧ entry.value = kept minTtl maxTtl time response)
      ∧ (∀ entry, entry ∈ (((empty minTtl maxTtl).run history).purge now).2.entries.entries
          ↔ entry ∈ ((empty minTtl maxTtl).run history).entries.entries ∧ entry.value.Lasts now)
      ∧ (∀ key, (((empty minTtl maxTtl).run history).purge now).2.entries.find? key
          = (((empty minTtl maxTtl).run history).entries.find? key).filter (Message.isLive now))
      ∧ (((empty minTtl maxTtl).run history).purge now).1
          + (((empty minTtl maxTtl).run history).purge now).2.entries.entries.length
        = ((empty minTtl maxTtl).run history).entries.entries.length
      ∧ ((((empty minTtl maxTtl).run history).purge now).2.purge now).1 = 0
      ∧ ∀ question response key, key? question = some key → response.lifetimeRecords ≠ [] →
          (history.countP Call.stores + 1) % purgeInterval = 0 →
          ∀ entry ∈ (((empty minTtl maxTtl).run history).insert now question response).entries.entries,
            entry.value.Lasts now := by
  have hvalid := (@found_run minTtl maxTtl history).1.valid
  have hlasts : ∀ {history : List Call} {entry : Trie.Entry Message},
      entry ∈ ((empty minTtl maxTtl).run history).entries.entries →
      (entry.value.isLive now = true ↔ entry.value.Lasts now) := fun hentry => by
    obtain ⟨time, response, -, hreply⟩ := exists_of_mem_run hentry
    rw [hreply, isLive_kept_iff_lasts]
  refine ⟨fun entry => exists_of_mem_run, fun entry => ?_, (leaves_purge hvalid now).find,
    length_entries_purge hvalid, purge_purge hvalid, ?_⟩
  · rw [mem_entries_purge hvalid]
    exact and_congr_right hlasts
  · intro question response key hkey hrecords hdue entry hentry
    -- The insertion is one more call of the history, so its entries are kept replies as well.
    rw [← inserts_run] at hdue
    have hlive := isLive_of_mem_insert hvalid hkey hrecords hdue hentry
    rw [insert_run] at hentry
    exact (hlasts hentry).mp hlive

/-- The reply to a question is stored 511 times, for five seconds.  When the reply to another one is
    stored after ten seconds, a purge is due, and the first one is gone. -/
theorem purge_run_due :
    (List.replicate 511 (⟨0, .insert hostQuestion hostReply⟩ : Call)).countP Call.stores + 1
        = purgeInterval
      ∧ (((empty 0 300).run (List.replicate 511 ⟨0, .insert hostQuestion hostReply⟩)).insert
          (10 * Instant.second) (.about ⟨['b']⟩ .a) hostReply).entries.find? [1, 97, 0, 0, 1, 0, 1]
        = none := by
  have hstores : Call.stores ⟨0, .insert hostQuestion hostReply⟩ = true := by cbv
  have hcount : (List.replicate 511 (⟨0, .insert hostQuestion hostReply⟩ : Call)).countP Call.stores + 1
      = purgeInterval := by
    rw [List.countP_replicate, if_pos hstores]
    rfl
  have hother : key? (.about ⟨['b']⟩ .a) = some [1, 98, 0, 0, 1, 0, 1] := by cbv
  obtain ⟨-, -, -, -, -, hdue⟩ :=
    purge_run 0 300 (List.replicate 511 ⟨0, .insert hostQuestion hostReply⟩) (10 * Instant.second)
  have hlasts := hdue (.about ⟨['b']⟩ .a) hostReply _ hother (by decide) (by rw [hcount]; rfl)
  refine ⟨hcount, Option.eq_none_iff_forall_ne_some.mpr fun reply hreply => ?_⟩
  rw [insert_run] at hlasts hreply
  -- Whatever is there for the first question would have been stored at the start.
  have hentry := (Trie.find?_eq_some_iff found_run.1.valid).mp hreply
  obtain ⟨time, response, ⟨earlier, asked, later, hhistory, hkey, -⟩, hkept⟩ :=
    exists_of_mem_run hentry
  have hcall : (⟨time, .insert asked response⟩ : Call)
      ∈ List.replicate 511 ⟨0, .insert hostQuestion hostReply⟩
        ++ [⟨10 * Instant.second, .insert (.about ⟨['b']⟩ .a) hostReply⟩] := by
    rw [hhistory]
    simp
  rcases List.mem_append.mp hcall with hfirst | hlast
  · obtain ⟨rfl, hoperation⟩ := Call.mk.inj (List.eq_of_mem_replicate hfirst)
    obtain ⟨-, rfl⟩ := Operation.insert.inj hoperation
    have hlive := isLive_kept_iff_lasts.mpr (hkept ▸ hlasts _ hentry)
    exact absurd hlive (by decide)
  · obtain ⟨-, hoperation⟩ := Call.mk.inj (List.mem_singleton.mp hlast)
    obtain ⟨rfl, -⟩ := Operation.insert.inj hoperation
    have hsame : some ([1, 98, 0, 0, 1, 0, 1] : Trie.Key) = some [1, 97, 0, 0, 1, 0, 1] :=
      hother.symm.trans hkey
    exact absurd hsame (by decide)

end Cache

end DnsResolver
