import DnsResolver.Cache
import DnsResolver.Proofs.Trie.Changes

namespace DnsResolver.Cache

/-!
# Changing a cache

What the operations of a cache leave under each key.

* `Leaves` — a cache after a change that is given key by key.
* `insert_eq` — an insertion that stores a reply, and the purge that may be due then.
* `leaves_get`, `leaves_remove`, `leaves_clear`, `leaves_purge`, `leaves_insert` — the operations
  as such changes.
-/

/-- That a change of a cache keeps the shape of its trie and its bounds, and changes what is
    under each key as given. -/
structure Leaves (cache : Cache) (change : Trie.Key → Option Message → Option Message)
    (after : Cache) : Prop where
  valid : after.entries.root.Valid []
  minTtl : after.minTtl = cache.minTtl
  maxTtl : after.maxTtl = cache.maxTtl
  find : ∀ key, after.entries.find? key = change key (cache.entries.find? key)

theorem find?_empty {minTtl maxTtl : UInt32} (key : Trie.Key) :
    (empty minTtl maxTtl).entries.find? key = none := by
  show Trie.empty.find? key = none
  rw [Trie.find?, Trie.empty, Trie.Node.find?_leaf _ _ rfl]
  rfl

/-- What nothing would ever end, and what has no key, is not stored. -/
theorem insert_eq_self {question : Question} {response : Message}
    (h : response.lifetimeRecords = [] ∨ key? question = none) (cache : Cache)
    (now purgeTime : Instant) : cache.insert now question response purgeTime = cache := by
  unfold insert
  rcases h with hrecords | hkey
  · rw [if_pos (by simpa using hrecords)]
  · rw [hkey]
    exact ite_self _

/-- A cache with a reply put under a key, before the purge that may be due. -/
def filled (cache : Cache) (now : Instant) (key : Trie.Key) (response : Message) : Cache :=
  { cache with
    entries := (cache.entries.set key (cache.stored now response)).2
    inserts := cache.inserts + 1 }

theorem insert_eq {question : Question} {key : Trie.Key} {response : Message}
    (hkey : key? question = some key) (hrecords : response.lifetimeRecords ≠ []) (cache : Cache)
    (now purgeTime : Instant) :
    cache.insert now question response purgeTime
      = if (cache.inserts + 1) % purgeInterval = 0 then
          ((cache.filled now key response).purge purgeTime).2
        else cache.filled now key response := by
  unfold insert
  rw [if_neg (by simpa using hrecords), hkey]
  rfl

variable {cache : Cache} (h : cache.entries.root.Valid [])
include h

theorem leaves_same : Leaves cache (fun _ found => found) cache := ⟨h, rfl, rfl, fun _ => rfl⟩

theorem leaves_erase (key : Trie.Key) :
    Leaves cache (fun other found => if other = key then none else found)
      { cache with entries := (cache.entries.erase key).2 } :=
  ⟨(Trie.erase_spec h key).1, rfl, rfl, (Trie.erase_spec h key).2.2⟩

/-- A lookup hands out the reply that is live, and erases the one that is dead. -/
theorem leaves_get (now : Instant) (question : Question) :
    (cache.get now question).1
        = ((key? question).bind cache.entries.find?).filter (Message.isLive now)
      ∧ Leaves cache
          (fun key found => if key? question = some key then found.filter (Message.isLive now) else found)
          (cache.get now question).2 := by
  cases hkey : key? question with
  | none =>
    simp only [get, hkey]
    exact ⟨rfl, by simpa using leaves_same h⟩
  | some key =>
    rw [Option.bind_some]
    cases hfind : cache.entries.find? key with
    | none =>
      simp only [get, hkey, hfind]
      refine ⟨rfl, h, rfl, rfl, fun other => ?_⟩
      split
      · next hother => rw [← Option.some.inj hother, hfind, Option.filter_none]
      · rfl
    | some response =>
      simp only [get, hkey, hfind]
      by_cases hlive : response.isLive now = true
      · rw [if_pos hlive]
        refine ⟨by rw [Option.filter_some, if_pos hlive], h, rfl, rfl, fun other => ?_⟩
        split
        · next hother => rw [← Option.some.inj hother, hfind, Option.filter_some, if_pos hlive]
        · rfl
      · rw [if_neg hlive]
        obtain ⟨hvalid, _, _, herased⟩ := leaves_erase h key
        refine ⟨by rw [Option.filter_some, if_neg hlive], hvalid, rfl, rfl, fun other => ?_⟩
        rw [herased]
        by_cases hother : key = other
        · subst hother
          rw [if_pos rfl, if_pos rfl, hfind, Option.filter_some, if_neg hlive]
        · rw [if_neg (Ne.symm hother), if_neg (fun heq => hother (Option.some.inj heq))]

theorem leaves_remove (question : Question) :
    Leaves cache (fun key found => if key? question = some key then none else found)
      (cache.remove question).2 := by
  unfold remove
  cases hkey : key? question with
  | none => simpa using leaves_same h
  | some key =>
    have herase := leaves_erase h key
    simp only [Option.some.injEq, eq_comm (a := key)]
    rcases hanswer : cache.entries.erase key with ⟨_ | _, left⟩ <;> rwa [hanswer] at herase

theorem leaves_clear : Leaves cache (fun _ _ => none) cache.clear :=
  ⟨(Trie.clear_spec h).1, rfl, rfl, (Trie.clear_spec h).2⟩

theorem leaves_purge (now : Instant) :
    Leaves cache (fun _ found => found.filter (Message.isLive now)) (cache.purge now).2 := by
  obtain ⟨hvalid, hfind, _⟩ :=
    Trie.eraseWhere_spec h fun _ response => !response.isLive now
  refine ⟨hvalid, rfl, rfl, fun key => (hfind key).trans ?_⟩
  simp only [Bool.not_not]

theorem leaves_filled (now : Instant) (key : Trie.Key) (response : Message) :
    Leaves cache
      (fun other found => if other = key then some (cache.stored now response) else found)
      (cache.filled now key response) := by
  obtain ⟨hvalid, hfind, _⟩ := Trie.upsert_spec h key fun _ => some (cache.stored now response)
  have hset : (cache.entries.set key (cache.stored now response)).2
      = (cache.entries.upsert key fun _ => some (cache.stored now response)).1 := by
    unfold Trie.set
    split <;> simp_all
  refine ⟨?_, rfl, rfl, fun other => ?_⟩
  · show (cache.entries.set key _).2.root.Valid []
    rw [hset]
    exact hvalid
  · show (cache.entries.set key _).2.find? other = _
    rw [hset, hfind, Option.some_or]

/-- An insertion puts the stored reply under its key, and may be followed by a purge. -/
theorem leaves_insert {question : Question} {key : Trie.Key} {response : Message}
    (hkey : key? question = some key) (hrecords : response.lifetimeRecords ≠ [])
    (now purgeTime : Instant) :
    ∃ due : Bool, Leaves cache
      (fun other found =>
        (if other = key then some (cache.stored now response) else found).filter
          fun response => !due || response.isLive purgeTime)
      (cache.insert now question response purgeTime) := by
  have hfilled := leaves_filled h now key response
  rw [insert_eq hkey hrecords]
  split
  · obtain ⟨hvalid, hmin, hmax, hpurged⟩ := leaves_purge hfilled.valid purgeTime
    exact ⟨true, hvalid, hmin.trans hfilled.minTtl, hmax.trans hfilled.maxTtl,
      fun other => by rw [hpurged, hfilled.find]; simp⟩
  · have hall : ∀ found : Option Message, found = found.filter fun _ => true := by
      rintro (_ | _) <;> rfl
    exact ⟨false, hfilled.valid, hfilled.minTtl, hfilled.maxTtl,
      fun other => (hfilled.find other).trans (hall _)⟩

end DnsResolver.Cache
