import DnsResolver.Message.Basic
import DnsResolver.Trie.Basic

namespace DnsResolver

/-!
# Response caches

A cache keeps replies under the wire form of their questions. On the way in the lifetime of
every record is clamped to the bounds of the cache and starts to run. A reply is served as
long as each record that decides its lifetime has a whole second left; a reply that is
found dead is erased, and every 512th stored reply erases all dead ones.
-/

/-- A cache of replies. -/
structure Cache where
  entries : Trie Message
  minTtl : UInt32
  maxTtl : UInt32
  min_le_max : minTtl ≤ maxTtl
  /-- How many replies have been stored so far. -/
  inserts : Nat

namespace Message

/-- The records that decide how long a reply lives: its answer, or the authority section of
    a reply without one. -/
def lifetimeRecords (message : Message) : List Record :=
  if message.answers.isEmpty then message.authorities else message.answers

/-- Whether every lifetime record has time left at an instant. -/
def isLive (now : Instant) (message : Message) : Bool :=
  message.lifetimeRecords.all fun record => 0 < record.ttlAt now

end Message

namespace Cache

/-- The number of stored replies from one purge to the next. -/
def purgeInterval : Nat := 512

/-- A cache without replies. When the bounds are in the wrong order both become `minTtl`. -/
def empty (minTtl maxTtl : UInt32) : Cache where
  entries := .empty
  minTtl := minTtl
  maxTtl := if maxTtl < minTtl then minTtl else maxTtl
  min_le_max := by
    split
    · exact UInt32.le_refl _
    · exact UInt32.not_lt.mp (by assumption)
  inserts := 0

/-- Whether the cache holds no reply. -/
def isEmpty (cache : Cache) : Bool := cache.entries.isEmpty

/-- The key of a question, if it has one. -/
def key? (question : Question) : Option Trie.Key :=
  match question.cacheKey with
  | .ok octets => some octets.toList
  | .error _ => none

/-- A lifetime within the bounds of the cache. -/
def clamp (cache : Cache) (ttl : UInt32) : UInt32 :=
  if ttl < cache.minTtl then cache.minTtl
  else if cache.maxTtl < ttl then cache.maxTtl
  else ttl

/-- What is kept of a reply: the lifetimes that its records have at an instant, clamped and
    running from then on. -/
def stored (cache : Cache) (now : Instant) (response : Message) : Message :=
  response.mapRecords fun record => (record.withTtl (cache.clamp (record.ttlAt now))).pin now

/-- Erases the replies that are dead at an instant, and counts them. -/
def purge (cache : Cache) (now : Instant) : Nat × Cache :=
  let (count, entries) := cache.entries.eraseWhere fun _ response => !response.isLive now
  (count, { cache with entries := entries })

/-- The live reply to a question. A dead one is erased. -/
def get (cache : Cache) (now : Instant) (question : Question) : Option Message × Cache :=
  match key? question with
  | none => (none, cache)
  | some key =>
    match cache.entries.find? key with
    | none => (none, cache)
    | some response =>
      if response.isLive now then (some response, cache)
      else (none, { cache with entries := (cache.entries.erase key).2 })

/-- Stores the reply to a question. A reply that nothing would ever end, and one to a
    question without a key, is not stored. When a purge is due it sees the replies as they
    are at `purgeTime`. -/
def insert (cache : Cache) (now : Instant) (question : Question) (response : Message)
    (purgeTime : Instant := now) : Cache :=
  if response.lifetimeRecords.isEmpty then cache
  else
    match key? question with
    | none => cache
    | some key =>
      let entries := (cache.entries.set key (cache.stored now response)).2
      let filled := { cache with entries := entries, inserts := cache.inserts + 1 }
      if filled.inserts % purgeInterval = 0 then (filled.purge purgeTime).2 else filled

/-- Erases the reply to a question, and says whether there was one. -/
def remove (cache : Cache) (question : Question) : Bool × Cache :=
  match key? question with
  | none => (false, cache)
  | some key =>
    match cache.entries.erase key with
    | (some _, entries) => (true, { cache with entries := entries })
    | (none, entries) => (false, { cache with entries := entries })

/-- Erases all replies. -/
def clear (cache : Cache) : Cache := { cache with entries := cache.entries.clear }

end Cache

end DnsResolver
