import DnsResolver.Cache

namespace DnsResolver

/-!
# Lifetimes of cached replies

How the time that is left to a record runs down, and what that means for a reply.

* `Record.ttlAt_pos_iff` — a pinned record has time left as long as a whole second is left.
* `Message.isLive_of_le` — a reply that is live was live before.
* `Cache.isLive_kept_iff` — how long a reply is live after it was stored.
-/

namespace Record

/-- A pinned record has time left as long as a whole second is left until it expires. -/
theorem ttlAt_pos_iff {record : Record} {expiry : Instant} (hexpires : record.expires = some expiry)
    (now : Instant) : 0 < record.ttlAt now ↔ now + Instant.second ≤ expiry := by
  have hseconds : ∀ left : Int, 0 < (min (left / 1000000000).toNat 4294967295) % 4294967296
      ↔ 1000000000 ≤ left := by omega
  have hleft : now + Instant.second ≤ expiry ↔ Instant.second ≤ expiry - now :=
    ⟨Int.le_sub_left_of_add_le, Int.add_le_of_le_sub_left⟩
  rw [hleft, ttlAt, hexpires]
  exact hseconds (expiry - now)

/-- The time that is left to a record only gets shorter. -/
theorem ttlAt_pos_of_le (record : Record) {now later : Instant} (hle : now ≤ later)
    (hlater : 0 < record.ttlAt later) : 0 < record.ttlAt now := by
  cases hexpires : record.expires with
  | none =>
    rw [ttlAt, hexpires] at hlater ⊢
    exact hlater
  | some expiry =>
    rw [ttlAt_pos_iff hexpires] at hlater ⊢
    exact Int.le_trans (Int.add_le_add_right hle Instant.second) hlater

end Record

namespace Message

theorem isLive_iff (now : Instant) (message : Message) :
    message.isLive now = true ↔ ∀ record ∈ message.lifetimeRecords, 0 < record.ttlAt now := by
  simp [isLive]

/-- A reply that is live was live before. -/
theorem isLive_of_le {message : Message} {now later : Instant} (hle : now ≤ later)
    (hlater : message.isLive later = true) : message.isLive now = true := by
  rw [isLive_iff] at hlater ⊢
  exact fun record hrecord => record.ttlAt_pos_of_le hle (hlater record hrecord)

@[simp] theorem lifetimeRecords_mapRecords (change : Record → Record) (message : Message) :
    (message.mapRecords change).lifetimeRecords = message.lifetimeRecords.map change := by
  unfold lifetimeRecords mapRecords
  cases message.answers <;> rfl

end Message

namespace Cache

/-- The lifetime, in seconds, that a record gets when it is stored at an instant. -/
def lifetime (minTtl maxTtl : UInt32) (now : Instant) (record : Record) : UInt32 :=
  max minTtl (min (record.ttlAt now) (max minTtl maxTtl))

/-- A reply as it is kept: each record has its lifetime within the bounds, and expires that
    many seconds after the reply was stored. -/
def kept (minTtl maxTtl : UInt32) (now : Instant) (response : Message) : Message :=
  response.mapRecords fun record =>
    { record with
      ttl := lifetime minTtl maxTtl now record
      expires := some (now + (lifetime minTtl maxTtl now record).toNat * Instant.second) }

section Bounds

variable {minTtl maxTtl : UInt32} {time now : Instant} {response : Message}

private theorem max_eq (a b : UInt32) : max a b = if a ≤ b then b else a := rfl

private theorem min_eq (a b : UInt32) : min a b = if a ≤ b then a else b := rfl

theorem lifetime_le (minTtl maxTtl : UInt32) (now : Instant) (record : Record) :
    lifetime minTtl maxTtl now record ≤ max minTtl maxTtl := by
  grind [lifetime, max_eq, min_eq]

theorem stored_eq_kept {cache : Cache} (hmin : cache.minTtl = minTtl)
    (hmax : cache.maxTtl = max minTtl maxTtl) (now : Instant) (response : Message) :
    cache.stored now response = kept minTtl maxTtl now response := by
  have hclamp : ∀ record : Record,
      cache.clamp (record.ttlAt now) = lifetime minTtl maxTtl now record := by
    grind [clamp, lifetime, max_eq, min_eq]
  simp only [stored, hclamp]
  rfl

/-- A reply is live as long as a whole second is left to each of its lifetime records. -/
theorem isLive_kept_iff :
    (kept minTtl maxTtl time response).isLive now = true
      ↔ ∀ record ∈ response.lifetimeRecords,
          now + Instant.second
            ≤ time + (lifetime minTtl maxTtl time record).toNat * Instant.second := by
  rw [Message.isLive_iff, kept, Message.lifetimeRecords_mapRecords, List.forall_mem_map]
  exact forall₂_congr fun record _ => Record.ttlAt_pos_iff rfl now

/-- No reply outlives the upper bound. -/
theorem not_isLive_kept (hrecords : response.lifetimeRecords ≠ [])
    (hnow : time + (max minTtl maxTtl).toNat * Instant.second ≤ now) :
    (kept minTtl maxTtl time response).isLive now = false := by
  refine Bool.eq_false_iff.mpr fun hlive => ?_
  obtain ⟨record, hrecord⟩ := List.exists_mem_of_ne_nil _ hrecords
  have hleft := isLive_kept_iff.mp hlive record hrecord
  have hbound : ((lifetime minTtl maxTtl time record).toNat : Int) ≤ (max minTtl maxTtl).toNat :=
    Int.ofNat_le.mpr (UInt32.le_iff_toNat_le.mp (lifetime_le minTtl maxTtl time record))
  have hexpiry : now + Instant.second ≤ now := calc
    now + Instant.second
      ≤ time + (lifetime minTtl maxTtl time record).toNat * Instant.second := hleft
    _ ≤ time + (max minTtl maxTtl).toNat * Instant.second :=
      Int.add_le_add_left (Int.mul_le_mul_of_nonneg_right hbound (by decide)) _
    _ ≤ now := hnow
  exact absurd hexpiry (Int.not_le.mpr (Int.lt_add_of_pos_right now (by decide)))

end Bounds

end Cache

end DnsResolver
