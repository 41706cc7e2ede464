import DnsResolver.Message.Basic
import DnsResolver.Proofs.Name.Grammar
import DnsResolver.Proofs.Wire.Confined
import Mathlib

namespace DnsResolver

open Reader

/-!
# What a decoded message depends on

Every step of reading a message is confined: names because a pointer leads in front of itself
and nothing reaches across it, payloads because their length is checked before they are read.

* `Name.confined_read`, `RecordData.confined_read` — the two steps that are not built from
  confined ones.
* `Message.decode_prefix` — a message is decided by the octets that it consumes, and any
  shorter part of them ends too early.
-/

namespace Name

/-- Reading a name depends on nothing behind it. -/
theorem confined_read : Confined Name.read := by
  intro data pos name stop hpos h
  unfold Name.read at h
  cases hfrom : readFrom data maxJumps pos [] none with
  | error error =>
    rw [hfrom] at h
    exact absurd h (by simp)
  | ok found =>
    obtain ⟨labels, next⟩ := found
    rw [hfrom] at h
    obtain ⟨rfl, rfl⟩ : ofLabels labels = name ∧ next = stop := by simpa using h
    obtain ⟨used, hused, hspelled⟩ := readFrom_eq_ok_iff.mp hfrom
    -- The derivation of the name needs only octets in front of its end.
    have hbelow := hspelled.confined
    refine ⟨Nat.le_of_lt hspelled.pos_lt_stop, hspelled.stop_le_size, ?_, ?_⟩
    · intro data' hagrees hsize
      have hspelled' := hbelow.mono (hagrees.below_within hsize)
      simp only [Name.read, readFrom_eq_ok_iff.mpr ⟨used, hused, hspelled'⟩]
    · intro data' hagrees _ hcut
      rcases readFrom_of_spelled_cut hspelled hused (hagrees.within hcut) [] none with hok | ⟨offset, herror⟩
      · -- The name would be there, and nothing of it is missing.
        obtain ⟨_, _, hspelled'⟩ := readFrom_eq_ok_iff.mp hok
        have := hspelled'.stop_le_size
        simp only [Option.getD_none] at this
        omega
      · exact ⟨offset, pos, by simp only [Name.read, herror]⟩

end Name

namespace RecordData

theorem confined_readStrings (stop bound : Nat) (seen : List String) :
    Confined (readStrings stop bound seen) := by
  induction bound generalizing seen with
  | zero => exact .pure _
  | succ bound ih =>
    refine Confined.position.bind fun pos => ?_
    split
    · exact Confined.octet.bind fun length => (Confined.octets _).bind fun chunk => ih _
    · exact .pure _

theorem confined_readAddress (type : RecordType) (length : Nat)
    (address? : List UInt8 → Option RecordData) : Confined (readAddress type length address?) := by
  refine (Confined.octets length).bind fun octets => ?_
  cases address? octets.toList with
  | some data => exact .pure _
  | none => exact .fail _

theorem confined_readAuthority : Confined readAuthority :=
  Name.confined_read.bind fun _ => Name.confined_read.bind fun _ => Confined.long.bind fun _ =>
    Confined.long.bind fun _ => Confined.long.bind fun _ => Confined.long.bind fun _ =>
      Confined.long.bind fun _ => .pure _

theorem confined_readExchange : Confined readExchange :=
  Confined.word.bind fun _ => Name.confined_read.bind fun _ => .pure _

theorem confined_readBody (type : RecordType) (length stop : Nat) :
    Confined (readBody type length stop) := by
  cases type with
  | a | aaaa =>
    rw [readBody]
    exact confined_readAddress _ _ _
  | ns | cname | ptr => exact Name.confined_read.map _
  | soa => exact confined_readAuthority.map _
  | mx => exact confined_readExchange.map _
  | txt => exact (confined_readStrings _ _ _).bind fun _ => .pure _
  | any | unknown _ => exact (Confined.octets _).map _

/-- Reading a payload checks that it is there, reads its body, checks that the body did not go
    on behind it, and continues at its end. -/
theorem read_apply (type : RecordType) (length : Nat) (data : Octets) (pos : Nat) :
    RecordData.read type length data pos
      = if data.size - pos < length then .error (.endOfStream (pos + length)) pos
        else match readBody type length (pos + length) data pos with
          | .ok found reached =>
            if pos + length < reached then .error (.endOfStream reached) reached
            else .ok found (pos + length)
          | .error error reached => .error error reached := by
  simp only [RecordData.read, bind_apply, Reader.position, Reader.remaining]
  by_cases hlength : data.size - pos < length
  · rw [if_pos hlength, if_pos hlength]
    rfl
  · rw [if_neg hlength, if_neg hlength, bind_apply]
    cases readBody type length (pos + length) data pos with
    | error => rfl
    | ok found reached =>
      simp only [bind_apply, Reader.position]
      by_cases hreached : pos + length < reached
      · rw [if_pos hreached, if_pos hreached]
        rfl
      · rw [if_neg hreached, if_neg hreached]
        rfl

/-- Reading a payload depends on nothing behind it. -/
theorem confined_read (type : RecordType) (length : Nat) :
    Confined (RecordData.read type length) := by
  intro data pos found stop hpos h
  rw [read_apply] at h
  by_cases hlength : data.size - pos < length
  · rw [if_pos hlength] at h
    exact absurd h (by simp)
  rw [if_neg hlength] at h
  cases hbody : readBody type length (pos + length) data pos with
  | error =>
    rw [hbody] at h
    exact absurd h (by simp)
  | ok value reached =>
    by_cases hreached : pos + length < reached
    · simp only [hbody, if_pos hreached] at h
      exact absurd h (by simp)
    · simp only [hbody, if_neg hreached] at h
      obtain ⟨rfl, rfl⟩ : value = found ∧ pos + length = stop := by simpa using h
      have hends := confined_readBody type length (pos + length) hpos hbody
      refine ⟨by omega, by omega, ?_, ?_⟩
      · intro data' hagrees hsize
        rw [read_apply, if_neg (by omega), hends.again data' (hagrees.mono (by omega)) (by omega)]
        simp only [if_neg hreached]
      -- Wherever the cut is, the length is not there, so the body is not read at all.
      · intro data' _ hpos' hcut
        exact ⟨pos + length, pos, by rw [read_apply, if_pos (by omega)]⟩

end RecordData

theorem Question.confined_read : Confined Question.read :=
  Name.confined_read.bind fun _ => Confined.word.bind fun _ => Confined.word.bind fun _ => .pure _

theorem Record.confined_read : Confined Record.read :=
  Name.confined_read.bind fun _ => Confined.word.bind fun _ => Confined.word.bind fun _ =>
    Confined.long.bind fun _ => Confined.word.bind fun _ =>
      (RecordData.confined_read _ _).bind fun _ => .pure _

theorem Header.confined_read : Confined Header.read :=
  Confined.word.bind fun _ => Confined.word.bind fun _ => Confined.word.bind fun _ =>
    Confined.word.bind fun _ => Confined.word.bind fun _ => Confined.word.bind fun _ => .pure _

namespace Message

theorem confined_read : Confined Message.read :=
  Header.confined_read.bind fun _ => (Question.confined_read.many _).bind fun _ =>
    (Record.confined_read.many _).bind fun _ => (Record.confined_read.many _).bind fun _ =>
      (Record.confined_read.many _).bind fun _ => .pure _

theorem decode_eq_ok_iff {octets : Octets} {message : Message} :
    decode octets = .ok message ↔ ∃ stop, Message.read octets 0 = .ok message stop := by
  unfold decode Reader.run
  cases Message.read octets 0 <;> simp

/-- **Prefix decision.** A message that is read from octets is decided by those in front of the
    place where its reading stops: whatever follows them instead, the same message is read, and
    no shorter part of them is a message, but ends too early. -/
theorem decode_prefix {octets : Octets} {message : Message} (h : decode octets = .ok message) :
    ∃ stop, Message.read octets 0 = .ok message stop ∧ stop ≤ octets.size
      ∧ (∀ octets' : Octets, stop ≤ octets'.size → (∀ i < stop, octets'[i]? = octets[i]?) →
          decode octets' = .ok message)
      ∧ ∀ k < stop, ∃ offset, decode (octets.extract 0 k) = .error (.endOfStream offset) := by
  obtain ⟨stop, hread⟩ := decode_eq_ok_iff.mp h
  have hends := confined_read (Nat.zero_le _) hread
  have hinside := hends.inside
  refine ⟨stop, hread, hinside, ?_, ?_⟩
  · intro octets' hsize hsame
    exact decode_eq_ok_iff.mpr ⟨stop, hends.again octets' (fun i hi _ => hsame i hi) hsize⟩
  · intro k hk
    have hsize : (octets.extract 0 k).size = k := by
      rw [Array.size_extract]
      omega
    have hagrees : Agrees octets (octets.extract 0 k) stop := by
      intro i _ hi
      rw [Array.getElem?_extract, if_pos (by omega), Nat.zero_add]
    -- The part of the octets is a message that is cut off at `k`.
    obtain ⟨offset, reached, herror⟩ :=
      hends.cut _ hagrees (Nat.zero_le _) (by omega)
    exact ⟨offset, by rw [decode, Reader.run, herror]⟩

/-- A reply with an alias: the owner of the record is a pointer to the name of the question,
    the target ends in one, and an octet follows that belongs to no record. -/
def aliasOctets : Octets :=
  #[0, 7, 0, 0, 0, 1, 0, 1, 0, 0, 0, 0, 1, 97, 0, 0, 1, 0, 1,
    192, 12, 0, 5, 0, 1, 0, 0, 0, 60, 0, 4, 1, 98, 192, 12, 255]

/-- The message in `aliasOctets`. -/
def aliasMessage : Message where
  header := { id := 7, questions := 1, answers := 1 }
  questions := [⟨⟨['a']⟩, .a, .internet⟩]
  answers := [⟨⟨['a']⟩, .cname, .internet, 60, none, .cname ⟨['b', '.', 'a']⟩⟩]

theorem decode_prefix_alias :
    decode aliasOctets = .ok aliasMessage
      ∧ ∃ stop, Message.read aliasOctets 0 = .ok aliasMessage stop ∧ stop ≤ aliasOctets.size
        ∧ (∀ octets' : Octets, stop ≤ octets'.size → (∀ i < stop, octets'[i]? = aliasOctets[i]?) →
            decode octets' = .ok aliasMessage)
        ∧ ∀ k < stop, ∃ offset,
            decode (aliasOctets.extract 0 k) = .error (.endOfStream offset) := by
  have h : decode aliasOctets = .ok aliasMessage := by cbv
  exact ⟨h, decode_prefix h⟩

end Message

end DnsResolver
