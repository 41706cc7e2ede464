import DnsResolver.Message.Record
import DnsResolver.Proofs.Message.Confined
import DnsResolver.Proofs.Wire.Encodes

namespace DnsResolver

open Writer (Extends Legible Continued)

/-!
# Payloads that were written can be read

A payload is written behind its length, which is filled in when the payload is there.  Until
then its two octets are pending; no name that is written meanwhile needs them.

* `RecordData.fold` — a payload with the names in it in lower case.
* `EncodesBody` — a writing step and the reading of the payload of a type.
* `RecordData.encodesBody` — the payloads that may be written.
* `Encodes.payload` — a payload behind its length.
-/

/-! ### Payloads that may be written -/

theorem IPv6.size_octets (ip : IPv6) : ip.octets.toArray.size = 16 := by
  have hgroups : ip.octets.length = ip.groups.length * 2 := by
    rw [octets, List.length_flatMap]
    show (ip.groups.map fun _ => 2).sum = _
    rw [List.map_const', List.sum_replicate_nat]
  simpa [ip.length_groups] using hgroups

theorem IPv6.pairOctets_octets (groups : List UInt16) :
    pairOctets (groups.flatMap fun group => [(Wire.wordOctets group).1, (Wire.wordOctets group).2])
      = some groups := by
  induction groups with
  | nil => rfl
  | cons group groups ih =>
    simp only [List.flatMap_cons, List.cons_append, List.nil_append, pairOctets, ih,
      Wire.word_wordOctets, Option.map_some]

theorem IPv6.ofOctets?_octets (ip : IPv6) : ofOctets? ip.octets = some ip := by
  rw [ofOctets?, octets, pairOctets_octets, Option.bind_some, ofGroups?, dif_pos ip.length_groups]

namespace RecordData

/-- The payload with the names in it in lower case. -/
def fold : RecordData → RecordData
  | ns host => .ns host.fold
  | cname target => .cname target.fold
  | ptr target => .ptr target.fold
  | soa authority => .soa { authority with
      primary := authority.primary.fold
      responsible := authority.responsible.fold }
  | mx exchange => .mx { exchange with exchange := exchange.exchange.fold }
  | data => data

/-- A payload that may be written: its names are ordinary, a text fits one character-string,
    and octets fit the length in front of them. -/
def Ordinary : RecordData → Prop
  | a _ | aaaa _ => True
  | ns name | cname name | ptr name => name.Ordinary
  | soa authority => authority.primary.Ordinary ∧ authority.responsible.Ordinary
  | mx exchange => exchange.exchange.Ordinary
  | txt text => text.toList.all Text.isAscii = true ∧ text.length ≤ 255
  | raw octets => octets.size ≤ 65535

/-- A type under which a payload can be read back: its own one, or for octets that are not
    interpreted one that is not interpreted. -/
def Fits (data : RecordData) (type : RecordType) : Prop :=
  match data.type? with
  | some own => type = own
  | none => type = .any ∨ ∃ code, type = .unknown code ∧ RecordType.ofCode code = .unknown code

/-- A type that a payload fits is the type of its number. -/
theorem Fits.ofCode_code {data : RecordData} {type : RecordType} (h : data.Fits type) :
    RecordType.ofCode type.code = type := by
  unfold Fits at h
  cases data with
  | raw octets =>
    rcases h with rfl | ⟨code, rfl, hcode⟩
    · rfl
    · exact hcode
  | _ =>
    obtain rfl := h
    rfl

end RecordData

/-! ### Bodies -/

/-- What `write` writes in no more octets than a length can count, the body of a payload of the
    type is read from, as one of that length. -/
def EncodesBody (write : Writing Unit) (type : RecordType) (good : RecordData → Prop) : Prop :=
  ∀ pending before, Writer.Sound pending before →
    ∃ after, write before = .ok () after ∧ Extends before after ∧ after.Sound pending
      ∧ after.size ≤ before.size + 65535
      ∧ Legible pending before after
          (RecordData.readBody type (after.size - before.size) after.size) good

namespace EncodesBody

variable {write : Writing Unit} {type : RecordType} {good : RecordData → Prop}

/-- A body whose reading does not ask for its length. -/
theorem of_encodes {read : Reader RecordData} {room : Nat} (h : Encodes write read good room)
    (hread : ∀ length stop, RecordData.readBody type length stop = read) (hroom : room ≤ 65535) :
    EncodesBody write type good := by
  intro pending before hsound
  obtain ⟨after, hwrite, hext, hafter, hsize, hlegible⟩ := h.written pending before hsound
  refine ⟨after, hwrite, hext, hafter, by omega, ?_⟩
  rw [hread]
  exact hlegible

/-- A body of given octets. -/
theorem of_octets {octets : Octets} (hsize : octets.size ≤ 65535)
    (h : ∀ before, ∃ found, good found ∧ ∀ data : Octets,
      (Known.of data).Holds before octets.toList → before + octets.size ≤ data.size →
      data.size < Reader.offsetLimit →
      RecordData.readBody type octets.size (before + octets.size) data before
        = .ok found (before + octets.size)) :
    EncodesBody (modify fun writer => writer.putOctets octets) type good := by
  intro pending before hsound
  have hext := Writer.extends_putOctets before octets
  have hafter := Writer.size_putOctets before octets
  refine ⟨before.putOctets octets, rfl, hext, hsound.of_extends hext rfl, by omega, ?_⟩
  intro data hdata
  obtain ⟨found, hgood, hread⟩ := h before.size
  have hheld := (Writer.holds_putOctets hsound.pending_lt octets).mono hdata.known
  have hinside := hdata.size_le
  rw [hafter] at hinside ⊢
  rw [Nat.add_sub_cancel_left]
  exact ⟨found, hread data hheld hinside hdata.bounded, hgood⟩

end EncodesBody

namespace RecordData

open Reader

/-- An address payload holds the octets of the address. -/
theorem readAddress_of_holds {type : RecordType} {data octets : Octets} {pos : Nat}
    {address? : List UInt8 → Option RecordData} {found : RecordData}
    (haddress : address? octets.toList = some found)
    (hheld : (Known.of data).Holds pos octets.toList) (hsize : pos + octets.size ≤ data.size)
    (hbounded : data.size < offsetLimit) :
    readAddress type octets.size address? data pos = .ok found (pos + octets.size) := by
  unfold readAddress
  rw [bind_apply, octets_of_holds hheld hsize hbounded]
  simp only [haddress]
  rfl

/-- A text is one character-string, which fills the payload. -/
theorem readStrings_of_holds {data chunk : Octets} {pos : Nat} (hlength : chunk.size ≤ 255)
    (hheld : (Known.of data).Holds pos (UInt8.ofNat chunk.size :: chunk.toList))
    (hsize : pos + (chunk.size + 1) ≤ data.size) (hbounded : data.size < offsetLimit) :
    readStrings (pos + (chunk.size + 1)) (chunk.size + 1) [] data pos
      = .ok [String.ofList (Label.ofOctets chunk)] (pos + (chunk.size + 1)) := by
  obtain ⟨hfirst, hchunk⟩ := Known.holds_cons.mp hheld
  have hcount : (UInt8.ofNat chunk.size).toNat = chunk.size := by
    rw [UInt8.toNat_ofNat', Nat.mod_eq_of_lt (by omega)]
  have hoctet : Reader.octet data pos = .ok (UInt8.ofNat chunk.size) (pos + 1) := by
    unfold Reader.octet octetAt
    rw [show data[pos]? = some _ from hfirst]
  have hoctets : Reader.octets chunk.size data (pos + 1) = .ok chunk (pos + 1 + chunk.size) :=
    octets_of_holds hchunk (by omega) hbounded
  have hposition : ∀ at', Reader.position data at' = .ok at' at' := fun _ => rfl
  -- The string ends where the payload does, so there is no second one.
  have hrest : ∀ bound, readStrings (pos + (chunk.size + 1)) bound
      [String.ofList (Label.ofOctets chunk)] data (pos + 1 + chunk.size)
        = .ok [String.ofList (Label.ofOctets chunk)] (pos + 1 + chunk.size) := by
    intro bound
    cases bound with
    | zero => rfl
    | succ bound =>
      rw [readStrings, bind_apply, hposition]
      show (if pos + 1 + chunk.size < pos + (chunk.size + 1) then _ else _ : Reader _) _ _ = _
      rw [if_neg (by omega)]
      rfl
  -- The first string starts in front of the end, so one is read.
  rw [readStrings, bind_apply, hposition]
  show (if pos < pos + (chunk.size + 1) then _ else _ : Reader _) _ _ = _
  rw [if_pos (by omega), bind_apply, hoctet]
  show (Reader.octets (UInt8.ofNat chunk.size).toNat >>= _ : Reader _) _ _ = _
  rw [hcount, bind_apply, hoctets]
  have hend := hrest chunk.size
  rw [show pos + 1 + chunk.size = pos + (chunk.size + 1) by omega] at hend ⊢
  exact hend

/-- A text is read where its character-string fills the payload. -/
theorem readText_of_holds {text : String} {data : Octets} {pos : Nat}
    (hascii : text.toList.all Text.isAscii = true) (hlength : text.length ≤ 255)
    (hheld : (Known.of data).Holds pos
      (#[UInt8.ofNat text.length] ++ Label.octets text.toList).toList)
    (hsize : pos + (#[UInt8.ofNat text.length] ++ Label.octets text.toList).size ≤ data.size)
    (hbounded : data.size < offsetLimit) :
    readBody .txt (#[UInt8.ofNat text.length] ++ Label.octets text.toList).size
        (pos + (#[UInt8.ofNat text.length] ++ Label.octets text.toList).size) data pos
      = .ok (.txt text) (pos + (#[UInt8.ofNat text.length] ++ Label.octets text.toList).size) := by
  let chunk := Label.octets text.toList
  have hchunk : chunk.size = text.length := by
    rw [Label.size_octets, String.length_toList]
  have hall : (#[UInt8.ofNat text.length] ++ Label.octets text.toList).size = chunk.size + 1 := by
    rw [Array.size_append, Nat.add_comm]
    rfl
  have hheld : (Known.of data).Holds pos (UInt8.ofNat chunk.size :: chunk.toList) := by
    rw [hchunk]
    simpa using hheld
  rw [hall] at hsize ⊢
  have hread := readStrings_of_holds (by omega) hheld hsize hbounded
  rw [readBody, bind_apply, hread, Label.ofOctets_octets hascii]
  simp [String.join]

/-- Octets that are not interpreted are read as they are, under either kind of type. -/
theorem readRaw_of_holds {octets data : Octets} {type : RecordType} {pos : Nat}
    (hfits : (RecordData.raw octets).Fits type) (hheld : (Known.of data).Holds pos octets.toList)
    (hsize : pos + octets.size ≤ data.size) (hbounded : data.size < offsetLimit) :
    readBody type octets.size (pos + octets.size) data pos
      = .ok (.raw octets) (pos + octets.size) := by
  have hread : readBody type octets.size (pos + octets.size) = .raw <$> Reader.octets octets.size := by
    rcases hfits with rfl | ⟨code, rfl, _⟩ <;> rfl
  rw [hread, map_eq_bind, bind_apply, octets_of_holds hheld hsize hbounded]
  rfl

/-- The names of an SOA payload come first, its five numbers behind them. -/
theorem encodes_authority {authority : Authority} (hprimary : authority.primary.Ordinary)
    (hresponsible : authority.responsible.Ordinary) :
    Encodes (RecordData.soa authority).write readAuthority
      (fun found => RecordData.fold (.soa found) = RecordData.fold (.soa authority)) 16406 := by
  have hwrite : (RecordData.soa authority).write = (do
      authority.primary.write
      authority.responsible.write
      modify fun writer => writer.putLong authority.serial
      modify fun writer => writer.putLong authority.refresh
      modify fun writer => writer.putLong authority.retry
      modify fun writer => writer.putLong authority.expire
      modify fun writer => writer.putLong authority.minimum) := rfl
  rw [hwrite]
  refine Encodes.mono ?_ (show 8193 + (8193 + (4 + (4 + (4 + (4 + 4))))) ≤ 16406 by omega)
  refine (Encodes.name hprimary).bind fun primary hprimary => ?_
  refine (Encodes.name hresponsible).bind fun responsible hresponsible => ?_
  refine (Encodes.long authority.serial).bind fun serial hserial => ?_
  refine (Encodes.long authority.refresh).bind fun refresh hrefresh => ?_
  refine (Encodes.long authority.retry).bind fun retry hretry => ?_
  refine (Encodes.long authority.expire).bind fun expire hexpire => ?_
  refine (Encodes.long authority.minimum).map _ fun minimum hminimum => ?_
  simp only [fold, hprimary, hresponsible, hserial, hrefresh, hretry, hexpire, hminimum]

theorem encodes_exchange {exchange : MailExchange} (hexchange : exchange.exchange.Ordinary) :
    Encodes (RecordData.mx exchange).write readExchange
      (fun found => RecordData.fold (.mx found) = RecordData.fold (.mx exchange)) 8195 := by
  refine Encodes.mono ?_ (show 2 + 8193 ≤ 8195 by omega)
  refine (Encodes.word exchange.preference).bind fun preference hpreference => ?_
  refine (Encodes.name hexchange).map _ fun found hfound => ?_
  simp only [fold, hpreference, hfound]

/-- A payload of one name. -/
theorem encodesBody_name {name : Name} (hname : name.Ordinary) {type : RecordType}
    {make : Name → RecordData}
    (hread : ∀ length stop, readBody type length stop = make <$> Name.read)
    (hmake : ∀ found : Name, (make found).fold = make found.fold) :
    EncodesBody name.write type fun found => found.fold = (make name).fold := by
  have hname : Encodes name.write (make <$> Name.read) (fun found => found.fold = (make name).fold)
      8193 := by
    rw [map_eq_bind]
    refine (Encodes.name hname).map make fun found hfound => ?_
    show (make found).fold = (make name).fold
    rw [hmake, hmake, hfound]
  exact EncodesBody.of_encodes hname hread (by omega)

/-- **Bodies.** Every payload that may be written is written so that it can be read under a type
    that it fits. -/
theorem encodesBody {data : RecordData} {type : RecordType} (hdata : data.Ordinary)
    (htype : data.Fits type) : EncodesBody data.write type fun found => found.fold = data.fold := by
  cases data with
  | a ip =>
    obtain rfl := htype
    have hsize : ip.octets.toArray.size ≤ 65535 := show 4 ≤ 65535 by omega
    refine EncodesBody.of_octets hsize fun pos => ⟨.a ip, rfl, fun data hheld hsize hlimit => ?_⟩
    rw [readBody]
    exact readAddress_of_holds rfl hheld hsize hlimit
  | aaaa ip =>
    obtain rfl := htype
    have hsize : ip.octets.toArray.size ≤ 65535 := by
      rw [ip.size_octets]
      omega
    refine EncodesBody.of_octets hsize fun pos => ⟨.aaaa ip, rfl, fun data hheld hsize hlimit => ?_⟩
    rw [readBody]
    refine readAddress_of_holds ?_ hheld hsize hlimit
    show (IPv6.ofOctets? ip.octets).map RecordData.aaaa = _
    rw [ip.ofOctets?_octets, Option.map_some]
  | ns host =>
    obtain rfl := htype
    exact encodesBody_name hdata (fun _ _ => rfl) fun _ => rfl
  | cname target =>
    obtain rfl := htype
    exact encodesBody_name hdata (fun _ _ => rfl) fun _ => rfl
  | ptr target =>
    obtain rfl := htype
    exact encodesBody_name hdata (fun _ _ => rfl) fun _ => rfl
  | soa authority =>
    obtain rfl := htype
    refine EncodesBody.of_encodes ?_ (fun _ _ => map_eq_bind _ _) (show 16406 ≤ 65535 by omega)
    exact (encodes_authority hdata.1 hdata.2).map RecordData.soa fun _ hfound => hfound
  | mx exchange =>
    obtain rfl := htype
    refine EncodesBody.of_encodes ?_ (fun _ _ => map_eq_bind _ _) (show 8195 ≤ 65535 by omega)
    exact (encodes_exchange hdata).map RecordData.mx fun _ hfound => hfound
  -- A text is written as one label is: its length in front of its characters.
  | txt text =>
    obtain rfl := htype
    obtain ⟨hascii, hlength⟩ := hdata
    let part : Octets := #[UInt8.ofNat text.length] ++ Label.octets text.toList
    have hwrite : (RecordData.txt text).write = modify fun writer => writer.putOctets part := by
      have hput : (fun writer : Writer => writer.putLabel text.toList)
          = fun writer => writer.putOctets part := by
        funext writer
        rw [Writer.putLabel_eq, String.length_toList]
      show writeText text = _
      unfold writeText
      rw [hascii, if_neg (by simp), if_neg (by omega), hput]
    have hsize : part.size ≤ 65535 := by
      simp only [part, Array.size_append, Label.size_octets, String.length_toList,
        List.size_toArray, List.length_cons, List.length_nil]
      omega
    rw [hwrite]
    exact EncodesBody.of_octets hsize fun pos =>
      ⟨.txt text, rfl, fun data hheld => readText_of_holds hascii hlength hheld⟩
  | raw octets =>
    exact EncodesBody.of_octets hdata fun pos =>
      ⟨.raw octets, rfl, fun data hheld => readRaw_of_holds htype hheld⟩

end RecordData

/-! ### Behind a length -/

namespace Writer

variable {writer : Writer} {offset : Nat} {n : UInt16}

@[simp] theorem size_patch (writer : Writer) (offset : Nat) (n : UInt16) :
    (writer.patch offset n).size = writer.size := by
  simp [patch, size]

/-- Only the two octets at the offset are replaced. -/
theorem octets_patch {i : Nat} (h : i ≠ offset) (h' : i ≠ offset + 1) :
    (writer.patch offset n).octets[i]? = writer.octets[i]? := by
  simp only [patch]
  rw [Array.getElem?_setIfInBounds_ne (Ne.symm h'), Array.getElem?_setIfInBounds_ne (Ne.symm h)]

/-- The two octets at the offset are those of the number then. -/
theorem holds_patch {pending : List Nat} (hinside : offset + 1 < writer.size)
    (hpending : offset ∉ pending) (hpending' : offset + 1 ∉ pending) :
    ((writer.patch offset n).known pending).Holds offset
      [(Wire.wordOctets n).1, (Wire.wordOctets n).2] := by
  have hsize : offset + 1 < writer.octets.size := hinside
  refine Known.holds_cons.mpr ⟨?_, Known.holds_cons.mpr ⟨?_, Known.holds_nil⟩⟩
  · unfold known
    rw [if_neg hpending]
    simp only [patch]
    rw [Array.getElem?_setIfInBounds_ne (Nat.succ_ne_self offset),
      Array.getElem?_setIfInBounds_self_of_lt (by omega)]
  · unfold known
    rw [if_neg hpending']
    simp only [patch]
    rw [Array.getElem?_setIfInBounds_self_of_lt (by simpa using hsize)]

/-- What is known while the number is pending is known when it is there. -/
theorem known_within_patch (pending : List Nat) :
    Known.Within (writer.known (offset :: (offset + 1) :: pending))
      ((writer.patch offset n).known pending) := by
  intro i octet hi
  unfold known at hi ⊢
  -- An octet that is known is none of the two that are patched.
  split at hi
  · exact absurd hi (by simp)
  · next hnot =>
    simp only [List.mem_cons, not_or] at hnot
    obtain ⟨hne, hne', hpending⟩ := hnot
    rw [if_neg hpending, octets_patch hne hne', hi]

/-- Filling the number in leaves what was there in front of its place. -/
theorem extends_patch {before : Writer} (hext : Extends (before.putWord 0) writer) :
    Extends before (writer.patch before.size n) where
  size_le := by
    have hle := hext.size_le
    rw [size_putWord] at hle
    rw [size_patch]
    omega
  octets i hi := by
    have hlater : i < (before.putWord 0).size := by
      rw [size_putWord]
      omega
    rw [octets_patch (by omega) (by omega), hext.octets i hlater,
      (extends_putWord before 0).octets i hi]

/-- What is known stays known while a place for a number is kept open behind it. -/
theorem known_within_reserve {pending : List Nat} :
    Known.Within (writer.known pending)
      ((writer.putWord 0).known (writer.size :: (writer.size + 1) :: pending)) := by
  intro i octet hi
  have hlt := lt_size_of_known hi
  have hlater : (writer.putWord 0).known pending i = some octet :=
    (extends_putWord writer 0).known pending i octet hi
  unfold known at hlater ⊢
  split at hlater
  · exact absurd hlater (by simp)
  · next hnot =>
    rw [if_neg, hlater]
    simp only [List.mem_cons, not_or]
    exact ⟨by omega, by omega, hnot⟩

/-- A place for a number is kept open behind everything else. -/
theorem Sound.reserve {pending : List Nat} (h : Sound pending writer) :
    Sound (writer.size :: (writer.size + 1) :: pending) (writer.putWord 0) := by
  refine ⟨fun i hi => ?_, fun name hname => (h.names name hname).mono known_within_reserve⟩
  rw [size_putWord]
  rcases List.mem_cons.mp hi with rfl | hi
  · omega
  · rcases List.mem_cons.mp hi with rfl | hi
    · omega
    · have hlt := h.pending_lt i hi
      omega

end Writer

/-- A number that a message holds is read as it is. -/
theorem Reader.word_of_holds {data : Octets} {pos : Nat} {n : UInt16}
    (hheld : (Known.of data).Holds pos [(Wire.wordOctets n).1, (Wire.wordOctets n).2])
    (hsize : pos + 2 ≤ data.size) (hbounded : data.size < Reader.offsetLimit) :
    Reader.word data pos = .ok n (pos + 2) := by
  have hoctets : Reader.octets 2 data pos = .ok #[(Wire.wordOctets n).1, (Wire.wordOctets n).2]
      (pos + 2) := Reader.octets_of_holds hheld hsize hbounded
  unfold Reader.word
  rw [Reader.bind_apply, hoctets]
  exact congrArg (EStateM.Result.ok · (pos + 2)) (Wire.word_wordOctets n)

/-- A body whose reading stops where its length says is read as a payload. -/
theorem RecordData.read_of_body {type : RecordType} {length pos : Nat} {data : Octets}
    {found : RecordData} (hsize : pos + length ≤ data.size)
    (hbody : readBody type length (pos + length) data pos = .ok found (pos + length)) :
    RecordData.read type length data pos = .ok found (pos + length) := by
  rw [read_apply, if_neg (by omega), hbody]
  simp only [if_neg (Nat.lt_irrefl (pos + length))]

/-- A length that is filled in counts the octets behind it. -/
theorem Record.closePayload_apply {offset : Nat} {writer : Writer}
    (h : writer.size - offset - 2 ≤ 65535) :
    Record.closePayload offset writer
      = .ok () (writer.patch offset (UInt16.ofNat (writer.size - offset - 2))) := by
  unfold Record.closePayload
  show (if 65535 < writer.size - offset - 2 then _ else _ : Writing Unit) writer = _
  rw [if_neg (by omega)]
  rfl

/-- **Payloads.** A body behind its length, which is filled in afterwards, is read as a payload
    of that length. -/
theorem Encodes.payload {write : Writing Unit} {type : RecordType} {good : RecordData → Prop}
    (hbody : EncodesBody write type good) (hpossible : ∃ found, good found) :
    Encodes
      (do
        let offset := (← get).size
        modify fun writer => writer.putWord 0
        write
        Record.closePayload offset)
      (Reader.word >>= fun length => RecordData.read type length.toNat) good 65537 := by
  refine ⟨hpossible, fun pending before hsound => ?_⟩
  -- While the body is written, the two octets of the length are pending as well.
  let inner := before.size :: (before.size + 1) :: pending
  have hopened := Writer.size_putWord before 0
  obtain ⟨filled, hwrite, hext, hfilled, hroom, hlegible⟩ := hbody inner _ hsound.reserve
  have hgrown := hext.size_le
  rw [hopened] at hroom hlegible hgrown
  let length := filled.size - before.size - 2
  let after := filled.patch before.size (UInt16.ofNat length)
  have hlength : length ≤ 65535 := by omega
  have hafter : after.size = filled.size := Writer.size_patch _ _ _
  have hknown : Known.Within (filled.known inner) (after.known pending) :=
    Writer.known_within_patch pending
  refine ⟨after, ?_, Writer.extends_patch hext, ⟨fun i hi => ?_, fun name hname => ?_⟩, by omega, ?_⟩
  · show EStateM.bind write (fun _ => Record.closePayload before.size) (before.putWord 0) = _
    rw [EStateM.bind, hwrite]
    exact Record.closePayload_apply hlength
  · have hlt := hsound.pending_lt i hi
    omega
  · exact (hfilled.names name hname).mono hknown
  · intro data hdata
    have hinside := hdata.size_le
    have hfirst : before.size ∉ pending := fun hmem =>
      Nat.lt_irrefl _ (hsound.pending_lt _ hmem)
    have hsecond : before.size + 1 ∉ pending := fun hmem => by
      have hlt := hsound.pending_lt _ hmem
      omega
    have hword : Reader.word data before.size = .ok (UInt16.ofNat length) (before.size + 2) := by
      refine Reader.word_of_holds ?_ (by omega) hdata.bounded
      exact (Writer.holds_patch (by omega) hfirst hsecond).mono hdata.known
    have hcount : (UInt16.ofNat length).toNat = length := by
      rw [UInt16.toNat_ofNat', Nat.mod_eq_of_lt (by omega)]
    -- For the body, a message behind the filled writer is one behind the patched one.
    have hcontinued : Continued inner filled data :=
      ⟨hknown.trans hdata.known, by omega, hdata.bounded⟩
    obtain ⟨found, hread, hgood⟩ := hlegible data hcontinued
    have hend : filled.size = before.size + 2 + length := by omega
    rw [hopened, hend, Nat.add_sub_cancel_left] at hread
    refine ⟨found, ?_, hgood⟩
    rw [Reader.bind_apply, hword]
    show RecordData.read type (UInt16.ofNat length).toNat data (before.size + 2) = _
    rw [hcount, hafter, hend]
    exact RecordData.read_of_body (by omega) hread

end DnsResolver
