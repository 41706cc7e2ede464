import DnsResolver.Message.Frame
import DnsResolver.Proofs.Wire.Confined
import DnsResolver.Transport.Tcp
import Mathlib

namespace DnsResolver

/-!
# Messages after their lengths

A message on a connection follows its length, whether the connection is read as it comes in or its
octets are at hand in a buffer.  Both ways of reading look at the same two octets first, and both
leave what follows the frame alone.

* `Frame.extent` — how many octets the first frame takes, which decides both ways of reading.
* `Frame.run_readOctets`, `Stream.takeMessage?_eq` — each of them, in closed form.
* `Message.decodeFrames_append` — frames one after the other are read one after the other.
* `Message.framings_agree` — what is sent, what is received and what is decoded.
-/

variable {buffer octets frame rest : Octets} {message : Message}

/-! ### The first frame of a buffer -/

namespace Frame

/-- The number of octets that the first frame takes: the two of its length, and as many more as
    they say once both of them are there. -/
def extent (buffer : Octets) : Nat :=
  if buffer.size < 2 then 2 else 2 + (Wire.word (buffer.getD 0 0) (buffer.getD 1 0)).toNat

theorem two_le_extent (buffer : Octets) : 2 ≤ extent buffer := by
  unfold extent
  split <;> omega

theorem extent_lt (buffer : Octets) : extent buffer < Reader.offsetLimit := by
  have hword := (Wire.word (buffer.getD 0 0) (buffer.getD 1 0)).toNat_lt
  have hlimit : Reader.offsetLimit = 18446744073709551616 := rfl
  unfold extent
  split <;> omega

/-- What is cut out in front of a buffer has its first octets. -/
private theorem getD_extract {i size : Nat} (hi : i < size) (hsize : size ≤ buffer.size) :
    (buffer.extract 0 size).getD i 0 = buffer.getD i 0 := by
  rw [Array.getD_eq_getD_getElem?, Array.getD_eq_getD_getElem?, Array.getElem?_extract,
    if_pos (by omega), Nat.zero_add]

/-- Without the length the frame is not there, and two octets are asked for. -/
theorem extent_of_short (h : buffer.size < 2) : extent buffer = 2 := by
  rw [extent, if_pos h]

theorem extent_of_long (h : 2 ≤ buffer.size) :
    extent buffer
      = 2 + (Wire.word ((buffer.extract 0 2).getD 0 0) ((buffer.extract 0 2).getD 1 0)).toNat := by
  rw [extent, if_neg (by omega), getD_extract (by omega) h, getD_extract (by omega) h]

/-- **Buffers.** The octets of the first frame are read if all of them are there; if not, the
    reading fails at the place where the frame would end. -/
theorem run_readOctets (buffer : Octets) :
    Reader.run readOctets buffer
      = if extent buffer ≤ buffer.size then .ok (buffer.extract 2 (extent buffer))
        else .error (.endOfStream (extent buffer)) := by
  have hlimit : Reader.offsetLimit = 18446744073709551616 := rfl
  have hextent := extent_lt buffer
  by_cases hshort : buffer.size < 2
  · -- The length itself is cut off.
    have hword : Reader.word buffer 0 = .error (.endOfStream 2) 0 := by
      rw [Reader.word, Reader.bind_apply, Reader.octets, Reader.sliceAt, if_neg (by omega),
        if_neg (by omega)]
    rw [extent_of_short hshort, if_neg (by omega), Reader.run, readOctets, Reader.bind_apply, hword]
  · have hlong : 2 ≤ buffer.size := by omega
    have hword : Reader.word buffer 0
        = .ok (Wire.word ((buffer.extract 0 2).getD 0 0) ((buffer.extract 0 2).getD 1 0)) 2 := by
      rw [Reader.word, Reader.bind_apply, Reader.octets, Reader.sliceAt, if_neg (by omega),
        if_pos (by omega)]
      rfl
    rw [Reader.run, readOctets, Reader.bind_apply, hword]
    simp only [Reader.octets, Reader.sliceAt]
    rw [← extent_of_long hlong, if_neg (by omega)]
    by_cases hwhole : extent buffer ≤ buffer.size
    · simp only [if_pos hwhole]
    · simp only [if_neg hwhole]

end Frame

namespace Stream

/-- **Connections.** A message is taken off a connection if all octets of its frame have arrived,
    and what follows the frame stays there. -/
theorem takeMessage?_eq (stream : Stream) :
    stream.takeMessage?
      = if Frame.extent stream.octets ≤ stream.octets.size then
          some (stream.octets.extract 2 (Frame.extent stream.octets),
            { stream with
              octets := stream.octets.extract (Frame.extent stream.octets) stream.octets.size })
        else none := by
  by_cases hshort : stream.octets.size < 2
  · have htake : stream.take? 2 = none := by
      rw [take?, if_neg (by omega)]
    rw [Frame.extent_of_short hshort, if_neg (by omega), takeMessage?, htake]
    rfl
  · have hlong : 2 ≤ stream.octets.size := by omega
    have htake : stream.take? 2 = some (stream.octets.extract 0 2,
        { stream with octets := stream.octets.extract 2 stream.octets.size }) := by
      rw [take?, if_pos hlong]
    have hextent := Frame.extent_of_long hlong
    rw [takeMessage?, htake]
    show take? _ _ = _
    simp only [take?, Array.size_extract, Array.extract_extract, Nat.min_self, Nat.add_zero, ← hextent]
    by_cases hwhole : Frame.extent stream.octets ≤ stream.octets.size
    · -- What arrived behind the length ends where the stream does.
      have hend : min (2 + (stream.octets.size - 2)) stream.octets.size = stream.octets.size := by
        omega
      rw [if_pos (by omega), if_pos hwhole, Nat.min_eq_left hwhole, hend]
    · rw [if_neg (by omega), if_neg hwhole]

/-- A connection that ended within a frame was reset. -/
theorem receive_cut {server : Endpoint} {stream : Stream} (hclosed : stream.closed = true)
    (hcut : stream.octets.size < Frame.extent stream.octets) :
    stream.receive server = .error (.reset (toString server)) := by
  rw [receive, takeMessage?_eq, if_neg (by omega)]
  simp only [missing, hclosed, if_true]

theorem receive_eq_ok_iff {server : Endpoint} {stream left : Stream} :
    stream.receive server = .ok (octets, left)
      ↔ Frame.extent stream.octets ≤ stream.octets.size
        ∧ octets = stream.octets.extract 2 (Frame.extent stream.octets)
        ∧ left = { stream with
            octets := stream.octets.extract (Frame.extent stream.octets) stream.octets.size } := by
  rw [receive, takeMessage?_eq]
  by_cases hwhole : Frame.extent stream.octets ≤ stream.octets.size
  · rw [if_pos hwhole]
    simp only [Except.ok.injEq, Prod.mk.injEq, hwhole, true_and]
    exact and_congr eq_comm eq_comm
  · rw [if_neg hwhole]
    simp only [reduceCtorEq, hwhole, false_and]

end Stream

/-! ### Frames one after the other -/

namespace Frame

theorem wrap_eq_ok_iff :
    wrap octets = .ok frame
      ↔ octets.size ≤ maxSize ∧ frame = #[(Wire.wordOctets (UInt16.ofNat octets.size)).1,
          (Wire.wordOctets (UInt16.ofNat octets.size)).2] ++ octets := by
  unfold wrap
  by_cases hlarge : maxSize < octets.size
  · rw [if_pos hlarge]
    simp only [reduceCtorEq, false_iff, not_and]
    omega
  · rw [if_neg hlarge]
    simp only [Except.ok.injEq, Nat.le_of_not_lt hlarge, true_and]
    exact eq_comm

/-- A frame that is written takes its own size, whatever follows it. -/
theorem extent_of_wrap (h : wrap octets = .ok frame) (rest : Octets) :
    extent (frame ++ rest) = frame.size := by
  obtain ⟨hsize, rfl⟩ := wrap_eq_ok_iff.mp h
  have hmax : maxSize = 65535 := rfl
  -- The two octets in front are those of the length, and give the length back.
  have hword : ∀ (n : UInt16) (tail : Octets),
      Wire.word ((#[(Wire.wordOctets n).1, (Wire.wordOctets n).2] ++ tail).getD 0 0)
        ((#[(Wire.wordOctets n).1, (Wire.wordOctets n).2] ++ tail).getD 1 0) = n := by
    intro n tail
    have hback := Wire.word_wordOctets n
    simpa [Array.getElem?_append] using hback
  have hlong : ∀ (a b : UInt8) (tail : Octets), ¬ (#[a, b] ++ tail).size < 2 := by
    intro a b tail
    rw [Array.size_append]
    exact Nat.not_lt.mpr (Nat.le_add_right 2 _)
  rw [extent, Array.append_assoc, if_neg (hlong _ _ _), hword, UInt16.toNat_ofNat',
    Nat.mod_eq_of_lt (by omega), Array.size_append]
  rfl

/-- What stands behind the length in a frame is what it was written for. -/
theorem extract_of_wrap (h : wrap octets = .ok frame) (rest : Octets) :
    (frame ++ rest).extract 2 frame.size = octets := by
  obtain ⟨-, rfl⟩ := wrap_eq_ok_iff.mp h
  simp

end Frame

namespace Message

theorem decodeFrame_eq (buffer : Octets) :
    decodeFrame buffer
      = if Frame.extent buffer ≤ buffer.size then
          (decode (buffer.extract 2 (Frame.extent buffer))).map fun message =>
            (message, Frame.extent buffer)
        else .error (.endOfStream (Frame.extent buffer)) := by
  have htwo := Frame.two_le_extent buffer
  rw [decodeFrame, Frame.run_readOctets]
  by_cases hwhole : Frame.extent buffer ≤ buffer.size
  · have hsize : (buffer.extract 2 (Frame.extent buffer)).size + 2 = Frame.extent buffer := by
      rw [Array.size_extract]
      omega
    rw [if_pos hwhole, if_pos hwhole]
    show (decode _ >>= fun message => _) = _
    rw [hsize]
    rfl
  · rw [if_neg hwhole, if_neg hwhole]
    rfl

/-- A message is decoded from the octets of a connection exactly when it is received from the
    connection, and the octets of its frame are the ones that are taken. -/
private theorem decodeFrame_eq_ok_iff (server : Endpoint) (stream : Stream) {size : Nat} :
    decodeFrame stream.octets = .ok (message, size)
      ↔ ∃ octets left, stream.receive server = .ok (octets, left)
        ∧ decode octets = .ok message ∧ size + left.octets.size = stream.octets.size
        ∧ left = { stream with octets := stream.octets.extract size stream.octets.size } := by
  rw [decodeFrame_eq]
  constructor
  · intro h
    split at h
    case isTrue hwhole =>
      cases hdecode : decode (stream.octets.extract 2 (Frame.extent stream.octets)) with
      | error e => rw [hdecode] at h; cases h
      | ok found =>
        rw [hdecode] at h
        obtain ⟨rfl, rfl⟩ : found = message ∧ Frame.extent stream.octets = size := by
          simpa only [Except.map, Except.ok.injEq, Prod.mk.injEq] using h
        refine ⟨_, _, Stream.receive_eq_ok_iff.mpr ⟨hwhole, rfl, rfl⟩, hdecode, ?_, rfl⟩
        rw [Array.size_extract]
        omega
    case isFalse => cases h
  · rintro ⟨octets, left, hreceive, hdecode, hsize, -⟩
    obtain ⟨hwhole, rfl, rfl⟩ := Stream.receive_eq_ok_iff.mp hreceive
    -- As much is left as there is behind the frame, so the frame is what was taken.
    have hextent : Frame.extent stream.octets = size := by
      rw [Array.size_extract] at hsize
      omega
    rw [if_pos hwhole, hdecode, hextent]
    rfl

/-- Decodes as many framed messages as are asked for, one behind the other, and tells how many
    octets their frames take. -/
def decodeFrames : Nat → Octets → Except FormatError (List Message × Nat)
  | 0, _ => return ([], 0)
  | count + 1, buffer => do
    let (message, size) ← decodeFrame buffer
    let (messages, more) ← decodeFrames count (buffer.extract size buffer.size)
    return (message :: messages, size + more)

/-- A message that can be framed at an instant, with its octets, its frame, and the message that its
    octets are decoded as. -/
structure Framed where
  now : Instant
  message : Message
  octets : Octets
  frame : Octets
  found : Message
  encode_eq : message.encode now = .ok octets
  frame_eq : message.encodeFrame now = .ok frame
  decode_eq : decode octets = .ok found

/-- The frame of a message holds the octets of the message. -/
theorem Framed.wrap_eq (framed : Framed) : Frame.wrap framed.octets = .ok framed.frame := by
  have hframe := framed.frame_eq
  rw [encodeFrame, framed.encode_eq] at hframe
  exact hframe

/-- A frame in front of other octets is decoded, and the other octets are left. -/
theorem decodeFrame_append (framed : Framed) (rest : Octets) :
    decodeFrame (framed.frame ++ rest) = .ok (framed.found, framed.frame.size) := by
  have hextent := Frame.extent_of_wrap framed.wrap_eq rest
  have hwhole : framed.frame.size ≤ (framed.frame ++ rest).size := by
    rw [Array.size_append]
    exact Nat.le_add_right _ _
  rw [decodeFrame_eq, hextent, if_pos hwhole, Frame.extract_of_wrap framed.wrap_eq rest,
    framed.decode_eq]
  rfl

/-- The frames of messages, one behind the other. -/
def frames : List Framed → Octets
  | [] => #[]
  | framed :: rest => framed.frame ++ frames rest

/-- **Streams of frames.** Frames that stand one behind the other are decoded as their messages,
    in order, and take exactly their own octets, whatever follows the last of them. -/
theorem decodeFrames_append (entries : List Framed) (rest : Octets) :
    decodeFrames entries.length (frames entries ++ rest)
      = .ok (entries.map Framed.found, (frames entries).size) := by
  induction entries with
  | nil => rfl
  | cons framed entries ih =>
    have hrest : ∀ buffer : Octets,
        (framed.frame ++ buffer).extract framed.frame.size (framed.frame ++ buffer).size = buffer := by
      intro buffer
      simp
    rw [frames, Array.append_assoc, List.length_cons, decodeFrames, decodeFrame_append]
    show (decodeFrames entries.length (Array.extract _ _ _) >>= fun result => _) = _
    rw [hrest, ih, Array.size_append]
    rfl

end Message

/-! ### Both framings -/

/-- What is put on a connection for a message, in closed form. -/
theorem Tcp.send_eq (octets : Octets) :
    send octets
      = if 65535 < octets.size then .error (.messageTooLarge octets.size 65535)
        else .ok (#[UInt8.ofNat (octets.size / 256), UInt8.ofNat octets.size] ++ octets) := by
  unfold send Frame.wrap Frame.maxSize
  by_cases hlarge : 65535 < octets.size
  · rw [if_pos hlarge, if_pos hlarge]
  · have hsize : (UInt16.ofNat octets.size).toNat = octets.size := by
      rw [UInt16.toNat_ofNat', Nat.mod_eq_of_lt (by omega)]
    rw [if_neg hlarge, if_neg hlarge]
    simp only [Wire.wordOctets, hsize]

namespace Message

/-- **Two framings.** What is put on a connection for a message is the frame of the message, and a
    message that is too large for one fails alike.  A message is received from a connection and
    decoded exactly when it is decoded from the octets of the connection as a buffer, and as many
    octets are taken; of a connection that ends within the first frame neither comes to a message.
    Frames in a row are decoded as the messages in them and nothing else. -/
theorem framings_agree :
    (∀ (now : Instant) (message : Message) (octets : Octets), message.encode now = .ok octets →
      Tcp.send octets = message.encodeFrame now
        ∧ Tcp.send octets
          = if 65535 < octets.size then .error (.messageTooLarge octets.size 65535)
            else .ok (#[UInt8.ofNat (octets.size / 256), UInt8.ofNat octets.size] ++ octets))
      ∧ (∀ (server : Endpoint) (stream : Stream) (message : Message) (size : Nat),
          decodeFrame stream.octets = .ok (message, size)
            ↔ ∃ octets left, stream.receive server = .ok (octets, left)
              ∧ decode octets = .ok message ∧ size + left.octets.size = stream.octets.size
              ∧ left = { stream with octets := stream.octets.extract size stream.octets.size })
      ∧ (∀ (server : Endpoint) (stream : Stream), stream.closed = true →
          stream.octets.size < Frame.extent stream.octets →
          stream.receive server = .error (.reset (toString server))
            ∧ decodeFrame stream.octets = .error (.endOfStream (Frame.extent stream.octets)))
      ∧ ∀ (entries : List Framed) (rest : Octets),
          decodeFrames entries.length (frames entries ++ rest)
            = .ok (entries.map Framed.found, (frames entries).size) := by
  refine ⟨?_, ?_, ?_, decodeFrames_append⟩
  · intro now message octets hencode
    refine ⟨?_, Tcp.send_eq octets⟩
    rw [encodeFrame, hencode]
    rfl
  · intro server stream message size
    exact decodeFrame_eq_ok_iff server stream
  · intro server stream hclosed hcut
    refine ⟨Stream.receive_cut hclosed hcut, ?_⟩
    rw [decodeFrame_eq, if_neg (by omega)]

/-- A query for the addresses of a host, which is decoded as it was. -/
def hostFrame : Framed where
  now := 0
  message := .query 7 (.about ⟨['a']⟩ .a) true
  octets := #[0, 7, 1, 0, 0, 1, 0, 0, 0, 0, 0, 0, 1, 97, 0, 0, 1, 0, 1]
  frame := #[0, 19, 0, 7, 1, 0, 0, 1, 0, 0, 0, 0, 0, 0, 1, 97, 0, 0, 1, 0, 1]
  found := .query 7 (.about ⟨['a']⟩ .a) true
  encode_eq := by cbv
  frame_eq := by cbv
  decode_eq := by cbv

/-- Two frames, and a third that is cut off within its length. -/
def hostStream : Stream := ⟨frames [hostFrame, hostFrame] ++ #[0], true⟩

/-- Of the two frames the second is left with the length behind it, which is no frame any more. -/
theorem framings_agree_hosts :
    Tcp.send hostFrame.octets = .ok hostFrame.frame
      ∧ (∃ octets left, hostStream.receive (.v4 ⟨192, 0, 2, 1⟩ 53) = .ok (octets, left)
        ∧ decode octets = .ok hostFrame.found ∧ 21 + left.octets.size = 43)
      ∧ Stream.receive (.v4 ⟨192, 0, 2, 1⟩ 53) ⟨#[0], true⟩ = .error (.reset "192.0.2.1:53")
      ∧ decodeFrame #[0] = .error (.endOfStream 2)
      ∧ decodeFrames 2 hostStream.octets = .ok ([hostFrame.found, hostFrame.found], 42) := by
  obtain ⟨hsend, hreceive, hcut, hframes⟩ := framings_agree
  obtain ⟨hframe, -⟩ := hsend 0 hostFrame.message hostFrame.octets hostFrame.encode_eq
  obtain ⟨octets, left, htaken, hdecode, hsize, -⟩ :=
    (hreceive (.v4 ⟨192, 0, 2, 1⟩ 53) hostStream hostFrame.found 21).mp (by cbv)
  obtain ⟨hreset, hend⟩ := hcut (.v4 ⟨192, 0, 2, 1⟩ 53) ⟨#[0], true⟩ rfl (by decide)
  exact ⟨hframe.trans hostFrame.frame_eq, ⟨octets, left, htaken, hdecode, hsize⟩, hreset, hend,
    hframes [hostFrame, hostFrame] #[0]⟩

end Message

end DnsResolver
