import DnsResolver.Address.IPv4
import DnsResolver.Wire.BigEndian

namespace DnsResolver

/-!
# IPv6 addresses

Eight 16-bit groups and their text. The text is written in lower case, with the longest
run of at least two zero groups (the first among equals) as `::`; only addresses under
`::ffff:0:0/96` end in a dotted IPv4 address. A text that is read may end in a dotted
address wherever two groups are left for it, but not in front of a `::`.
-/

/-- An IPv6 address. -/
structure IPv6 where
  groups : List UInt16
  length_groups : groups.length = 8
  deriving DecidableEq

namespace IPv6

/-- The address with the given groups, when there are eight. -/
def ofGroups? (groups : List UInt16) : Option IPv6 :=
  if h : groups.length = 8 then some ⟨groups, h⟩ else none

/-- The octets of an address, in order. -/
def octets (ip : IPv6) : List UInt8 :=
  ip.groups.flatMap fun group => [(Wire.wordOctets group).1, (Wire.wordOctets group).2]

/-- The groups that a run of octets forms, two by two. -/
def pairOctets : List UInt8 → Option (List UInt16)
  | [] => some []
  | [_] => none
  | high :: low :: rest => (pairOctets rest).map (Wire.word high low :: ·)

/-- The address with the given octets, when there are sixteen. -/
def ofOctets? (octets : List UInt8) : Option IPv6 := (pairOctets octets).bind ofGroups?

/-! ### Writing -/

/-- A run of zero groups: where it starts and how long it is. -/
structure ZeroRun where
  start : Nat
  length : Nat

/-- The longest run of zero groups, and the first among equally long ones. `index` counts
    the groups already passed and `current` is the run they end with. -/
def longestZeros (index : Nat) (current best : ZeroRun) : List UInt16 → ZeroRun
  | [] => best
  | group :: rest =>
    if group = 0 then
      let grown : ZeroRun :=
        if current.length = 0 then ⟨index, 1⟩ else ⟨current.start, current.length + 1⟩
      longestZeros (index + 1) grown (if best.length < grown.length then grown else best) rest
    else
      longestZeros (index + 1) ⟨0, 0⟩ best rest

/-- Groups in base sixteen with colons between them. -/
def groupChars (groups : List UInt16) : List Char :=
  [':'].intercalate (groups.map fun group => Text.hexDigits group.toNat)

/-- The IPv4 address that an address under `::ffff:0:0/96` stands for. -/
def mapped? (ip : IPv6) : Option IPv4 :=
  match ip.groups with
  | [0, 0, 0, 0, 0, 0xFFFF, high, low] =>
    IPv4.ofOctets? [(Wire.wordOctets high).1, (Wire.wordOctets high).2,
      (Wire.wordOctets low).1, (Wire.wordOctets low).2]
  | _ => none

/-- The text of an address. -/
def chars (ip : IPv6) : List Char :=
  match ip.mapped? with
  | some v4 => "::ffff:".toList ++ v4.chars
  | none =>
    let zeros := longestZeros 0 ⟨0, 0⟩ ⟨0, 0⟩ ip.groups
    if 1 < zeros.length then
      groupChars (ip.groups.take zeros.start) ++ [':', ':']
        ++ groupChars (ip.groups.drop (zeros.start + zeros.length))
    else
      groupChars ip.groups

instance : ToString IPv6 := ⟨fun ip => String.ofList ip.chars⟩

/-! ### Reading -/

/-- Reads one group of one to four digits at the front of a text. -/
def scanGroup (cs : List Char) : Option (UInt16 × List Char) :=
  let (run, rest) := cs.span fun c => (Text.hexValue? c).isSome
  if run.isEmpty || 4 < run.length then none
  else some (UInt16.ofNat (Text.hexNumber 0 run), rest)

/-- Groups read at the front of a text. -/
structure Scanned where
  groups : List UInt16
  /-- Whether the last two groups were written as a dotted address. -/
  dotted : Bool
  rest : List Char

/-- Reads up to `room` groups with colons between them. The reading stops in front of the
    first thing that is no further group, and after a dotted address. -/
def scanGroups (first : Bool) : Nat → List Char → Scanned
  | 0, cs => ⟨[], false, cs⟩
  | room + 1, cs =>
    let after : Option (List Char) :=
      if first then some cs
      else match cs with
        | ':' :: rest => some rest
        | _ => none
    match after with
    | none => ⟨[], false, cs⟩
    | some inner =>
      match (if room = 0 then none else IPv4.scan inner) with
      | some (v4, rest) => ⟨[Wire.word v4.a v4.b, Wire.word v4.c v4.d], true, rest⟩
      | none =>
        match scanGroup inner with
        | none => ⟨[], false, cs⟩
        | some (group, rest) =>
          let more := scanGroups false room rest
          ⟨group :: more.groups, more.dotted, more.rest⟩

/-- Reads an address at the front of a text. -/
def scan (cs : List Char) : Option (IPv6 × List Char) :=
  let head := scanGroups true 8 cs
  if head.groups.length = 8 then
    (ofGroups? head.groups).map fun ip => (ip, head.rest)
  else if head.dotted then
    none
  else
    match head.rest with
    | ':' :: ':' :: rest =>
      let tail := scanGroups true (7 - head.groups.length) rest
      let zeros := List.replicate (8 - head.groups.length - tail.groups.length) 0
      (ofGroups? (head.groups ++ zeros ++ tail.groups)).map fun ip => (ip, tail.rest)
    | _ => none

end IPv6

end DnsResolver
