namespace DnsResolver

/-!
# Operation codes and response codes

Both fill four bits of the message header. A code that was built from a larger number
keeps that number and loses the high bits only when it is written.
-/

/-- What a message asks a server to do. -/
inductive Opcode where
  | query
  | inverseQuery
  | status
  | notify
  | update
  | unknown (code : UInt8)
  deriving DecidableEq

namespace Opcode

/-- The four bits of an operation code. -/
def code : Opcode → Nat
  | query => 0
  | inverseQuery => 1
  | status => 2
  | notify => 4
  | update => 5
  | unknown code => code.toNat % 16

/-- The operation code in the low four bits of a number. -/
def ofCode (n : Nat) : Opcode :=
  match n % 16 with
  | 0 => query
  | 1 => inverseQuery
  | 2 => status
  | 4 => notify
  | 5 => update
  | other => unknown (UInt8.ofNat other)

@[simp] theorem code_ofCode (n : Nat) : (ofCode n).code = n % 16 := by
  have h : n % 16 < 16 := Nat.mod_lt _ (by decide)
  unfold ofCode
  split <;> simp_all [code]

end Opcode

/-- How a server answered. -/
inductive ResponseCode where
  | noError
  | formatError
  | serverFailure
  | nameError
  | notImplemented
  | refused
  | unknown (code : UInt8)
  deriving DecidableEq

namespace ResponseCode

/-- The four bits of a response code. -/
def code : ResponseCode → Nat
  | noError => 0
  | formatError => 1
  | serverFailure => 2
  | nameError => 3
  | notImplemented => 4
  | refused => 5
  | unknown code => code.toNat % 16

/-- The response code in the low four bits of a number. -/
def ofCode (n : Nat) : ResponseCode :=
  match n % 16 with
  | 0 => noError
  | 1 => formatError
  | 2 => serverFailure
  | 3 => nameError
  | 4 => notImplemented
  | 5 => refused
  | other => unknown (UInt8.ofNat other)

/-- The keyword of a response code; all codes without one share `UNKNOWN`. -/
def mnemonic : ResponseCode → String
  | noError => "NOERROR"
  | formatError => "FORMERR"
  | serverFailure => "SERVFAIL"
  | nameError => "NXDOMAIN"
  | notImplemented => "NOTIMP"
  | refused => "REFUSED"
  | unknown _ => "UNKNOWN"

/-- The text of a response code: its keyword, or `RCODE` and its number. -/
def toString : ResponseCode → String
  | unknown code => s!"RCODE{code.toNat}"
  | known => known.mnemonic

instance : ToString ResponseCode := ⟨ResponseCode.toString⟩

@[simp] theorem code_ofCode (n : Nat) : (ofCode n).code = n % 16 := by
  have h : n % 16 < 16 := Nat.mod_lt _ (by decide)
  unfold ofCode
  split <;> simp_all [code]

end ResponseCode

end DnsResolver
