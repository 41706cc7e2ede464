namespace DnsResolver

/-!
# Record classes

* `RecordClass.code_ofCode` — the class of a code has that code.
-/

/-- The class of a resource record. -/
inductive RecordClass where
  | internet
  | chaos
  | hesiod
  | any
  /-- A class by its number only. -/
  | unknown (code : UInt16)
  deriving DecidableEq

namespace RecordClass

/-- The number of a class on the wire. -/
def code : RecordClass → UInt16
  | internet => 1
  | chaos => 3
  | hesiod => 4
  | any => 255
  | unknown code => code

/-- The class with a given number. -/
def ofCode (code : UInt16) : RecordClass :=
  if code = 1 then internet
  else if code = 3 then chaos
  else if code = 4 then hesiod
  else if code = 255 then any
  else unknown code

/-- The text of a class: its keyword, or `CLASS` and its number. -/
def toString : RecordClass → String
  | internet => "IN"
  | chaos => "CH"
  | hesiod => "HS"
  | any => "ANY"
  | unknown code => s!"CLASS{code.toNat}"

instance : ToString RecordClass := ⟨RecordClass.toString⟩

@[simp] theorem code_ofCode (code : UInt16) : (ofCode code).code = code := by
  unfold ofCode
  repeat' split
  all_goals simp_all [RecordClass.code]

end RecordClass

end DnsResolver
