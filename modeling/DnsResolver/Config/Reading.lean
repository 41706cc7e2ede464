import DnsResolver.Config.Basic
import DnsResolver.Toml.Document

namespace DnsResolver

/-!
# Configurations from TOML

A configuration is a table of tables. A table may be replaced by an array of its values in
order, of which those in excess are not looked at, and by a date or a time, which gives no
value at all. Missing values have their defaults, and a value of another kind fails. Unknown
keys are passed over, but their values have to be sound.
-/

namespace Toml.Value

/-- The text of a string. -/
def text? : Value → Option String
  | string text => some (String.ofList text)
  | _ => none

/-- The number of an integer, if it is at least 0 and below `bound`. -/
def natBelow? (bound : Nat) : Value → Option Nat
  | integer (some n) => if 0 ≤ n ∧ n < bound then some n.toNat else none
  | _ => none

/-- A number of 32 bits. -/
def uint32? (value : Value) : Option UInt32 := (value.natBelow? UInt32.size).map UInt32.ofNat

/-- A number of 64 bits. -/
def uint64? (value : Value) : Option UInt64 := (value.natBelow? UInt64.size).map UInt64.ofNat

/-- The truth value of a boolean. -/
def flag? : Value → Option Bool
  | boolean b => some b
  | _ => none

/-- The texts of an array of strings. -/
def texts? : Value → Option (List String)
  | array _ items => items.mapM text?
  | _ => none

/-- A value that says nothing. -/
def isNothing : Value → Bool
  | array _ [] => true
  | table _ [] => true
  | _ => false

/-- The word of a value: a string, or the only key of a table whose value says nothing. -/
def word? : Value → Option String
  | string word => some (String.ofList word)
  | table _ [(word, value)] => if value.isNothing then some (String.ofList word) else none
  | _ => none

end Toml.Value

/-- The values of a record by their keys. -/
abbrev Fields := String → Option Toml.Value

/-- The fields of a table. Entries of other keys are passed over, but their numbers must be
    readable. -/
def Fields.ofTable? (keys : List String) (table : Toml.Table) : Option Fields :=
  if table.all fun (key, value) => keys.contains (String.ofList key) || value.isSound then
    some fun key => table.get? key.toList
  else none

/-- The fields of a value: the items of an array belong to the keys in order. -/
def Fields.of? (keys : List String) : Toml.Value → Option Fields
  | .table _ entries => Fields.ofTable? keys entries
  | .array kind items =>
    let items := kind.inOrder items
    some fun key => items[keys.idxOf key]?
  | .datetime => some fun _ => none
  | _ => none

/-- The value of a field, or its default when it is missing. -/
def Fields.get? {α : Type} (fields : Fields) (key : String) (missing : α)
    (read : Toml.Value → Option α) : Option α :=
  match fields key with
  | none => some missing
  | some value => read value

/-- Reads the word for a transport. -/
def Protocol.ofWord? (word : String) : Option Protocol :=
  if word = Protocol.udp.scheme then some .udp
  else if word = Protocol.tcp.scheme then some .tcp
  else none

namespace LogFormat

/-- The word for a format. -/
def word : LogFormat → String
  | text => "text"
  | json => "json"

/-- Reads the word for a format. -/
def ofWord? (word : String) : Option LogFormat :=
  if word = LogFormat.text.word then some .text
  else if word = LogFormat.json.word then some .json
  else none

end LogFormat

namespace ResolverConfig

/-- The keys of the settings, in order. -/
def keys : List String :=
  ["servers", "protocol", "retries", "timeout_ms", "recursion_desired",
    "tcp_fallback_on_truncation"]

/-- Reads the settings of the resolver. -/
def ofValue? (value : Toml.Value) : Option ResolverConfig := do
  let fields ← Fields.of? keys value
  let preset : ResolverConfig := {}
  return {
    servers := ← fields.get? "servers" preset.servers (·.texts?)
    protocol := ← fields.get? "protocol" preset.protocol (·.word?.bind Protocol.ofWord?)
    retries := ← fields.get? "retries" preset.retries (·.uint32?)
    timeout := ← fields.get? "timeout_ms" preset.timeout (·.uint64?)
    recursionDesired := ← fields.get? "recursion_desired" preset.recursionDesired (·.flag?)
    tcpFallback := ← fields.get? "tcp_fallback_on_truncation" preset.tcpFallback (·.flag?) }

end ResolverConfig

namespace CacheConfig

/-- The keys of the settings, in order. -/
def keys : List String := ["enabled", "min_ttl", "max_ttl"]

/-- Reads the settings of the cache. -/
def ofValue? (value : Toml.Value) : Option CacheConfig := do
  let fields ← Fields.of? keys value
  let preset : CacheConfig := {}
  return {
    enabled := ← fields.get? "enabled" preset.enabled (·.flag?)
    minTtl := ← fields.get? "min_ttl" preset.minTtl (·.uint32?)
    maxTtl := ← fields.get? "max_ttl" preset.maxTtl (·.uint32?) }

end CacheConfig

namespace LoggingConfig

/-- The keys of the settings, in order. -/
def keys : List String := ["level", "format"]

/-- Reads the settings of the log. -/
def ofValue? (value : Toml.Value) : Option LoggingConfig := do
  let fields ← Fields.of? keys value
  let preset : LoggingConfig := {}
  return {
    level := ← fields.get? "level" preset.level (·.text?)
    format := ← fields.get? "format" preset.format (·.word?.bind LogFormat.ofWord?) }

end LoggingConfig

namespace Config

/-- The keys of the parts, in order. -/
def keys : List String := ["resolver", "cache", "logging"]

/-- Reads all settings from the table of a document. -/
def ofTable? (table : Toml.Table) : Option Config := do
  let fields ← Fields.ofTable? keys table
  return {
    resolver := ← fields.get? "resolver" {} ResolverConfig.ofValue?
    cache := ← fields.get? "cache" {} CacheConfig.ofValue?
    logging := ← fields.get? "logging" {} LoggingConfig.ofValue? }

/-- Reads a configuration. -/
def parse? (text : String) : Option Config := do
  ofTable? (← Toml.Table.parse? text)

end Config

end DnsResolver
