import DnsResolver.Config.File
import DnsResolver.Proofs.Toml.Document

namespace DnsResolver

/-!
# Configurations that are saved and loaded

The text of a configuration gives every setting by its key. So whatever the settings are, and
whatever their defaults, the same configuration is read from it.

* `ResolverConfig.entries`, `CacheConfig.entries`, `LoggingConfig.entries` — the settings as values.
* `Config.ofTable?_tables` — the settings are read from these values.
* `Config.written_chars` — the text says these values and no others.
* `Config.parse?_toText`, `Config.load_save` — saving and loading loses nothing.
-/

open Toml (Key Table Value Written)

/-! ### Single settings -/

theorem Toml.Value.texts?_strings (texts : List String) :
    (array .inline (texts.map fun text => string text.toList)).texts? = some texts := by
  rw [texts?]
  induction texts with
  | nil => rfl
  | cons text texts ih => simp [text?, ih]

theorem Toml.Value.natBelow?_of_lt {n bound : Nat} (h : n < bound) :
    (integer (some n)).natBelow? bound = some n := by
  have hlt : (n : Int) < bound := by omega
  simp [natBelow?, hlt]

theorem Toml.Value.uint32?_toNat (n : UInt32) : (integer (some n.toNat)).uint32? = some n := by
  rw [uint32?, natBelow?_of_lt n.toNat_lt, Option.map_some, UInt32.ofNat_toNat]

theorem Toml.Value.uint64?_toNat (n : UInt64) : (integer (some n.toNat)).uint64? = some n := by
  rw [uint64?, natBelow?_of_lt n.toNat_lt, Option.map_some, UInt64.ofNat_toNat]

theorem Toml.Value.word?_string (word : String) : (string word.toList).word? = some word := by
  rw [word?, String.ofList_toList]

theorem Protocol.ofWord?_scheme (protocol : Protocol) :
    ofWord? protocol.scheme = some protocol := by
  cases protocol <;> decide

theorem LogFormat.ofWord?_word (format : LogFormat) : ofWord? format.word = some format := by
  cases format <;> decide

/-! ### Settings as values -/

namespace Fields

variable {α : Type} {keys : List String} {kind : Toml.TableKind} {entries : Table} {key : String}
  {value : Value} {missing : α} {read : Value → Option α}

/-- The fields of a table without other keys are its entries. -/
theorem ofTable?_of_keys (h : entries.keys = keys.map String.toList) :
    ofTable? keys entries = some fun key => entries.get? key.toList := by
  rw [ofTable?, if_pos]
  refine List.all_eq_true.mpr fun entry hentry => ?_
  have hmem : entry.1 ∈ keys.map String.toList := h ▸ List.mem_map_of_mem hentry
  obtain ⟨word, hword, hkey⟩ := List.mem_map.mp hmem
  simp [← hkey, hword]

theorem of?_of_keys (h : entries.keys = keys.map String.toList) :
    of? keys (.table kind entries) = some fun key => entries.get? key.toList :=
  ofTable?_of_keys h

/-- A setting that is there is read, and its default does not matter. -/
theorem get?_entry (h : entries.get? key.toList = some value) :
    Fields.get? (fun key => entries.get? key.toList) key missing read = read value := by
  rw [get?, h]

end Fields

namespace ResolverConfig

/-- The settings of the resolver by their keys. -/
def entries (config : ResolverConfig) : Table :=
  [("servers".toList, .array .inline (config.servers.map fun text => .string text.toList)),
    ("protocol".toList, .string config.protocol.scheme.toList),
    ("retries".toList, .integer (some config.retries.toNat)),
    ("timeout_ms".toList, .integer (some config.timeout.toNat)),
    ("recursion_desired".toList, .boolean config.recursionDesired),
    ("tcp_fallback_on_truncation".toList, .boolean config.tcpFallback)]

theorem keys_entries (config : ResolverConfig) :
    config.entries.keys = keys.map String.toList := rfl

theorem ofValue?_entries (config : ResolverConfig) :
    ofValue? (.table .header config.entries) = some config := by
  have hservers : config.entries.get? "servers".toList
      = some (.array .inline (config.servers.map fun text => .string text.toList)) := rfl
  have hprotocol : config.entries.get? "protocol".toList
      = some (.string config.protocol.scheme.toList) := rfl
  have hretries : config.entries.get? "retries".toList
      = some (.integer (some config.retries.toNat)) := rfl
  have htimeout : config.entries.get? "timeout_ms".toList
      = some (.integer (some config.timeout.toNat)) := rfl
  have hrecursion : config.entries.get? "recursion_desired".toList
      = some (.boolean config.recursionDesired) := rfl
  have hfallback : config.entries.get? "tcp_fallback_on_truncation".toList
      = some (.boolean config.tcpFallback) := rfl
  rw [ofValue?, Fields.of?_of_keys config.keys_entries, Option.bind_eq_bind, Option.bind_some]
  extract_lets preset
  rw [Fields.get?_entry hservers, Fields.get?_entry hprotocol, Fields.get?_entry hretries,
    Fields.get?_entry htimeout, Fields.get?_entry hrecursion, Fields.get?_entry hfallback,
    Value.texts?_strings, Value.word?_string, Option.bind_some, Protocol.ofWord?_scheme,
    Value.uint32?_toNat, Value.uint64?_toNat]
  rfl

end ResolverConfig

namespace CacheConfig

/-- The settings of the cache by their keys. -/
def entries (config : CacheConfig) : Table :=
  [("enabled".toList, .boolean config.enabled),
    ("min_ttl".toList, .integer (some config.minTtl.toNat)),
    ("max_ttl".toList, .integer (some config.maxTtl.toNat))]

theorem keys_entries (config : CacheConfig) : config.entries.keys = keys.map String.toList := rfl

theorem ofValue?_entries (config : CacheConfig) :
    ofValue? (.table .header config.entries) = some config := by
  have henabled : config.entries.get? "enabled".toList = some (.boolean config.enabled) := rfl
  have hmin : config.entries.get? "min_ttl".toList
      = some (.integer (some config.minTtl.toNat)) := rfl
  have hmax : config.entries.get? "max_ttl".toList
      = some (.integer (some config.maxTtl.toNat)) := rfl
  rw [ofValue?, Fields.of?_of_keys config.keys_entries, Option.bind_eq_bind, Option.bind_some]
  extract_lets preset
  rw [Fields.get?_entry henabled, Fields.get?_entry hmin, Fields.get?_entry hmax,
    Value.uint32?_toNat, Value.uint32?_toNat]
  rfl

end CacheConfig

namespace LoggingConfig

/-- The settings of the log by their keys. -/
def entries (config : LoggingConfig) : Table :=
  [("level".toList, .string config.level.toList),
    ("format".toList, .string config.format.word.toList)]

theorem keys_entries (config : LoggingConfig) :
    config.entries.keys = keys.map String.toList := rfl

theorem ofValue?_entries (config : LoggingConfig) :
    ofValue? (.table .header config.entries) = some config := by
  have hlevel : config.entries.get? "level".toList = some (.string config.level.toList) := rfl
  have hformat : config.entries.get? "format".toList
      = some (.string config.format.word.toList) := rfl
  rw [ofValue?, Fields.of?_of_keys config.keys_entries, Option.bind_eq_bind, Option.bind_some]
  extract_lets preset
  rw [Fields.get?_entry hlevel, Fields.get?_entry hformat, Value.text?, String.ofList_toList,
    Value.word?_string, Option.bind_some, LogFormat.ofWord?_word]
  rfl

end LoggingConfig

namespace Config

/-- The parts of a configuration by their names. -/
def parts (config : Config) : List (Key × Table) :=
  [("resolver".toList, config.resolver.entries), ("cache".toList, config.cache.entries),
    ("logging".toList, config.logging.entries)]

theorem keys_tables (config : Config) :
    (Toml.tables config.parts).keys = keys.map String.toList := rfl

/-- All settings are read from their values. -/
theorem ofTable?_tables (config : Config) : ofTable? (Toml.tables config.parts) = some config := by
  have hresolver : (Toml.tables config.parts).get? "resolver".toList
      = some (.table .header config.resolver.entries) := rfl
  have hcache : (Toml.tables config.parts).get? "cache".toList
      = some (.table .header config.cache.entries) := rfl
  have hlogging : (Toml.tables config.parts).get? "logging".toList
      = some (.table .header config.logging.entries) := rfl
  rw [ofTable?, Fields.ofTable?_of_keys config.keys_tables, Option.bind_eq_bind, Option.bind_some,
    Fields.get?_entry hresolver, Fields.get?_entry hcache, Fields.get?_entry hlogging,
    ResolverConfig.ofValue?_entries, CacheConfig.ofValue?_entries, LoggingConfig.ofValue?_entries]
  rfl

/-! ### The text -/

/-- An array of texts, in each of its three layouts. -/
theorem spells_texts (items : List String) :
    (Value.array .inline (items.map fun text => .string text.toList)).Spells 1 (texts items) := by
  match items with
  | [] => exact Toml.spells_nil
  | [text] => exact Toml.spells_singleton (Toml.spells_quote text.toList)
  | first :: second :: more =>
    let pairs := (first :: second :: more).map fun text => (Value.string text.toList, quoted text)
    have hspells : ∀ pair ∈ pairs, pair.1.Spells 0 pair.2 := by
      intro pair hpair
      obtain ⟨text, -, rfl⟩ := List.mem_map.mp hpair
      exact Toml.spells_quote text.toList
    have hblank : ∀ c ∈ "    ".toList, Toml.isBlank c = true := List.all_eq_true.mp (by decide)
    have hlines := Toml.spells_itemLines hblank hspells
    have htext : Toml.itemLines "    ".toList pairs = (first :: second :: more).flatMap itemLine :=
      List.flatMap_map _ _ _
    rw [htext, List.map_map] at hlines
    exact hlines

theorem fits128_of_lt {n : Nat} (h : n < UInt64.size) : Toml.fits128 n = true := by
  have hlow : 0 ≤ Int.pow 2 127 := by decide
  have hhigh : UInt64.size ≤ Int.pow 2 128 := by decide
  rw [Toml.fits128, Bool.and_eq_true, decide_eq_true_eq, decide_eq_true_eq]
  omega

theorem toNat_lt_size (n : UInt32) : n.toNat < UInt64.size :=
  Nat.lt_trans n.toNat_lt_size (by decide)

section Lines

variable {key : String} (hkey : Toml.IsBare key.toList)

include hkey

theorem written_headerLine : Written [.header [] key.toList] (headerLine key) := .header hkey

theorem written_texts (items : List String) :
    Written [.entry [key.toList] (.array .inline (items.map fun text => .string text.toList))]
      (line key (texts items)) :=
  .entry hkey (spells_texts items) (by decide)

theorem written_quoted (text : String) :
    Written [.entry [key.toList] (.string text.toList)] (line key (quoted text)) :=
  .entry hkey (Toml.spells_quote text.toList) (by decide)

theorem written_decimal {n : Nat} (hn : n < UInt64.size) :
    Written [.entry [key.toList] (.integer (some n))] (line key (decimal n)) :=
  .entry hkey (Toml.spells_digits (fits128_of_lt hn)) (by decide)

theorem written_flag (b : Bool) :
    Written [.entry [key.toList] (.boolean b)] (line key (flag b)) :=
  .entry hkey (Toml.spells_flag b) (by decide)

end Lines

theorem written_resolverLines (config : ResolverConfig) :
    Written (Toml.sectionOf "resolver".toList config.entries) (resolverLines config) := by
  have hheader : Written _ (headerLine "resolver") := written_headerLine (by decide)
  have hservers : Written _ (line "servers" _) := written_texts (by decide) config.servers
  have hprotocol : Written _ (line "protocol" _) :=
    written_quoted (by decide) config.protocol.scheme
  have hretries : Written _ (line "retries" _) :=
    written_decimal (by decide) (toNat_lt_size config.retries)
  have htimeout : Written _ (line "timeout_ms" _) :=
    written_decimal (by decide) config.timeout.toNat_lt_size
  have hrecursion : Written _ (line "recursion_desired" _) :=
    written_flag (by decide) config.recursionDesired
  have hfallback : Written _ (line "tcp_fallback_on_truncation" _) :=
    written_flag (by decide) config.tcpFallback
  exact (((((hheader.append hservers).append hprotocol).append hretries).append htimeout).append
    hrecursion).append hfallback

theorem written_cacheLines (config : CacheConfig) :
    Written (Toml.sectionOf "cache".toList config.entries) (cacheLines config) := by
  have hheader : Written _ (headerLine "cache") := written_headerLine (by decide)
  have henabled : Written _ (line "enabled" _) := written_flag (by decide) config.enabled
  have hmin : Written _ (line "min_ttl" _) :=
    written_decimal (by decide) (toNat_lt_size config.minTtl)
  have hmax : Written _ (line "max_ttl" _) :=
    written_decimal (by decide) (toNat_lt_size config.maxTtl)
  exact ((hheader.append henabled).append hmin).append hmax

theorem written_loggingLines (config : LoggingConfig) :
    Written (Toml.sectionOf "logging".toList config.entries) (loggingLines config) := by
  have hheader : Written _ (headerLine "logging") := written_headerLine (by decide)
  have hlevel : Written _ (line "level" _) := written_quoted (by decide) config.level
  have hformat : Written _ (line "format" _) := written_quoted (by decide) config.format.word
  exact (hheader.append hlevel).append hformat

/-- The text says what the settings are, and nothing else. -/
theorem written_chars (config : Config) : Written (Toml.sections config.parts) config.chars := by
  have hall := ((((written_resolverLines config.resolver).append .blank).append
    (written_cacheLines config.cache)).append .blank).append (written_loggingLines config.logging)
  have hstatements : Toml.sections config.parts
      = Toml.sectionOf "resolver".toList config.resolver.entries ++ []
        ++ Toml.sectionOf "cache".toList config.cache.entries ++ []
        ++ Toml.sectionOf "logging".toList config.logging.entries := by
    simp [Toml.sections, parts]
  rw [hstatements]
  exact hall

theorem nodup_names (config : Config) : (config.parts.map Prod.fst).Nodup := by
  have hnames : config.parts.map Prod.fst = keys.map String.toList := rfl
  rw [hnames]
  decide

theorem nodup_keys (config : Config) : ∀ part ∈ config.parts, part.2.keys.Nodup := by
  have hresolver : (ResolverConfig.keys.map String.toList).Nodup := by decide
  have hcache : (CacheConfig.keys.map String.toList).Nodup := by decide
  have hlogging : (LoggingConfig.keys.map String.toList).Nodup := by decide
  simp only [parts, List.forall_mem_cons, ResolverConfig.keys_entries, CacheConfig.keys_entries,
    LoggingConfig.keys_entries]
  exact ⟨hresolver, hcache, hlogging, by simp⟩

/-- The text of a configuration is read as that configuration. -/
theorem parse?_toText (config : Config) : parse? config.toText = some config := by
  have hmark : config.chars.head? ≠ some '\uFEFF' := by
    show some '[' ≠ some '\uFEFF'
    decide
  have htable : Table.parse? config.toText = some (Toml.tables config.parts) := by
    rw [Table.parse?, toText, String.toList_ofList,
      Toml.statements?_of_written config.written_chars hmark, Option.bind_eq_bind,
      Option.bind_some, Toml.ofStatements?_sections config.nodup_names config.nodup_keys]
  rw [parse?, htable, Option.bind_eq_bind, Option.bind_some, ofTable?_tables]

/-- **Configurations.** What was saved is loaded again without any change, whether its file is asked
    for or is the standard one. -/
theorem load_save {config : Config} {write : String → Bool} {file : FileContents}
    (h : config.save write = .ok file) (standard : FileContents) :
    load (some file) standard = .ok config ∧ load none file = .ok config := by
  have hfile : file = .text config.toText := by
    unfold save at h
    split at h
    · exact (Except.ok.inj h).symm
    · exact absurd h (by simp)
  have hload : ofFile file = .ok config := by
    rw [hfile, ofFile, parse?_toText]
  refine ⟨hload, ?_⟩
  rw [hfile] at hload ⊢
  exact hload

/-- Settings whose texts take all forms of strings, and numbers at their limits. -/
def awkward : Config where
  resolver := {
    servers := ["say \"hi\"", "it's \"C:\\\"", "a\nb'''", "\x00\"\"\""]
    protocol := .tcp
    retries := 4294967295
    timeout := 18446744073709551615
    recursionDesired := false }
  cache := { enabled := true, maxTtl := 0 }
  logging := { level := "\r\n", format := .json }

theorem load_save_awkward :
    texts awkward.resolver.servers = ['\n'].intercalate
        ["[".toList, "    'say \"hi\"',".toList, "    '''it's \"C:\\\"''',".toList,
          "    \"\"\"".toList, "a".toList, "b'''\"\"\",".toList,
          "    \"\\u0000\\\"\\\"\\\"\",".toList, "]".toList]
      ∧ load (some (.text awkward.toText)) .absent = .ok awkward := by
  have hsave : awkward.save (fun _ => true) = .ok (.text awkward.toText) := rfl
  exact ⟨by decide +kernel, (load_save hsave .absent).1⟩

end Config

end DnsResolver
