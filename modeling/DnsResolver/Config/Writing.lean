import DnsResolver.Config.Reading

namespace DnsResolver

/-!
# Configurations as text

A configuration is written with all its settings: a header for each part, one line for each
setting, and a blank line between parts. Two or more servers are written one to a line.
-/

namespace Config

/-- The line of a setting. -/
def line (key : String) (value : List Char) : List Char :=
  key.toList ++ [' ', '=', ' '] ++ value ++ ['\n']

/-- The line of a header. -/
def headerLine (name : String) : List Char := '[' :: name.toList ++ [']', '\n']

/-- A text in quotes. -/
def quoted (text : String) : List Char := Toml.quote text.toList

/-- A number. -/
def decimal (n : Nat) : List Char := Text.digits n

/-- A truth value. -/
def flag (b : Bool) : List Char := (if b then "true" else "false").toList

/-- The line of one text among others. -/
def itemLine (text : String) : List Char := "    ".toList ++ quoted text ++ [',', '\n']

/-- An array of texts. -/
def texts : List String → List Char
  | [] => ['[', ']']
  | [text] => '[' :: quoted text ++ [']']
  | items => '[' :: '\n' :: items.flatMap itemLine ++ [']']

/-- The lines about the resolver. -/
def resolverLines (config : ResolverConfig) : List Char :=
  headerLine "resolver"
  ++ line "servers" (texts config.servers)
  ++ line "protocol" (quoted config.protocol.scheme)
  ++ line "retries" (decimal config.retries.toNat)
  ++ line "timeout_ms" (decimal config.timeout.toNat)
  ++ line "recursion_desired" (flag config.recursionDesired)
  ++ line "tcp_fallback_on_truncation" (flag config.tcpFallback)

/-- The lines about the cache. -/
def cacheLines (config : CacheConfig) : List Char :=
  headerLine "cache"
  ++ line "enabled" (flag config.enabled)
  ++ line "min_ttl" (decimal config.minTtl.toNat)
  ++ line "max_ttl" (decimal config.maxTtl.toNat)

/-- The lines about the log. -/
def loggingLines (config : LoggingConfig) : List Char :=
  headerLine "logging"
  ++ line "level" (quoted config.level)
  ++ line "format" (quoted config.format.word)

/-- The characters of a configuration. -/
def chars (config : Config) : List Char :=
  resolverLines config.resolver ++ ['\n'] ++ cacheLines config.cache ++ ['\n']
  ++ loggingLines config.logging

/-- The text of a configuration. -/
def toText (config : Config) : String := String.ofList config.chars

end Config

end DnsResolver
