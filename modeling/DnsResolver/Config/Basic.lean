import DnsResolver.NameServer

namespace DnsResolver

/-!
# Configuration

What a user sets about the resolver, the cache and the log, and what makes such settings
unusable. Every setting has a default.
-/

/-- How log lines are written. -/
inductive LogFormat where
  | text
  | json
  deriving DecidableEq

/-- How questions are asked. -/
structure ResolverConfig where
  /-- The texts of the name servers; without any the servers of the host are asked. -/
  servers : List String := []
  /-- The transport of the servers whose text has no scheme. -/
  protocol : Protocol := .udp
  retries : UInt32 := 2
  /-- How long a reply is waited for, in milliseconds. -/
  timeout : UInt64 := 2000
  recursionDesired : Bool := true
  tcpFallback : Bool := true
  deriving DecidableEq

/-- Whether replies are cached, and the bounds of their lifetimes in seconds. -/
structure CacheConfig where
  enabled : Bool := false
  minTtl : UInt32 := 0
  maxTtl : UInt32 := 86400
  deriving DecidableEq

/-- What is logged, and how. -/
structure LoggingConfig where
  level : String := "info"
  format : LogFormat := .text
  deriving DecidableEq

/-- All settings. -/
structure Config where
  resolver : ResolverConfig := {}
  cache : CacheConfig := {}
  logging : LoggingConfig := {}
  deriving DecidableEq

/-- Why settings are unusable. -/
inductive ConfigFault where
  | noRetries
  | noTimeout
  | server (fault : NameServerFault)
  | lifetimes (min max : UInt32)

/-- The wording of a fault. -/
def ConfigFault.message : ConfigFault → String
  | noRetries => "resolver.retries must be at least 1"
  | noTimeout => "resolver.timeout_ms cannot be 0"
  | server fault => fault.message
  | lifetimes min max => s!"cache.min_ttl ({min}) exceeds cache.max_ttl ({max})"

/-- What can go wrong with a configuration. -/
inductive ConfigError where
  /-- The file cannot be read. -/
  | unreadable
  /-- The file cannot be written. -/
  | unwritable
  /-- The text is no configuration. -/
  | malformed
  | invalid (fault : ConfigFault)

/-- The wording of an error. -/
def ConfigError.message : ConfigError → String
  | unreadable => "Failed to read config file"
  | unwritable => "Failed to write config file"
  | malformed => "Failed to parse config"
  | invalid fault => s!"Configuration validation error: {fault.message}"

namespace ResolverConfig

/-- The server of a text, over the configured transport if the text has no scheme. -/
def nameServer (config : ResolverConfig) (text : String) : Except ConfigFault NameServer :=
  (NameServer.parse text config.protocol).mapError .server

/-- The servers, in order, or the fault of the first text that names none. -/
def nameServers (config : ResolverConfig) : Except ConfigFault (List NameServer) :=
  config.servers.mapM config.nameServer

/-- Checks the settings. The first fault is reported. -/
def validate (config : ResolverConfig) : Except ConfigFault Unit := do
  if config.retries = 0 then throw .noRetries
  if config.timeout = 0 then throw .noTimeout
  discard config.nameServers

end ResolverConfig

namespace CacheConfig

/-- Checks the bounds. -/
def validate (config : CacheConfig) : Except ConfigFault Unit :=
  if config.maxTtl < config.minTtl then .error (.lifetimes config.minTtl config.maxTtl)
  else .ok ()

end CacheConfig

namespace Config

/-- Checks all settings. The first fault is reported. -/
def validate (config : Config) : Except ConfigFault Unit := do
  config.resolver.validate
  config.cache.validate

end Config

end DnsResolver
