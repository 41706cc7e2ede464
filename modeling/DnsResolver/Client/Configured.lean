import DnsResolver.Client.Session
import DnsResolver.Config.Basic
import DnsResolver.SystemServers

namespace DnsResolver

/-!
# Configured clients

A client and its cache as the configuration sets them. A configuration without servers
takes those of the host, over the configured transport.
-/

/-- The settings that a configuration gives a client. -/
def Settings.ofConfig (config : ResolverConfig) : Settings where
  retries := config.retries.toNat
  timeout := config.timeout.toNat
  recursionDesired := config.recursionDesired
  tcpFallback := config.tcpFallback

/-- The cache that a configuration asks for. -/
def Cache.ofConfig? (config : CacheConfig) : Option Cache :=
  if config.enabled then some (.empty config.minTtl config.maxTtl) else none

/-- The servers that a configuration asks for; `hostFile` lists those of the host and is
    absent when it cannot be read. -/
def ResolverConfig.serversOr (config : ResolverConfig) (hostFile : Option String) :
    Except ConfigFault (List NameServer) := do
  let servers ← config.nameServers
  if servers.isEmpty then
    return (SystemServers.discover hostFile).map fun server => server.withProtocol config.protocol
  else
    return servers

namespace Client

variable {σ : Type}

/-- The client that a configuration asks for, in an environment. -/
def ofConfig (config : ResolverConfig) (hostFile : Option String)
    (environment : Environment σ) : Except ConfigFault (Client σ) := do
  config.validate
  let servers ← config.serversOr hostFile
  return { servers, settings := .ofConfig config, environment }

end Client

/-- The session with which a configured client starts. -/
def Session.ofConfig {σ : Type} (config : CacheConfig) (world : σ) : Session σ where
  world
  cache := Cache.ofConfig? config

end DnsResolver
