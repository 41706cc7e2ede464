import DnsResolver.Client.Configured
import DnsResolver.Client.Iterate
import DnsResolver.Config.File
import DnsResolver.Proofs.Cache.History
import DnsResolver.Proofs.Client.Budget
import DnsResolver.Proofs.Client.Transparency
import DnsResolver.Proofs.Message.Framing
import DnsResolver.Proofs.Message.RoundTrip
import DnsResolver.Proofs.Message.Remembered
import DnsResolver.Proofs.Message.Packed
import DnsResolver.Proofs.Name.Chains
import DnsResolver.Proofs.Name.Pieces
import DnsResolver.Proofs.Trie.Refusal
import DnsResolver.Proofs.Random
import DnsResolver.Transport.Exchange
import DnsResolver.Proofs.Client.Following
import DnsResolver.Proofs.Client.Integrity
import DnsResolver.Proofs.Client.Chasing
import DnsResolver.Proofs.Client.Provenance
import DnsResolver.Proofs.Client.Noise
import DnsResolver.Proofs.Name.Reading
import DnsResolver.Proofs.Client.Collected
import DnsResolver.Proofs.Message.Letters
import DnsResolver.Proofs.Message.Pointer
import DnsResolver.Proofs.Cache.Purge
import DnsResolver.Proofs.Client.Malformed
import DnsResolver.Proofs.Message.Refused
import DnsResolver.Proofs.Trie.Walk
import DnsResolver.Proofs.Address.Server
import DnsResolver.Proofs.Config.RoundTrip
