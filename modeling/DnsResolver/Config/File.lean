import DnsResolver.Config.Writing

namespace DnsResolver

/-!
# Configuration files

A configuration is loaded from the file that is asked for. When none is asked for it comes
from the standard file, and when there is none it has the defaults.
-/

/-- What stands at a path. -/
inductive FileContents where
  | absent
  | unreadable
  | text (contents : String)

namespace Config

/-- The configuration of a file. -/
def ofFile : FileContents → Except ConfigError Config
  | .absent | .unreadable => .error .unreadable
  | .text contents =>
    match parse? contents with
    | some config => .ok config
    | none => .error .malformed

/-- Loads the file that is asked for, or the standard one. -/
def load (requested : Option FileContents) (standard : FileContents) :
    Except ConfigError Config :=
  match requested, standard with
  | some file, _ => ofFile file
  | none, .absent => .ok {}
  | none, file => ofFile file

/-- Saves a configuration. `write` tells whether it could write the text. -/
def save (config : Config) (write : String → Bool) : Except ConfigError FileContents :=
  if write config.toText then .ok (.text config.toText) else .error .unwritable

end Config

end DnsResolver
