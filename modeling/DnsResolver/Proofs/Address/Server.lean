import DnsResolver.NameServer
import DnsResolver.Proofs.Address.IPv6

namespace DnsResolver

/-!
# Name servers in a text

The text of a server without a host name says all there is about it, so it can be read wherever such
a text is expected, with blanks around it and whatever transport is the default there.

* `Endpoint.parse?_chars` — a printed endpoint is read.
* `NameServer.parse_toString` — so is a printed server.
-/

open Text (Stops stops_cons)

/-! ### Endpoints -/

namespace Endpoint

variable {rest : List Char} {n limit : Nat}

/-- A printed number within the limit is read, unless digits follow it. -/
theorem scanNumber_digits (hn : n ≤ limit) (hrest : Stops Char.isDigit rest) :
    scanNumber limit (Text.digits n ++ rest) = some (n, rest) := by
  unfold scanNumber
  rw [Text.span_append (fun c hc => Text.isDigit_of_mem_digits hc) hrest]
  simp only [Text.decimal?_digits, Option.bind_some, if_pos hn]

theorem port?_digits (port : UInt16) : port? (':' :: Text.digits port.toNat) = some port := by
  have hlt := port.toNat_lt
  have hnumber : scanNumber 65535 (Text.digits port.toNat ++ []) = some (port.toNat, []) :=
    scanNumber_digits (by omega) Text.stops_nil
  rw [List.append_nil] at hnumber
  simp only [port?, hnumber, UInt16.ofNat_toNat]

/-- The scope in the brackets behind an address, which is written unless it is zero. -/
def zone (scope : UInt32) : List Char :=
  if scope = 0 then [] else '%' :: Text.digits scope.toNat

theorem scanScope_zone (scope : UInt32) (rest : List Char) :
    scanScope (zone scope ++ ']' :: rest) = (scope, ']' :: rest) := by
  have hlt := scope.toNat_lt
  have hbracket : Stops Char.isDigit (']' :: rest) := stops_cons.mpr rfl
  by_cases hzero : scope = 0
  · rw [zone, if_pos hzero, hzero]
    rfl
  · have hnumber : scanNumber 4294967295 (Text.digits scope.toNat ++ ']' :: rest)
        = some (scope.toNat, ']' :: rest) := scanNumber_digits (by omega) hbracket
    rw [zone, if_neg hzero, List.cons_append]
    simp only [scanScope, hnumber, UInt32.ofNat_toNat]

/-- Neither a scope nor the bracket behind it goes on with the groups of an address. -/
theorem closes_zone (scope : UInt32) (rest : List Char) :
    IPv6.Closes (zone scope ++ ']' :: rest) := by
  unfold zone
  split
  · exact IPv6.closes_cons rfl (by decide) (by decide) rest
  · exact IPv6.closes_cons rfl (by decide) (by decide) _

/-- **Endpoints.** A printed endpoint is read. -/
theorem parse?_chars (endpoint : Endpoint) : parse? endpoint.chars = some endpoint := by
  cases endpoint with
  | v4 ip port =>
    have hcolon : Stops Char.isDigit (':' :: Text.digits port.toNat) := stops_cons.mpr rfl
    simp only [chars, parse?, parseV4?, ip.scan_chars hcolon, port?_digits, Option.map_some]
  | v6 ip port scope =>
    have htext : chars (.v6 ip port scope)
        = '[' :: (ip.chars ++ (zone scope ++ ']' :: ':' :: Text.digits port.toNat)) := by
      simp [chars, zone]
    have hscan := ip.scan_chars (closes_zone scope (':' :: Text.digits port.toNat))
    have hv4 : ∀ inner, parseV4? ('[' :: inner) = none := fun inner => by
      rw [parseV4?, IPv4.scan_eq_none (by simp)]
    simp only [htext, parse?, hv4, parseV6?, hscan, scanScope_zone, port?_digits, Option.map_some]

/-- The text of an endpoint ends with a digit of its port. -/
theorem chars_eq_append (endpoint : Endpoint) :
    ∃ front, endpoint.chars = front ++ Text.digits endpoint.port.toNat := by
  cases endpoint with
  | v4 ip port => exact ⟨ip.chars ++ [':'], by simp [chars, Endpoint.port]⟩
  | v6 ip port scope =>
    exact ⟨'[' :: (ip.chars ++ (zone scope ++ [']', ':'])), by simp [chars, zone, Endpoint.port]⟩

end Endpoint

/-! ### Servers -/

namespace NameServer

theorem isBlank_of_isDigit {c : Char} (h : c.isDigit = true) : Text.isBlank c = false := by
  obtain ⟨hlow, hhigh⟩ : 48 ≤ c.toNat ∧ c.toNat ≤ 57 := by
    simpa [Char.isDigit, UInt32.le_iff_toNat_le] using h
  unfold Text.isBlank Text.blankRanges
  simp only [List.any_cons, List.any_nil, Bool.or_false, Bool.or_eq_false_iff, Bool.and_eq_false_iff,
    decide_eq_false_iff_not]
  omega

/-- The scheme of a text tells its transport, whatever the default is. -/
theorem scheme?_append (protocol missing : Protocol) (rest : List Char) :
    scheme? missing (protocol.scheme.toList ++ ("://".toList ++ rest)) = .ok (protocol, rest) := by
  cases protocol <;> rfl

/-- **Servers.** The text of a server without a host name is read as the server, whatever transport
    is the default, and with any blanks around it. -/
theorem parse_toString (endpoint : Endpoint) (protocol missing : Protocol) (before after : String)
    (hbefore : ∀ c ∈ before.toList, Text.isBlank c = true)
    (hafter : ∀ c ∈ after.toList, Text.isBlank c = true) :
    parse (before ++ toString ⟨endpoint, protocol, none⟩ ++ after) missing
      = .ok ⟨endpoint, protocol, none⟩ := by
  have htext : (toString ⟨endpoint, protocol, none⟩).toList
      = protocol.scheme.toList ++ ("://".toList ++ endpoint.chars) := by
    simp [toString, ToString.toString]
  obtain ⟨front, hfront⟩ := endpoint.chars_eq_append
  obtain ⟨last, more, hlast⟩ := List.exists_cons_of_ne_nil
    (List.reverse_ne_nil_iff.mpr (Text.digits_ne_nil endpoint.port.toNat))
  have hmem : last ∈ (Text.digits endpoint.port.toNat).reverse := hlast ▸ List.mem_cons_self
  have hdigit : last.isDigit = true := Text.isDigit_of_mem_digits (List.mem_reverse.mp hmem)
  -- The text starts with a letter and ends with a digit, so it has no blanks at its ends.
  have htrim : Text.trim (before ++ toString ⟨endpoint, protocol, none⟩ ++ after).toList
      = protocol.scheme.toList ++ ("://".toList ++ endpoint.chars) := by
    rw [String.toList_append, String.toList_append, htext]
    refine Text.trim_append hbefore hafter (by cases protocol <;> simp [Protocol.scheme]) ?_ ?_
    · cases protocol <;> exact stops_cons.mpr rfl
    · rw [hfront, ← List.append_assoc, ← List.append_assoc, List.reverse_append, hlast]
      exact stops_cons.mpr (isBlank_of_isDigit hdigit)
  have hendpoint : endpoint? endpoint.chars = some endpoint := by
    rw [endpoint?, endpoint.parse?_chars]
  rw [parse, htrim, scheme?_append]
  simp only [bind, Except.bind, hendpoint]
  rfl

/-- An endpoint with a scope. Of the two runs of zero groups in its address the second is longer. -/
def linkLocal : Endpoint := .v6 ⟨[0xFE80, 0, 0, 1, 0, 0, 0, 0xA], rfl⟩ 5353 3

theorem parse_toString_linkLocal :
    toString ⟨linkLocal, .tcp, none⟩ = "tcp://[fe80:0:0:1::a%3]:5353"
      ∧ parse ("\t" ++ toString ⟨linkLocal, .tcp, none⟩ ++ " \n") .udp
        = .ok ⟨linkLocal, .tcp, none⟩ :=
  ⟨by cbv, parse_toString linkLocal .tcp .udp "\t" " \n" (List.all_eq_true.mp (by decide))
    (List.all_eq_true.mp (by decide))⟩

end NameServer

end DnsResolver
