import DnsResolver.Text.Ascii
import DnsResolver.Text.Numeral

namespace DnsResolver.Toml

/-!
# Dates and times

A date, a time of the day, or both with one character between them, and then maybe the
distance from universal time. A time may end with its minutes.
-/

/-- The number of days of a month. -/
def daysOfMonth (year month : Nat) : Nat :=
  if month = 2 then
    if year % 4 = 0 && (year % 100 != 0 || year % 400 = 0) then 29 else 28
  else if month = 4 || month = 6 || month = 9 || month = 11 then 30
  else 31

/-- Takes a number of exactly `count` digits off the front. -/
def takeNumber? (count : Nat) (cs : List Char) : Option (Nat × List Char) := do
  let n ← Text.decimal? (cs.take count)
  if (cs.take count).length = count then some (n, cs.drop count) else none

/-- Takes a number of two digits up to `max` off the front. -/
def takePair? (max : Nat) (cs : List Char) : Option (Nat × List Char) :=
  (takeNumber? 2 cs).filter fun pair => pair.1 ≤ max

/-- What follows a date at the front of a text. -/
def afterDate? (cs : List Char) : Option (List Char) := do
  let (year, cs) ← takeNumber? 4 cs
  let (month, cs) ← takePair? 12 (← Text.stripFront? ['-'] cs)
  let (day, cs) ← takePair? (daysOfMonth year month) (← Text.stripFront? ['-'] cs)
  if 1 ≤ month && 1 ≤ day then some cs else none

/-- What follows hours and minutes at the front of a text. -/
def afterMinutes? (cs : List Char) : Option (List Char) := do
  let (_, cs) ← takePair? 23 cs
  let (_, cs) ← takePair? 59 (← Text.stripFront? [':'] cs)
  return cs

/-- What follows the seconds, if there are any. A second may be a leap second, and may have
    a fraction. -/
def afterSeconds? : List Char → Option (List Char)
  | ':' :: cs => do
    match ← takePair? 60 cs with
    | (_, '.' :: fraction) =>
      if (fraction.takeWhile Char.isDigit).isEmpty then none
      else some (fraction.dropWhile Char.isDigit)
    | (_, cs) => some cs
  | cs => some cs

/-- The distance of a local time from universal time. -/
def isOffset : List Char → Bool
  | c :: cs =>
    if c = 'Z' || c = 'z' then cs.isEmpty
    else (c = '+' || c = '-') && afterMinutes? cs == some []
  | [] => false

/-- A time and what may follow it. -/
def isTimeThen (isEnd : List Char → Bool) (cs : List Char) : Bool :=
  match afterMinutes? cs >>= afterSeconds? with
  | some rest => isEnd rest
  | none => false

/-- A date, a time, or both with an offset that may be missing. -/
def isDatetime (cs : List Char) : Bool :=
  match afterDate? cs with
  | some [] => true
  | some (c :: time) =>
    (c = 'T' || c = 't' || c = ' ') && isTimeThen (fun rest => rest.isEmpty || isOffset rest) time
  | none => isTimeThen List.isEmpty cs

end DnsResolver.Toml
