import DnsResolver.Text.Numeral

namespace DnsResolver.Toml

/-!
# Quoted strings

A string stands between double quotes, with escapes, or between single quotes, as it is;
either kind in threes may span lines. A string is written in the first form that needs no
escapes, in the order basic, literal, multi-line basic, multi-line literal, and with escapes
when there is none. Readers take one character at a time.
-/

/-- A character that needs an escape in every form. -/
def isControl (c : Char) : Bool := (c.toNat < 32 && c != '\t' && c != '\n') || c.toNat = 127

/-! ### Writing -/

/-- How a string is delimited. -/
inductive QuoteForm where
  | basic
  | literal
  | multiBasic
  | multiLiteral
  deriving DecidableEq

/-- Whether a character occurs three times in a row; `run` of it stand in front. -/
def hasTriple (quote : Char) (run : Nat) : List Char → Bool
  | [] => false
  | c :: cs =>
    if c = quote then 2 ≤ run || hasTriple quote (run + 1) cs else hasTriple quote 0 cs

/-- The form in which a string is written. -/
def QuoteForm.of (cs : List Char) : QuoteForm :=
  let control := cs.any isControl
  let newline := cs.contains '\n'
  if !control && !newline && !cs.contains '\\' && !cs.contains '"' then .basic
  else if !control && !newline && !cs.contains '\'' then .literal
  else if !control && !cs.contains '\\' && !hasTriple '"' 0 cs then .multiBasic
  else if !control && !hasTriple '\'' 0 cs then .multiLiteral
  else if newline then .multiBasic
  else .basic

/-- An upper-case digit of base sixteen. -/
def upperHexDigit (n : Nat) : Char := if n < 10 then Char.ofNat (48 + n) else Char.ofNat (55 + n)

/-- A character between double quotes, other than the quote itself. -/
def escapeChar (c : Char) : List Char :=
  if c = '\t' then ['\\', 't']
  else if c = '\n' then ['\\', 'n']
  else if c = '\x08' then ['\\', 'b']
  else if c = '\x0c' then ['\\', 'f']
  else if c = '\r' then ['\\', 'r']
  else if c = '\\' then ['\\', '\\']
  else if isControl c then
    ['\\', 'u', '0', '0', upperHexDigit (c.toNat / 16), upperHexDigit (c.toNat % 16)]
  else [c]

/-- The characters between single double quotes. -/
def basicBody (cs : List Char) : List Char :=
  cs.flatMap fun c => if c = '"' then ['\\', '"'] else escapeChar c

/-- The characters between triple double quotes: of quotes in a row every third is escaped.
    `run` quotes stand in front. -/
def multiBasicBody (run : Nat) : List Char → List Char
  | [] => []
  | c :: cs =>
    if c = '"' then
      if run = 2 then '\\' :: '"' :: multiBasicBody 0 cs else '"' :: multiBasicBody (run + 1) cs
    else if c = '\n' then '\n' :: multiBasicBody 0 cs
    else escapeChar c ++ multiBasicBody 0 cs

/-- A string as it is written. A string of several lines starts on a line of its own. -/
def quote (cs : List Char) : List Char :=
  let opening := if cs.contains '\n' then ['\n'] else []
  match QuoteForm.of cs with
  | .basic => '"' :: basicBody cs ++ ['"']
  | .literal => '\'' :: cs ++ ['\'']
  | .multiBasic => '"' :: '"' :: '"' :: opening ++ multiBasicBody 0 cs ++ ['"', '"', '"']
  | .multiLiteral => '\'' :: '\'' :: '\'' :: opening ++ cs ++ ['\'', '\'', '\'']

/-! ### Escapes -/

/-- What has been read of an escape. -/
inductive Escape where
  /-- The backslash. -/
  | begun
  /-- A code point of which `left` digits are to come. -/
  | hex (left value : Nat)

/-- What one more character makes of an escape. -/
inductive Escaped where
  | more (escape : Escape)
  | done (c : Char)

/-- The character of a code point; surrogates are none. -/
def charOfCode? (n : Nat) : Option Char :=
  if n < 0xD800 ∨ (0xDFFF < n ∧ n < 0x110000) then some (Char.ofNat n) else none

/-- Reads one more character of an escape. -/
def Escape.step : Escape → Char → Option Escaped
  | .begun, c =>
    if c = 'b' then some (.done '\x08')
    else if c = 't' then some (.done '\t')
    else if c = 'n' then some (.done '\n')
    else if c = 'f' then some (.done '\x0c')
    else if c = 'r' then some (.done '\r')
    else if c = '"' then some (.done '"')
    else if c = 'e' then some (.done '\x1b')
    else if c = '\\' then some (.done '\\')
    else if c = 'x' then some (.more (.hex 2 0))
    else if c = 'u' then some (.more (.hex 4 0))
    else if c = 'U' then some (.more (.hex 8 0))
    else none
  | .hex left value, c =>
    match Text.hexValue? c with
    | none => none
    | some digit =>
      let value := value * 16 + digit
      if left ≤ 1 then (charOfCode? value).map .done else some (.more (.hex (left - 1) value))

/-! ### Reading one line -/

/-- A character that stands for itself in a string of one line. -/
def isPlain (c : Char) : Bool := !isControl c && c != '\n'

/-- Reads a basic string after its opening quote. `escape` is the escape that is open, and
    `seen` the string so far, in reverse order. -/
def readBasic (escape : Option Escape) (seen : List Char) :
    List Char → Option (List Char × List Char)
  | [] => none
  | c :: rest =>
    match escape with
    | some escape =>
      match escape.step c with
      | none => none
      | some (.more escape) => readBasic (some escape) seen rest
      | some (.done c) => readBasic none (c :: seen) rest
    | none =>
      if c = '"' then some (seen.reverse, rest)
      else if c = '\\' then readBasic (some .begun) seen rest
      else if isPlain c then readBasic none (c :: seen) rest
      else none

/-- Reads a literal string after its opening quote. -/
def readLiteral (seen : List Char) : List Char → Option (List Char × List Char)
  | [] => none
  | c :: rest =>
    if c = '\'' then some (seen.reverse, rest)
    else if isPlain c then readLiteral (c :: seen) rest
    else none

/-! ### Reading several lines -/

/-- Where a reader of several lines stands. -/
inductive MultiState where
  /-- In the text, behind a run of quotes. -/
  | text (quotes : Nat)
  | escape (escape : Escape)
  /-- Behind a backslash and blanks, in front of the line end. -/
  | lineEnd
  /-- Behind a line end that does not count, and blanks. -/
  | skipping
  /-- Behind a carriage return; whether the line end counts. -/
  | carriage (counts : Bool)

/-- Reads a multi-line basic string after its opening quotes. Three quotes close it; one or
    two more belong to the string. -/
def readMultiBasic (state : MultiState) (seen : List Char) :
    List Char → Option (List Char × List Char)
  | [] =>
    match state with
    | .text quotes => if 3 ≤ quotes then some ((seen.drop 3).reverse, []) else none
    | _ => none
  | c :: rest =>
    let text (quotes : Nat) : Option (List Char × List Char) :=
      if c = '"' then
        if quotes = 4 then some ((seen.drop 2).reverse, rest)
        else readMultiBasic (.text (quotes + 1)) (c :: seen) rest
      else if 3 ≤ quotes then some ((seen.drop 3).reverse, c :: rest)
      else if c = '\\' then readMultiBasic (.escape .begun) seen rest
      else if c = '\r' then readMultiBasic (.carriage true) seen rest
      else if isPlain c || c = '\n' then readMultiBasic (.text 0) (c :: seen) rest
      else none
    let escaped (escape : Escape) : Option (List Char × List Char) :=
      match escape.step c with
      | none => none
      | some (.more escape) => readMultiBasic (.escape escape) seen rest
      | some (.done c) => readMultiBasic (.text 0) (c :: seen) rest
    match state with
    | .text quotes => text quotes
    | .escape .begun =>
      if c = '\n' then readMultiBasic .skipping seen rest
      else if c = '\r' then readMultiBasic (.carriage false) seen rest
      else if c = ' ' || c = '\t' then readMultiBasic .lineEnd seen rest
      else escaped .begun
    | .escape escape => escaped escape
    | .lineEnd =>
      if c = '\n' then readMultiBasic .skipping seen rest
      else if c = '\r' then readMultiBasic (.carriage false) seen rest
      else if c = ' ' || c = '\t' then readMultiBasic .lineEnd seen rest
      else none
    | .skipping =>
      if c = '\n' || c = ' ' || c = '\t' then readMultiBasic .skipping seen rest
      else if c = '\r' then readMultiBasic (.carriage false) seen rest
      else text 0
    | .carriage counts =>
      if c = '\n' then
        if counts then readMultiBasic (.text 0) ('\n' :: '\r' :: seen) rest
        else readMultiBasic .skipping seen rest
      else none

/-- Reads a multi-line literal string after its opening quotes. `quotes` is the run of quotes
    in front, and `carriage` tells of a carriage return in front. -/
def readMultiLiteral (quotes : Nat) (carriage : Bool) (seen : List Char) :
    List Char → Option (List Char × List Char)
  | [] => if 3 ≤ quotes then some ((seen.drop 3).reverse, []) else none
  | c :: rest =>
    if carriage then
      if c = '\n' then readMultiLiteral 0 false ('\n' :: '\r' :: seen) rest else none
    else if c = '\'' then
      if quotes = 4 then some ((seen.drop 2).reverse, rest)
      else readMultiLiteral (quotes + 1) false (c :: seen) rest
    else if 3 ≤ quotes then some ((seen.drop 3).reverse, c :: rest)
    else if c = '\r' then readMultiLiteral 0 true seen rest
    else if isPlain c || c = '\n' then readMultiLiteral 0 false (c :: seen) rest
    else none

/-- The text without a line end at its front. -/
def skipLineEnd : List Char → List Char
  | '\r' :: '\n' :: rest => rest
  | '\n' :: rest => rest
  | cs => cs

/-- Reads a string in any form at the front of a text. -/
def readQuoted : List Char → Option (List Char × List Char)
  | '"' :: '"' :: '"' :: rest => readMultiBasic (.text 0) [] (skipLineEnd rest)
  | '"' :: rest => readBasic none [] rest
  | '\'' :: '\'' :: '\'' :: rest => readMultiLiteral 0 false [] (skipLineEnd rest)
  | '\'' :: rest => readLiteral [] rest
  | _ => none

end DnsResolver.Toml
