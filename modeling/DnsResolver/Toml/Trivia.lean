import DnsResolver.Toml.Quoted

namespace DnsResolver.Toml

/-!
# Blanks, line ends and comments

Blanks within a line separate nothing; a comment runs from a hash to the end of its line,
and a line ends with a line feed that a carriage return may precede.
-/

/-- A blank within a line. -/
def isBlank (c : Char) : Bool := c = ' ' || c = '\t'

/-- The text without the blanks at its front. -/
def skipBlanks (cs : List Char) : List Char := cs.dropWhile isBlank

/-- Skips blanks, line ends and comments. `comment` tells that the text begins inside a
    comment. A comment with a control character fails. -/
def skipLines (comment : Bool) : List Char → Option (List Char)
  | [] => some []
  | '\r' :: '\n' :: rest => skipLines false rest
  | c :: rest =>
    if c = '\n' then skipLines false rest
    else if comment then if isPlain c then skipLines true rest else none
    else if isBlank c then skipLines false rest
    else if c = '#' then skipLines true rest
    else some (c :: rest)

/-- Ends a line: only blanks and a comment may stand in front of its end, which may be the
    end of the text. -/
def endLine (comment : Bool) : List Char → Option (List Char)
  | [] => some []
  | '\r' :: '\n' :: rest => some rest
  | c :: rest =>
    if c = '\n' then some rest
    else if comment then if isPlain c then endLine true rest else none
    else if isBlank c then endLine false rest
    else if c = '#' then endLine true rest
    else none

end DnsResolver.Toml
