namespace DnsResolver.Text

/-!
# Upper case

The upper-case form of a text as far as ASCII letters can come out of it: the letters of
ASCII themselves, and the characters beyond ASCII whose full upper-case mapping consists
of ASCII letters only.
-/

/-- The characters beyond ASCII that Unicode maps to ASCII letters in upper case. -/
def upperToAscii : List (Char × List Char) :=
  [('\u00DF', ['S', 'S']), ('\u0131', ['I']), ('\u017F', ['S']),
   ('\uFB00', ['F', 'F']), ('\uFB01', ['F', 'I']), ('\uFB02', ['F', 'L']),
   ('\uFB03', ['F', 'F', 'I']), ('\uFB04', ['F', 'F', 'L']),
   ('\uFB05', ['S', 'T']), ('\uFB06', ['S', 'T'])]

/-- The upper-case form of one character. A character whose upper-case form holds anything
    beyond ASCII is left as it is, so it still differs from every ASCII text. -/
def upperChar (c : Char) : List Char :=
  if c.toNat < 128 then [c.toUpper] else (upperToAscii.lookup c).getD [c]

/-- The upper-case form of a text, for comparison with ASCII keywords. -/
def upper (cs : List Char) : List Char := cs.flatMap upperChar

end DnsResolver.Text
