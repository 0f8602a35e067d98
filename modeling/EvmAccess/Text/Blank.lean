/-!
# Blanks and words

The characters that separate words are those with the Unicode property `White_Space`. A word is a
maximal run of other characters.
-/

namespace EvmAccess

/-- The first and last code points of the runs of `White_Space` characters. -/
def blankRanges : List (Nat × Nat) :=
  [(0x9, 0xD), (0x20, 0x20), (0x85, 0x85), (0xA0, 0xA0), (0x1680, 0x1680), (0x2000, 0x200A),
   (0x2028, 0x2029), (0x202F, 0x202F), (0x205F, 0x205F), (0x3000, 0x3000)]

/-- Whether a character separates words. -/
def isBlank (c : Char) : Bool :=
  blankRanges.any fun r => r.1 ≤ c.toNat && c.toNat ≤ r.2

/-- The first word of a text and what follows it; the word is empty if there is none. -/
def takeWord (cs : List Char) : List Char × List Char :=
  let start := cs.dropWhile isBlank
  (start.takeWhile (!isBlank ·), start.dropWhile (!isBlank ·))

end EvmAccess
