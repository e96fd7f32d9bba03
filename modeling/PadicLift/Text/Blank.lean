/-!
# Blanks

The blanks that may stand around a number: the characters with the white space property in Unicode
14.0. The four separators of information in ASCII are none of them.
-/

namespace PadicLift
namespace Text

/-- The code points of all blanks. -/
def blanks : List Nat :=
  [9, 10, 11, 12, 13, 32, 133, 160, 0x1680, 0x2000, 0x2001, 0x2002, 0x2003, 0x2004, 0x2005, 0x2006,
   0x2007, 0x2008, 0x2009, 0x200a, 0x2028, 0x2029, 0x202f, 0x205f, 0x3000]

/-- Whether a character is a blank. -/
def isBlank (c : Char) : Bool := blanks.contains c.toNat

end Text
end PadicLift
