import Formula.Number.Arithmetic

/-!
# `Formula.Number.Word`: 32-bit words of numbers

The bitwise operators work on 32-bit words. A number becomes a word by
dropping its fraction and reducing the integer modulo `2 ^ 32`; a number
that is not finite becomes the zero word. A word is read back as an
unsigned integer or as a two's complement one, and either is exact.
-/

set_option autoImplicit false

namespace Formula

/-- The word of an integer, taken modulo `2 ^ 32`. -/
def wordOfInt (n : Int) : BitVec 32 := BitVec.ofInt 32 n

namespace Number

/-- The 32-bit word of a number. -/
def toWord (x : Number) : BitVec 32 := wordOfInt x.truncate

/-- The unsigned reading of a word. -/
def ofWord (w : BitVec 32) : Number := ofNat w.toNat

/-- The two's complement reading of a word. -/
def ofSignedWord (w : BitVec 32) : Number := ofInt w.toInt

/-- The number of places that a shift by `x` moves: the low five bits of
its word. -/
def shiftCount (x : Number) : Nat := x.toWord.toNat % 32

end Number

end Formula
