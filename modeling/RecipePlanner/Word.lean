/-!
# Widths of whole numbers

The largest numbers of the widths that counts and written numbers may have.
-/

namespace RecipePlanner.Word

/-- The largest number of 8 bits. -/
def max8 : Nat := 0xFF

/-- The largest number of 32 bits. -/
def max32 : Nat := 0xFFFFFFFF

/-- The largest number of 64 bits. -/
def max64 : Nat := 0xFFFFFFFFFFFFFFFF

/-- The largest number of 64 bits of which one is the sign. -/
def maxSigned64 : Nat := 0x7FFFFFFFFFFFFFFF

end RecipePlanner.Word
