/-!
# Byte strings and big-endian words

Class files store their numbers high byte first.  A reading function takes the bytes that are
left and returns what it read with the bytes after it, or nothing when too few are left, so that
`read (write x ++ rest) = (x, rest)` is the form of every law about it.
-/

namespace Linkage

/-- A finite string of bytes. -/
abbrev Bytes := List UInt8

namespace Bytes

/-- The two bytes of a 16-bit word, high byte first. -/
def ofWord (w : UInt16) : Bytes :=
  [(w >>> 8).toUInt8, w.toUInt8]

/-- The four bytes of a 32-bit word, high byte first. -/
def ofDoubleWord (w : UInt32) : Bytes :=
  [(w >>> 24).toUInt8, (w >>> 16).toUInt8, (w >>> 8).toUInt8, w.toUInt8]

/-- The word whose high byte is `a` and low byte `b`. -/
def toWord (a b : UInt8) : UInt16 :=
  a.toUInt16 <<< 8 ||| b.toUInt16

/-- The 32-bit word of four bytes, high byte first. -/
def toDoubleWord (a b c d : UInt8) : UInt32 :=
  a.toUInt32 <<< 24 ||| b.toUInt32 <<< 16 ||| c.toUInt32 <<< 8 ||| d.toUInt32

/-- The first `n` bytes and the rest, when there are that many. -/
def splitExactly : Nat → Bytes → Option (Bytes × Bytes)
  | 0, s => some ([], s)
  | _ + 1, [] => none
  | n + 1, b :: s => (splitExactly n s).map fun (taken, rest) => (b :: taken, rest)

/-- What is left after `n` bytes, when there are that many. -/
def dropExactly : Nat → Bytes → Option Bytes
  | 0, s => some s
  | _ + 1, [] => none
  | n + 1, _ :: s => dropExactly n s

end Bytes

end Linkage
