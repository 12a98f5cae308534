/-!
# Byte strings

Strings, field names and error messages are plain sequences of bytes; no encoding is assumed
anywhere. This module holds the few operations on them that everything else shares:

* `ascii` reads a literal text, one byte per character;
* `untilNul` is the part of a byte string that a reader sees who stops at a NUL;
* `decimal` writes an integer in base ten;
* `fnv1a` is the 32-bit FNV-1a hash.

Byte strings are ordered bytewise as unsigned numbers, a proper beginning before its extensions:
this is the order that `compare` gives on lists.
-/

namespace ValueCore

/-- A string of bytes of any value, NUL included. -/
abbrev Bytes := List UInt8

/-- The bytes of a text whose characters all lie below U+0100, one byte for each. -/
def ascii (text : String) : Bytes := text.toList.map fun c => c.toNat.toUInt8

namespace Bytes

/-- The bytes before the first NUL: what a reader that stops at a NUL sees of a byte string. -/
def untilNul (b : Bytes) : Bytes := b.takeWhile (· != 0)

/-- Bytewise order, ties included. -/
def le (a b : Bytes) : Bool := (compare a b).isLE

/-- Base-ten digits of a natural number. -/
def decimalNat (n : Nat) : Bytes := (Nat.toDigits 10 n).map fun c => c.toNat.toUInt8

/-- Base-ten text of an integer, with a minus sign in front of a negative one. -/
def decimal : Int → Bytes
  | .ofNat n => decimalNat n
  | .negSucc n => ascii "-" ++ decimalNat (n + 1)

/-- One round of FNV-1a. -/
def fnvStep (h : UInt32) (byte : UInt8) : UInt32 := (h ^^^ byte.toUInt32) * 16777619

/-- The 32-bit FNV-1a hash. It depends on the contents alone, so equal strings hash alike on every
platform. -/
def fnv1a (b : Bytes) : UInt32 := b.foldl fnvStep 2166136261

/-- `count` copies of `b`, one after the other. -/
def repeated (b : Bytes) (count : Nat) : Bytes := (List.replicate count b).flatten

/-- Items written one after the other with `separator` between neighbours. -/
def joined (separator : Bytes) (items : List Bytes) : Bytes := (items.intersperse separator).flatten

end Bytes

end ValueCore
