/-!
# Octet strings

Disassembled class files are octet strings that are mostly, but not always,
well-formed UTF-8.  Everything that reads them works on plain lists of octets,
and text is only made from them at the very end.

This module fixes the octet classes that the grammar mentions and the
operations that do not depend on any grammar.
-/

namespace SmaliFlow

/-- A finite string of octets. -/
abbrev Bytes := List UInt8

namespace Octet

/-- Spaces and every control octet below them. -/
def isPadding (octet : UInt8) : Bool :=
  octet ≤ 0x20

/-- Octets above the space, which never separate words. -/
def isVisible (octet : UInt8) : Bool :=
  0x20 < octet

/-- The two octets that separate words inside a line: space and tab. -/
def isBlank (octet : UInt8) : Bool :=
  octet == 0x20 || octet == 0x09

/-- The ASCII digits. -/
def isDigit (octet : UInt8) : Bool :=
  0x30 ≤ octet && octet ≤ 0x39

/-- The ASCII capital letters. -/
def isUpper (octet : UInt8) : Bool :=
  0x41 ≤ octet && octet ≤ 0x5a

/-- The ASCII small letters. -/
def isLower (octet : UInt8) : Bool :=
  0x61 ≤ octet && octet ≤ 0x7a

/-- The ASCII letters and digits. -/
def isAlphanumeric (octet : UInt8) : Bool :=
  isDigit octet || isUpper octet || isLower octet

/-- The small letter of an ASCII capital; every other octet is kept. -/
def toLower (octet : UInt8) : UInt8 :=
  if isUpper octet then octet + 0x20 else octet

end Octet

namespace Bytes

/-- The UTF-8 octets of a text. -/
def ofString (text : String) : Bytes :=
  text.toUTF8.data.toList

/-- Remove the padding at both ends. -/
def trim (bytes : Bytes) : Bytes :=
  ((bytes.dropWhile Octet.isPadding).reverse.dropWhile Octet.isPadding).reverse

/-- Whether the octets begin with those of `word`. -/
@[inline]
def startsWith (bytes : Bytes) (word : String) : Bool :=
  (ofString word).isPrefixOf bytes

/-- Replace every ASCII capital by its small letter. -/
def toLower (bytes : Bytes) : Bytes :=
  bytes.map Octet.toLower

end Bytes

end SmaliFlow
