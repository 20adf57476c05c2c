import Goobers.Lib.Utf8

/-!
# The text of a JSON string

What an encoder writes between the quotes. Quotes, backslashes and control characters
are escaped, a byte that is in no character becomes the escape of U+FFFD, and the two
line separators of Unicode are escaped as well. An encoder may also escape what has a
meaning in HTML.
-/

namespace Goobers.Lib.Json

open Utf8

/-- The bytes of a text of ASCII characters. -/
def ascii (s : String) : Bytes := s.toList.map (fun ch => ch.toNat.toUInt8)

def quote : UInt8 := 0x22

def backslash : UInt8 := 0x5C

def hexDigit (n : UInt8) : UInt8 := if n < 10 then 0x30 + n else 0x57 + n

/-- An ASCII character that is written as it is. -/
def isSafe (escapeHTML : Bool) (b : UInt8) : Bool :=
  0x20 ≤ b && b ≠ quote && b ≠ backslash &&
    !(escapeHTML && (b = 0x3C || b = 0x3E || b = 0x26))

/-- An ASCII character. -/
def escapeByte (escapeHTML : Bool) (b : UInt8) : Bytes :=
  if isSafe escapeHTML b then [b]
  else if b = backslash ∨ b = quote then [backslash, b]
  else if b = 0x08 then [backslash, 0x62]
  else if b = 0x0C then [backslash, 0x66]
  else if b = 0x0A then [backslash, 0x6E]
  else if b = 0x0D then [backslash, 0x72]
  else if b = 0x09 then [backslash, 0x74]
  else [backslash, 0x75, 0x30, 0x30, hexDigit (b >>> 4), hexDigit (b &&& 0xF)]

/-- A character of several bytes. -/
def escapeRune (rune : Bytes) : Bytes :=
  if rune = [0xE2, 0x80, 0xA8] then [backslash, 0x75, 0x32, 0x30, 0x32, 0x38]
  else if rune = [0xE2, 0x80, 0xA9] then [backslash, 0x75, 0x32, 0x30, 0x32, 0x39]
  else rune

/-- What stands for a byte that is in no character. -/
def escapedReplacement : Bytes := [backslash, 0x75, 0x66, 0x66, 0x66, 0x64]

/-- The number bounds the characters that are left. -/
def escapeFrom (escapeHTML : Bool) : Nat → Bytes → Bytes
  | _, [] => []
  | 0, _ :: _ => []
  | n + 1, b :: rest =>
    if b < 0x80 then escapeByte escapeHTML b ++ escapeFrom escapeHTML n rest
    else
      match runeSize (b :: rest) with
      | 0 => escapedReplacement ++ escapeFrom escapeHTML n rest
      | k + 1 => escapeRune (b :: rest.take k) ++ escapeFrom escapeHTML n (rest.drop k)

/-- The string between its quotes. -/
def escapeString (escapeHTML : Bool) (s : Bytes) : Bytes := escapeFrom escapeHTML s.length s

end Goobers.Lib.Json
