import DoubleArrayTrie.Text.DefaultIgnorable
import DoubleArrayTrie.Text.ExtendingMark
import DoubleArrayTrie.Text.Unprintable

/-!
# Quoted text

Text in quotes: a quote, a backslash and the three common control characters have escapes of two
characters, and every other character that is not seen on its own is written by its number.
-/

namespace DoubleArrayTrie

namespace Quoted

/-- Whether a character is not seen on its own. -/
def isHidden (ch : Char) : Bool :=
  isExtendingMark ch || isUnprintable ch || isDefaultIgnorable ch

/-- A character by its number in lower-case hexadecimal digits. -/
def byNumber (ch : Char) : List Char :=
  ['\\', 'u', '\x7b'] ++ Nat.toDigits 16 ch.toNat ++ ['\x7d']

/-- A character inside quotes. -/
def encodeChar (ch : Char) : List Char :=
  if ch = '"' then ['\\', '"']
  else if ch = '\\' then ['\\', '\\']
  else if ch = '\n' then ['\\', 'n']
  else if ch = '\t' then ['\\', 't']
  else if ch = '\r' then ['\\', 'r']
  else if ch = '\x00' then ['\\', '0']
  else if isHidden ch then byNumber ch
  else [ch]

/-- Text in quotes. -/
def encode (text : List Char) : List Char := '"' :: text.flatMap encodeChar ++ ['"']

end Quoted

end DoubleArrayTrie
