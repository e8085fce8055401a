import PartitionedIndex.Text.Hidden

/-! # Quoted text

A text in double quotes, on one line and with every character visible: the quote, the backslash
and the characters that would not show are written as escapes, all others stand for
themselves. -/

namespace PartitionedIndex.Text

/-- The escape of a code point by its hexadecimal number, without leading zeros. -/
def hexEscape (c : Char) : List Char :=
  '\\' :: 'u' :: '\x7b' :: (Nat.toDigits 16 c.toNat ++ ['\x7d'])

/-- How one character of a quoted text is written. -/
def escapeChar (c : Char) : List Char :=
  if c = '"' then ['\\', '"']
  else if c = '\\' then ['\\', '\\']
  else if c = '\n' then ['\\', 'n']
  else if c = '\r' then ['\\', 'r']
  else if c = '\t' then ['\\', 't']
  else if c = '\x00' then ['\\', '0']
  else if isHidden c then hexEscape c
  else [c]

/-- A text between double quotes, escaped. -/
def quote (s : String) : String :=
  String.ofList ('"' :: (s.toList.flatMap escapeChar ++ ['"']))

end PartitionedIndex.Text
