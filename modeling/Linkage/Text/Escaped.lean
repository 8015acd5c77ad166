import Linkage.Text.Printable

/-!
# Text between quotes for people

A text between quotes in which everything that would not show is spelled out: line breaks and the
like by a letter, other characters by their code point in braces.  The apostrophe needs no escape.
-/

namespace Linkage.Text

/-- How a character stands in such a text. -/
def escapeChar (c : Char) : List Char :=
  if c = '\x00' then ['\\', '0']
  else if c = '\t' then ['\\', 't']
  else if c = '\r' then ['\\', 'r']
  else if c = '\n' then ['\\', 'n']
  else if c = '\\' then ['\\', '\\']
  else if c = '"' then ['\\', '"']
  else if shows c then [c]
  else ['\\', 'u', '\x7b'] ++ Nat.toDigits 16 c.toNat ++ ['\x7d']

/-- The text between quotes. -/
def escaped (s : String) : String :=
  String.ofList ('"' :: (s.toList.flatMap escapeChar ++ ['"']))

end Linkage.Text
