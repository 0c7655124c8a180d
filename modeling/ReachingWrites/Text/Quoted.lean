import ReachingWrites.Text.Printable

/-!
# Quoted text

A string in a diagnostic stands between double quotes and keeps to one line, whatever it holds:
quotes and backslashes carry a backslash, the common controls have letters of their own, and every
other character that does not print is written by its code point.
-/

set_option autoImplicit false

namespace ReachingWrites.Text

/-- The written form of one character between quotes. -/
def escape (c : Char) : List Char :=
  if c = '"' then ['\\', '"']
  else if c = '\\' then ['\\', '\\']
  else if c = '\x00' then ['\\', '0']
  else if c = '\t' then ['\\', 't']
  else if c = '\n' then ['\\', 'n']
  else if c = '\r' then ['\\', 'r']
  else if isPrintable c then [c]
  else ['\\', 'u', '{'] ++ Nat.toDigits 16 c.toNat ++ ['}']

/-- A string between quotes, each character in its written form. -/
def quoted (s : String) : String :=
  String.ofList ('"' :: (s.toList.flatMap escape ++ ['"']))

example : quoted "" = "\"\"" := by decide +kernel
example : quoted "it's" = "\"it's\"" := by decide +kernel
example : quoted "a\"b\\c" = "\"a\\\"b\\\\c\"" := by decide +kernel
example : quoted "\n\x00" = "\"\\n\\0\"" := by decide +kernel
example : quoted "é\u200d" = "\"é\\u\x7b200d\x7d\"" := by decide +kernel

end ReachingWrites.Text
