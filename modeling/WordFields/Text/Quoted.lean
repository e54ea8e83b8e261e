import WordFields.Text.Printing

/-!
# Texts quoted in messages

A text is shown between double quotes. Quotes and backslashes are preceded by a backslash, four
controls have a letter of their own, and every other character that does not print alone is written
as its code point in hexadecimal between braces.
-/

set_option autoImplicit false

namespace WordFields.Text

def quotedChar (c : Char) : List Char :=
  if c = Char.ofNat 0 then ['\\', '0']
  else if c = '\t' then ['\\', 't']
  else if c = '\r' then ['\\', 'r']
  else if c = '\n' then ['\\', 'n']
  else if c = '"' then ['\\', '"']
  else if c = '\\' then ['\\', '\\']
  else if isPrinted c then [c]
  else ['\\', 'u', '\x7b'] ++ Nat.toDigits 16 c.toNat ++ ['\x7d']

def quoted (text : String) : String :=
  String.ofList ('"' :: text.toList.flatMap quotedChar ++ ['"'])

end WordFields.Text
