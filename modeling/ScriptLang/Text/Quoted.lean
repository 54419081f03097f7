/-!
# Quoted text

A text between double quotes, for descriptions. Quotes, backslashes and the usual control
characters are written with a backslash, other control characters and combining marks as
their code points.
-/

namespace ScriptLang.Text

/-- Characters that show nothing of their own: control characters, and the marks that
combine with the character before them. -/
def isUnseen (c : Char) : Bool :=
  c.toNat < 0x20 || 0x7f ≤ c.toNat && c.toNat < 0xa0 || 0x300 ≤ c.toNat && c.toNat < 0x370

/-- A character inside quotes. -/
def escape (c : Char) : List Char :=
  match c with
  | '"' => ['\\', '"']
  | '\\' => ['\\', '\\']
  | '\t' => ['\\', 't']
  | '\n' => ['\\', 'n']
  | '\r' => ['\\', 'r']
  | '\x00' => ['\\', '0']
  | _ =>
    if isUnseen c then '\\' :: 'u' :: '\x7b' :: (Nat.toDigits 16 c.toNat ++ ['\x7d'])
    else [c]

/-- A text in quotes. -/
def quoted (s : String) : String :=
  String.ofList ('"' :: (s.toList.flatMap escape ++ ['"']))

end ScriptLang.Text
