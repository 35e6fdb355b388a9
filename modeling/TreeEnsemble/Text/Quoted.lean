import TreeEnsemble.Text.CharacterTables

/-!
Quoted text for messages: between double quotes, with every character that would not show itself
written as an escape.
-/

namespace TreeEnsemble.Text

def lowerHex (n : Nat) : List Char := Nat.toDigits 16 n

/-- A character inside quotes. A character with no escape of its own is written by its code point
when it is unprintable or would join the character before it. -/
def escape (c : Char) : List Char :=
  if c = '\t' then ['\\', 't']
  else if c = '\n' then ['\\', 'n']
  else if c = '\r' then ['\\', 'r']
  else if c = '\x00' then ['\\', '0']
  else if c = '\x22' ∨ c = '\\' then ['\\', c]
  else if isExtending c || !isPrintable c then
    ['\\', 'u', '\x7b'] ++ lowerHex c.toNat ++ ['\x7d']
  else [c]

def quote (s : String) : String :=
  String.ofList ('\x22' :: s.toList.flatMap escape ++ ['\x22'])

end TreeEnsemble.Text
