/-!
# Quoted text

A text between double quotes. The quote and the backslash are written behind a backslash, the
five control characters that have a letter with that letter, the other characters below U+0020 as
`\u` and four hexadecimal digits, and everything else as it is.
-/

set_option autoImplicit false

namespace Treewalk.Text

/-- The letter that stands for a control character behind a backslash. -/
def controlLetter? (c : Char) : Option Char :=
  if c = '\x08' then some 'b'
  else if c = '\x0c' then some 'f'
  else if c = '\n' then some 'n'
  else if c = '\r' then some 'r'
  else if c = '\t' then some 't'
  else none

def escapeChar (c : Char) : List Char :=
  if c = '"' ∨ c = '\\' then ['\\', c]
  else match controlLetter? c with
    | some letter => ['\\', letter]
    | none =>
      if c.toNat < 0x20 then
        ['\\', 'u', '0', '0', Nat.digitChar (c.toNat / 16), Nat.digitChar (c.toNat % 16)]
      else [c]

def escape (cs : List Char) : List Char := cs.flatMap escapeChar

def quoted (s : String) : String := String.ofList ('"' :: (escape s.toList ++ ['"']))

end Treewalk.Text
