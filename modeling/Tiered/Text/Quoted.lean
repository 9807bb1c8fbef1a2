import Tiered.Text.Hex
import Tiered.Text.Visible

/-! Quoted text: double quotes around, backslash escapes inside. -/
namespace Tiered.Text

/-- A tab, return, newline, NUL, quote or backslash is a two-character escape, any other invisible
character or extender its code point in braces, and the rest stand for themselves. -/
def escapeChar (c : Char) : List Char :=
  if c = '\t' then ['\\', 't']
  else if c = '\r' then ['\\', 'r']
  else if c = '\n' then ['\\', 'n']
  else if c = '\x00' then ['\\', '0']
  else if c = '"' then ['\\', '"']
  else if c = '\\' then ['\\', '\\']
  else if isVisible c then [c]
  else ['\\', 'u', '\x7b'] ++ Nat.toDigits 16 c.toNat ++ ['\x7d']

def escape (cs : List Char) : List Char :=
  cs.flatMap escapeChar

/-- The text between double quotes, so escaped that no character inside can end it. -/
def quote (s : String) : String :=
  String.ofList ('"' :: escape s.toList ++ ['"'])

end Tiered.Text
