import Grove.Text.Printable
/-!
# Quoted characters and texts in messages

Messages show a character or a text between quotes. Within them the quote itself, the backslash and
the common controls have short escapes; a character without a picture of its own is written by its
hexadecimal code point.
-/

set_option autoImplicit false

namespace Grove.Text

/-- A code point in braces, in lower-case hexadecimal. -/
def codePointEscape (c : Char) : List Char :=
  ['\\', 'u', '\x7b'] ++ Nat.toDigits 16 c.toNat ++ ['\x7d']

/-- A character inside `quote` marks. -/
def escapeWithin (quote : Char) (c : Char) : List Char :=
  if c = '\x00' then ['\\', '0']
  else if c = '\t' then ['\\', 't']
  else if c = '\r' then ['\\', 'r']
  else if c = '\n' then ['\\', 'n']
  else if c = '\\' then ['\\', '\\']
  else if c = quote then ['\\', quote]
  else if isExtender c || !isPrintable c then codePointEscape c
  else [c]

def quotedChar (c : Char) : List Char := '\'' :: escapeWithin '\'' c ++ ['\'']

def quotedText (text : List Char) : List Char :=
  '\"' :: text.flatMap (escapeWithin '\"') ++ ['\"']

def byteLength : List Char → Nat
  | [] => 0
  | c :: rest => c.utf8Size + byteLength rest

theorem byteLength_append (a b : List Char) : byteLength (a ++ b) = byteLength a + byteLength b := by
  induction a with
  | nil => simp [byteLength]
  | cons c rest ih => simp [byteLength, ih, Nat.add_assoc]

end Grove.Text
