import FencedCode.Text.WordTable

namespace FencedCode.Text

/-- A character that may stand in a word: a letter, mark, digit or connector. -/
def isWord (c : Char) : Bool :=
  if c.toNat < 0x80 then c.isAlphanum || c == '_' else wordTable.contains c.toNat

def isDigit (c : Char) : Bool :=
  if c.toNat < 0x80 then c.isDigit else digitTable.contains c.toNat

/-- A letter or numeral: a word character that does not merely connect, or a numeral outside
words. -/
def isAlphanumeric (c : Char) : Bool :=
  if c.toNat < 0x80 then c.isAlphanum
  else (wordTable.contains c.toNat && !connectingTable.contains c.toNat)
    || numeralTable.contains c.toNat

end FencedCode.Text
