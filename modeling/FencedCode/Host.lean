import FencedCode.Fence

namespace FencedCode

/-- A document with the two questions that its editor may answer in its own way. -/
structure Host where
  document : Document
  openers : List Interval → List Nat := document.openers
  byteAt : Nat → Option UInt8 := document.byteAt

namespace Document

def host (d : Document) : Host := { document := d }

instance : Coe Document Host := ⟨host⟩

/-- The first byte of the text around an offset, so inside a character the byte it begins with. -/
def byteOfSlice (d : Document) (offset : Nat) : Option UInt8 :=
  Text.byteAt (d.slice (.between offset (offset + 1))) 0

/-- The document shown by an editor that hands out text only and, given a list of openers, reports
it whatever it is asked. -/
def hosted (d : Document) (openers : Option (List Nat)) : Host where
  document := d
  openers := fun near => openers.getD (d.openers near)
  byteAt := d.byteOfSlice

end Document

end FencedCode
