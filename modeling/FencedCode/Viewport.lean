import FencedCode.Document

namespace FencedCode.Document

/-- From the first byte of line `top` to the last of the lines that `rows` rows hold; both ends stay
inside the document, and at least one line is shown. -/
def shown (d : Document) (top rows : Nat) : Interval :=
  let last := d.lineCount - 1
  let top := min top last
  let bottom := min (top + max rows 1 - 1) last
  match d.line? top, d.line? bottom with
  | some first, some final => .between first.start final.stop
  | _, _ => .between 0 d.size

end FencedCode.Document
