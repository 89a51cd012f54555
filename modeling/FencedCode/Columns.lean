import FencedCode.Text

namespace FencedCode.Columns

def tab : Nat := 4

/-- Writes text from column `col` on without passing `limit`, and tells the column it ends at. -/
def fit (width : Char → Nat) (limit col : Nat) : Text → Text × Nat
  | [] => ([], col)
  | c :: cs =>
    if c = '\t' then
      let spaces := min (tab - col % tab) (limit - col)
      if spaces = 0 then ([], col)
      else
        let (rest, stop) := fit width limit (col + spaces) cs
        (List.replicate spaces ' ' ++ rest, stop)
    else if limit < col + width c then ([], col)
    else
      let (rest, stop) := fit width limit (col + width c) cs
      (c :: rest, stop)

end FencedCode.Columns
