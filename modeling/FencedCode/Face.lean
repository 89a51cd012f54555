import FencedCode.Color

namespace FencedCode

structure Face where
  foreground : Option Color := none
  bold : Bool := false
  italic : Bool := false
  underline : Bool := false
  deriving DecidableEq, Repr

namespace Face

/-- The face with what one declaration adds; one without a colon says nothing. -/
def declare (f : Face) (declaration : Text) : Face :=
  match declaration.dropWhile (· != ':') with
  | [] => f
  | _ :: value =>
    let property := String.ofList (Text.trim (declaration.takeWhile (· != ':')))
    let value := Text.trim value
    if property = "color" then { f with foreground := Color.ofText? value }
    else if property = "font-weight" ∧ value = "bold".toList then { f with bold := true }
    else if property = "font-style" ∧ value = "italic".toList then { f with italic := true }
    else if property = "text-decoration" ∧ value = "underline".toList then
      { f with underline := true }
    else f

/-- The face that the declarations of a style key describe, the later ones winning. -/
def ofKey (key : String) : Face := (Text.split ';' key.toList).foldl declare {}

end Face

end FencedCode
