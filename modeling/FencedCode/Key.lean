namespace FencedCode

inductive Key where
  | char (c : Char)
  | up
  | down
  | enter
  | pageUp
  | pageDown
  | home
  | last
  | escape
  | tab
  deriving DecidableEq, Repr

structure Keystroke where
  key : Key
  control : Bool := false
  deriving DecidableEq, Repr

inductive Command where
  | quit
  | lineDown
  | lineUp
  | pageDown
  | pageUp
  | top
  | bottom
  | nextTheme
  | nothing
  deriving DecidableEq, Repr

/-- What a keystroke asks for. The control key matters with the letter c only. -/
def Keystroke.command (k : Keystroke) : Command :=
  match k.key with
  | .char 'q' | .escape => .quit
  | .char 'c' => if k.control then .quit else .nothing
  | .char 'j' | .down | .enter => .lineDown
  | .char 'k' | .up => .lineUp
  | .char ' ' | .pageDown => .pageDown
  | .char 'b' | .pageUp => .pageUp
  | .char 'g' | .home => .top
  | .char 'G' | .last => .bottom
  | .char 't' => .nextTheme
  | _ => .nothing

end FencedCode
