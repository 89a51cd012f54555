import FencedCode.CommandLine
import FencedCode.Terminal
import Std.Time.Format

namespace FencedCode.Program

def stateOf (e : IO.Error) : FileState :=
  match e with
  | .noFileOrDirectory _ _ _ => .absent none
  | .inappropriateType _ code _ => if code = 21 ∨ code = -21 then .directory else .blocked
  | .invalidArgument _ 36 _ => .nameTooLong
  | .permissionDenied _ _ _ => .unreadable "Permission denied (os error 13)"
  | e => .unreadable (toString e)

def files : FileAccess IO where
  look path := do
    try
      return .file path (← IO.FS.readBinFile path)
    catch e => return stateOf e
  append path bytes := do
    try
      let handle ← IO.FS.Handle.mk path .append
      handle.write bytes
      return .ok ()
    catch e =>
      match (stateOf e).readText with
      | .error cause => return .error cause
      | .ok _ => return .ok ()

def time : IO String := do
  let now : Std.Time.PlainDateTime := .ofWallTime (.ofTimestamp (← Std.Time.Timestamp.now) .zero)
  return now.format "uuuu-MM-dd'T'HH:mm:ss.SSSSSS'Z'"

def number (name : String) (otherwise : Nat) : IO Nat := do
  return ((← IO.getEnv name).bind String.toNat?).getD otherwise

-- The terminal has to hand keys over as they are pressed.
partial def page (p : Pager) : IO Unit := do
  let p := p.settle
  let out ← IO.getStdout
  out.putStr (Terminal.ofScreen p.screen)
  out.flush
  let bytes ← (← IO.getStdin).read 64
  if bytes.isEmpty then return
  let strokes := Terminal.keys ((String.fromUTF8? bytes).getD "").toList
  match strokes.foldlM (fun p k => (Pager.settle p).handle (.key k)) p with
  | some p => page p
  | none => return

end FencedCode.Program

open FencedCode

def main (args : List String) : IO UInt32 := do
  let env ← ["HOME", "FENCELIGHT_LOG", "RUST_LOG"].mapM fun name => return (name, ← IO.getEnv name)
  let s : CommandLine.Surroundings := {
    env := fun name => (env.lookup name).join
    time := ← Program.time
    size := ⟨← Program.number "COLUMNS" 80, ← Program.number "LINES" 24⟩ }
  match ← CommandLine.run Program.files s args with
  | .ended e =>
    IO.print e.stdout
    IO.eprint e.stderr
    return e.exit.toUInt32
  | .paging p =>
    let out ← IO.getStdout
    out.putStr Terminal.enter
    Program.page p.start
    out.putStr Terminal.leave
    out.flush
    return 0
