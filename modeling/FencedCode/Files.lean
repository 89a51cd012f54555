import FencedCode.Error
import FencedCode.Text

namespace FencedCode

/-- What a path leads to. -/
inductive FileState where
  /-- Nothing. With a name, a file can be made there under that name. -/
  | absent (name : Option String)
  | directory
  /-- A file stands where the path wants a directory. -/
  | blocked
  /-- The path, or a name in it, is longer than can be. -/
  | nameTooLong
  /-- A file that cannot be read. -/
  | unreadable (reason : String)
  | file (name : String) (bytes : ByteArray)

def FileState.readText : FileState → Except FileError Text
  | .absent _ => .error .notFound
  | .directory => .error .isDirectory
  | .blocked => .error .notDirectory
  | .nameTooLong => .error .nameTooLong
  | .unreadable reason => .error (.other reason)
  | .file _ bytes =>
    match String.fromUTF8? bytes with
    | some s => .ok s.toList
    | none => .error .notText

theorem FileState.readText_file (path s : String) :
    (FileState.file path s.toUTF8).readText = .ok s.toList := by
  have htext : String.fromUTF8? s.toUTF8 = some s := by
    simp only [String.fromUTF8?, Option.dite_none_right_eq_some]
    exact ⟨s.isValidUTF8, rfl⟩
  rw [readText, htext]

/-- Files by their names: the parts of the path from the working directory, separated by slashes, or
with a slash in front the parts of the path from the root. -/
abbrev Files := List (String × ByteArray)

namespace Files

def nameLimit : Nat := 255

def pathLimit : Nat := 4095

def commonDirectories : List String :=
  ["/bin", "/dev", "/etc", "/home", "/lib", "/proc", "/root", "/sbin", "/sys", "/tmp", "/usr",
    "/usr/bin", "/usr/lib", "/var", "/var/tmp"]

/-- The file with a name. The null device is empty on every system. -/
def lookup (fs : Files) (name : String) : Option ByteArray :=
  if name = "/dev/null" then some .empty else List.lookup name fs

def isDirectory (fs : Files) (name : String) : Bool :=
  commonDirectories.contains name
    || fs.any fun f => (name ++ "/").toList.isPrefixOf f.1.toList

/-- The name of what is reached by names from the last up, from the root or from the working
directory. -/
def nameOf (fromRoot : Bool) (below : List String) : String :=
  (if fromRoot then "/" else "") ++ String.intercalate "/" below.reverse

/-- Follows the parts of a path: from a directory below the root or the working directory, whose
names `below` tells from the last up, or from so many levels above the working directory, where no
name is known. Nothing is above the root. -/
def walk (fs : Files) (fromRoot : Bool) (below : List String) (above : Nat) :
    List String → FileState
  | [] => .directory
  | part :: parts =>
    if part = "" ∨ part = "." then walk fs fromRoot below above parts
    else if part = ".." then
      match below with
      | [] => walk fs fromRoot [] (if fromRoot then 0 else above + 1) parts
      | _ :: below => walk fs fromRoot below above parts
    else if nameLimit < part.utf8ByteSize then .nameTooLong
    else if above ≠ 0 then .absent none
    else
      let name := nameOf fromRoot (part :: below)
      match fs.lookup name with
      | some bytes => if parts.isEmpty then .file name bytes else .blocked
      | none =>
        if fs.isDirectory name then walk fs fromRoot (part :: below) above parts
        else .absent (if parts.isEmpty then some name else none)

def lookParts (fs : Files) : List String → FileState
  | [""] => .absent none
  | "" :: parts => walk fs true [] 0 parts
  | parts => walk fs false [] 0 parts

def look (fs : Files) (path : String) : FileState :=
  if pathLimit < path.utf8ByteSize then .nameTooLong else fs.lookParts (path.splitOn "/")

/-- What a path leads to when a file is to be made there if there is none. A last name with a slash
after it is that of a directory, whatever is there. -/
def lookToWrite (fs : Files) (path : String) : FileState :=
  let parts := path.splitOn "/"
  let stem := (parts.reverse.dropWhile (· = "")).reverse
  if pathLimit < path.utf8ByteSize ∨ stem.length = parts.length ∨ stem = [] then fs.look path
  else
    match fs.lookParts (stem.dropLast ++ ["."]) with
    | .absent _ => .absent none
    | .file _ _ => .blocked
    | state => state

/-- Changes the content of a file, which is made if it is missing in a directory that exists. -/
def modify (fs : Files) (path : String) (change : ByteArray → ByteArray) :
    Except FileError Files :=
  match fs.lookToWrite path with
  | .directory => .error .isDirectory
  | .blocked => .error .notDirectory
  | .nameTooLong => .error .nameTooLong
  | .unreadable reason => .error (.other reason)
  | .file name bytes => .ok ((name, change bytes) :: fs.filter fun f => f.1 ≠ name)
  | .absent none => .error .notFound
  | .absent (some name) => .ok ((name, change .empty) :: fs)

def append (fs : Files) (path : String) (bytes : ByteArray) : Except FileError Files :=
  fs.modify path (· ++ bytes)

def write (fs : Files) (path : String) (bytes : ByteArray) : Except FileError Files :=
  fs.modify path fun _ => bytes

end Files

structure FileAccess (m : Type → Type) where
  look : String → m FileState
  append : String → ByteArray → m (Except FileError Unit)

def Files.access : FileAccess (StateM Files) where
  look path := do return (← get).look path
  append path bytes := do
    match (← get).append path bytes with
    | .ok fs => set fs; return .ok ()
    | .error cause => return .error cause

end FencedCode
