namespace FencedCode

inductive FileError where
  | notFound
  | isDirectory
  | notDirectory
  | nameTooLong
  | notText
  /-- Another reason, in the words of the operating system. -/
  | other (reason : String)
  deriving DecidableEq, Repr

namespace FileError

/-- The wording of the operating system, with the number it gives the error. -/
def message : FileError → String
  | notFound => "No such file or directory (os error 2)"
  | isDirectory => "Is a directory (os error 21)"
  | notDirectory => "Not a directory (os error 20)"
  | nameTooLong => "File name too long (os error 36)"
  | notText => "stream did not contain valid UTF-8"
  | other reason => reason

end FileError

inductive Error where
  | unknownTheme (theme : String)
  | loadFailed (language reason : String)
  | tokenizeFailed (language reason : String)
  | invalidConfig
  | file (cause : FileError)
  | malformedPattern (pattern : String)
  deriving DecidableEq, Repr

namespace Error

def message : Error → String
  | unknownTheme theme => "Unknown theme: " ++ theme
  | loadFailed language reason => "Failed to load language " ++ language ++ ": " ++ reason
  | tokenizeFailed language reason => "Failed to tokenize " ++ language ++ ": " ++ reason
  | invalidConfig => "Invalid configuration: not the TOML that is expected"
  | file cause => "I/O error: " ++ cause.message
  | malformedPattern pattern => "Malformed pattern: " ++ pattern

end Error

end FencedCode
