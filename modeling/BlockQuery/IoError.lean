/-!
# Failures of file operations
-/

namespace BlockQuery

/-- What can go wrong in a file operation. -/
inductive IoError where
  | notFound
  | alreadyExists
  | notDirectory
  | isDirectory
  | invalidArgument
  | nameTooLong
  /-- A path with the character that ends texts in memory. -/
  | nulInName
  | endOfFile
  | invalidText
  | other (text : String)
deriving DecidableEq, Repr

def IoError.message : IoError → String
  | notFound => "No such file or directory (os error 2)"
  | alreadyExists => "File exists (os error 17)"
  | notDirectory => "Not a directory (os error 20)"
  | isDirectory => "Is a directory (os error 21)"
  | invalidArgument => "Invalid argument (os error 22)"
  | nameTooLong => "File name too long (os error 36)"
  | nulInName => "file name contained an unexpected NUL byte"
  | endOfFile => "failed to fill whole buffer"
  | invalidText => "stream did not contain valid UTF-8"
  | other text => text

end BlockQuery
