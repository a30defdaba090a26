import Namespacing.Text.Basic
set_option autoImplicit false

namespace Namespacing

inductive IoError where
  | notFound
  | alreadyExists
  | notDirectory
  | isDirectory
  | invalidArgument
  | nameTooLong
  | notEmpty
  | busy
  | tooManyLinks
  | nulInName
  | notRegularFile
  | invalidUtf8
  | other (message : Text)
  deriving DecidableEq, Repr

namespace IoError

/-- The system's own error number, where the failure comes from the system. -/
def code? : IoError → Option Nat
  | .notFound => some 2
  | .busy => some 16
  | .alreadyExists => some 17
  | .notDirectory => some 20
  | .isDirectory => some 21
  | .invalidArgument => some 22
  | .nameTooLong => some 36
  | .notEmpty => some 39
  | .tooManyLinks => some 40
  | _ => none

def reason : IoError → Text
  | .notFound => "No such file or directory".toList
  | .busy => "Device or resource busy".toList
  | .alreadyExists => "File exists".toList
  | .notDirectory => "Not a directory".toList
  | .isDirectory => "Is a directory".toList
  | .invalidArgument => "Invalid argument".toList
  | .nameTooLong => "File name too long".toList
  | .notEmpty => "Directory not empty".toList
  | .tooManyLinks => "Too many levels of symbolic links".toList
  | .nulInName => "file name contained an unexpected NUL byte".toList
  | .notRegularFile =>
    "the source path is neither a regular file nor a symlink to a regular file".toList
  | .invalidUtf8 => "stream did not contain valid UTF-8".toList
  | .other message => message

def message (error : IoError) : Text :=
  match error.code? with
  | some code => error.reason ++ " (os error ".toList ++ Nat.toDigits 10 code ++ ")".toList
  | none => error.reason

def numbered : List IoError :=
  [.notFound, .busy, .alreadyExists, .notDirectory, .isDirectory, .invalidArgument, .nameTooLong,
   .notEmpty, .tooManyLinks]

def ofCode? (code : Nat) : Option IoError :=
  numbered.find? fun error => error.code? == some code

end IoError

end Namespacing
