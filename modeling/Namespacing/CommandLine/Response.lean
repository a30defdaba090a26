import Namespacing.Conversion.Report
import Namespacing.Fault
import Namespacing.Outline
set_option autoImplicit false

namespace Namespacing

structure Response where
  exitCode : Nat
  stdout : Text
  stderr : Text
  deriving DecidableEq, Repr

namespace Response

def success (data : Json) : Json :=
  .object [("success".toList, .bool true), ("data".toList, data)]

def hintMembers (hints : List Text) : List (Text × Json) :=
  if hints.isEmpty then []
  else [("hints".toList, .array (hints.map fun hint => .object [("message".toList, .string hint)]))]

def failure (diagnostic : Diagnostic) : Json :=
  .object [("success".toList, .bool false),
    ("error".toList, .object
      ([("code".toList, .string diagnostic.code), ("message".toList, .string diagnostic.message),
        ("details".toList, diagnostic.details)] ++ hintMembers diagnostic.hints))]

def ofJson (exitCode : Nat) (json : Json) : Response :=
  ⟨exitCode, json.pretty 0 ++ ['\n'], []⟩

def json : Except Fault Json → Response
  | .ok data => ofJson 0 (success data)
  | .error fault => ofJson fault.exitCode (failure fault.diagnostic)

/-- A fault in lines of text: the message and code, the details on one line, and the hints. -/
def faultText (diagnostic : Diagnostic) : Text :=
  "Error: ".toList ++ diagnostic.message ++ " (".toList ++ diagnostic.code ++ ")\n  ".toList ++
    diagnostic.details.compact ++ "\n".toList ++
    diagnostic.hints.flatMap fun hint => "  hint: ".toList ++ hint ++ "\n".toList

def text {α : Type} : Except Fault α → Response
  | .ok _ => ⟨0, [], []⟩
  | .error fault => ⟨fault.exitCode, [], faultText fault.diagnostic⟩

end Response

def Outline.toJson (file : Path) (outline : Outline) : Json :=
  let classLike : Json :=
    match outline.classLike with
    | none => .null
    | some declared =>
      .sorted [("kind".toList, .string declared.kind.spelling),
        ("name".toList, .string declared.name)]
  .sorted [("command".toList, .string "symbols".toList), ("file".toList, .string file),
    ("classification".toList, .string outline.role.label), ("class_like".toList, classLike),
    ("functions".toList, Report.texts outline.functions)]

def Report.toJson (source target : Path) (report : Report) : Json :=
  .sorted ([("command".toList, .string "convert".toList), ("source".toList, .string source),
    ("target".toList, .string target)] ++ report.members)

end Namespacing
