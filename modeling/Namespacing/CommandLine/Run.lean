import Namespacing.CommandLine.Command
import Namespacing.CommandLine.Response
import Namespacing.Conversion.Session
import Namespacing.Settings.Load
set_option autoImplicit false

namespace Namespacing

namespace Command

def versionLine : Text := "phpns 0.3.2\n".toList

variable {m : Type → Type} [Monad m] [Storage m]

/-- A path of the command line; a tilde stands for the home directory, if there is one. -/
def expand (home? : Option Path) (path : Path) : Path :=
  match home? with
  | some home => Path.expandHome home path
  | none => path

def runConvert (emit : Progress → m Unit) (source target : Path) (root? : Option Text)
    (settings? : Option Path) : ExceptT Fault m Report := do
  let loaded ← Settings.load settings?
  let settings := match root? with
    | some root => loaded.withRoot root
    | none => loaded
  Namespacing.convert emit settings source target

def runSymbols (file : Path) : ExceptT Fault m Outline := do
  let (text, _) ← Storage.readText file ("read ".toList ++ file)
  match Outline.ofSource text with
  | .ok outline => return outline
  | .error unterminated => throw (.ofUnterminated unterminated)

def run (emit : Progress → m Unit) (home? : Option Path) : Command → m Response
  | .version => return ⟨0, versionLine, []⟩
  | .symbols file => do
    let path := expand home? file
    let outcome ← (runSymbols path).run
    return Response.json (outcome.map fun outline => outline.toJson path)
  | .convert source target root? settings? asJson => do
    let source := expand home? source
    let target := expand home? target
    let settings? := settings?.map (expand home?)
    if asJson then
      let outcome ← (runConvert (fun _ => pure ()) source target root? settings?).run
      return Response.json (outcome.map fun report => report.toJson source target)
    else
      let outcome ← (runConvert emit source target root? settings?).run
      return Response.text outcome

end Command

def Progress.output (progress : Progress) : Text := progress.line ++ ['\n']

/-- Run a command in a session; its progress is part of what it writes. -/
def Session.run (home? : Option Path) (command : Command) : SessionM Response := do
  modify fun session => { session with progress := [] }
  let response ← command.run SessionM.tell home?
  let session ← get
  return { response with stdout := session.progress.flatMap Progress.output ++ response.stdout }

end Namespacing
