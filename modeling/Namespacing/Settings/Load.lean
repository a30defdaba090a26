import Namespacing.Settings.Reader
import Namespacing.FileSystem.Storage
set_option autoImplicit false

namespace Namespacing

namespace Settings

def loadFrom {m : Type → Type} [Monad m] [Storage m] (path : Path) : ExceptT Fault m Settings := do
  let present ← (Storage.isFile path : m Bool)
  if !present then
    throw (.invalidArgument "config".toList
      ("Config file '".toList ++ path ++ "' not found".toList))
  let document ← Storage.readUtf8 path ("read ".toList ++ path)
  match ofJson? document with
  | some settings => return settings
  | none => throw (.malformedJson (some ("parse ".toList ++ path)))

/-- The settings in a file, or the defaults without one. -/
def load {m : Type → Type} [Monad m] [Storage m] : Option Path → ExceptT Fault m Settings
  | some path => loadFrom path
  | none => return default

end Settings

end Namespacing
