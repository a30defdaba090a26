import Namespacing.FileSystem.Storage
import Namespacing.Layout
set_option autoImplicit false

namespace Namespacing

variable {m : Type → Type} [Monad m] [Storage m]

def reviseInPlace (change : Text → Text) (path : Path) : ExceptT Fault m Unit := do
  let (text, encoding) ← Storage.readText path ("read ".toList ++ path)
  Storage.writeText path (change text) encoding ("write ".toList ++ path)

namespace Revision

/-- Revise a file that bears functions; its container is named after it. -/
def functionFile (revision : Revision) (path : Path) : ExceptT Fault m Unit :=
  reviseInPlace (revision.functionSource (Path.stem path)) path

def classFile (revision : Revision) (path : Path) : ExceptT Fault m Unit :=
  reviseInPlace revision.classSource path

end Revision

def Manifest.writeTo (manifest : Manifest) (path : Path) : ExceptT Fault m Unit :=
  Storage.writeUtf8 path manifest.render ("write ".toList ++ path)

end Namespacing
