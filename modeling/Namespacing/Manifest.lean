import Namespacing.Text.Basic
set_option autoImplicit false

namespace Namespacing

/-- A function, the stem of the file that declared it, and its full name. -/
structure ManifestEntry where
  function : Text
  file : Text
  qualified : Text
  deriving DecidableEq, Repr

abbrev Manifest := List ManifestEntry

namespace Manifest

def leader : Text := " ....................... ".toList

def line (entry : ManifestEntry) : Text :=
  entry.function ++ "()".toList ++ leader ++ entry.qualified

def render (manifest : Manifest) : Text :=
  manifest.flatMap fun entry => line entry ++ ['\n']

@[simp] theorem render_append (m₁ m₂ : Manifest) : render (m₁ ++ m₂) = render m₁ ++ render m₂ := by
  simp [render]

end Manifest

end Namespacing
