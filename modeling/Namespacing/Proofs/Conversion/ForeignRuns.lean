import Namespacing.Proofs.Conversion.Runs
import Namespacing.Proofs.FileSystem.Rereading
import Namespacing.Proofs.Layout.ForeignRuns
set_option autoImplicit false

namespace Namespacing

open FileSystem

/-- A computation rewrites a file to a text and keeps its octets outside ASCII and its encoding. -/
def Rewrites (action : ExceptT Fault SessionM Unit) (session : Session) (path : Path) (content : Bytes)
    (text : Text) : Prop :=
  ∃ after revised, Yields action session () after ∧ after.files.read path = .ok revised ∧
    revised.foreignRuns = content.foreignRuns ∧
    ∀ context, Yields (Storage.readText path context) after (text, (Encoding.decode content).2) after

theorem Edits.rewrites {f : Text → Text} (h : Edits AsciiSwap f) {session : Session} {path : Path}
    {content : Bytes} (hread : session.files.read path = .ok content) :
    Rewrites (reviseInPlace f path) session path content (f (Encoding.decode content).1) := by
  obtain ⟨place, hstat⟩ := stat_of_read hread
  obtain ⟨revised, hencode, hruns, hdecode⟩ := h.exists_revised content
  have hagain : (session.files.put place (.file revised)).read path = .ok revised := read_put hstat revised
  refine ⟨⟨session.files.put place (.file revised), session.progress⟩, revised,
    .reviseInPlace hread hencode (writablePlace_of_stat hstat), hagain, hruns, fun context => ?_⟩
  rw [← hdecode]
  exact .readText hagain

/-- Whatever the bytes of a file are, a table of identifiers and containers in ASCII rewrites it: the octets
outside ASCII stand in the same runs, and the file is read as the revised text in the encoding that it was
in. For a file of functions, whose container is named after it, the name has to be ASCII. -/
theorem Revision.rewrites_foreign {ns built : Namespace} (hns : ns.Accepted) (hbuilt : built.Accepted)
    {symbols : List Symbols} (hsymbols : ∀ σ ∈ symbols, σ.IsAscii) {session : Session} {path : Path}
    {content : Bytes} (hread : session.files.read path = .ok content) :
    Rewrites (classFile ⟨ns, .ofSymbols built symbols⟩ path) session path content
        (classSource ⟨ns, .ofSymbols built symbols⟩ (Encoding.decode content).1) ∧
      (Text.IsAscii (Path.stem path) →
        Rewrites (functionFile ⟨ns, .ofSymbols built symbols⟩ path) session path content
          (functionSource ⟨ns, .ofSymbols built symbols⟩ (Path.stem path) (Encoding.decode content).1)) := by
  have hrenames := RenameTable.asciiSwap_of_mem hbuilt.isAscii hsymbols
  have hR : ∀ {p h : Text}, AsciiRename p h → h ≠ [] → AsciiSwap p h := fun hr hne => ⟨hr, hne⟩
  constructor
  · have hedits : Edits AsciiSwap (classSource ⟨ns, .ofSymbols built symbols⟩) :=
      .classSource hR hns.isAscii hrenames
    exact hedits.rewrites hread
  · intro hstem
    have hedits : Edits AsciiSwap (functionSource ⟨ns, .ofSymbols built symbols⟩ (Path.stem path)) :=
      .functionSource hR hns.isAscii hrenames hstem
    exact hedits.rewrites hread

/-- A file whose accent is one octet, and which is therefore no UTF-8. -/
theorem Revision.rewrites_foreign_accent :
    let ns : Namespace := ⟨"Facebook\\Libphutil".toList, "Functions".toList⟩
    let symbols : List Symbols := [.classLike "Widget".toList, .functions "strings".toList ["help".toList]]
    let content := Text.toUtf8 "<?php\n// caf".toList ++ 233 :: Text.toUtf8 "\nclass Widget \x7b\x7d\n".toList
    let session : Session := ⟨libraryDisk "Widget.php".toList content, []⟩
    let path := "/s/src/Widget.php".toList
    (ns.Accepted ∧ (∀ σ ∈ symbols, σ.IsAscii) ∧ session.files.read path = .ok content ∧
      Bytes.utf8? content = none ∧ content.foreignRuns = [[233]] ∧ Text.IsAscii (Path.stem path)) ∧
    Rewrites (classFile ⟨ns, .ofSymbols ns symbols⟩ path) session path content
        (classSource ⟨ns, .ofSymbols ns symbols⟩ (Encoding.decode content).1) ∧
      Rewrites (functionFile ⟨ns, .ofSymbols ns symbols⟩ path) session path content
        (functionSource ⟨ns, .ofSymbols ns symbols⟩ (Path.stem path) (Encoding.decode content).1) := by
  intro ns symbols content session path
  have hns : ns.Accepted := ⟨by decide, by decide⟩
  have hsymbols : ∀ σ ∈ symbols, σ.IsAscii := by
    intro σ hσ
    simp only [symbols, List.mem_cons, List.not_mem_nil, or_false] at hσ
    rcases hσ with rfl | rfl
    · exact ⟨by decide, fun h => by cases h⟩
    · refine ⟨by decide, fun h => ?_⟩
      cases h
      decide
  have hdisk : ∀ content,
      (libraryDisk "Widget.php".toList content).read "/s/src/Widget.php".toList = .ok content := by
    intro content
    cbv
  have hread : session.files.read path = .ok content := hdisk content
  have hstem : Text.IsAscii (Path.stem path) := by decide +kernel
  have hrewrites := rewrites_foreign hns hns hsymbols hread
  exact ⟨⟨hns, hsymbols, hread, by decide +kernel, by decide +kernel, hstem⟩, hrewrites.1, hrewrites.2 hstem⟩

end Namespacing
