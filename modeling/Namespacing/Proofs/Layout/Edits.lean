import Namespacing.Layout
import Namespacing.Proofs.Text.Replacement
import Namespacing.Proofs.Token.Indentation
import Namespacing.Proofs.Token.Octets
set_option autoImplicit false

namespace Namespacing

open Text

/-- The changes of a text by replacements that `R` allows and by ASCII put at its end. -/
inductive Edits (R : Text → Text → Prop) : (Text → Text) → Prop where
  | keep : Edits R fun s => s
  | replace {f : Text → Text} {p h : Text} (hf : Edits R f) (hr : R p h) : Edits R fun s => replaceAll p h (f s)
  | close {f : Text → Text} {e : Text} (hf : Edits R f) (he : IsAscii e) : Edits R fun s => f s ++ e

theorem indent_eq_replaceAll (s : Text) : Layout.indent s = replaceAll ['\n'] "\n  ".toList s := by
  have hne : (['\n'] : Text) ≠ [] := by decide
  induction s with
  | nil => rfl
  | cons c s ih =>
    rw [indent_eq_flatMap] at ih ⊢
    rw [List.flatMap_cons, ih]
    by_cases hc : c = '\n'
    · rw [hc]
      exact (replaceAll_append_self "\n  ".toList s hne).symm
    · rw [indentChar_of_ne hc, replaceAll_cons _ _ _ hne, List.singleton_append]
      rintro ⟨t, ht⟩
      exact hc (List.cons.inj ht).1.symm

namespace Edits

variable {R : Text → Text → Prop} {f : Text → Text}

theorem renames (hf : Edits R f) {renames : List Rename} (h : ∀ rename ∈ renames, R rename.1 rename.2) :
    Edits R fun s => renames.foldl RenameTable.applyRename (f s) := by
  induction renames generalizing f with
  | nil => exact hf
  | cons rename renames ih =>
    have hone : (fun s => RenameTable.applyRename (f s) rename) = fun s => replaceAll rename.1 rename.2 (f s) :=
      funext fun s => RenameTable.applyRename_eq_replaceAll _ _
    refine @ih (fun s => RenameTable.applyRename (f s) rename) ?_ fun r hr => h r (List.mem_cons_of_mem _ hr)
    rw [hone]
    exact .replace hf (h rename List.mem_cons_self)

theorem substitute {table : RenameTable} (h : ∀ rename ∈ table.toList, R rename.1 rename.2) :
    Edits R table.substitute := by
  have hfold : table.substitute = fun s => table.toList.foldl RenameTable.applyRename s :=
    funext fun s => table.substitute_eq_foldl s
  rw [hfold]
  exact renames .keep h

end Edits

structure AsciiRename (p h : Text) : Prop where
  ne_nil : p ≠ []
  literal : IsAscii p
  replacement : IsAscii h

structure Namespace.IsAscii (ns : Namespace) : Prop where
  root : Text.IsAscii ns.root
  segment : Text.IsAscii ns.functionsSegment

theorem Namespace.IsAscii.functionsRoot {ns : Namespace} (h : ns.IsAscii) : Text.IsAscii ns.functionsRoot :=
  isAscii_append.2 ⟨h.root, isAscii_cons.2 ⟨by decide, h.segment⟩⟩

theorem isAscii_namespaceHeader {name : Text} (h : IsAscii name) : IsAscii (Layout.namespaceHeader name) :=
  isAscii_append.2 ⟨isAscii_append.2 ⟨by decide, h⟩, by decide⟩

theorem isAscii_containerHeader {name container : Text} (h : IsAscii name) (hc : IsAscii container) :
    IsAscii (Layout.namespaceHeader name ++ "\n\nclass ".toList ++ container ++ " \x7b".toList) :=
  isAscii_append.2 ⟨isAscii_append.2 ⟨isAscii_append.2 ⟨isAscii_namespaceHeader h, by decide⟩, hc⟩, by decide⟩

namespace Edits

variable {R : Text → Text → Prop} (hR : ∀ {p h : Text}, AsciiRename p h → h ≠ [] → R p h) {revision : Revision}
  (hns : revision.ns.IsAscii) (hrenames : ∀ rename ∈ revision.table.toList, R rename.1 rename.2)

include hR hns hrenames

theorem classSource : Edits R revision.classSource := by
  have hheader : R Layout.openTag (Layout.namespaceHeader revision.ns.root) :=
    hR ⟨by decide, by decide, isAscii_namespaceHeader hns.root⟩ (by simp [Layout.namespaceHeader])
  exact .replace (substitute hrenames) hheader

theorem functionSource {container : Text} (hcontainer : Text.IsAscii container) :
    Edits R (revision.functionSource container) := by
  have hindent : Edits R fun s => Layout.indent (revision.table.substitute s) := by
    have hreplace : (fun s => Layout.indent (revision.table.substitute s)) =
        fun s => replaceAll ['\n'] "\n  ".toList (revision.table.substitute s) :=
      funext fun s => indent_eq_replaceAll _
    rw [hreplace]
    exact .replace (substitute hrenames) (hR ⟨by decide, by decide, by decide⟩ (by decide))
  have hheader : R Layout.openTag (Layout.namespaceHeader revision.ns.functionsRoot ++ "\n\nclass ".toList ++
      container ++ " \x7b".toList) :=
    hR ⟨by decide, by decide, isAscii_containerHeader hns.functionsRoot hcontainer⟩ (by simp)
  exact .close (.replace hindent hheader) (by decide)

end Edits

end Namespacing
