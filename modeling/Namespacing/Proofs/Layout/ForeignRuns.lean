import Namespacing.Proofs.Layout.Encodings
import Namespacing.Proofs.RenameTable.Entries
import Namespacing.Proofs.Text.ForeignRuns
set_option autoImplicit false

namespace Namespacing

open Text

/-- A literal in ASCII and a replacement in ASCII that is not empty. -/
structure AsciiSwap (p h : Text) : Prop extends AsciiRename p h where
  filled : h ≠ []

theorem Text.foreignRuns_append_between {m : Text} (hm : m ≠ []) (hascii : IsAscii m) (x y : Text) :
    foreignRuns (x ++ (m ++ y)) = foreignRuns x ++ foreignRuns y :=
  runsOutside_append_between hm (fun c hc => decide_eq_true (hascii c hc)) x y

theorem Text.foreignRuns_append_ascii (x : Text) {m : Text} (hascii : IsAscii m) :
    foreignRuns (x ++ m) = foreignRuns x := by
  cases m with
  | nil => rw [List.append_nil]
  | cons c m =>
    have hbetween := foreignRuns_append_between (List.cons_ne_nil c m) hascii x []
    rw [List.append_nil] at hbetween
    exact hbetween.trans (List.append_nil _)

/-- The text in front of the replacements may end inside a run. -/
theorem foreignRuns_append_replaceAll {p h : Text} (hr : AsciiSwap p h) (x s : Text) :
    foreignRuns (x ++ replaceAll p h s) = foreignRuns (x ++ s) := by
  have hp := hr.ne_nil
  induction s using replaceAll_cases hp generalizing x with
  | nil => rw [replaceAll_nil _ hp]
  | found s ih =>
    rw [replaceAll_append_self _ _ hp, foreignRuns_append_between hr.filled hr.replacement,
      foreignRuns_append_between hp hr.literal]
    exact congrArg (foreignRuns x ++ ·) (ih [])
  | kept c s hno ih =>
    have hnext := ih (x ++ [c])
    rw [List.append_assoc, List.append_assoc] at hnext
    rw [replaceAll_cons _ _ _ hp hno]
    exact hnext

theorem mem_replaceAll {p h s : Text} (hp : p ≠ []) {c : Char} (hc : c ∈ replaceAll p h s) : c ∈ h ∨ c ∈ s := by
  induction s using replaceAll_cases hp with
  | nil =>
    rw [replaceAll_nil _ hp] at hc
    cases hc
  | found s ih =>
    rw [replaceAll_append_self _ _ hp] at hc
    rcases List.mem_append.1 hc with hc | hc
    · exact Or.inl hc
    · exact (ih hc).imp_right fun hs => List.mem_append_right _ hs
  | kept d s hno ih =>
    rw [replaceAll_cons _ _ _ hp hno] at hc
    rcases List.mem_cons.1 hc with rfl | hc
    · exact Or.inr List.mem_cons_self
    · exact (ih hc).imp_right fun hs => List.mem_cons_of_mem _ hs

theorem exists_latin1 {s : Text} (h : ∀ c ∈ s, c.toNat < 256) : ∃ b, Bytes.latin1 b = s := by
  refine ⟨s.map fun c => UInt8.ofNat c.toNat, ?_⟩
  rw [Bytes.latin1, List.map_map]
  refine (List.map_congr_left fun c hc => ?_).trans (List.map_id s)
  have hoctet : (UInt8.ofNat c.toNat).toNat = c.toNat := by
    rw [UInt8.toNat_ofNat']
    exact Nat.mod_eq_of_lt (h c hc)
  rw [Function.comp_apply, hoctet, Char.ofNat_toNat, id_eq]

namespace Edits

variable {f : Text → Text}

theorem mono {R R' : Text → Text → Prop} (hR : ∀ {p h : Text}, R p h → R' p h) (h : Edits R f) : Edits R' f := by
  induction h with
  | keep => exact .keep
  | replace _ hr ih => exact .replace ih (hR hr)
  | close _ he ih => exact .close ih he

theorem foreignRuns (h : Edits AsciiSwap f) (s : Text) : (f s).foreignRuns = s.foreignRuns := by
  induction h with
  | keep => rfl
  | replace _ hr ih => exact (foreignRuns_append_replaceAll hr [] _).trans ih
  | close _ he ih => rw [foreignRuns_append_ascii _ he, ih]

theorem mem (h : Edits AsciiRename f) {s : Text} {c : Char} (hc : c ∈ f s) : c.toNat < 128 ∨ c ∈ s := by
  induction h with
  | keep => exact Or.inr hc
  | replace _ hr ih =>
    rcases mem_replaceAll hr.ne_nil hc with hc | hc
    · exact Or.inl (hr.replacement c hc)
    · exact ih hc
  | close _ he ih =>
    rcases List.mem_append.1 hc with hc | hc
    · exact ih hc
    · exact Or.inl (he c hc)

theorem exists_latin1 (h : Edits AsciiRename f) (b : Bytes) : ∃ b', Bytes.latin1 b' = f (Bytes.latin1 b) := by
  refine Namespacing.exists_latin1 fun c hc => ?_
  rcases h.mem hc with hc | hc
  · exact Nat.lt_trans hc (by decide)
  · obtain ⟨o, -, rfl⟩ := List.mem_map.1 hc
    rw [toNat_ofNat_octet]
    exact o.toNat_lt

/-- A file that is revised in its encoding has the runs outside ASCII that it had, and reading it again
gives the revised text and the same encoding. -/
theorem exists_revised (h : Edits AsciiSwap f) (b : Bytes) :
    ∃ revised, (Encoding.decode b).2.encode? (f (Encoding.decode b).1) = some revised ∧
      revised.foreignRuns = b.foreignRuns ∧
      Encoding.decode revised = (f (Encoding.decode b).1, (Encoding.decode b).2) := by
  have hrename : Edits AsciiRename f := h.mono fun hr => hr.toAsciiRename
  cases hread : Bytes.utf8? b with
  | some text =>
    have hdecode : Encoding.decode b = (text, .utf8) := by rw [Encoding.decode, hread]
    rw [hdecode]
    refine ⟨(f text).toUtf8, rfl, foreignRuns_of_latin1 ?_, ?_⟩
    · have hoctets : Bytes.latin1 (f text).toUtf8 = f (Bytes.latin1 b) := by
        rw [← octets_of_utf8? hread]
        exact hrename.octets text
      rw [hoctets, h.foreignRuns]
    · rw [Encoding.decode, Bytes.utf8?_toUtf8]
  | none =>
    have hdecode : Encoding.decode b = (Bytes.latin1 b, .latin1) := by rw [Encoding.decode, hread]
    obtain ⟨revised, hrevised⟩ := hrename.exists_latin1 b
    have hruns : revised.foreignRuns = b.foreignRuns :=
      foreignRuns_of_latin1 (by rw [hrevised, h.foreignRuns])
    have hagain : Bytes.utf8? revised = none := by
      have hencoding := Encoding.decode_snd_congr hruns
      rw [hdecode, Encoding.decode] at hencoding
      cases hutf8 : Bytes.utf8? revised with
      | none => rfl
      | some text =>
        rw [hutf8] at hencoding
        cases hencoding
    rw [hdecode]
    refine ⟨revised, ?_, hruns, ?_⟩
    · rw [← hrevised]
      exact Text.toLatin1?_latin1 revised
    · rw [Encoding.decode, hagain, hrevised]

end Edits

theorem Namespace.Accepted.isAscii {ns : Namespace} (h : ns.Accepted) : ns.IsAscii where
  root c hc := by
    have hrun := isRunChar_of_mem_root h.root hc
    simp only [isRunChar, Bool.or_eq_true, beq_iff_eq] at hrun
    rcases hrun with hword | rfl
    · exact Lexeme.toNat_lt_of_isWordChar hword
    · decide
  segment := .of_identifier h.segment

structure Symbols.IsAscii (σ : Symbols) : Prop where
  names : ∀ n ∈ σ.names, isIdentifier n = true
  container : ∀ {container : Text} {names : List Text}, σ = .functions container names → Text.IsAscii container

theorem Frame.isAscii_before : ∀ p ∈ before, Text.IsAscii p := by
  decide

theorem Frame.isAscii_behindClass : ∀ s ∈ behindClass, Text.IsAscii s := by
  decide

theorem Frame.isAscii_behindFunction : ∀ s ∈ behindFunction, Text.IsAscii s := by
  decide

theorem Namespace.IsAscii.qualifyClass {ns : Namespace} (hns : ns.IsAscii) {n : Text} (hn : Text.IsAscii n) :
    Text.IsAscii (ns.qualifyClass n) :=
  isAscii_append.2 ⟨isAscii_cons.2 ⟨by decide, hns.root⟩, isAscii_cons.2 ⟨by decide, hn⟩⟩

theorem Namespace.IsAscii.qualifyFunction {ns : Namespace} (hns : ns.IsAscii) {container n : Text}
    (hcontainer : Text.IsAscii container) (hn : Text.IsAscii n) : Text.IsAscii (ns.qualifyFunction container n) := by
  have hpath : Text.IsAscii ('\\' :: ns.functionsRoot ++ '\\' :: container) :=
    isAscii_append.2 ⟨isAscii_cons.2 ⟨by decide, hns.functionsRoot⟩, isAscii_cons.2 ⟨by decide, hcontainer⟩⟩
  exact isAscii_append.2 ⟨isAscii_append.2 ⟨hpath, by decide⟩, hn⟩

namespace Symbols

variable {ns : Namespace} {σ : Symbols}

theorem Gives.isAscii (hns : ns.IsAscii) (hσ : σ.IsAscii) {n q : Text} {behind : List Text}
    (h : Gives ns σ n q behind) : Text.IsAscii n ∧ Text.IsAscii q ∧ ∀ s ∈ behind, Text.IsAscii s := by
  have hn : Text.IsAscii n := .of_identifier (hσ.names n h.mem_names)
  cases h with
  | global => exact ⟨hn, isAscii_cons.2 ⟨by decide, hn⟩, Frame.isAscii_behindClass⟩
  | classLike => exact ⟨hn, hns.qualifyClass hn, Frame.isAscii_behindClass⟩
  | function => exact ⟨hn, hns.qualifyFunction (hσ.container rfl) hn, Frame.isAscii_behindFunction⟩

theorem Rule.asciiSwap (hns : ns.IsAscii) (hσ : σ.IsAscii) {rename : Rename} (h : Rule ns σ rename) :
    AsciiSwap rename.1 rename.2 := by
  -- The mark behind is in the literal and in the replacement.
  have hframed : ∀ {p h s : Text}, Text.IsAscii p → Text.IsAscii h → s ≠ [] → Text.IsAscii s →
      AsciiSwap (p ++ s) (h ++ s) := fun hp hh hne hs =>
    ⟨⟨List.append_ne_nil_of_right_ne_nil _ hne, isAscii_append.2 ⟨hp, hs⟩, isAscii_append.2 ⟨hh, hs⟩⟩,
      List.append_ne_nil_of_right_ne_nil _ hne⟩
  cases h with
  | @qualify _ n q behind p s h hp hs =>
    obtain ⟨hn, hq, hbehind⟩ := h.isAscii hns hσ
    have hmark := Frame.isAscii_before p hp
    exact hframed (isAscii_append.2 ⟨hmark, hn⟩) (isAscii_append.2 ⟨hmark, hq⟩) (h.marks hs).1 (hbehind s hs)
  | @restoreClass n kind s hs =>
    have hn : Text.IsAscii n := .of_identifier (hσ.names n (List.mem_singleton.2 rfl))
    have hkind : Text.IsAscii kind.spelling := by cases kind <;> decide
    have hkeyword : ∀ t, Text.IsAscii t → Text.IsAscii (kind.spelling ++ ' ' :: t) := fun t ht =>
      isAscii_append.2 ⟨hkind, isAscii_cons.2 ⟨by decide, ht⟩⟩
    exact hframed (hkeyword _ (hns.qualifyClass hn)) (hkeyword _ hn) (Frame.behindClass_marks s hs).1
      (Frame.isAscii_behindClass s hs)
  | @restoreFunction container names n s h hs =>
    have hn : Text.IsAscii n := .of_identifier (hσ.names n h)
    have hq : Text.IsAscii (ns.qualifyFunction container n) := hns.qualifyFunction (hσ.container rfl) hn
    exact hframed (isAscii_append.2 ⟨by decide, hq⟩) (isAscii_append.2 ⟨by decide, hn⟩)
      (Frame.behindFunction_marks s hs).1 (Frame.isAscii_behindFunction s hs)

end Symbols

theorem RenameTable.asciiSwap_of_mem {ns : Namespace} (hns : ns.IsAscii) {symbols : List Symbols}
    (hsymbols : ∀ σ ∈ symbols, σ.IsAscii) :
    ∀ rename ∈ (ofSymbols ns symbols).toList, AsciiSwap rename.1 rename.2 := by
  intro rename hmem
  obtain ⟨σ, hσ, hrule⟩ := exists_rule_of_mem hmem
  exact hrule.asciiSwap hns (hsymbols σ hσ)

end Namespacing
