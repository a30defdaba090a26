import Namespacing.Proofs.Conversion.Runs
import Namespacing.Proofs.FileSystem.Rereading
set_option autoImplicit false

namespace Namespacing

open FileSystem

theorem Text.toLatin1?_cons (c : Char) (s : Text) :
    Text.toLatin1? (c :: s) =
      if c.toNat < 256 then (Text.toLatin1? s).map (UInt8.ofNat c.toNat :: ·) else none := by
  rw [Text.toLatin1?, Text.toLatin1?, List.mapM_cons]
  split
  · cases List.mapM (m := Option) _ s <;> rfl
  · rfl

theorem Text.toLatin1?_eq_none_iff {s : Text} : Text.toLatin1? s = none ↔ ∃ c ∈ s, 0xFF < c.toNat := by
  induction s with
  | nil => simp [Text.toLatin1?]
  | cons c s ih =>
    rw [Text.toLatin1?_cons, List.exists_mem_cons_iff]
    by_cases hc : c.toNat < 256
    · rw [if_pos hc, Option.map_eq_none_iff, ih]
      exact (or_iff_right (by omega)).symm
    · rw [if_neg hc]
      exact iff_of_true rfl (Or.inl (by omega))

theorem Encoding.encode?_eq_none_iff {encoding : Encoding} {s : Text} :
    encoding.encode? s = none ↔ encoding = .latin1 ∧ ∃ c ∈ s, 0xFF < c.toNat := by
  cases encoding with
  | utf8 => simp [encode?]
  | latin1 => simp [encode?, Text.toLatin1?_eq_none_iff]

/-- A computation does nothing but to fill the file of a path with a text in an encoding, or it does nothing at
all and fails, which it does exactly if the encoding lacks a character of the text. -/
structure FillsOrRefuses (action : ExceptT Fault SessionM Unit) (session : Session) (path : Path)
    (encoding : Encoding) (text : Text) : Prop where
  outcome :
    (∃ files content, Yields action session () ⟨files, session.progress⟩ ∧
        encoding.encode? text = some content ∧ files.read path = .ok content ∧
        ∀ place found, session.files.stat path = .ok (place, found) →
          ∀ other, other ≠ place → files.get? other = session.files.get? other) ∨
      ∃ fault, action.run session = (.error fault, session) ∧ fault.code = "internal.unexpected".toList
  fails_iff :
    (∃ fault after, action.run session = (.error fault, after)) ↔
      encoding = .latin1 ∧ ∃ c ∈ text, 0xFF < c.toNat

namespace FillsOrRefuses

variable {action : ExceptT Fault SessionM Unit} {session : Session} {path : Path} {encoding : Encoding}
  {text : Text}

theorem exists_yields (h : FillsOrRefuses action session path encoding text)
    (hfit : ¬(encoding = .latin1 ∧ ∃ c ∈ text, 0xFF < c.toNat)) : ∃ after, Yields action session () after := by
  rcases h.outcome with ⟨_, _, hrun, -⟩ | ⟨_, hrun, -⟩
  · exact ⟨_, hrun⟩
  · exact absurd (h.fails_iff.1 ⟨_, _, hrun⟩) hfit

theorem exists_refusal (h : FillsOrRefuses action session path encoding text) (hencoding : encoding = .latin1)
    (hwide : ∃ c ∈ text, 0xFF < c.toNat) : ∃ fault, action.run session = (.error fault, session) := by
  obtain ⟨_, _, hfails⟩ := h.fails_iff.2 ⟨hencoding, hwide⟩
  rcases h.outcome with ⟨_, _, hrun, -⟩ | ⟨fault, hrun, -⟩
  · rw [hrun] at hfails
    cases hfails
  · exact ⟨fault, hrun⟩

end FillsOrRefuses

section

variable {session : Session} {path : Path} {content : Bytes}

theorem reviseInPlace_refuses {change : Text → Text} (hread : session.files.read path = .ok content)
    (hnone : (Encoding.decode content).2.encode? (change (Encoding.decode content).1) = none) :
    (reviseInPlace change path : ExceptT Fault SessionM Unit).run session =
      (.error (.unexpected ("write ".toList ++ path ++ ": unicode code point out of range".toList)), session) := by
  have hread : Yields (Storage.readText path ("read ".toList ++ path)) session (Encoding.decode content) session :=
    .readText hread
  rw [reviseInPlace, run_bind, hread]
  simp only [Storage.writeText, hnone]
  rfl

theorem reviseInPlace_fills_or_refuses (change : Text → Text) (hread : session.files.read path = .ok content) :
    FillsOrRefuses (reviseInPlace change path) session path (Encoding.decode content).2
      (change (Encoding.decode content).1) := by
  obtain ⟨place, hstat⟩ := stat_of_read hread
  cases hencode : (Encoding.decode content).2.encode? (change (Encoding.decode content).1) with
  | none =>
    have hrun := reviseInPlace_refuses hread hencode
    exact ⟨Or.inr ⟨_, hrun, rfl⟩, iff_of_true ⟨_, _, hrun⟩ (Encoding.encode?_eq_none_iff.1 hencode)⟩
  | some revised =>
    have hyields : Yields (reviseInPlace change path) session ()
        ⟨session.files.put place (.file revised), session.progress⟩ :=
      .reviseInPlace hread hencode (writablePlace_of_stat hstat)
    refine ⟨Or.inl ⟨_, revised, hyields, hencode, read_put hstat revised, ?_⟩, iff_of_false ?_ ?_⟩
    · intro place' found hstat' other hother
      rw [hstat] at hstat'
      obtain ⟨rfl, -⟩ := Prod.mk.inj (Except.ok.inj hstat')
      exact get?_put_of_ne hother
    · rintro ⟨fault, after, hrun⟩
      rw [hyields] at hrun
      cases hrun
    · rw [← Encoding.encode?_eq_none_iff, hencode]
      exact Option.some_ne_none revised

/-- A file of any bytes is read as a text that is written as these bytes. Revising it fills it with the revised
text, in the encoding that it was read in, or leaves everything as it was. -/
theorem Revision.fills_or_refuses (revision : Revision) (hread : session.files.read path = .ok content) :
    ∃ text encoding, (∀ context, Yields (Storage.readText path context) session (text, encoding) session) ∧
      encoding.encode? text = some content ∧
      FillsOrRefuses (revision.classFile path) session path encoding (revision.classSource text) ∧
      FillsOrRefuses (revision.functionFile path) session path encoding
        (revision.functionSource (Path.stem path) text) :=
  ⟨(Encoding.decode content).1, (Encoding.decode content).2, fun _ => .readText hread,
    Encoding.encode?_of_decode content, reviseInPlace_fills_or_refuses _ hread,
    reviseInPlace_fills_or_refuses _ hread⟩

/-- A file that is not UTF-8 is revised as a class file and refused as a function file, because its name has a
character that is more than an octet. -/
theorem Revision.fills_or_refuses_wide_stem :
    let content := Text.toUtf8 "<?php\n// caf".toList ++ 233 :: Text.toUtf8 "\nfunction f() \x7b\x7d\n".toList
    let session : Session := ⟨libraryDisk "€.php".toList content, []⟩
    let path := "/s/src/€.php".toList
    let revision : Revision := ⟨⟨"Facebook\\Libphutil".toList, "Functions".toList⟩, .empty⟩
    session.files.read path = .ok content ∧
      (∃ after, Yields (revision.classFile path) session () after) ∧
      ∃ fault, (revision.functionFile path : ExceptT Fault SessionM Unit).run session = (.error fault, session) := by
  intro content session path revision
  have hdisk : ∀ content, (libraryDisk "€.php".toList content).read "/s/src/€.php".toList = .ok content := by
    intro content
    cbv
  have hread : session.files.read path = .ok content := hdisk content
  obtain ⟨text, encoding, hyields, -, hclass, hfunction⟩ := revision.fills_or_refuses hread
  have hdecode : Encoding.decode content = (text, encoding) := by
    have hreads : Yields (Storage.readText path []) session (Encoding.decode content) session := .readText hread
    exact Except.ok.inj (Prod.mk.inj (hreads.symm.trans (hyields []))).1
  have hnarrow : ∀ c ∈ revision.classSource (Encoding.decode content).1, ¬0xFF < c.toNat := by decide +kernel
  have hwide : '€' ∈ revision.functionSource "€".toList (Encoding.decode content).1 := by decide +kernel
  rw [hdecode] at hnarrow hwide
  have hlatin : encoding = .latin1 := by
    rw [← (Prod.mk.inj hdecode).2]
    decide +kernel
  have hfit : ¬(encoding = .latin1 ∧ ∃ c ∈ revision.classSource text, 0xFF < c.toNat) := by
    rintro ⟨-, c, hc, hc'⟩
    exact hnarrow c hc hc'
  exact ⟨hread, hclass.exists_yields hfit, hfunction.exists_refusal hlatin ⟨'€', hwide, by decide⟩⟩

end

end Namespacing
