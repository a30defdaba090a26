import Namespacing.Proofs.Text.Pieces
import Namespacing.Proofs.Text.Replacement
import Namespacing.Proofs.RenameTable.Order
import Namespacing.RenameTable.Symbols
import Namespacing.Settings.Basic
set_option autoImplicit false

namespace Namespacing

namespace Text

theorem isRunChar_of_isWordChar {c : Char} (h : isWordChar c = true) : isRunChar c = true := by
  simp [isRunChar, h]

theorem isWordChar_of_mem {n : Text} (h : isIdentifier n = true) {c : Char} (hc : c ∈ n) :
    isWordChar c = true := by
  cases n with
  | nil => cases hc
  | cons d n =>
    simp only [isIdentifier, Bool.and_eq_true, List.all_eq_true] at h
    rcases List.mem_cons.1 hc with rfl | hc
    · have hd := h.1
      simp only [isWordStart, Bool.or_eq_true] at hd
      simp only [isWordChar, Char.isAlphanum, Bool.or_eq_true]
      tauto
    · exact h.2 c hc

theorem ne_nil_of_isIdentifier {n : Text} (h : isIdentifier n = true) : n ≠ [] := by
  rintro rfl
  cases h

theorem isRun_of_isIdentifier {n : Text} (h : isIdentifier n = true) : IsRun n :=
  ⟨ne_nil_of_isIdentifier h, fun _ hc => isRunChar_of_isWordChar (isWordChar_of_mem h hc)⟩

theorem backslash_not_mem {n : Text} (h : isIdentifier n = true) : '\\' ∉ n := by
  intro hc
  have := isWordChar_of_mem h hc
  revert this
  decide

theorem marks_injective {s t : Text} (h : marks s = marks t) : s = t := by
  have := congrArg glue h
  simpa using this

theorem marks_prefix_iff {s t : Text} : marks s <+: marks t ↔ s.isPrefixOf t = true := by
  rw [List.isPrefixOf_iff_prefix]
  constructor
  · rintro ⟨u, hu⟩
    have := congrArg glue hu
    rw [glue_append, glue_marks, glue_marks] at this
    exact ⟨glue u, this⟩
  · exact fun h => h.map _

theorem run_marks_inj {r r' s s' : Text} (hr : IsRun r) (hr' : IsRun r') (hs : IsMarks s)
    (hs' : IsMarks s') (hne : s ≠ []) (hne' : s' ≠ []) (h : r ++ s = r' ++ s') :
    r = r' ∧ s = s' := by
  have hcut : cut (r ++ s ++ []) = cut (r' ++ s' ++ []) := by rw [h]
  rw [cut_run_marks hr hs hne, cut_run_marks hr' hs' hne', List.cons.injEq, Piece.run.injEq] at hcut
  exact ⟨hcut.1, marks_injective (List.append_cancel_right hcut.2)⟩

theorem run_mark_inj {r r' : Text} {m m' : Char} {t t' : Text} (hr : IsRun r) (hr' : IsRun r')
    (hm : isRunChar m = false) (hm' : isRunChar m' = false) (h : r ++ m :: t = r' ++ m' :: t') :
    r = r' ∧ m = m' ∧ t = t' := by
  have hcut := congrArg cut h
  rw [cut_append_mark r hm, cut_append_mark r' hm', cut_run hr, cut_run hr'] at hcut
  simp only [List.cons_append, List.nil_append, List.cons.injEq, Piece.run.injEq,
    Piece.mark.injEq] at hcut
  refine ⟨hcut.1, hcut.2.1, ?_⟩
  rw [← glue_cut t, hcut.2.2, glue_cut]

theorem mem_splitOn {sep : Char} {s : Text} {c : Char} (h : c ∈ s) :
    c = sep ∨ ∃ piece ∈ splitOn sep s, c ∈ piece := by
  induction s with
  | nil => cases h
  | cons d s ih =>
    rw [splitOn]
    by_cases hd : d = sep
    · rw [if_pos hd]
      rcases List.mem_cons.1 h with rfl | h
      · exact Or.inl hd
      · rcases ih h with h | ⟨piece, hp, hc⟩
        · exact Or.inl h
        · exact Or.inr ⟨piece, List.mem_cons_of_mem _ hp, hc⟩
    · rw [if_neg hd]
      cases hs : splitOn sep s with
      | nil => exact absurd hs (splitOn_ne_nil sep s)
      | cons first rest =>
        rcases List.mem_cons.1 h with rfl | h
        · exact Or.inr ⟨c :: first, List.mem_cons_self, List.mem_cons_self⟩
        · rcases ih h with h | ⟨piece, hp, hc⟩
          · exact Or.inl h
          · rw [hs] at hp
            rcases List.mem_cons.1 hp with rfl | hp
            · exact Or.inr ⟨d :: piece, List.mem_cons_self, List.mem_cons_of_mem _ hc⟩
            · exact Or.inr ⟨piece, List.mem_cons_of_mem _ hp, hc⟩

end Text

open Text

namespace Frame

theorem before_marks : ∀ p ∈ before, p.length = 1 ∧ ∀ c ∈ p, isRunChar c = false ∧ c ≠ ':' := by
  have hall : before.all (fun p => p.length == 1 && p.all fun c => !isRunChar c && c != ':') = true := by
    decide
  simpa using hall

theorem exists_mark {p : Text} (h : p ∈ before) : ∃ m, p = [m] ∧ isRunChar m = false ∧ m ≠ ':' := by
  obtain ⟨hlen, hall⟩ := before_marks p h
  obtain ⟨m, rfl⟩ := List.length_eq_one_iff.1 hlen
  exact ⟨m, rfl, hall m List.mem_cons_self⟩

theorem behindClass_marks : ∀ s ∈ behindClass, s ≠ [] ∧ IsMarks s := by
  decide

theorem behindFunction_marks : ∀ s ∈ behindFunction, s ≠ [] ∧ IsMarks s := by
  decide

theorem behindClass_prefix :
    ∀ s ∈ behindClass, ∀ s' ∈ behindClass, s.isPrefixOf s' = true → s = s' := by
  decide

theorem behindFunction_prefix :
    ∀ s ∈ behindFunction, ∀ s' ∈ behindFunction, s.isPrefixOf s' = true → s = s' := by
  decide

end Frame

/-- The parts of a namespace that a conversion accepts. -/
structure Namespace.Accepted (ns : Namespace) : Prop where
  root : Settings.isRoot ns.root = true
  segment : isIdentifier ns.functionsSegment = true

theorem Settings.accepted_of_check {settings : Settings} (h : settings.check = .ok ()) :
    settings.toNamespace.Accepted := by
  unfold check at h
  split at h
  · cases h
  · rename_i hd
    unfold defect? at hd
    split at hd
    · cases hd
    · split at hd
      · cases hd
      · rename_i hroot hsegment
        have hroot : isRoot settings.root = true := by simpa using hroot
        have hsegment : isIdentifier settings.functionsSegment = true := by simpa using hsegment
        exact ⟨hroot, hsegment⟩

namespace Namespace

variable {ns : Namespace}

theorem isRunChar_of_mem_root (h : Settings.isRoot ns.root = true) {c : Char} (hc : c ∈ ns.root) :
    isRunChar c = true := by
  rcases @mem_splitOn '\\' _ _ hc with rfl | ⟨piece, hp, hc⟩
  · decide
  · have := List.all_eq_true.1 h piece hp
    exact isRunChar_of_isWordChar (isWordChar_of_mem this hc)

theorem isRun_qualifyClass (h : Settings.isRoot ns.root = true) {n : Text} (hn : isIdentifier n = true) :
    IsRun (ns.qualifyClass n) := by
  refine ⟨by simp [qualifyClass], fun c hc => ?_⟩
  simp only [qualifyClass, List.cons_append, List.mem_cons, List.mem_append] at hc
  rcases hc with rfl | hc | rfl | hc
  · decide
  · exact isRunChar_of_mem_root h hc
  · decide
  · exact (isRun_of_isIdentifier hn).2 c hc

theorem qualifyClass_injective {n n' : Text} (h : ns.qualifyClass n = ns.qualifyClass n') : n = n' := by
  simpa [qualifyClass] using h

end Namespace

namespace Symbols

def names : Symbols → List Text
  | .globals names => names
  | .classLike name => [name]
  | .functions _ names => names

/-- The form that symbols give to a name, and the marks that may stand behind it. -/
inductive Gives (ns : Namespace) : Symbols → Text → Text → List Text → Prop where
  | global {names : List Text} {n : Text} (h : n ∈ names) :
      Gives ns (.globals names) n ('\\' :: n) Frame.behindClass
  | classLike {n : Text} : Gives ns (.classLike n) n (ns.qualifyClass n) Frame.behindClass
  | function {container : Text} {names : List Text} {n : Text} (h : n ∈ names) :
      Gives ns (.functions container names) n (ns.qualifyFunction container n) Frame.behindFunction

/-- The renames of symbols: a framed name is qualified, and behind the keyword of its declaration it
is made bare again. -/
inductive Rule (ns : Namespace) : Symbols → Rename → Prop where
  | qualify {σ : Symbols} {n q : Text} {behind : List Text} {p s : Text} (h : Gives ns σ n q behind)
      (hp : p ∈ Frame.before) (hs : s ∈ behind) : Rule ns σ (p ++ n ++ s, p ++ q ++ s)
  | restoreClass {n : Text} (kind : ClassKind) {s : Text} (hs : s ∈ Frame.behindClass) :
      Rule ns (.classLike n) (kind.spelling ++ ' ' :: ns.qualifyClass n ++ s,
        kind.spelling ++ ' ' :: n ++ s)
  | restoreFunction {container : Text} {names : List Text} {n s : Text} (h : n ∈ names)
      (hs : s ∈ Frame.behindFunction) :
      Rule ns (.functions container names)
        (functionDeclaration n (ns.qualifyFunction container n) s)

theorem Gives.unique {ns : Namespace} {σ : Symbols} {n q q' : Text} {behind behind' : List Text}
    (h : Gives ns σ n q behind) (h' : Gives ns σ n q' behind') : q = q' ∧ behind = behind' := by
  cases h <;> cases h' <;> exact ⟨rfl, rfl⟩

theorem Gives.mem_names {ns : Namespace} {σ : Symbols} {n q : Text} {behind : List Text}
    (h : Gives ns σ n q behind) : n ∈ σ.names := by
  cases h with
  | global h => exact h
  | classLike => exact List.mem_singleton.2 rfl
  | function h => exact h

theorem mem_all (kind : ClassKind) : kind ∈ ClassKind.all := by
  cases kind <;> decide

theorem mem_renames_iff {ns : Namespace} {σ : Symbols} {r : Rename} :
    r ∈ σ.renames ns ↔ Rule ns σ r := by
  constructor
  · intro h
    cases σ with
    | globals names =>
      simp only [renames, globalRenames, List.mem_flatMap, List.mem_map] at h
      obtain ⟨s, hs, p, hp, n, hn, rfl⟩ := h
      exact .qualify (.global hn) hp hs
    | classLike n =>
      simp only [renames, classRenames, Frame.renames, classDeclarations, List.mem_flatMap,
        List.mem_append, List.mem_map] at h
      obtain ⟨s, hs, ⟨p, hp, rfl⟩ | ⟨kind, -, rfl⟩⟩ := h
      · exact .qualify .classLike hp hs
      · exact .restoreClass kind hs
    | functions container names =>
      simp only [renames, functionRenames, Frame.renames, List.mem_flatMap, List.mem_append,
        List.mem_map, List.mem_singleton] at h
      obtain ⟨n, hn, s, hs, ⟨p, hp, rfl⟩ | rfl⟩ := h
      · exact .qualify (.function hn) hp hs
      · exact .restoreFunction hn hs
  · intro h
    cases h with
    | qualify h hp hs =>
      cases h with
      | global h =>
        simp only [renames, globalRenames, List.mem_flatMap, List.mem_map]
        exact ⟨_, hs, _, hp, _, h, rfl⟩
      | classLike =>
        simp only [renames, classRenames, Frame.renames, List.mem_flatMap, List.mem_append,
          List.mem_map]
        exact ⟨_, hs, Or.inl ⟨_, hp, rfl⟩⟩
      | function h =>
        simp only [renames, functionRenames, Frame.renames, List.mem_flatMap, List.mem_append,
          List.mem_map]
        exact ⟨_, h, _, hs, Or.inl ⟨_, hp, rfl⟩⟩
    | restoreClass kind hs =>
      simp only [renames, classRenames, classDeclarations, List.mem_flatMap, List.mem_append,
        List.mem_map]
      exact ⟨_, hs, Or.inr ⟨kind, mem_all kind, rfl⟩⟩
    | restoreFunction h hs =>
      simp only [renames, functionRenames, List.mem_flatMap, List.mem_append, List.mem_singleton]
      exact ⟨_, h, _, hs, Or.inr rfl⟩

end Symbols

theorem Symbols.Gives.marks {ns : Namespace} {σ : Symbols} {n q : Text} {behind : List Text}
    (h : Gives ns σ n q behind) {s : Text} (hs : s ∈ behind) : s ≠ [] ∧ IsMarks s := by
  cases h with
  | global => exact Frame.behindClass_marks s hs
  | classLike => exact Frame.behindClass_marks s hs
  | function => exact Frame.behindFunction_marks s hs

theorem framed_inj {p p' n n' s s' : Text} (hp : p ∈ Frame.before) (hp' : p' ∈ Frame.before)
    (hn : isIdentifier n = true) (hn' : isIdentifier n' = true) (hs : s ≠ [] ∧ IsMarks s)
    (hs' : s' ≠ [] ∧ IsMarks s') (h : p ++ n ++ s = p' ++ n' ++ s') : p = p' ∧ n = n' ∧ s = s' := by
  obtain ⟨m, rfl, -⟩ := Frame.exists_mark hp
  obtain ⟨m', rfl, -⟩ := Frame.exists_mark hp'
  simp only [List.cons_append, List.nil_append, List.cons.injEq] at h
  obtain ⟨rfl, h⟩ := h
  exact ⟨rfl, run_marks_inj (isRun_of_isIdentifier hn) (isRun_of_isIdentifier hn') hs.2 hs'.2 hs.1
    hs'.1 h⟩

theorem ClassKind.isRun_spelling (kind : ClassKind) : IsRun kind.spelling := by
  cases kind <;> decide

theorem framed_ne_of_run {p k n t : Text} (hp : p ∈ Frame.before) (hk : IsRun k) :
    p ++ n ≠ k ++ t := by
  obtain ⟨m, rfl, hm, -⟩ := Frame.exists_mark hp
  intro h
  cases k with
  | nil => exact hk.1 rfl
  | cons c k =>
    simp only [List.cons_append, List.cons.injEq] at h
    have := hk.2 c List.mem_cons_self
    rw [← h.1, hm] at this
    cases this

/-- A framed name is the literal of the renames that qualify it, and of no others. -/
theorem Symbols.Rule.of_framed {ns : Namespace} {σ : Symbols} {p n s t : Text}
    (h : Rule ns σ (p ++ n ++ s, t)) (hp : p ∈ Frame.before) (hn : isIdentifier n = true)
    (hs : s ≠ [] ∧ IsMarks s) (hnames : ∀ n ∈ σ.names, isIdentifier n = true) :
    ∃ q behind, Gives ns σ n q behind ∧ s ∈ behind ∧ t = p ++ q ++ s := by
  generalize hr : (p ++ n ++ s, t) = r at h
  cases h with
  | qualify h hp' hs' =>
    obtain ⟨hkey, rfl⟩ := Prod.mk.inj hr
    obtain ⟨rfl, rfl, rfl⟩ :=
      framed_inj hp hp' hn (hnames _ h.mem_names) hs (h.marks hs') hkey
    exact ⟨_, _, h, hs', rfl⟩
  | restoreClass kind hs' =>
    obtain ⟨hkey, -⟩ := Prod.mk.inj hr
    rw [List.append_assoc, List.append_assoc] at hkey
    exact absurd hkey (framed_ne_of_run hp kind.isRun_spelling)
  | restoreFunction h hs' =>
    obtain ⟨hkey, -⟩ := Prod.mk.inj hr
    have hk : IsRun "function".toList := by decide
    rw [List.append_assoc] at hkey
    exact absurd hkey (framed_ne_of_run (t := ' ' :: _) hp hk)

theorem Symbols.exists_last {symbols : List Symbols} {n : Text}
    (h : ∃ σ ∈ symbols, n ∈ σ.names) :
    ∃ X σ Y, symbols = X ++ σ :: Y ∧ n ∈ σ.names ∧ ∀ τ ∈ Y, n ∉ τ.names := by
  induction symbols with
  | nil =>
    obtain ⟨σ, hσ, -⟩ := h
    cases hσ
  | cons σ symbols ih =>
    by_cases hlater : ∃ τ ∈ symbols, n ∈ τ.names
    · obtain ⟨X, τ, Y, rfl, hτ, hY⟩ := ih hlater
      exact ⟨σ :: X, τ, Y, rfl, hτ, hY⟩
    · obtain ⟨τ, hτ, hn⟩ := h
      rcases List.mem_cons.1 hτ with rfl | hτ
      · exact ⟨[], τ, symbols, rfl, hn, fun υ hυ hnυ => hlater ⟨υ, hυ, hnυ⟩⟩
      · exact absurd ⟨τ, hτ, hn⟩ hlater

namespace RenameTable

theorem toList_ofSymbols (ns : Namespace) (symbols : List Symbols) :
    (ofSymbols ns symbols).toList = (symbols.flatMap (Symbols.renames ns)).foldl upsert [] := by
  suffices ∀ table : RenameTable, (symbols.foldl (add ns) table).toList =
      (symbols.flatMap (Symbols.renames ns)).foldl upsert table.toList from this empty
  induction symbols with
  | nil => intro table; rfl
  | cons σ symbols ih =>
    intro table
    rw [List.foldl_cons, ih, List.flatMap_cons, List.foldl_append, add, toList_insertAll]

theorem exists_rule_of_mem {ns : Namespace} {symbols : List Symbols} {r : Rename}
    (h : r ∈ (ofSymbols ns symbols).toList) : ∃ σ ∈ symbols, Symbols.Rule ns σ r := by
  rw [toList_ofSymbols] at h
  rcases mem_foldl_upsert h with h | h
  · obtain ⟨σ, hσ, h⟩ := List.mem_flatMap.1 h
    exact ⟨σ, hσ, Symbols.mem_renames_iff.1 h⟩
  · cases h

theorem get?_ofSymbols_of_last {ns : Namespace} {X Y : List Symbols} {σ : Symbols} {n q p s : Text}
    {behind : List Text} (hgives : Symbols.Gives ns σ n q behind) (hp : p ∈ Frame.before)
    (hs : s ∈ behind) (hlast : ∀ τ ∈ Y, n ∉ τ.names)
    (hnames : ∀ τ ∈ X ++ σ :: Y, ∀ n ∈ τ.names, isIdentifier n = true) :
    (ofSymbols ns (X ++ σ :: Y)).get? (p ++ n ++ s) = some (p ++ q ++ s) := by
  have hσ : σ ∈ X ++ σ :: Y := by simp
  have hn : isIdentifier n = true := hnames σ hσ n hgives.mem_names
  have hmarks := hgives.marks hs
  rw [get?_eq_lookup, toList_ofSymbols, List.flatMap_append, List.flatMap_cons, List.foldl_append,
    List.foldl_append, lookup_foldl_upsert_of_not_mem]
  · apply lookup_foldl_upsert_of_forall
    · exact List.mem_map.2 ⟨_, Symbols.mem_renames_iff.2 (.qualify hgives hp hs), rfl⟩
    · rintro ⟨literal, t⟩ hr rfl
      obtain ⟨q', behind', hgives', -, rfl⟩ :=
        (Symbols.mem_renames_iff.1 hr).of_framed hp hn hmarks (hnames σ hσ)
      rw [(hgives.unique hgives').1]
  · intro hmem
    obtain ⟨⟨literal, t⟩, hr, rfl⟩ := List.mem_map.1 hmem
    obtain ⟨τ, hτ, hr⟩ := List.mem_flatMap.1 hr
    have hτ' : τ ∈ X ++ σ :: Y := by simp [hτ]
    obtain ⟨q', behind', hgives', -, -⟩ :=
      (Symbols.mem_renames_iff.1 hr).of_framed hp hn hmarks (hnames τ hτ')
    exact hlast τ hτ hgives'.mem_names

/-- What holds at the start, and is kept by one replacement with the rename whose turn it is, holds of
the result. The motive sees the renames that are still to come. -/
theorem substitute_induction (table : RenameTable) (hne : ∀ r ∈ table.toList, r.1 ≠ [])
    {motive : List Rename → Text → Prop} {text : Text} (start : motive table.toList text)
    (step : ∀ earlier r later, table.toList = earlier ++ r :: later →
      ∀ a b, motive (r :: later) (a ++ r.1 ++ b) → motive (r :: later) (a ++ r.2 ++ b))
    (drop : ∀ r later text, motive (r :: later) text → motive later text) :
    motive [] (table.substitute text) := by
  rw [substitute_eq_foldl]
  suffices ∀ later earlier text, table.toList = earlier ++ later → motive later text →
      motive [] (later.foldl applyRename text) from this table.toList [] text rfl start
  intro later
  induction later with
  | nil => exact fun _ _ _ h => h
  | cons r later ih =>
    intro earlier text hsplit h
    rw [List.foldl_cons, applyRename_eq_replaceAll]
    apply ih (earlier ++ [r]) _ (by simp [hsplit])
    apply drop r
    exact replaceAll_induction (hne r (by simp [hsplit])) (step earlier r later hsplit) h

end RenameTable

end Namespacing
