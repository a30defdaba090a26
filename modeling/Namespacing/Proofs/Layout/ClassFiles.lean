import Namespacing.GlobalClasses
import Namespacing.Proofs.Layout.Container
import Namespacing.Proofs.Layout.Outlines
import Namespacing.Proofs.Outline.Veils
import Namespacing.Proofs.RenameTable.Bareness
set_option autoImplicit false

namespace Namespacing

open Lexeme Text Layout

section

variable {declares : Prop} {ns : Namespace} {symbols : List Symbols} {A B : List Shape}

theorem ClassKind.exists_keyword {kind : TokenKind} {found : ClassKind} (h : ofToken? kind = some found) :
    ∃ k, kind = .keyword k ∧ k ≠ .functionKw := by
  unfold ofToken? at h
  split at h
  · exact ⟨_, rfl, by simp⟩
  · exact ⟨_, rfl, by simp⟩
  · exact ⟨_, rfl, by simp⟩
  · cases h

theorem lone_renames {c : Char} (hc : c ≠ '\\' ∧ c ≠ ':') :
    Lone (RenamesIf declares ns symbols) ⟨.punct, [c]⟩ := by
  have hqualifier : ∀ {z : Text} {Z : List Shape}, QualifierShapes z Z → (⟨.punct, [c]⟩ : Shape) ∉ Z := by
    intro z Z hZ hmem
    rcases hZ.mem_shapes hmem with h | h | ⟨w, -, h⟩
    · exact hc.1 (by simpa [backslash] using h)
    · exact hc.2 (by simpa [colon] using h)
    · have := congrArg Shape.kind h
      rw [wordKind] at this
      split at this <;> cases this
  have hstatics : ∀ k, (⟨.punct, [c]⟩ : Shape) ∉ staticShapes k := by
    intro k
    induction k with
    | zero => simp [staticShapes]
    | succ k ih => simp [staticShapes, ih]
  have hone : ∀ {y x : Shape} {ys zs : List Shape}, ys ++ y :: zs = [x] → x = y ∧ ys = [] ∧ zs = [] := by
    intro y x ys zs h
    rcases List.append_eq_singleton_iff.1 h with ⟨rfl, h⟩ | ⟨-, h⟩
    · obtain ⟨rfl, rfl⟩ := List.cons.inj h
      exact ⟨rfl, rfl, rfl⟩
    · cases h
  intro x ys zs h
  generalize hC : ys ++ ⟨.punct, [c]⟩ :: zs = C at h
  have hmem : (⟨.punct, [c]⟩ : Shape) ∈ C := by simp [← hC]
  cases h with
  | keep => exact hone hC
  | loose hkind =>
    obtain ⟨heq, -⟩ := hone hC
    cases congrArg Shape.kind heq
    cases hkind
  | name _ _ hZ => simp [hqualifier hZ] at hmem
  | number _ _ hZ => simp [hqualifier hZ] at hmem
  | static _ k => simp [hstatics, functionShape] at hmem
  | split _ _ hkind k =>
    simp only [List.mem_cons, List.mem_append, hstatics, functionShape, Shape.mk.injEq] at hmem
    rcases hmem with ⟨rfl, -⟩ | hmem
    · simp at hkind
    · simp at hmem

theorem isStray_of_isLoose_eq_false {kind : TokenKind} (h : kind.isLoose = false) (w : Text) :
    Shape.isStray ⟨kind, w⟩ = false := by
  cases kind <;> first | rfl | cases h

theorem RenamesIf.isStray_eq_false {x : Shape} {ys : List Shape} (h : RenamesIf declares ns symbols x ys)
    (hx : x.isStray = false) : ∀ y ∈ ys, y.isStray = false := by
  have hqualifier : ∀ {z : Text} {Z : List Shape}, QualifierShapes z Z → ∀ y ∈ Z, y.isStray = false := by
    intro z Z hZ y hy
    rcases hZ.mem_shapes hy with rfl | rfl | ⟨w, -, rfl⟩
    · rfl
    · rfl
    · exact isStray_of_isLoose_eq_false (isLoose_wordKind w) w
  have hstatics : ∀ k, ∀ y ∈ staticShapes k, y.isStray = false := by
    intro k
    induction k with
    | zero => simp [staticShapes]
    | succ k ih =>
      intro y hy
      simp only [staticShapes, List.mem_cons] at hy
      rcases hy with rfl | rfl | hy
      · rfl
      · rfl
      · exact ih y hy
  intro y hy
  cases h with
  | keep => rwa [List.mem_singleton.1 hy]
  | loose _ _ hstray =>
    rw [List.mem_singleton.1 hy, Bool.eq_false_iff]
    exact fun hy' => by rw [hstray hy'] at hx; cases hx
  | name _ _ hZ =>
    rcases List.mem_append.1 hy with hy | hy
    · exact hqualifier hZ y hy
    · rw [List.mem_singleton.1 hy]
      rfl
  | number _ _ hZ =>
    simp only [List.mem_cons, List.mem_append, List.not_mem_nil, or_false] at hy
    rcases hy with rfl | hy | rfl
    · rfl
    · exact hqualifier hZ y hy
    · rfl
  | static _ k =>
    rcases List.mem_append.1 hy with hy | hy
    · exact hstatics _ y hy
    · rw [List.mem_singleton.1 hy]
      rfl
  | split _ _ hkind k =>
    simp only [List.mem_cons, List.mem_append, List.not_mem_nil, or_false] at hy
    rcases hy with rfl | rfl | hy | rfl
    · refine isStray_of_isLoose_eq_false ?_ _
      simp only [List.mem_cons, List.not_mem_nil, or_false] at hkind
      rcases hkind with rfl | rfl | rfl <;> rfl
    · rfl
    · exact hstatics _ y hy
    · rfl

theorem RenamesIf.eq_of_php {x : Shape} {ys : List Shape} {w : Text}
    (h : RenamesIf declares ns symbols x (⟨wordKind ('p' :: 'h' :: 'p' :: w), 'p' :: 'h' :: 'p' :: w⟩ :: ys)) :
    ∃ v, x = ⟨wordKind ('p' :: 'h' :: 'p' :: v), 'p' :: 'h' :: 'p' :: v⟩ := by
  generalize hC : ⟨wordKind ('p' :: 'h' :: 'p' :: w), 'p' :: 'h' :: 'p' :: w⟩ :: ys = C at h
  cases h with
  | keep =>
    obtain ⟨rfl, -⟩ := List.cons.inj hC
    exact ⟨w, rfl⟩
  | loose hkind =>
    obtain ⟨heq, -⟩ := List.cons.inj hC
    obtain ⟨hword, -⟩ := Shape.mk.inj heq
    rw [← hword, isLoose_wordKind] at hkind
    cases hkind
  | name _ _ hZ =>
    obtain ⟨Y, rfl⟩ := hZ.exists_cons
    obtain ⟨heq, -⟩ := List.cons.inj hC
    cases congrArg Shape.text heq
  | number =>
    obtain ⟨heq, -⟩ := List.cons.inj hC
    have := congrArg Shape.kind heq
    rw [wordKind] at this
    split at this <;> cases this
  | static _ k =>
    obtain ⟨heq, -⟩ := List.cons.inj hC
    cases congrArg Shape.text heq
  | @split kind x _ hx =>
    obtain ⟨heq, -⟩ := List.cons.inj hC
    obtain ⟨rfl, htext⟩ := Shape.mk.inj heq
    obtain ⟨v, rfl⟩ : ∃ v, x = 'p' :: 'h' :: 'p' :: v := by
      rcases x with _ | ⟨a, _ | ⟨b, _ | ⟨c, v⟩⟩⟩
      · exact absurd rfl hx
      · simp [staticWord] at htext
      · simp [staticWord] at htext
      · simp only [List.cons_append, List.cons.injEq] at htext
        obtain ⟨rfl, rfl, rfl, -⟩ := htext
        exact ⟨v, rfl⟩
    refine ⟨v ++ functionWord, congrArg (Shape.mk · _) ?_⟩
    rw [htext, wordKind_append_static hx]
    exact (wordKind_append_function hx).symm

theorem TagsInPlace.renames (h : TagsInPlace A) (hB : Expands (RenamesIf declares ns symbols) A B) :
    TagsInPlace B where
  held y hy := by
    obtain ⟨U, V, rfl⟩ := List.append_of_mem hy
    obtain ⟨A₁, x, A₂, -, ys, zs, -, rfl, -, -, -, hx, -⟩ := hB.exists_origin
    exact hx.isStray_eq_false (h.held x (by simp)) y (by simp)
  unspelled U V w heq := by
    have hspelled : spelledTag w ++ V = ⟨.punct, ['<']⟩ :: [⟨.punct, ['?']⟩] ++
        ⟨wordKind ('p' :: 'h' :: 'p' :: w), 'p' :: 'h' :: 'p' :: w⟩ :: V := rfl
    rw [heq, List.append_assoc, hspelled, ← List.append_assoc] at hB
    obtain ⟨A₁, A₂, rfl, -, h₂⟩ := hB.exists_lone (fun _ _ hx => hx.ne_nil) (by
      intro z hz
      rcases List.mem_cons.1 hz with rfl | hz
      · exact lone_renames (by decide)
      · rw [List.mem_singleton.1 hz]
        exact lone_renames (by decide))
    obtain ⟨x, A₃, ys, V', rfl, -, hx, -⟩ := h₂.exists_head fun _ _ hx => hx.ne_nil
    obtain ⟨v, rfl⟩ := hx.eq_of_php
    exact h.unspelled A₁ A₃ v (by simp [spelledTag])

end

section

variable {ns : Namespace} {symbols : List Symbols}
  (hclasses : ¬ ∃ c names, .functions c names ∈ symbols)

include hclasses

theorem Inserts.exists_of_bare (hsymbols : Symbols.Worded symbols) {framed : Bool} {n r v : Text}
    (hn : isIdentifier n = true) (hr : r.head?.any isWordChar = false)
    (h : Inserts ns symbols [] framed (n ++ r) v)
    (hbare : framed = true → ∀ σ ∈ symbols, n ∈ σ.names → ∀ s ∈ σ.behind, ∀ t t',
      r = s ++ t → v ≠ σ.qualifier ns ++ (n ++ (s ++ t'))) :
    ∃ r', v = n ++ r' ∧ Inserts ns symbols [] (framedBehind framed n) r r' := by
  obtain ⟨n', r', rfl, hname, hrest⟩ := h.exists_of_append
  rw [List.append_nil] at hname
  have hspelled := hname.respells hsymbols (fun _ hc => hc) (fun c hc => by simp [isNumberChar, hc])
    (fun c => isWordChar_of_mem hn) hr
  generalize hw : n = w at hspelled
  cases hspelled with
  | keep =>
    obtain rfl : n = n' := hw
    exact ⟨r', rfl, hrest⟩
  | @name x n₁ s t σ hx hσ hn₁ hs hr₁ =>
    have hword : ∀ c ∈ x, isWordChar c = true := fun c hc => isWordChar_of_mem hn (by simp [hw, hc])
    obtain rfl : x = [] := by
      by_contra hne
      rw [framedBehind_of_run ⟨hne, fun c hc => isRunChar_of_isWordChar (hword c hc)⟩] at hx
      cases hx
    obtain rfl : n = n₁ := hw
    rw [hr₁] at hrest
    obtain ⟨s', t', rfl, hs', -⟩ := hrest.exists_of_append
    have hmarks : IsMarks s := by
      have hall : ∀ s ∈ Frame.behindClass ++ Frame.behindFunction, IsMarks s := by decide
      exact hall s (by cases σ <;> simp_all [Symbols.behind])
    obtain rfl := hs'.eq_self_of_marks hsymbols hmarks
    exact absurd (by simp) (hbare hx σ hσ hn₁ s' hs t t' hr₁)
  | static hr₁ => exact absurd hr₁.exists_functions hclasses

end

section

variable {ns : Namespace} {globals : List Text} {n : Text}

theorem functions_not_mem {c : Text} {names : List Text} :
    .functions c names ∉ [Symbols.globals globals, .classLike n] := by
  simp

variable (hglobals : ∀ m ∈ globals, isIdentifier m = true ∧ Keyword.ofWord? m = none)
  (hn : isIdentifier n = true ∧ Keyword.ofWord? n = none)

include hglobals hn

theorem worded_class : Symbols.Worded [.globals globals, .classLike n] := by
  have hnames : ∀ σ ∈ [Symbols.globals globals, .classLike n], ∀ m ∈ σ.names,
      isIdentifier m = true ∧ Keyword.ofWord? m = none := by
    intro σ hσ m hm
    rcases List.mem_cons.1 hσ with rfl | hσ
    · exact hglobals m hm
    · obtain rfl := List.mem_singleton.1 hσ
      rw [List.mem_singleton.1 hm]
      exact hn
  exact ⟨fun σ hσ m hm => (hnames σ hσ m hm).1, fun _ _ h => absurd h functions_not_mem,
    fun σ hσ m hm => (hnames σ hσ m hm).2, fun _ _ h => absurd h functions_not_mem⟩

omit hn in
/-- Classes of the runtime that are not in a text change nothing in it. -/
theorem substitute_globals_of_absent {symbols : List Symbols} {text : Text}
    (hnames : ∀ σ ∈ symbols, ∀ n ∈ σ.names, isIdentifier n = true ∧ n ∉ globals)
    (habsent : ∀ m ∈ globals, contains m text = false) :
    (RenameTable.ofSymbols ns (.globals globals :: symbols)).substitute text =
      (RenameTable.ofSymbols ns symbols).substitute text := by
  have hrule : ∀ r ∈ (Symbols.globals globals).renames ns, ∃ p ∈ Frame.before, ∃ m ∈ globals,
      ∃ s, (s ≠ [] ∧ IsMarks s) ∧ r.1 = p ++ m ++ s := by
    intro r hr
    cases Symbols.mem_renames_iff.1 hr with
    | @qualify _ m _ _ p s hgives hp hs => exact ⟨p, hp, m, hgives.mem_names, s, hgives.marks hs, rfl⟩
  have hnew : ∀ r ∈ symbols.flatMap (Symbols.renames ns),
      r.1 ∉ (((Symbols.globals globals).renames ns).foldl upsert []).map Prod.fst := by
    rintro ⟨literal, value⟩ hr hmem
    obtain ⟨σ, hσ, hr⟩ := List.mem_flatMap.1 hr
    obtain ⟨x, hx, hliteral⟩ := List.mem_map.1 ((mem_literals_foldl_upsert.1 hmem).resolve_right (by simp))
    obtain ⟨p, hp, m, hm, s, hs, hkey⟩ := hrule x hx
    obtain rfl : p ++ m ++ s = literal := hkey.symm.trans hliteral
    obtain ⟨q, behind, hgives, -⟩ := (Symbols.mem_renames_iff.1 hr).of_framed hp (hglobals m hm).1 hs
      fun n hn => (hnames σ hσ n hn).1
    exact (hnames σ hσ m hgives.mem_names).2 hm
  have hkept : (((Symbols.globals globals).renames ns).foldl upsert []).foldl RenameTable.applyRename text = text := by
    generalize hrenames : ((Symbols.globals globals).renames ns).foldl upsert [] = renames
    have hall : ∀ r ∈ renames, contains r.1 text = false := by
      intro r hr
      rw [← hrenames] at hr
      obtain ⟨p, -, m, hm, s, -, hkey⟩ := hrule r ((mem_foldl_upsert hr).resolve_right (by simp))
      have hnot := habsent m hm
      rw [Bool.eq_false_iff, ne_eq, contains_iff] at hnot ⊢
      rintro ⟨a, b, hab⟩
      exact hnot ⟨a ++ p, s ++ b, by rw [hab, hkey]; simp⟩
    clear hrenames
    induction renames with
    | nil => rfl
    | cons r renames ih =>
      rw [List.foldl_cons, RenameTable.applyRename, hall r List.mem_cons_self]
      exact ih fun x hx => hall x (List.mem_cons_of_mem _ hx)
  rw [RenameTable.substitute_eq_foldl, RenameTable.substitute_eq_foldl, RenameTable.toList_ofSymbols,
    RenameTable.toList_ofSymbols, List.flatMap_cons, List.foldl_append]
  have hsplit := foldl_upsert_append hnew []
  rw [List.append_nil] at hsplit
  rw [hsplit, List.foldl_append, hkept]

theorem substitute_of_absent {text : Text} (hin : n <:+: text) (habsent : ∀ m ∈ globals, contains m text = false) :
    (RenameTable.ofSymbols ns [.globals globals, .classLike n]).substitute text =
      (RenameTable.ofSymbols ns [.classLike n]).substitute text := by
  refine substitute_globals_of_absent hglobals (fun σ hσ m hm => ?_) habsent
  obtain rfl := List.mem_singleton.1 hσ
  obtain rfl : m = n := List.mem_singleton.1 hm
  refine ⟨hn.1, fun hmem => ?_⟩
  have hnot := habsent m hmem
  rw [Bool.eq_false_iff, ne_eq, contains_iff] at hnot
  obtain ⟨a, b, hab⟩ := hin
  exact hnot ⟨a, b, hab.symm⟩

omit hglobals hn in
theorem steadyLabel_class {label : Text} (h : label ∉ n :: globals) :
    SteadyLabel [.globals globals, .classLike n] label where
  name σ hσ := by
    rw [List.mem_cons, not_or] at h
    rcases List.mem_cons.1 hσ with rfl | hσ
    · exact h.2
    · obtain rfl := List.mem_singleton.1 hσ
      exact mt List.mem_singleton.1 h.1
  plain := fun ⟨_, _, hfun⟩ => absurd hfun functions_not_mem

/-- Where a class is declared the table leaves no form of its name but the bare one. -/
theorem not_contains_declaration (hns : ns.Accepted) {kind : ClassKind} {text : Text}
    (hbare : ¬ kind.spelling ++ ' ' :: '\\' :: n <:+: text) (hend : ¬ kind.spelling <:+ n) {σ : Symbols}
    (hσ : σ ∈ [.globals globals, .classLike n]) (hmem : n ∈ σ.names) {s : Text} (hs : s ∈ Frame.behindClass) :
    contains (declaration kind.spelling (σ.qualifier ns) n s)
      ((RenameTable.ofSymbols ns [.globals globals, .classLike n]).substitute text) = false := by
  have hworded := worded_class hglobals hn
  rcases List.mem_cons.1 hσ with rfl | hσ
  · -- The class takes the place of a class of the runtime with its name.
    rw [RenameTable.substitute_eq_foldl]
    refine not_contains_foldl (z := ['\\']) hns hworded.identifier hworded.container
      kind.letters_spelling .global hn.1 (Frame.behindClass_marks s hs) (by simp)
      (fun _ _ h => absurd h functions_not_mem) (fun r hr => RenameTable.exists_rule_of_mem hr)
      (fun s' t t' hs' heq hr => ?_) ?_
    · obtain ⟨τ, hτ, hrule⟩ := RenameTable.exists_rule_of_mem hr
      obtain ⟨q, behind, hgives, hs'', -⟩ := hrule.of_framed (by decide) hn.1 hs' (hworded.identifier τ hτ)
      have hs'' : s' ∈ Frame.behindClass := by
        cases hgives with
        | function => exact absurd hτ functions_not_mem
        | _ => exact hs''
      have hget : (RenameTable.ofSymbols ns [.globals globals, .classLike n]).get? ([' '] ++ n ++ s') =
          some ([' '] ++ ns.qualifyClass n ++ s') :=
        RenameTable.get?_ofSymbols_of_last (X := [.globals globals]) (Y := []) .classLike (by decide) hs''
          (by simp) hworded.identifier
      rw [RenameTable.get?_eq_lookup, lookup_eq_of_mem (RenameTable.nodup_literals _) hr] at hget
      exact Namespace.qualifyClass_ne_global
        (List.append_cancel_left (List.append_cancel_right (Option.some.inj hget))).symm
    · rw [Bool.eq_false_iff, ne_eq, contains_iff]
      rintro ⟨a, b, rfl⟩
      exact hbare ⟨a, s ++ b, by simp [declaration]⟩
  · obtain rfl := List.mem_singleton.1 hσ
    have hq : Symbols.qualifier ns (.classLike n) = '\\' :: ns.root ++ ['\\'] := rfl
    rw [hq]
    exact not_contains_qualifyClass hns hworded.identifier hworded.container (by simp) hend
      (fun _ _ h => absurd h functions_not_mem) hs text

end

theorem Cuts.space_inv {mode : Mode} {p t : Text} {R : List Shape} (h : Cuts mode t (⟨.whitespace, p⟩ :: R)) :
    p ≠ [] ∧ ∀ c ∈ p, isSpace c = true := by
  cases h with
  | @cons _ _ _ r _ hform rest =>
    cases mode with
    | html =>
      have hform : HtmlForm .whitespace p r := hform
      cases hform
    | code =>
      obtain ⟨hne, hp, -⟩ := CodeForm.space_inv hform
      exact ⟨hne, hp⟩

theorem blank_of_framedBehind {framed : Bool} {p : Text} (hne : p ≠ []) (hp : ∀ c ∈ p, isSpace c = true)
    (h : framedBehind framed p = true) : [' '] <:+ p := by
  induction p generalizing framed with
  | nil => exact absurd rfl hne
  | cons c p ih =>
    cases p with
    | nil =>
      have hc : isSpace c = true := hp c List.mem_cons_self
      have hmark : isFrameMark c = true := h
      simp only [Lexeme.isSpace, Lexeme.isBlank, Bool.or_eq_true, beq_iff_eq] at hc
      rcases hc with ((rfl | rfl) | rfl) | rfl
      · exact List.suffix_refl _
      all_goals cases hmark
    | cons d p =>
      exact (@ih (isFrameMark c) (by simp) (fun e he => hp e (List.mem_cons_of_mem _ he)) h).trans
        (List.suffix_cons c _)

section

variable {ns : Namespace} {globals : List Text} {n : Text}
  (hglobals : ∀ m ∈ globals, isIdentifier m = true ∧ Keyword.ofWord? m = none)

include hglobals

/-- The tokens of a file around the declaration of a class, and what the table of the class makes of them. -/
theorem Cuts.exists_declared (hns : ns.Accepted) {kind : ClassKind} {source p : Text} {word : Shape}
    {A R : List Shape} (h : Cuts .html source (A ++ word :: ⟨.whitespace, p⟩ :: ⟨.identifier, n⟩ :: R))
    (hword : ClassKind.ofToken? word.kind = some kind)
    (hspelled : [' '] <:+ p → ∀ s ∈ Frame.behindClass, s <+: R.flatMap Shape.text →
      word.text = kind.spelling ∧ p = [' '])
    (hend : ¬ kind.spelling <:+ n)
    (hsteady : ∀ x ∈ A ++ word :: ⟨.whitespace, p⟩ :: ⟨.identifier, n⟩ :: R, ∀ label,
      x.label? = some label → SteadyLabel [.globals globals, .classLike n] label)
    (hbare : ∀ kind : ClassKind, ∀ q ∈ [ns.qualifyClass n, '\\' :: n], ¬ kind.spelling ++ ' ' :: q <:+: source) :
    ∃ A' R', Cuts .html ((RenameTable.ofSymbols ns [.globals globals, .classLike n]).substitute source)
        (A' ++ word :: ⟨.whitespace, p⟩ :: ⟨.identifier, n⟩ :: R') ∧
      Expands (Renames ns [.globals globals, .classLike n]) A A' ∧
      Expands (Renames ns [.globals globals, .classLike n]) R R' := by
  generalize hsymbols : [Symbols.globals globals, .classLike n] = symbols at *
  have hspace : p ≠ [] ∧ ∀ c ∈ p, isSpace c = true := by
    rw [List.append_cons] at h
    exact h.behind.space_inv
  -- The text is taken apart in front of the name.
  have hfront : A ++ word :: ⟨.whitespace, p⟩ :: ⟨.identifier, n⟩ :: R =
      (A ++ [word, ⟨.whitespace, p⟩]) ++ ⟨.identifier, n⟩ :: R := by simp
  rw [hfront] at h hsteady
  obtain ⟨hcode, r, hr, hid, hkeyword, hstop, hrest⟩ := h.behind.identifier_inv
  obtain rfl := List.append_cancel_left hr
  have htext := h.text_eq
  rw [List.flatMap_append, List.flatMap_cons] at htext
  have hworded : Symbols.Worded symbols := hsymbols ▸ worded_class hglobals ⟨hid, hkeyword⟩
  have hclasses : ¬ ∃ c names, .functions c names ∈ symbols := by
    rintro ⟨c, names, hfun⟩
    exact functions_not_mem (hsymbols ▸ hfun)
  have hins : Inserts ns symbols [] false source ((RenameTable.ofSymbols ns symbols).substitute source) := by
    rw [RenameTable.substitute_eq_foldl]
    refine (Inserts.refl source).foldl_applyRename hns hworded (fun r hr => RenameTable.exists_rule_of_mem hr)
      ⟨fun m hm k => ?_, fun c names hfun => absurd ⟨c, names, hfun⟩ hclasses⟩
    obtain rfl : m = n := by simpa [← hsymbols] using hm
    exact hbare k _ (by simp)
  have hnot : ∀ σ ∈ symbols, n ∈ σ.names → ∀ s ∈ Frame.behindClass, contains
      (declaration kind.spelling (σ.qualifier ns) n s) ((RenameTable.ofSymbols ns symbols).substitute source) = false := by
    subst hsymbols
    exact fun σ hσ hmem s hs =>
      not_contains_declaration hglobals ⟨hid, hkeyword⟩ hns (hbare kind _ (by simp)) hend hσ hmem hs
  generalize (RenameTable.ofSymbols ns symbols).substitute source = revised at hins hnot ⊢
  rw [← htext] at hins
  obtain ⟨a, t, F', rfl, ht, hF, hcuts⟩ := Cuts.exists_renamed hns hworded (by rwa [htext]) rfl
    (fun x hx => hsteady x (List.mem_append_left _ hx)) (fun _ _ _ _ hx => hx.behind.exists_functions) hins
  obtain ⟨A', W, rfl, hA, hW⟩ := hF.exists_of_append
  obtain rfl : W = [word, ⟨.whitespace, p⟩] := by
    cases hW with
    | cons hx hW =>
      cases hW with
      | cons hy hW =>
        cases hW
        rw [hx.eq_self (Or.inr (ClassKind.exists_keyword hword)), hy.eq_self (Or.inl rfl)]
        rfl
  obtain ⟨r', rfl, hr'⟩ := ht.exists_of_bare hclasses hworded hid hstop fun hframed σ hσ hmem s hs t₁ t₂ hr₁ hv => by
    have hs : s ∈ Frame.behindClass := by
      cases σ with
      | functions c names => exact absurd ⟨c, names, hσ⟩ hclasses
      | _ => exact hs
    have hpieces : (A ++ [word, ⟨.whitespace, p⟩]).flatMap Shape.text = A.flatMap Shape.text ++ word.text ++ p := by
      simp
    rw [hpieces, framedBehind_append] at hframed
    obtain ⟨hkey, rfl⟩ := hspelled (blank_of_framedBehind hspace.1 hspace.2 hframed) s hs ⟨t₁, hr₁.symm⟩
    obtain ⟨C, hC, -⟩ := Cuts.renamed hns hworded h.behind (fun x hx => hsteady x (List.mem_append_right _ hx))
      (fun _ _ _ _ hx => hx.behind.exists_functions) ht
    have hfinal := (hcuts C hC).text_eq
    rw [List.flatMap_append, hC.text_eq] at hfinal
    obtain rfl := List.append_cancel_right hfinal
    have := hnot σ hσ hmem s hs
    rw [Bool.eq_false_iff, ne_eq, contains_iff] at this
    refine this ⟨A'.flatMap Shape.text, t₂, ?_⟩
    rw [hv]
    simp [declaration, hkey]
  obtain ⟨R', hR', hRR'⟩ := Cuts.renamed hns hworded hrest
    (fun x hx => hsteady x (List.mem_append_right _ (List.mem_cons_of_mem _ hx)))
    (fun _ _ _ _ hx => hx.behind.exists_functions) hr'
  refine ⟨A', R', ?_, hA, hRR'⟩
  have hname := Cuts.word hid (hr'.head?_any_isWordChar hworded hstop) hR'
  rw [wordKind_of_keyword_none hkeyword] at hname
  rw [← hcode] at hname
  simpa using hcuts _ hname

end

theorem ClassKind.isLoose_of_ofToken? {kind : TokenKind} {found : ClassKind} (h : ofToken? kind = some found) :
    kind.isLoose = false ∧ kind.isTag = false := by
  constructor
  · rw [Bool.eq_false_iff]
    intro hloose
    rw [ofToken?_eq_none_of_isLoose hloose] at h
    cases h
  · rw [Bool.eq_false_iff]
    intro htag
    rw [ofToken?_eq_none_of_isTag htag] at h
    cases h

theorem Cuts.exists_headed_class {header source p n : Text} {V : List Shape} (hV : QualifiedName header V)
    {word : Shape} {A R : List Shape}
    (h : Cuts .html source (A ++ word :: ⟨.whitespace, p⟩ :: ⟨.identifier, n⟩ :: R))
    {kind : ClassKind} (hword : ClassKind.ofToken? word.kind = some kind)
    (hfirst : Classless (A ++ [word, ⟨.whitespace, p⟩]))
    (hplace : TagsInPlace (A ++ word :: ⟨.whitespace, p⟩ :: ⟨.identifier, n⟩ :: R)) :
    ∃ B q R', Cuts .html (headed (namespaceText header) source)
        (B ++ word :: ⟨.whitespace, q⟩ :: ⟨.identifier, n⟩ :: R') ∧
      Expands (Respaces (namespaceShapes V) (headed (namespaceText header))) A B ∧
      Classless (B ++ [word, ⟨.whitespace, q⟩]) := by
  obtain ⟨C, hC, hAC⟩ := h.exists_headed (header_namespace hV) hplace
  obtain ⟨B, D, rfl, hB, hD⟩ := hAC.exists_of_append
  cases hD with
  | cons hx hD =>
    cases hD with
    | cons hy hD =>
      cases hD with
      | cons hz hD =>
        have hkind := ClassKind.isLoose_of_ofToken? hword
        obtain rfl := hx.eq_of_solid hkind.1 hkind.2
        obtain ⟨q, rfl⟩ := hy.exists_of_loose rfl
        obtain rfl := hz.eq_of_solid rfl rfl
        exact ⟨B, q, _, hC, hB,
          hfirst.expands (classifies_respaces hV _) (hB.append (.one hx (.one hy .nil)))⟩

theorem Cuts.declares_class {ns : Namespace} (hns : ns.Accepted) {source p n : Text} {word : Shape}
    {A R : List Shape} (h : Cuts .html source (A ++ word :: ⟨.whitespace, p⟩ :: ⟨.identifier, n⟩ :: R))
    {kind : ClassKind} (hword : ClassKind.ofToken? word.kind = some kind)
    (hfirst : Classless (A ++ [word, ⟨.whitespace, p⟩]))
    (hplace : TagsInPlace (A ++ word :: ⟨.whitespace, p⟩ :: ⟨.identifier, n⟩ :: R)) :
    ∃ outline, Outline.ofSource (declareNamespace ns source) = .ok outline ∧ outline.classLike = some ⟨kind, n⟩ := by
  obtain ⟨V, hV⟩ := exists_qualifiedName_root hns.root
  obtain ⟨B, q, R', hB, -, hlast⟩ := h.exists_headed_class hV hword hfirst hplace
  obtain ⟨tokens, htokens, hB⟩ := hB.exists_tokens 0
  refine ⟨Outline.ofTokens tokens, ?_, Outline.firstClassLike?_of_shapes hB hlast hword rfl rfl⟩
  rw [Outline.ofSource, tokenize, declareNamespace_eq, htokens]
  rfl

/-- A file that declares a class still declares it first when its names are qualified and its namespace is
declared. A name behind a blank and in front of a mark of a name has to be declared with the keyword in lower
case and one blank. The class is nowhere declared qualified, the literal open tag stands nowhere but in open
tags, strings, attributes and block comments, and no here-document has the label of a class. -/
theorem classSource_keeps_class (ns : Namespace) (hns : ns.Accepted) (globals : List Text)
    (hglobals : ∀ m ∈ globals, isIdentifier m = true ∧ Keyword.ofWord? m = none) (declared : ClassLike)
    (source : Text) (before : List Token) (word space name : Token) (behind : List Token)
    (htokens : tokenize source = .ok (before ++ word :: space :: name :: behind))
    (hfirst : Outline.firstClassLike? (before ++ [word, space]) = none)
    (hdeclared : Outline.classLikeAt? (word :: space :: name :: behind) = some declared)
    (hspelled : [' '] <:+ space.text → ∀ s ∈ Frame.behindClass, s <+: behind.flatMap Token.text →
      word.text = declared.kind.spelling ∧ space.text = [' '])
    (hend : ¬ declared.kind.spelling <:+ declared.name)
    (hbare : ∀ kind : ClassKind, ∀ q ∈ [ns.qualifyClass declared.name, '\\' :: declared.name],
      ¬ kind.spelling ++ ' ' :: q <:+: source)
    (hplace : TagsInPlace ((before ++ word :: space :: name :: behind).map Token.shape))
    (hlabels : ∀ x ∈ (before ++ word :: space :: name :: behind).map Token.shape, ∀ label,
      x.label? = some label → label ∉ declared.name :: globals) :
    ∃ outline, Outline.ofSource (Revision.classSource
        ⟨ns, RenameTable.ofSymbols ns [.globals globals, .classLike declared.name]⟩ source) = .ok outline ∧
      outline.classLike = some declared := by
  obtain ⟨kind, n⟩ := declared
  obtain ⟨hword, hspace, hname, hn⟩ := Outline.classLikeAt?_eq_some hdeclared
  have hn : n = name.text := hn
  have hclasses : ¬ ∃ c names, .functions c names ∈ [Symbols.globals globals, .classLike n] :=
    fun ⟨_, _, h⟩ => functions_not_mem h
  have hshapes : (before ++ word :: space :: name :: behind).map Token.shape = before.map Token.shape ++
      word.shape :: ⟨.whitespace, space.text⟩ :: ⟨.identifier, n⟩ :: behind.map Token.shape := by
    simp [Token.shape, hspace, hname, hn]
  have hcuts := cuts_of_tokensFrom htokens
  rw [hshapes] at hcuts hplace hlabels
  have hbehind : (behind.map Token.shape).flatMap Shape.text = behind.flatMap Token.text := by
    rw [List.flatMap_map]
    rfl
  obtain ⟨A, R, hrenamed, hA, hR⟩ := hcuts.exists_declared hglobals hns hword
    (by rw [hbehind]; exact hspelled) hend (fun x hx label h => steadyLabel_class (hlabels x hx label h)) hbare
  have hfront : Expands (Renames ns [.globals globals, .classLike n])
      ((before ++ [word, space]).map Token.shape) (A ++ [word.shape, ⟨.whitespace, space.text⟩]) := by
    rw [List.map_append]
    refine hA.append (.one (.keep _) (.one ?_ .nil))
    rw [Token.shape, hspace]
    exact .keep _
  have hrenames : Expands (Renames ns [.globals globals, .classLike n])
      (before.map Token.shape ++ word.shape :: ⟨.whitespace, space.text⟩ :: ⟨.identifier, n⟩ :: behind.map Token.shape)
      (A ++ word.shape :: ⟨.whitespace, space.text⟩ :: ⟨.identifier, n⟩ :: R) :=
    hA.append (.one (.keep _) (.one (.keep _) (.one (.keep _) hR)))
  simp only [Revision.classSource]
  exact hrenamed.declares_class hns hword
    ((Outline.firstClassLike?_eq_none_iff.1 hfirst).expands (classifies_renames ns hclasses) hfront)
    (hplace.renames hrenames)

theorem GlobalClasses.spelling_of_mem : ∀ m ∈ GlobalClasses.withExtra [],
    (isIdentifier m = true ∧ Keyword.ofWord? m = none) ∧ ¬ staticWord <:+ m ∧ ¬ functionWord <:+ m := by
  decide +kernel

theorem GlobalClasses.isIdentifier_of_mem (m : Text) (hm : m ∈ GlobalClasses.withExtra []) :
    isIdentifier m = true ∧ Keyword.ofWord? m = none :=
  (spelling_of_mem m hm).1

/-- A class, and all classes of the runtime. -/
theorem classSource_keeps_class_widget :
    let ns : Namespace := ⟨"Facebook\\Libphutil".toList, "Functions".toList⟩
    let globals := GlobalClasses.withExtra []
    let declared : ClassLike := ⟨.plainClass, "Widget".toList⟩
    let source := "<?php\nclass Widget \x7b\x7d\n".toList
    let before : List Token := [⟨.openTag, "<?php\n".toList, 0⟩]
    let word : Token := ⟨.keyword .classKw, "class".toList, 6⟩
    let space : Token := ⟨.whitespace, [' '], 11⟩
    let name : Token := ⟨.identifier, "Widget".toList, 12⟩
    let behind : List Token := [⟨.whitespace, [' '], 18⟩, ⟨.punct, ['\x7b'], 19⟩, ⟨.punct, ['\x7d'], 20⟩,
      ⟨.whitespace, ['\n'], 21⟩]
    (ns.Accepted ∧ (∀ m ∈ globals, isIdentifier m = true ∧ Keyword.ofWord? m = none) ∧
      tokenize source = .ok (before ++ word :: space :: name :: behind) ∧
      Outline.firstClassLike? (before ++ [word, space]) = none ∧
      Outline.classLikeAt? (word :: space :: name :: behind) = some declared ∧
      ¬ declared.kind.spelling <:+ declared.name ∧
      (∀ kind : ClassKind, ∀ q ∈ [ns.qualifyClass declared.name, '\\' :: declared.name],
        ¬ kind.spelling ++ ' ' :: q <:+: source) ∧
      TagsInPlace ((before ++ word :: space :: name :: behind).map Token.shape)) ∧
    ∃ outline, Outline.ofSource (Revision.classSource
        ⟨ns, RenameTable.ofSymbols ns [.globals globals, .classLike declared.name]⟩ source) = .ok outline ∧
      outline.classLike = some declared := by
  intro ns globals declared source before word space name behind
  have hns : ns.Accepted := ⟨by decide, by decide⟩
  have hglobals : ∀ m ∈ globals, isIdentifier m = true ∧ Keyword.ofWord? m = none :=
    GlobalClasses.isIdentifier_of_mem
  have htokens : tokenize source = .ok (before ++ word :: space :: name :: behind) := by decide +kernel
  have hbare : ∀ kind : ClassKind, ∀ q ∈ [ns.qualifyClass declared.name, '\\' :: declared.name],
      ¬ kind.spelling ++ ' ' :: q <:+: source := by
    intro kind
    cases kind <;> decide +kernel
  have hplace : TagsInPlace ((before ++ word :: space :: name :: behind).map Token.shape) :=
    tagsInPlace_of_not_mem (by decide) (by decide)
  refine ⟨⟨hns, hglobals, htokens, by decide, by decide, by decide, hbare, hplace⟩, ?_⟩
  refine classSource_keeps_class ns hns globals hglobals declared source before word space name behind htokens
    (by decide) (by decide) (fun _ _ _ _ => ⟨rfl, rfl⟩) (by decide) hbare hplace fun x hx label h => ?_
  have hnone : ∀ x ∈ (before ++ word :: space :: name :: behind).map Token.shape, x.label? = none := by decide
  rw [hnone x hx] at h
  cases h

/-- A class that is declared with two blanks before its name is declared no more. -/
theorem classSource_loses_class :
    let ns : Namespace := ⟨"Facebook\\Libphutil".toList, "Functions".toList⟩
    let declared : ClassLike := ⟨.plainClass, "Widget".toList⟩
    let source := "<?php\nclass  Widget \x7b\x7d\n".toList
    let table := RenameTable.ofSymbols ns [.globals (GlobalClasses.withExtra []), .classLike declared.name]
    (ns.Accepted ∧ Outline.ofSource source = .ok ⟨some declared, []⟩) ∧
    ¬ ∃ outline, Outline.ofSource (Revision.classSource ⟨ns, table⟩ source) = .ok outline ∧
      outline.classLike = some declared := by
  intro ns declared source table
  refine ⟨⟨⟨by decide, by decide⟩, by decide +kernel⟩, ?_⟩
  have hrevised : table.substitute source =
      "<?php\nclass  \\Facebook\\Libphutil\\Widget \x7b\x7d\n".toList := by
    have habsent := @substitute_of_absent ns (GlobalClasses.withExtra []) declared.name
      GlobalClasses.isIdentifier_of_mem (by decide) source ⟨"<?php\nclass  ".toList, " \x7b\x7d\n".toList, rfl⟩
      (by decide +kernel)
    rw [habsent, RenameTable.substitute_eq_foldl, RenameTable.toList_ofSymbols]
    decide +kernel
  rintro ⟨outline, houtline, hdeclared⟩
  have hlost : Outline.ofSource (declareNamespace ns (table.substitute source)) = .ok ⟨none, []⟩ := by
    rw [hrevised]
    decide +kernel
  simp only [Revision.classSource, hlost, Except.ok.injEq] at houtline
  rw [← houtline] at hdeclared
  cases hdeclared

end Namespacing
