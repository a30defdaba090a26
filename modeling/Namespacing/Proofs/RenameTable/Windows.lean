import Mathlib.Data.List.Nodup
import Mathlib.Data.List.Pairwise
import Namespacing.Proofs.RenameTable.ClassPieces
set_option autoImplicit false

/-!
# One replacement among the pieces of a text

A rename changes a window of the pieces and leaves what stands before and behind it alone. A framed
name that is not the literal of the rename lies on one side of the window, so the replacement neither
takes it away nor brings it in. The only framed names that come in are those which the keyword of a
declaration makes bare.
-/

namespace Namespacing

open Text

namespace Symbols

def isLibrary : Symbols → Bool
  | .globals _ => false
  | _ => true

def behind : Symbols → List Text
  | .functions .. => Frame.behindFunction
  | _ => Frame.behindClass

def heads : Symbols → List Text
  | .globals _ => []
  | .classLike _ => ClassKind.all.map ClassKind.spelling
  | .functions .. => ["static function".toList]

/-- Symbols with identifiers as names and containers, and no name twice. -/
structure Distinct (symbols : List Symbols) : Prop where
  identifier : ∀ σ ∈ symbols, ∀ n ∈ σ.names, isIdentifier n = true
  container : ∀ c names, .functions c names ∈ symbols → isIdentifier c = true
  nodup : (symbols.flatMap names).Nodup

/-- No class is named with one of the two words that a function is declared with at the end. -/
structure Plain (symbols : List Symbols) : Prop where
  static : ∀ n, .classLike n ∈ symbols → ¬ "static".toList <:+ n
  function : ∀ n, .classLike n ∈ symbols → ¬ "function".toList <:+ n
  global : ∀ names, .globals names ∈ symbols → "function".toList ∉ names

theorem Distinct.eq_of_mem_names {symbols : List Symbols} (h : Distinct symbols) {σ τ : Symbols}
    {n : Text} (hσ : σ ∈ symbols) (hτ : τ ∈ symbols) (hn : n ∈ σ.names) (hn' : n ∈ τ.names) :
    σ = τ := by
  by_contra hne
  have hpair := (List.nodup_flatMap.1 h.nodup).2
  have : Std.Symm (Function.onFun List.Disjoint names) := ⟨fun _ _ h _ hx hy => h hy hx⟩
  exact hpair.forall hσ hτ hne hn hn'

theorem Distinct.isRun {symbols : List Symbols} (h : Distinct symbols) {σ : Symbols} {n : Text}
    (hσ : σ ∈ symbols) (hn : n ∈ σ.names) : IsRun n :=
  isRun_of_isIdentifier (h.identifier σ hσ n hn)

theorem behind_marks (σ : Symbols) {s : Text} (hs : s ∈ σ.behind) : s ≠ [] ∧ IsMarks s := by
  cases σ with
  | globals names => exact Frame.behindClass_marks s hs
  | classLike n => exact Frame.behindClass_marks s hs
  | functions container names => exact Frame.behindFunction_marks s hs

theorem eq_of_marks_prefix (σ : Symbols) {s s' : Text} {Z : List Piece} (hs : s ∈ σ.behind)
    (hs' : s' ∈ σ.behind) (h : marks s <+: Z) (h' : marks s' <+: Z) : s = s' := by
  have hfree : ∀ t ∈ σ.behind, ∀ t' ∈ σ.behind, t.isPrefixOf t' = true → t = t' := by
    cases σ with
    | globals names => exact Frame.behindClass_prefix
    | classLike n => exact Frame.behindClass_prefix
    | functions container names => exact Frame.behindFunction_prefix
  rcases List.prefix_or_prefix_of_prefix h h' with hpre | hpre
  · exact hfree s hs s' hs' (marks_prefix_iff.1 hpre)
  · exact (hfree s' hs' s hs (marks_prefix_iff.1 hpre)).symm

theorem behindFunction_blank {s : Text} (hs : s ∈ Frame.behindFunction) {Z : List Piece} {r : Text} :
    ¬ marks s <+: .mark ' ' :: .run r :: Z := by
  have hcases : ∀ t ∈ Frame.behindFunction, t.head? = some ' ' → t = [' ', '('] := by decide
  intro h
  obtain ⟨c, s, rfl⟩ := List.exists_cons_of_ne_nil (Frame.behindFunction_marks s hs).1
  rw [marks_cons, List.cons_prefix_cons, Piece.mark.injEq] at h
  obtain ⟨rfl, h⟩ := h
  have := hcases _ hs rfl
  rw [List.cons.injEq] at this
  rw [this.2, marks_cons, List.cons_prefix_cons] at h
  cases h.1

theorem fst_functionDeclaration (n q s : Text) :
    (functionDeclaration n q s).1 = "function".toList ++ ' ' :: q ++ s := rfl

theorem snd_functionDeclaration (n q s : Text) :
    (functionDeclaration n q s).2 =
      "static".toList ++ ' ' :: "function".toList ++ ' ' :: n ++ s := rfl

end Symbols

namespace Namespace

def qualifyContainer (ns : Namespace) (container : Text) : Text :=
  '\\' :: ns.functionsRoot ++ '\\' :: container

theorem qualifyFunction_eq (ns : Namespace) (container name : Text) :
    ns.qualifyFunction container name = ns.qualifyContainer container ++ ':' :: ':' :: name := by
  simp [qualifyFunction, qualifyContainer]

theorem isRun_qualifyContainer {ns : Namespace} (h : ns.Accepted) {c : Text}
    (hc : isIdentifier c = true) : IsRun (ns.qualifyContainer c) := by
  refine ⟨by simp [qualifyContainer], fun x hx => ?_⟩
  simp only [qualifyContainer, functionsRoot, List.cons_append, List.append_assoc, List.mem_cons,
    List.mem_append] at hx
  rcases hx with rfl | hx | rfl | hx | rfl | hx
  · decide
  · exact isRunChar_of_mem_root h.root hx
  · decide
  · exact (isRun_of_isIdentifier h.segment).2 x hx
  · decide
  · exact (isRun_of_isIdentifier hc).2 x hx

end Namespace

/-- The pieces that a rename changes, between those which it leaves alone. -/
inductive Window (ns : Namespace) :
    Symbols → Rename → List Piece → List Piece → List Piece → List Piece → Prop where
  | name {σ : Symbols} {n q s z : Text} {m : Char} {A B : List Piece} (hσ : σ.AreClasses)
      (hn : n ∈ σ.names) (hq : q = z ++ '\\' :: n) (hs : s ∈ Frame.behindClass) :
      Window ns σ (m :: n ++ s, m :: q ++ s) (A ++ [.mark m]) [.run n] [.run q] (marks s ++ B)
  | method {container : Text} {names : List Text} {n s : Text} {m : Char} {A B : List Piece}
      (hn : n ∈ names) (hs : s ∈ Frame.behindFunction) :
      Window ns (.functions container names)
        (m :: n ++ s, m :: ns.qualifyFunction container n ++ s) (A ++ [.mark m]) []
        [.run (ns.qualifyContainer container), .mark ':', .mark ':'] (.run n :: (marks s ++ B))
  | bare {n s w : Text} (kind : ClassKind) {A B : List Piece} (hs : s ∈ Frame.behindClass) :
      Window ns (.classLike n) (kind.spelling ++ ' ' :: ns.qualifyClass n ++ s,
        kind.spelling ++ ' ' :: n ++ s) (A ++ [.run (w ++ kind.spelling), .mark ' '])
        [.run (ns.qualifyClass n)] [.run n] (marks s ++ B)
  | static {container : Text} {names : List Text} {n s w : Text} {A B : List Piece} (hn : n ∈ names)
      (hs : s ∈ Frame.behindFunction) :
      Window ns (.functions container names)
        (Symbols.functionDeclaration n (ns.qualifyFunction container n) s) A
        [.run (w ++ "function".toList), .mark ' ', .run (ns.qualifyContainer container), .mark ':',
          .mark ':']
        [.run (w ++ "static".toList), .mark ' ', .run "function".toList, .mark ' ']
        (.run n :: (marks s ++ B))

theorem cut_keyword_framed {A : List Piece} {a w k : Text}
    (hA : ∀ r, IsRun r → cut (a ++ r) = A ++ [.run (w ++ r)]) (hk : IsRun k) {r s : Text}
    (hr : IsRun r) (hs : s ≠ [] ∧ IsMarks s) (b : Text) :
    cut (a ++ (k ++ ' ' :: r ++ s) ++ b) =
      A ++ .run (w ++ k) :: .mark ' ' :: .run r :: (marks s ++ cut b) := by
  have hblank : isRunChar ' ' = false := by decide
  have := cut_framed (a ++ k) hblank hr hs.2 hs.1 b
  rw [hA k hk] at this
  simpa using this

/-- Replacing one occurrence of a literal changes a window. -/
theorem Symbols.Rule.exists_window {ns : Namespace} (hns : ns.Accepted) {symbols : List Symbols}
    (hsymbols : Distinct symbols) {σ : Symbols} (hσ : σ ∈ symbols) {r : Rename} (h : Rule ns σ r)
    (a b : Text) :
    ∃ A W W' B, Window ns σ r A W W' B ∧ cut (a ++ r.1 ++ b) = A ++ W ++ B ∧
      cut (a ++ r.2 ++ b) = A ++ W' ++ B := by
  cases h with
  | @qualify _ n q _ p s hgives hp hs =>
    obtain ⟨m, rfl, hm, -⟩ := Frame.exists_mark hp
    have hn := hgives.mem_names
    have hmarks := hgives.marks hs
    have hrun := hsymbols.isRun hσ hn
    have hcut : ∀ r, IsRun r → cut (a ++ (m :: r ++ s) ++ b) =
        cut a ++ .mark m :: .run r :: (marks s ++ cut b) := by
      intro r hr
      rw [← cut_framed a hm hr hmarks.2 hmarks.1]
      simp
    cases hgives with
    | @global names _ hn =>
      have hclasses : AreClasses (.globals names) := trivial
      refine ⟨cut a ++ [.mark m], [.run n], [.run ('\\' :: n)], marks s ++ cut b,
        .name (z := []) hclasses hn rfl hs, ?_, ?_⟩
      · simpa using hcut n hrun
      · have hq : IsRun ('\\' :: n) := hrun.backslash_cons
        simpa using hcut _ hq
    | classLike =>
      have hclasses : AreClasses (.classLike n) := trivial
      refine ⟨cut a ++ [.mark m], [.run n], [.run (ns.qualifyClass n)], marks s ++ cut b,
        .name (z := '\\' :: ns.root) hclasses hn rfl hs, ?_, ?_⟩
      · simpa using hcut n hrun
      · simpa using hcut _ (Namespace.isRun_qualifyClass hns.root (hsymbols.identifier _ hσ n hn))
    | @function container names _ hn =>
      refine ⟨cut a ++ [.mark m], [], _, .run n :: (marks s ++ cut b), .method hn hs, ?_, ?_⟩
      · simpa using hcut n hrun
      · have hcontainer :=
          Namespace.isRun_qualifyContainer hns (hsymbols.container container names hσ)
        have hcolons : IsMarks "::".toList := by decide
        rw [ns.qualifyFunction_eq]
        have hbehind := cut_run_marks hrun hmarks.2 hmarks.1 b
        have := cut_framed a hm hcontainer hcolons (by decide) (n ++ s ++ b)
        rw [hbehind] at this
        simpa [marks] using this
  | @restoreClass n kind s hs =>
    obtain ⟨A, w, -, -, hA⟩ := exists_cut_append_run a
    have hmarks := Frame.behindClass_marks s hs
    have hn := hsymbols.identifier _ hσ n (List.mem_singleton.2 rfl)
    refine ⟨_, _, _, marks s ++ cut b, .bare (w := w) (A := A) kind hs, ?_, ?_⟩
    · have := cut_keyword_framed hA kind.isRun_spelling (Namespace.isRun_qualifyClass hns.root hn)
        hmarks b
      simpa using this
    · have := cut_keyword_framed hA kind.isRun_spelling (isRun_of_isIdentifier hn) hmarks b
      simpa using this
  | @restoreFunction container names n s hn hs =>
    obtain ⟨A, w, -, -, hA⟩ := exists_cut_append_run a
    have hmarks := Frame.behindFunction_marks s hs
    have hrun := hsymbols.isRun hσ hn
    have hfunction : IsRun "function".toList := by decide
    have hstatic : IsRun "static".toList := by decide
    have hcontainer := Namespace.isRun_qualifyContainer hns (hsymbols.container container names hσ)
    have hbehind := cut_run_marks hrun hmarks.2 hmarks.1 b
    refine ⟨A, _, _, .run n :: (marks s ++ cut b), .static (w := w) hn hs, ?_, ?_⟩
    · have hcolons : "::".toList ≠ [] ∧ IsMarks "::".toList := ⟨by decide, by decide⟩
      have := cut_keyword_framed hA hfunction hcontainer hcolons (n ++ s ++ b)
      rw [hbehind] at this
      rw [fst_functionDeclaration, ns.qualifyFunction_eq]
      generalize "function".toList = k at this ⊢
      simpa [marks] using this
    · have hblank : [' '] ≠ [] ∧ IsMarks [' '] := ⟨by decide, by decide⟩
      have := cut_keyword_framed hA hstatic hfunction hblank (n ++ s ++ b)
      rw [hbehind] at this
      rw [snd_functionDeclaration]
      generalize "function".toList = k at this ⊢
      generalize "static".toList = k' at this ⊢
      simpa [marks] using this

section

variable {U Y V A W B : List Piece}

def StartsIn (U Y V A W B : List Piece) : Prop :=
  ∃ U' W', W = U' ++ W' ∧ W' ≠ [] ∧ U = A ++ U' ∧ W' ++ B = Y ++ V

theorem not_startsIn_nil : ¬ StartsIn U Y V A [] B := by
  rintro ⟨U', W', hW, hne, -⟩
  exact hne (List.append_eq_nil_iff.1 hW.symm).2

theorem StartsIn.cons {x : Piece} (h : StartsIn U Y V A (x :: W) B) :
    (U = A ∧ x :: (W ++ B) = Y ++ V) ∨ StartsIn U Y V (A ++ [x]) W B := by
  obtain ⟨U', W', hW, hne, rfl, hB⟩ := h
  cases U' with
  | nil =>
    obtain rfl : x :: W = W' := hW
    exact Or.inl ⟨by simp, hB⟩
  | cons y U' =>
    obtain ⟨rfl, rfl⟩ := List.cons.inj hW
    exact Or.inr ⟨U', W', rfl, hne, by simp, hB⟩

/-- A stretch of pieces lies on one side of a window, or runs into it from the left, or starts in
it. -/
theorem exists_overlap (h : A ++ W ++ B = U ++ Y ++ V) :
    (∃ V', A = U ++ Y ++ V') ∨ (∃ U', U = A ++ W ++ U' ∧ B = U' ++ Y ++ V) ∨
    (∃ A' Y', A = U ++ A' ∧ Y = A' ++ Y' ∧ Y' ≠ [] ∧ W ++ B = Y' ++ V) ∨
    StartsIn U Y V A W B := by
  rw [List.append_assoc, List.append_assoc] at h
  rcases List.append_eq_append_iff.1 h with ⟨U', rfl, hW⟩ | ⟨A', rfl, hY⟩
  · rcases List.append_eq_append_iff.1 hW with ⟨U'', rfl, hB⟩ | ⟨W', rfl, hY⟩
    · exact Or.inr (Or.inl ⟨U'', by simp, by simp [hB]⟩)
    · cases W' with
      | nil => exact Or.inr (Or.inl ⟨[], by simp, by simpa using hY.symm⟩)
      | cons x W' => exact Or.inr (Or.inr (Or.inr ⟨U', x :: W', rfl, by simp, rfl, hY.symm⟩))
  · rcases List.append_eq_append_iff.1 hY with ⟨V', rfl, -⟩ | ⟨Y', rfl, hV⟩
    · exact Or.inl ⟨V', by simp⟩
    · cases Y' with
      | nil => exact Or.inl ⟨[], by simp⟩
      | cons y Y' =>
        cases A' with
        | nil =>
          cases W with
          | nil => exact Or.inr (Or.inl ⟨[], by simp, by simpa using hV⟩)
          | cons x W =>
            exact Or.inr (Or.inr (Or.inr ⟨[], x :: W, rfl, by simp, by simp, by simpa using hV⟩))
        | cons a A' =>
          exact Or.inr (Or.inr (Or.inl ⟨a :: A', y :: Y', rfl, rfl, by simp, hV⟩))

end

/-- A stretch that starts with a framed name and in which every run is that name in that frame. -/
structure Framed (m : Char) (n s : Text) (Y : List Piece) : Prop where
  start : ∃ Z, Y = .mark m :: .run n :: Z
  run : ∀ U r V, Y = U ++ .run r :: V → r = n ∧ (∃ U', U = U' ++ [.mark m]) ∧ marks s <+: V

def framed (m : Char) (n s : Text) : List Piece :=
  .mark m :: .run n :: marks s

def framedTwice (m : Char) (n s : Text) : List Piece :=
  .mark m :: .run n :: (marks s ++ .run n :: marks s)

theorem marks_append_run {s n r : Text} {Z U V : List Piece}
    (h : marks s ++ .run n :: Z = U ++ .run r :: V) :
    (U = marks s ∧ r = n ∧ V = Z) ∨ ∃ U', U = marks s ++ .run n :: U' ∧ Z = U' ++ .run r :: V := by
  induction s generalizing U with
  | nil =>
    cases U with
    | nil =>
      obtain ⟨hr, rfl⟩ := List.cons.inj h
      exact Or.inl ⟨rfl, (Piece.run.inj hr).symm, rfl⟩
    | cons x U =>
      obtain ⟨rfl, hZ⟩ := List.cons.inj h
      exact Or.inr ⟨U, rfl, hZ⟩
  | cons c s ih =>
    cases U with
    | nil => cases (List.cons.inj h).1
    | cons x U =>
      obtain ⟨rfl, hrest⟩ := List.cons.inj h
      rcases ih hrest with ⟨rfl, hr, hV⟩ | ⟨U', rfl, hZ⟩
      · exact Or.inl ⟨rfl, hr, hV⟩
      · exact Or.inr ⟨U', rfl, hZ⟩

theorem not_marks_eq_append_run {s r : Text} {U V : List Piece} : marks s ≠ U ++ .run r :: V :=
  fun h => run_not_mem_marks r s (h ▸ by simp)

theorem framed_framed (m : Char) (n s : Text) : Framed m n s (framed m n s) where
  start := ⟨_, rfl⟩
  run U r V h := by
    rcases marks_append_run (s := [m]) h with ⟨rfl, hr, rfl⟩ | ⟨U', -, hmarks⟩
    · exact ⟨hr, ⟨[], rfl⟩, List.prefix_rfl⟩
    · exact absurd hmarks not_marks_eq_append_run

theorem framed_framedTwice {m : Char} {n s : Text} (hs : [m] <:+ s) :
    Framed m n s (framedTwice m n s) where
  start := ⟨_, rfl⟩
  run U r V h := by
    rcases marks_append_run (s := [m]) h with ⟨rfl, hr, rfl⟩ | ⟨U', rfl, hrest⟩
    · exact ⟨hr, ⟨[], rfl⟩, List.prefix_append _ _⟩
    · rcases marks_append_run hrest with ⟨rfl, hr, rfl⟩ | ⟨U'', -, hmarks⟩
      · obtain ⟨t, rfl⟩ := hs
        exact ⟨hr, ⟨.mark m :: .run n :: marks t, by simp [marks]⟩, List.prefix_rfl⟩
      · exact absurd hmarks not_marks_eq_append_run

section

variable {m : Char} {n s : Text} {Y : List Piece}

theorem Framed.straddle (h : Framed m n s Y) {A' Y' V C : List Piece} {x : Text} (hY : Y = A' ++ Y')
    (hne : Y' ≠ []) (hx : .run x :: C = Y' ++ V) :
    x = n ∧ (∃ A'', A' = A'' ++ [.mark m]) ∧ marks s <+: C := by
  cases Y' with
  | nil => exact absurd rfl hne
  | cons y Y' =>
    obtain ⟨rfl, rfl⟩ := List.cons.inj hx
    obtain ⟨hr, hbefore, hbehind⟩ := h.run A' x Y' hY
    exact ⟨hr, hbefore, hbehind.trans (List.prefix_append _ _)⟩

theorem Framed.starts (h : Framed m n s Y) {V C : List Piece} {c : Char} {x : Piece}
    (hc : .mark c :: x :: C = Y ++ V) : c = m ∧ x = .run n ∧ marks s <+: C := by
  obtain ⟨Z, rfl⟩ := h.start
  obtain ⟨hm, hrest⟩ := List.cons.inj hc
  obtain ⟨rfl, rfl⟩ := List.cons.inj hrest
  obtain ⟨-, -, hbehind⟩ := h.run [.mark m] n Z rfl
  exact ⟨Piece.mark.inj hm, rfl, hbehind.trans (List.prefix_append _ _)⟩

theorem Framed.startsIn_run (h : Framed m n s Y) {U V A W B : List Piece} {x : Text}
    (hstarts : StartsIn U Y V A (.run x :: W) B) : StartsIn U Y V (A ++ [.run x]) W B := by
  obtain ⟨Z, rfl⟩ := h.start
  rcases hstarts.cons with ⟨-, hx⟩ | hstarts
  · cases (List.cons.inj hx).1
  · exact hstarts

end

/-- A frame of a name of the library. -/
structure Watched (symbols : List Symbols) (τ : Symbols) (m : Char) (n s : Text) : Prop where
  mem : τ ∈ symbols
  library : τ.isLibrary = true
  name : n ∈ τ.names
  before : [m] ∈ Frame.before
  behind : s ∈ τ.behind

section

variable {ns : Namespace} {symbols : List Symbols} {σ τ : Symbols} {m : Char} {n s : Text}
  {r : Rename} {A W W' B U Y V : List Piece}

theorem Watched.ne_colon (h : Watched symbols τ m n s) : m ≠ ':' := by
  obtain ⟨c, hc, -, hne⟩ := Frame.exists_mark h.before
  rwa [(List.cons.inj hc).1]

theorem Watched.backslash (hsymbols : Symbols.Distinct symbols) (h : Watched symbols τ m n s) :
    '\\' ∉ n :=
  backslash_not_mem (hsymbols.identifier τ h.mem n h.name)

theorem Watched.classLike_of_blank (h : Watched symbols τ m n s) {x : Text} {Z : List Piece}
    (hblank : marks s <+: .mark ' ' :: .run x :: Z) : τ = .classLike n := by
  obtain ⟨-, hlibrary, hn, -, hs⟩ := h
  cases τ with
  | globals names => cases hlibrary
  | classLike n' => rw [List.mem_singleton.1 hn]
  | functions container names => exact absurd hblank (Symbols.behindFunction_blank hs)

theorem Watched.ne_declaring (hplain : Symbols.Plain symbols) (h : Watched symbols τ m n s) {w : Text}
    {x : Text} {Z : List Piece} (hblank : marks s <+: .mark ' ' :: .run x :: Z) :
    n ≠ w ++ "function".toList ∧ n ≠ w ++ "static".toList := by
  have hτ := h.classLike_of_blank hblank
  have hmem := h.mem
  rw [hτ] at hmem
  exact ⟨fun hn => hplain.function n hmem ⟨w, hn.symm⟩, fun hn => hplain.static n hmem ⟨w, hn.symm⟩⟩

theorem backslash_mem_qualifyContainer (ns : Namespace) (c : Text) : '\\' ∈ ns.qualifyContainer c := by
  simp [Namespace.qualifyContainer]

theorem backslash_mem_qualifyClass (ns : Namespace) (n : Text) : '\\' ∈ ns.qualifyClass n := by
  simp [Namespace.qualifyClass]

theorem eq_of_append_singleton_eq {A A' U : List Piece} {x y : Piece} (h : A ++ [x] = U ++ A')
    (hA' : ∃ A'', A' = A'' ++ [y]) : x = y := by
  obtain ⟨A'', rfl⟩ := hA'
  have := congrArg List.getLast? h
  simpa using this

theorem Window.outside (hw : Window ns σ r A W W' B) (hsymbols : Symbols.Distinct symbols)
    (hplain : Symbols.Plain symbols) (hσ : σ ∈ symbols) (hτ : Watched symbols τ m n s)
    (hY : Framed m n s Y) (hne : r.1 ≠ m :: n ++ s) (h : A ++ W ++ B = U ++ Y ++ V) :
    (∃ V', A = U ++ Y ++ V') ∨ ∃ U', U = A ++ W ++ U' ∧ B = U' ++ Y ++ V := by
  have hback := hτ.backslash hsymbols
  rcases exists_overlap h with h | h | ⟨A', Y', hA, hYA, hne', hB⟩ | hstarts
  · exact Or.inl h
  · exact Or.inr h
  · exfalso
    cases hw with
    | @name _ n' q s' z m' A B hclasses hn' hq hs' =>
      obtain ⟨rfl, hbefore, hbehind⟩ := hY.straddle hYA hne' hB
      obtain rfl := Piece.mark.inj (eq_of_append_singleton_eq hA hbefore)
      obtain rfl := hsymbols.eq_of_mem_names hσ hτ.mem hn' hτ.name
      have hs : s' ∈ σ.behind := by
        cases σ with
        | globals names => exact hs'
        | classLike n' => exact hs'
        | functions container names => exact absurd hclasses id
      rw [σ.eq_of_marks_prefix hs hτ.behind (List.prefix_append _ _) hbehind] at hne
      exact hne rfl
    | @method container names n' s' m' A B hn' hs' =>
      obtain ⟨rfl, hbefore, hbehind⟩ := hY.straddle hYA hne' hB
      obtain rfl := Piece.mark.inj (eq_of_append_singleton_eq hA hbefore)
      obtain rfl := hsymbols.eq_of_mem_names hσ hτ.mem hn' hτ.name
      rw [Symbols.eq_of_marks_prefix _ hs' hτ.behind (List.prefix_append _ _) hbehind] at hne
      exact hne rfl
    | bare kind hs' =>
      obtain ⟨rfl, -⟩ := hY.straddle hYA hne' hB
      exact hback (backslash_mem_qualifyClass _ _)
    | static hn' hs' =>
      obtain ⟨heq, -, hbehind⟩ := hY.straddle hYA hne' hB
      exact (hτ.ne_declaring hplain hbehind).1 heq.symm
  · exfalso
    cases hw with
    | name hclasses hn' hq hs' => exact not_startsIn_nil (hY.startsIn_run hstarts)
    | method hn' hs' => exact not_startsIn_nil hstarts
    | bare kind hs' => exact not_startsIn_nil (hY.startsIn_run hstarts)
    | static hn' hs' =>
      rcases (hY.startsIn_run hstarts).cons with ⟨-, hB⟩ | hstarts
      · obtain ⟨-, hrun, -⟩ := hY.starts hB
        rw [← Piece.run.inj hrun] at hback
        exact hback (backslash_mem_qualifyContainer _ _)
      · rcases (hY.startsIn_run hstarts).cons with ⟨-, hB⟩ | hstarts
        · exact hτ.ne_colon (hY.starts hB).1.symm
        · rcases hstarts.cons with ⟨-, hB⟩ | hstarts
          · exact hτ.ne_colon (hY.starts hB).1.symm
          · exact not_startsIn_nil hstarts

def EndsIn (k : Text) (U : List Piece) : Prop :=
  ∃ U' w, U = U' ++ [.run w] ∧ k <:+ w

def Declares : Symbols → List Piece → Prop
  | .globals _, _ => False
  | .classLike _, U => ∃ kind : ClassKind, EndsIn kind.spelling U
  | .functions .., U =>
    ∃ U', U = U' ++ [.mark ' ', .run "function".toList] ∧ EndsIn "static".toList U'

/-- What is framed behind a replacement was framed before it on one side of the window, or the rename
made the name bare at its declaration. -/
theorem Window.outside_or_declared (hw : Window ns σ r A W W' B)
    (hsymbols : Symbols.Distinct symbols) (hplain : Symbols.Plain symbols) (hσ : σ ∈ symbols)
    (hτ : Watched symbols τ m n s) (hY : Framed m n s Y) (h : A ++ W' ++ B = U ++ Y ++ V) :
    (∃ V', A = U ++ Y ++ V') ∨ (∃ U', U = A ++ W' ++ U' ∧ B = U' ++ Y ++ V) ∨
    (m = ' ' ∧ (Y = framed m n s → Declares τ U) ∧ (τ = .classLike n →
      ∃ kind : ClassKind, r.1 = kind.spelling ++ ' ' :: ns.qualifyClass n ++ s)) := by
  have hback := hτ.backslash hsymbols
  rcases exists_overlap h with h | h | ⟨A', Y', hA, hYA, hne', hB⟩ | hstarts
  · exact Or.inl h
  · exact Or.inr (Or.inl h)
  · right; right
    cases hw with
    | name hclasses hn' hq hs' =>
      obtain ⟨rfl, -⟩ := hY.straddle hYA hne' hB
      exact absurd (hq ▸ by simp) hback
    | method hn' hs' =>
      obtain ⟨rfl, -⟩ := hY.straddle hYA hne' hB
      exact absurd (backslash_mem_qualifyContainer _ _) hback
    | @bare n' s' w kind A B hs' =>
      obtain ⟨rfl, hbefore, hbehind⟩ := hY.straddle hYA hne' hB
      have hlast : A ++ [.run (w ++ kind.spelling), .mark ' '] =
          (A ++ [.run (w ++ kind.spelling)]) ++ [.mark ' '] := by simp
      rw [hlast] at hA
      obtain rfl := Piece.mark.inj (eq_of_append_singleton_eq hA hbefore)
      obtain rfl := hsymbols.eq_of_mem_names hσ hτ.mem (List.mem_singleton.2 rfl) hτ.name
      refine ⟨rfl, fun hsingle => ?_, fun _ => ⟨kind, ?_⟩⟩
      · -- Only the mark is left of the window, since the name in the frame is the run in it.
        cases Y' with
        | nil => exact absurd rfl hne'
        | cons y Y' =>
          obtain ⟨rfl, -⟩ := List.cons.inj hB
          rw [hsingle] at hYA
          rcases marks_append_run (s := [' ']) hYA with ⟨rfl, -⟩ | ⟨U', -, hmarks⟩
          · exact ⟨kind, A, w ++ kind.spelling, (List.append_cancel_right hA).symm, ⟨w, rfl⟩⟩
          · exact absurd hmarks not_marks_eq_append_run
      · rw [Symbols.eq_of_marks_prefix _ hτ.behind hs' hbehind (List.prefix_append _ _)]
    | static hn' hs' =>
      obtain ⟨heq, -, hbehind⟩ := hY.straddle hYA hne' hB
      exact absurd heq.symm (hτ.ne_declaring hplain hbehind).2
  · right; right
    cases hw with
    | name hclasses hn' hq hs' => exact absurd (hY.startsIn_run hstarts) not_startsIn_nil
    | bare kind hs' => exact absurd (hY.startsIn_run hstarts) not_startsIn_nil
    | method hn' hs' =>
      rcases (hY.startsIn_run hstarts).cons with ⟨-, hB⟩ | hstarts
      · exact absurd (hY.starts hB).1.symm hτ.ne_colon
      · rcases hstarts.cons with ⟨-, hB⟩ | hstarts
        · exact absurd (hY.starts hB).1.symm hτ.ne_colon
        · exact absurd hstarts not_startsIn_nil
    | @static container names n' s' w A B hn' hs' =>
      rcases (hY.startsIn_run hstarts).cons with ⟨-, hB⟩ | hstarts
      · obtain ⟨-, hrun, hbehind⟩ := hY.starts hB
        exact absurd (Piece.run.inj hrun).symm (hτ.ne_declaring (w := []) hplain hbehind).1
      · rcases (hY.startsIn_run hstarts).cons with ⟨hU, hB⟩ | hstarts
        · obtain ⟨hm, hrun, hbehind⟩ := hY.starts hB
          obtain rfl := Piece.run.inj hrun
          obtain rfl := hsymbols.eq_of_mem_names hσ hτ.mem hn' hτ.name
          refine ⟨hm.symm, fun _ => ⟨_, ?_, A, w ++ "static".toList, rfl, ⟨w, rfl⟩⟩, fun hcontra => ?_⟩
          · rw [hU]
            simp only [List.append_assoc, List.cons_append, List.nil_append]
          · cases hcontra
        · exact absurd hstarts not_startsIn_nil

theorem endsIn_append {k : Text} (L : List Piece) (hU : U ≠ []) :
    EndsIn k (L ++ U) ↔ EndsIn k U := by
  constructor
  · rintro ⟨U', w, h, hk⟩
    obtain ⟨x, U, rfl⟩ : ∃ x U₀, U = U₀ ++ [x] := by
      rcases List.eq_nil_or_concat U with h | ⟨U₀, x, h⟩
      · exact absurd h hU
      · exact ⟨x, U₀, by simpa using h⟩
    rw [← List.append_assoc] at h
    obtain ⟨-, hx⟩ := List.append_inj' h rfl
    exact ⟨U, w, by rw [hx], hk⟩
  · rintro ⟨U', w, rfl, hk⟩
    exact ⟨L ++ U', w, by simp, hk⟩

theorem endsIn_run {k x : Text} : EndsIn k (A ++ [.run x]) ↔ k <:+ x := by
  constructor
  · rintro ⟨U', w, h, hk⟩
    obtain ⟨-, hx⟩ := List.append_inj' h rfl
    rwa [Piece.run.inj (List.cons.inj hx).1]
  · exact fun h => ⟨A, x, rfl, h⟩

theorem suffix_qualified_iff {k z n : Text} (hk : '\\' ∉ k) : k <:+ z ++ '\\' :: n ↔ k <:+ n :=
  ⟨suffix_of_not_mem hk, fun h => h.trans ⟨z ++ ['\\'], by simp⟩⟩

theorem Window.endsIn_iff (hw : Window ns σ r A W W' B) {k : Text} (hk : '\\' ∉ k) {c : Char}
    {Z : List Piece} (hB : B = U ++ .mark c :: Z) :
    EndsIn k (A ++ W ++ U) ↔ EndsIn k (A ++ W' ++ U) := by
  by_cases hU : U = []
  · subst hU
    rw [List.append_nil, List.append_nil]
    cases hw with
    | name hclasses hn hq hs => rw [endsIn_run, endsIn_run, hq, suffix_qualified_iff hk]
    | method hn hs => cases (List.cons.inj hB).1
    | @bare n =>
      rw [endsIn_run, endsIn_run]
      exact suffix_qualified_iff (z := '\\' :: ns.root) hk
    | static hn hs => cases (List.cons.inj hB).1
  · rw [endsIn_append _ hU, endsIn_append _ hU]

theorem Window.declares_class_iff (hw : Window ns σ r A W W' B) {c : Char} {Z : List Piece}
    (hB : B = U ++ .mark c :: Z) :
    Declares (.classLike n) (A ++ W ++ U) ↔ Declares (.classLike n) (A ++ W' ++ U) :=
  exists_congr fun kind => hw.endsIn_iff kind.backslash_not_mem_spelling hB

theorem Window.declares_function (hw : Window ns σ r A W W' B) (hplain : Symbols.Plain symbols)
    (hσ : σ ∈ symbols) {c : Text} {names : List Text} {x : Text} {Z : List Piece}
    (hB : B = U ++ .mark ' ' :: .run x :: Z) (h : Declares (.functions c names) (A ++ W ++ U)) :
    Declares (.functions c names) (A ++ W' ++ U) := by
  obtain ⟨U', hU', hstatic⟩ := h
  rcases List.eq_nil_or_concat U with rfl | ⟨U₁, y, hU⟩
  · -- The word itself would have to be the name that is changed.
    exfalso
    have hlast : ∀ {C : List Piece} {y : Text}, C ++ [.run y] =
        U' ++ [.mark ' ', .run "function".toList] → y = "function".toList := by
      intro C y h
      have := congrArg List.getLast? h
      simpa using this
    rw [List.append_nil] at hU'
    cases hw with
    | @name _ n' q s' z m' A B hclasses hn hq hs =>
      obtain rfl := hlast hU'
      cases σ with
      | globals names => exact hplain.global names hσ hn
      | classLike n' =>
        rw [← List.mem_singleton.1 hn] at hσ
        exact hplain.function _ hσ List.suffix_rfl
      | functions c names => exact hclasses
    | method hn hs => cases (List.cons.inj hB).1
    | @bare n' =>
      have := backslash_mem_qualifyClass ns n'
      rw [hlast hU'] at this
      revert this
      decide
    | static hn hs => cases (List.cons.inj hB).1
  · rw [List.concat_eq_append] at hU
    subst hU
    rcases List.eq_nil_or_concat U₁ with rfl | ⟨U₂, z, hU⟩
    · -- The name behind the window would have to be the word, and it has other marks behind it.
      exfalso
      have hmark : ∀ {C : List Piece} {x : Text}, C ++ [.run x] ++ ([] ++ [y]) ≠
          U' ++ [.mark ' ', .run "function".toList] := by
        intro C x h
        have : C ++ [.run x, y] = U' ++ [.mark ' ', .run "function".toList] := by simpa using h
        cases (List.append_inj' this rfl).2
      cases hw with
      | name hclasses hn hq hs => exact hmark hU'
      | bare kind hs => exact hmark hU'
      | method hn hs =>
        have hbehind := (List.cons.inj hB).2
        exact Symbols.behindFunction_blank hs ⟨_, hbehind⟩
      | static hn hs =>
        have hbehind := (List.cons.inj hB).2
        exact Symbols.behindFunction_blank hs ⟨_, hbehind⟩
    · rw [List.concat_eq_append] at hU
      subst hU
      have hsplit : A ++ W ++ U₂ ++ [z, y] = U' ++ [.mark ' ', .run "function".toList] := by
        simpa using hU'
      obtain ⟨rfl, hzy⟩ := List.append_inj' hsplit rfl
      obtain ⟨rfl, hy⟩ := List.cons.inj hzy
      obtain rfl := (List.cons.inj hy).1
      have hback : '\\' ∉ "static".toList := by decide
      refine ⟨A ++ W' ++ U₂, by simp only [List.append_assoc, List.cons_append, List.nil_append], ?_⟩
      exact (hw.endsIn_iff hback (by rw [hB, List.append_assoc, List.append_assoc]; rfl)).1 hstatic

end

end Namespacing
