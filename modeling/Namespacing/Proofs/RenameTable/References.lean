import Namespacing.Proofs.RenameTable.Windows
set_option autoImplicit false

/-!
# Which references a table leaves behind

Every framed name of the library is the literal of a rename, and yet one can be left: the mark between
two of them belongs to both, and a text is gone through once and without overlap. In a text without
such neighbours nothing is left but declarations.
-/

namespace Namespacing

open Text

namespace Symbols

/-- A framed name of the library stands in the text only where it is declared. -/
def Complete (symbols : List Symbols) (text : Text) : Prop :=
  ∀ σ ∈ symbols, σ.isLibrary = true → ∀ n ∈ σ.names, ∀ p ∈ Frame.before, ∀ s ∈ σ.behind, ∀ a b,
    text = a ++ (p ++ n ++ s) ++ b → p = [' '] ∧ ∃ head ∈ σ.heads, head <:+ a

/-- A name of the library stands twice in one frame, and the two share a mark. A name that itself ends
in the keyword of a declaration, with a blank behind it, does not count. -/
def Chained (symbols : List Symbols) (text : Text) : Prop :=
  ∃ σ ∈ symbols, σ.isLibrary = true ∧ ∃ n ∈ σ.names, ∃ p ∈ Frame.before, ∃ s ∈ σ.behind,
    p <:+ s ∧ ¬ (p = [' '] ∧ ∃ head ∈ σ.heads, head <:+ n) ∧ p ++ n ++ s ++ n ++ s <:+: text

end Symbols

theorem declares_cut_iff {τ : Symbols} {a : Text} :
    Declares τ (cut a) ↔ ∃ head ∈ τ.heads, head <:+ a := by
  have hends : ∀ {k : Text}, IsRun k → ∀ {b : Text}, k <:+ b → EndsIn k (cut b) := by
    rintro k hk b ⟨b, rfl⟩
    obtain ⟨A, w, -, -, hA⟩ := exists_cut_append_run b
    exact ⟨A, w ++ k, hA k hk, ⟨w, rfl⟩⟩
  have hsuffix : ∀ {k : Text} {U : List Piece}, EndsIn k U → k <:+ glue U := by
    rintro k U ⟨U', w, rfl, hk⟩
    exact hk.trans ⟨glue U', by simp⟩
  have hfunction : IsRun "function".toList := by decide
  have hstatic : IsRun "static".toList := by decide
  have hblank : isRunChar ' ' = false := by decide
  cases τ with
  | globals names => simp [Declares, Symbols.heads]
  | classLike n =>
    simp only [Declares, Symbols.heads, List.mem_map]
    constructor
    · rintro ⟨kind, h⟩
      have := hsuffix h
      rw [glue_cut] at this
      exact ⟨_, ⟨kind, Symbols.mem_all kind, rfl⟩, this⟩
    · rintro ⟨_, ⟨kind, -, rfl⟩, h⟩
      exact ⟨kind, hends kind.isRun_spelling h⟩
  | functions container names =>
    have hword : "static function".toList = "static".toList ++ ' ' :: "function".toList := rfl
    simp only [Declares, Symbols.heads, List.mem_singleton, exists_eq_left, hword]
    constructor
    · rintro ⟨U', h, hU'⟩
      obtain ⟨t, ht⟩ := hsuffix hU'
      have hglue := congrArg glue h
      rw [glue_cut, glue_append, ← ht] at hglue
      exact ⟨t, by rw [hglue, List.append_assoc]; rfl⟩
    · rintro ⟨t, rfl⟩
      refine ⟨cut (t ++ "static".toList), ?_, hends hstatic ⟨t, rfl⟩⟩
      rw [← List.append_assoc, cut_append_mark _ hblank, cut_run hfunction]

section

variable {ns : Namespace} {symbols : List Symbols} {σ τ : Symbols} {m : Char} {n s : Text}

theorem Watched.isRunChar_eq (h : Watched symbols τ m n s) : isRunChar m = false := by
  obtain ⟨c, hc, hrun, -⟩ := Frame.exists_mark h.before
  rwa [(List.cons.inj hc).1]

theorem Watched.cut_framed (hsymbols : Symbols.Distinct symbols) (h : Watched symbols τ m n s)
    (a b : Text) : cut (a ++ (m :: n ++ s) ++ b) = cut a ++ framed m n s ++ cut b := by
  have hmarks := τ.behind_marks h.behind
  have := Text.cut_framed a h.isRunChar_eq (hsymbols.isRun h.mem h.name) hmarks.2 hmarks.1 b
  simpa [framed] using this

theorem exists_of_cut_framed {text : Text} {U V : List Piece}
    (h : cut text = U ++ framed m n s ++ V) :
    ∃ a b, text = a ++ (m :: n ++ s) ++ b ∧ cut a = U := by
  rw [List.append_assoc] at h
  obtain ⟨a, b, rfl, ha, hb⟩ := exists_of_cut_eq_mark h
  have hglue := congrArg glue hb
  rw [glue_cut] at hglue
  exact ⟨a, glue V, by simp [hglue], ha⟩

theorem Watched.twice_infix_iff (hsymbols : Symbols.Distinct symbols) (h : Watched symbols τ m n s)
    {text : Text} : m :: n ++ s ++ n ++ s <:+: text ↔ framedTwice m n s <:+: cut text := by
  have hmarks := τ.behind_marks h.behind
  have hrun := hsymbols.isRun h.mem h.name
  constructor
  · rintro ⟨a, b, rfl⟩
    refine ⟨cut a, cut b, ?_⟩
    have hfirst := Text.cut_framed a h.isRunChar_eq hrun hmarks.2 hmarks.1 (n ++ s ++ b)
    rw [cut_run_marks hrun hmarks.2 hmarks.1] at hfirst
    simpa [framedTwice] using hfirst.symm
  · rintro ⟨U, V, hUV⟩
    have hglue := congrArg glue hUV
    rw [glue_cut] at hglue
    exact ⟨glue U, glue V, by rw [← hglue]; simp [framedTwice]⟩

def AllDeclared (τ : Symbols) (m : Char) (n s text : Text) : Prop :=
  ∀ U V, cut text = U ++ framed m n s ++ V → m = ' ' ∧ Declares τ U

theorem infix_of_outside {A W B U Y V : List Piece} (W' : List Piece)
    (h : (∃ V', A = U ++ Y ++ V') ∨ ∃ U', U = A ++ W ++ U' ∧ B = U' ++ Y ++ V) :
    Y <:+: A ++ W' ++ B := by
  rcases h with ⟨V', rfl⟩ | ⟨U', -, rfl⟩
  · exact ⟨U, V' ++ W' ++ B, by simp⟩
  · exact ⟨A ++ W' ++ U', V, by simp⟩

/-- What qualifies a framed name keeps away from other frames, and what makes it bare comes later. -/
structure Elsewhere (ns : Namespace) (τ : Symbols) (m : Char) (n s : Text) (r : Rename) : Prop where
  literal : r.1 ≠ m :: n ++ s
  declaration : m = ' ' → τ = .classLike n →
    ∀ kind : ClassKind, r.1 ≠ kind.spelling ++ ' ' :: ns.qualifyClass n ++ s

section

variable {r : Rename} (hns : ns.Accepted) (hsymbols : Symbols.Distinct symbols)
  (hplain : Symbols.Plain symbols) (hσ : σ ∈ symbols) (hrule : Symbols.Rule ns σ r)
  (hτ : Watched symbols τ m n s) (a b : Text)

include hns hsymbols hplain hσ hrule hτ

theorem twice_infix_step (hs : [m] <:+ s) (hr : Elsewhere ns τ m n s r) :
    framedTwice m n s <:+: cut (a ++ r.1 ++ b) ↔ framedTwice m n s <:+: cut (a ++ r.2 ++ b) := by
  obtain ⟨A, W, W', B, hw, hold, hnew⟩ := hrule.exists_window hns hsymbols hσ a b
  have hY := framed_framedTwice (n := n) hs
  rw [hold, hnew]
  constructor
  · rintro ⟨U, V, h⟩
    exact infix_of_outside W' (hw.outside hsymbols hplain hσ hτ hY hr.literal h.symm)
  · rintro ⟨U, V, h⟩
    rcases hw.outside_or_declared hsymbols hplain hσ hτ hY h.symm with h | h | ⟨rfl, -, hdecl⟩
    · exact infix_of_outside (W := W') (V := V) W (Or.inl h)
    · exact infix_of_outside W (Or.inr h)
    · exfalso
      obtain ⟨-, hlibrary, hn, -, hbehind⟩ := hτ
      cases τ with
      | globals names => cases hlibrary
      | classLike n' =>
        obtain rfl := List.mem_singleton.1 hn
        obtain ⟨kind, hkind⟩ := hdecl rfl
        exact hr.declaration rfl rfl kind hkind
      | functions container names =>
        have hnone : ∀ t ∈ Frame.behindFunction, ¬ [' '] <:+ t := by decide
        exact hnone s hbehind hs

theorem AllDeclared.step (h : AllDeclared τ m n s (a ++ r.1 ++ b)) :
    AllDeclared τ m n s (a ++ r.2 ++ b) := by
  obtain ⟨A, W, W', B, hw, hold, hnew⟩ := hrule.exists_window hns hsymbols hσ a b
  intro U V hcut
  rw [hnew] at hcut
  rcases hw.outside_or_declared hsymbols hplain hσ hτ (framed_framed m n s) hcut with
    ⟨V', rfl⟩ | ⟨U', rfl, rfl⟩ | ⟨hm, hdecl, -⟩
  · exact h U (V' ++ W ++ B) (by rw [hold]; simp)
  · obtain ⟨rfl, hdecl⟩ := h (A ++ W ++ U') V (by rw [hold]; simp)
    refine ⟨rfl, ?_⟩
    have hB : U' ++ framed ' ' n s ++ V = U' ++ .mark ' ' :: .run n :: (marks s ++ V) := by
      simp [framed]
    cases τ with
    | globals names => exact hdecl
    | classLike n' => exact (hw.declares_class_iff hB).1 hdecl
    | functions container names => exact hw.declares_function hplain hσ hB hdecl
  · exact ⟨hm, hdecl rfl⟩

theorem AllDeclared.of_step (hne : r.1 ≠ m :: n ++ s) (hclass : m = ' ' → τ = .classLike n)
    (h : AllDeclared τ m n s (a ++ r.2 ++ b)) : AllDeclared τ m n s (a ++ r.1 ++ b) := by
  obtain ⟨A, W, W', B, hw, hold, hnew⟩ := hrule.exists_window hns hsymbols hσ a b
  intro U V hcut
  rw [hold] at hcut
  rcases hw.outside hsymbols hplain hσ hτ (framed_framed m n s) hne hcut with
    ⟨V', rfl⟩ | ⟨U', rfl, rfl⟩
  · exact h U (V' ++ W' ++ B) (by rw [hnew]; simp)
  · obtain ⟨rfl, hdecl⟩ := h (A ++ W' ++ U') V (by rw [hnew]; simp)
    refine ⟨rfl, ?_⟩
    have hB : U' ++ framed ' ' n s ++ V = U' ++ .mark ' ' :: .run n :: (marks s ++ V) := by
      simp [framed]
    rw [hclass rfl] at hdecl ⊢
    exact (hw.declares_class_iff hB).2 hdecl

end

theorem Watched.exists_gives (hns : ns.Accepted) (hsymbols : Symbols.Distinct symbols)
    (h : Watched symbols τ m n s) :
    ∃ q, Symbols.Gives ns τ n ('\\' :: q) τ.behind ∧ m ∉ '\\' :: q ∧
      (τ = .classLike n → ∃ z, '\\' :: q = z ++ '\\' :: n) := by
  have hm := h.isRunChar_eq
  have hnot : ∀ {r : Text}, IsRun r → m ∉ r := by
    intro r hr hmem
    rw [hr.2 m hmem] at hm
    cases hm
  have hcolon := h.ne_colon
  obtain ⟨hmem, hlibrary, hn, -, -⟩ := h
  have hid := hsymbols.identifier τ hmem n hn
  cases τ with
  | globals names => cases hlibrary
  | classLike n' =>
    obtain rfl := List.mem_singleton.1 hn
    exact ⟨_, .classLike, hnot (Namespace.isRun_qualifyClass hns.root hid), fun _ =>
      ⟨'\\' :: ns.root, rfl⟩⟩
  | functions container names =>
    have hcontainer := hnot (Namespace.isRun_qualifyContainer hns (hsymbols.container _ _ hmem))
    refine ⟨_, .function hn, ?_, fun hcontra => by cases hcontra⟩
    change m ∉ ns.qualifyFunction container n
    rw [ns.qualifyFunction_eq]
    simp [hcontainer, hcolon, hnot (isRun_of_isIdentifier hid)]

theorem Watched.last_not_mem (h : Watched symbols τ m n s) {s' : Text} (hs : s = s' ++ [m]) :
    m ∉ s' := by
  have hclass : ∀ t ∈ Frame.behindClass,
      t.dropLast.all (fun c => t.getLast? != some c || c == ':') = true := by decide
  have hfunction : ∀ t ∈ Frame.behindFunction,
      t.dropLast.all (fun c => t.getLast? != some c || c == ':') = true := by decide
  have hcolon : s.dropLast.all (fun c => s.getLast? != some c || c == ':') = true := by
    have hbehind := h.behind
    cases τ with
    | globals names => exact hclass s hbehind
    | classLike n' => exact hclass s hbehind
    | functions container names => exact hfunction s hbehind
  intro hm
  have hlast := List.all_eq_true.1 hcolon m (by simp [hs, hm])
  exact h.ne_colon (by simpa [hs] using hlast)

theorem Watched.classLike_of_last_blank (h : Watched symbols τ ' ' n s) {s' : Text}
    (hs : s = s' ++ [' ']) : τ = .classLike n ∧ s' = [] := by
  have hclass : ∀ t ∈ Frame.behindClass, t.getLast? = some ' ' → t = [' '] := by decide
  have hfunction : ∀ t ∈ Frame.behindFunction, t.getLast? ≠ some ' ' := by decide
  obtain ⟨-, hlibrary, hn, -, hbehind⟩ := h
  cases τ with
  | globals names => cases hlibrary
  | classLike n' =>
    have := hclass s hbehind (by simp [hs])
    rw [hs] at this
    exact ⟨by rw [List.mem_singleton.1 hn], by simpa using this⟩
  | functions container names => exact absurd (by simp [hs]) (hfunction s hbehind)

/-- The rename of a frame leaves only declarations, unless there are neighbours that share a mark. -/
theorem Watched.allDeclared_replaceAll_iff (hsymbols : Symbols.Distinct symbols)
    (h : Watched symbols τ m n s) {q t : Text} (hq : m ∉ '\\' :: q)
    (hclass : τ = .classLike n → ∃ z, '\\' :: q = z ++ '\\' :: n) :
    AllDeclared τ m n s (replaceAll (m :: n ++ s) (m :: '\\' :: q ++ s) t) ↔
      ¬ ([m] <:+ s ∧ ¬ (m = ' ' ∧ ∃ head ∈ τ.heads, head <:+ n) ∧
        m :: n ++ s ++ n ++ s <:+: t) := by
  have hid := hsymbols.identifier τ h.mem n h.name
  have hrun := isRun_of_isIdentifier hid
  have hmarks := τ.behind_marks h.behind
  have hback : '\\' ∉ n ++ s := by
    intro hmem
    rcases List.mem_append.1 hmem with hmem | hmem
    · exact backslash_not_mem hid hmem
    · have := hmarks.2 _ hmem
      revert this
      decide
  have hapart : ∀ c ∈ n, c ∉ s := by
    intro c hcn hcs
    have := hmarks.2 c hcs
    rw [hrun.2 c hcn] at this
    cases this
  have hmn : m ∉ n := by
    intro hmem
    have := hrun.2 m hmem
    rw [h.isRunChar_eq] at this
    cases this
  constructor
  · rintro hall ⟨⟨s', rfl⟩, hplain, htwice⟩
    obtain ⟨a, b, hab⟩ := exists_left_of_twice (q := '\\' :: q) hmn (h.last_not_mem rfl) htwice
    obtain ⟨rfl, hdecl⟩ := hall _ _ (by rw [hab]; exact h.cut_framed hsymbols _ _)
    obtain ⟨hτ, rfl⟩ := h.classLike_of_last_blank rfl
    obtain ⟨z, hz⟩ := hclass hτ
    obtain ⟨head, hhead, hsuffix⟩ := declares_cut_iff.1 hdecl
    have hword : '\\' ∉ head := by
      rw [hτ] at hhead
      obtain ⟨kind, -, rfl⟩ := List.mem_map.1 hhead
      exact kind.backslash_not_mem_spelling
    refine hplain ⟨rfl, head, hhead, suffix_of_not_mem (z := a ++ ' ' :: z) hword ?_⟩
    simpa [hz] using hsuffix
  · intro hnot U V hcut
    obtain ⟨a, b, hab, rfl⟩ := exists_of_cut_framed hcut
    obtain ⟨s', rfl, htwice, hsuffix⟩ := twice_of_left hrun.1 hback hapart hq hab
    by_contra hdecl
    refine hnot ⟨⟨s', rfl⟩, ?_, htwice⟩
    rintro ⟨rfl, head, hhead, hn⟩
    refine hdecl ⟨rfl, declares_cut_iff.2 ⟨head, hhead, ?_⟩⟩
    obtain ⟨hτ, rfl⟩ := h.classLike_of_last_blank rfl
    obtain ⟨z, hz⟩ := hclass hτ
    refine (hn.trans ⟨' ' :: z ++ ['\\'], ?_⟩).trans hsuffix
    simp [hz]

theorem Watched.exists_split (hns : ns.Accepted) (hsymbols : Symbols.Distinct symbols)
    (h : Watched symbols τ m n s) {q : Text} (hgives : Symbols.Gives ns τ n q τ.behind) :
    ∃ earlier later, (RenameTable.ofSymbols ns symbols).toList =
        earlier ++ (m :: n ++ s, m :: q ++ s) :: later ∧
      (∀ r ∈ earlier, Elsewhere ns τ m n s r) ∧ ∀ r ∈ later, r.1 ≠ m :: n ++ s := by
  obtain ⟨P, Q, rfl⟩ := List.append_of_mem h.mem
  have hlast : ∀ υ ∈ Q, n ∉ υ.names := by
    intro υ hυ hn
    have hnodup := hsymbols.nodup
    rw [List.flatMap_append, List.flatMap_cons] at hnodup
    have hdisjoint := (List.nodup_append.1 (List.nodup_append.1 hnodup).2.1).2.2
    exact hdisjoint n h.name n (List.mem_flatMap.2 ⟨υ, hυ, hn⟩) rfl
  have hget := RenameTable.get?_ofSymbols_of_last hgives h.before h.behind hlast hsymbols.identifier
  rw [RenameTable.get?_eq_lookup, List.lookup_eq_some_iff] at hget
  obtain ⟨earlier, later, hsplit, hearlier⟩ := hget
  have hne : ∀ r ∈ earlier, r.1 ≠ m :: n ++ s := by
    intro r hr heq
    simpa [heq] using hearlier r hr
  refine ⟨earlier, later, hsplit, fun r hr => ⟨hne r hr, fun hm hτ kind heq => ?_⟩, fun r hr heq => ?_⟩
  · -- A name is made bare behind a keyword after it has been qualified there.
    subst hm hτ
    have hid := hsymbols.identifier _ h.mem n h.name
    obtain ⟨E, E', rfl⟩ := List.append_of_mem hr
    have hmem := precedes_restoreClass hns.root hsymbols.identifier hid h.behind kind
      (E.map Prod.fst) (E'.map Prod.fst ++ (' ' :: n ++ s) :: later.map Prod.fst)
      (by simp [RenameTable.literals, hsplit, heq])
    obtain ⟨x, hx, hkey⟩ := List.mem_map.1 hmem
    exact hne x (List.mem_append_left _ hx) hkey
  · have hnodup := (RenameTable.ofSymbols ns (P ++ τ :: Q)).nodup_literals
    rw [RenameTable.literals, hsplit, List.map_append, List.map_cons] at hnodup
    have hnot := (List.nodup_cons.1 (List.nodup_append.1 hnodup).2.1).1
    exact hnot (List.mem_map.2 ⟨r, hr, heq⟩)

end

theorem RenameTable.foldl_applyRename_induction {renames : List Rename}
    (hne : ∀ r ∈ renames, r.1 ≠ []) {motive : Text → Prop}
    (step : ∀ r ∈ renames, ∀ a b, motive (a ++ r.1 ++ b) → motive (a ++ r.2 ++ b)) {text : Text}
    (h : motive text) : motive (renames.foldl applyRename text) := by
  induction renames generalizing text with
  | nil => exact h
  | cons r renames ih =>
    rw [List.foldl_cons, applyRename_eq_replaceAll]
    refine ih (fun x hx => hne x (List.mem_cons_of_mem _ hx))
      (fun x hx => step x (List.mem_cons_of_mem _ hx)) ?_
    exact replaceAll_induction (hne r List.mem_cons_self) (step r List.mem_cons_self) h

theorem allDeclared_substitute_iff {ns : Namespace} (hns : ns.Accepted) {symbols : List Symbols}
    (hsymbols : Symbols.Distinct symbols) (hplain : Symbols.Plain symbols) {τ : Symbols} {m : Char}
    {n s : Text} (hτ : Watched symbols τ m n s) (text : Text) :
    AllDeclared τ m n s ((RenameTable.ofSymbols ns symbols).substitute text) ↔
      ¬ ([m] <:+ s ∧ ¬ (m = ' ' ∧ ∃ head ∈ τ.heads, head <:+ n) ∧
        m :: n ++ s ++ n ++ s <:+: text) := by
  obtain ⟨q, hgives, hq, hclass⟩ := hτ.exists_gives hns hsymbols
  obtain ⟨earlier, later, hsplit, hearlier, hlater⟩ := hτ.exists_split hns hsymbols hgives
  have hrules : ∀ r ∈ earlier ++ (m :: n ++ s, m :: '\\' :: q ++ s) :: later,
      ∃ σ ∈ symbols, Symbols.Rule ns σ r := by
    intro r hr
    rw [← hsplit] at hr
    exact RenameTable.exists_rule_of_mem hr
  have hne : ∀ r ∈ earlier ++ (m :: n ++ s, m :: '\\' :: q ++ s) :: later, r.1 ≠ [] :=
    fun r hr => (hrules r hr).elim fun σ hσ => ne_nil_of_rule hσ.2
  rw [RenameTable.substitute_eq_foldl, hsplit, List.foldl_append, List.foldl_cons,
    RenameTable.applyRename_eq_replaceAll]
  generalize hmid : earlier.foldl RenameTable.applyRename text = middle
  -- Before its turn nothing changes whether there are neighbours.
  have htwice : [m] <:+ s →
      (m :: n ++ s ++ n ++ s <:+: middle ↔ m :: n ++ s ++ n ++ s <:+: text) := by
    intro hs
    rw [← hmid, hτ.twice_infix_iff hsymbols, hτ.twice_infix_iff hsymbols]
    refine RenameTable.foldl_applyRename_induction
      (motive := fun t => framedTwice m n s <:+: cut t ↔ framedTwice m n s <:+: cut text)
      (fun r hr => hne r (by simp [hr])) (fun r hr a b h => ?_) Iff.rfl
    obtain ⟨σ, hσ, hrule⟩ := hrules r (by simp [hr])
    rw [← h]
    exact (twice_infix_step hns hsymbols hplain hσ hrule hτ a b hs (hearlier r hr)).symm
  have hturn := hτ.allDeclared_replaceAll_iff (t := middle) hsymbols hq hclass
  constructor
  · -- A name that is left at its turn stays.
    rintro hall ⟨hs, hex, hinfix⟩
    refine absurd hall ?_
    have hleft : ¬ AllDeclared τ m n s (replaceAll (m :: n ++ s) (m :: '\\' :: q ++ s) middle) := by
      rw [hturn, not_not]
      exact ⟨hs, hex, (htwice hs).2 hinfix⟩
    have hblank : m = ' ' → τ = .classLike n := by
      rintro rfl
      obtain ⟨s', rfl⟩ := hs
      exact (hτ.classLike_of_last_blank rfl).1
    refine RenameTable.foldl_applyRename_induction
      (motive := fun t => ¬ AllDeclared τ m n s t) (fun r hr => hne r (by simp [hr]))
      (fun r hr a b h hnew => h ?_) hleft
    obtain ⟨σ, hσ, hrule⟩ := hrules r (by simp [hr])
    exact hnew.of_step hns hsymbols hplain hσ hrule hτ a b (hlater r hr) hblank
  · intro hnot
    refine RenameTable.foldl_applyRename_induction
      (motive := AllDeclared τ m n s) (fun r hr => hne r (by simp [hr]))
      (fun r hr a b h => ?_) (hturn.2 ?_)
    · obtain ⟨σ, hσ, hrule⟩ := hrules r (by simp [hr])
      exact h.step hns hsymbols hplain hσ hrule hτ a b
    · rintro ⟨hs, hex, hinfix⟩
      exact hnot ⟨hs, hex, (htwice hs).1 hinfix⟩

/-- Substituting leaves no framed name of the library but at its declaration, exactly when no two
neighbours in the text share a mark. -/
theorem substitute_complete_iff (ns : Namespace) (hns : ns.Accepted) (symbols : List Symbols)
    (hsymbols : Symbols.Distinct symbols) (hplain : Symbols.Plain symbols) (text : Text) :
    Symbols.Complete symbols ((RenameTable.ofSymbols ns symbols).substitute text) ↔
      ¬ Symbols.Chained symbols text := by
  constructor
  · rintro hcomplete ⟨τ, hmem, hlibrary, n, hn, p, hp, s, hs, hps, hex, hinfix⟩
    obtain ⟨m, rfl, -⟩ := Frame.exists_mark hp
    have hτ : Watched symbols τ m n s := ⟨hmem, hlibrary, hn, hp, hs⟩
    refine (allDeclared_substitute_iff hns hsymbols hplain hτ text).1 ?_
      ⟨hps, fun h => hex ⟨by rw [h.1], h.2⟩, hinfix⟩
    intro U V hcut
    obtain ⟨a, b, hab, rfl⟩ := exists_of_cut_framed hcut
    obtain ⟨hm, hhead⟩ := hcomplete τ hmem hlibrary n hn [m] hp s hs a b hab
    exact ⟨(List.cons.inj hm).1, declares_cut_iff.2 hhead⟩
  · intro hnot τ hmem hlibrary n hn p hp s hs a b hab
    obtain ⟨m, rfl, -⟩ := Frame.exists_mark hp
    have hτ : Watched symbols τ m n s := ⟨hmem, hlibrary, hn, hp, hs⟩
    have hall := (allDeclared_substitute_iff hns hsymbols hplain hτ text).2 ?_
    · obtain ⟨rfl, hdecl⟩ := hall (cut a) (cut b) (by rw [hab]; exact hτ.cut_framed hsymbols a b)
      exact ⟨rfl, declares_cut_iff.1 hdecl⟩
    · rintro ⟨hps, hex, hinfix⟩
      exact hnot ⟨τ, hmem, hlibrary, n, hn, [m], hp, s, hs, hps,
        fun h => hex ⟨(List.cons.inj h.1).1, h.2⟩, hinfix⟩

/-- A library class, a class of the runtime and a function, in a text with a nested call. -/
theorem substitute_complete_iff_nested :
    let ns : Namespace := ⟨"Facebook\\Libphutil".toList, "Functions".toList⟩
    let symbols : List Symbols := [.globals ["Exception".toList], .classLike "Widget".toList,
      .functions "utils".toList ["idx".toList, "head".toList]]
    let text := " idx(head(idx(new Widget(x)), 'idx'), new Exception(head))".toList
    (ns.Accepted ∧ Symbols.Distinct symbols ∧ Symbols.Plain symbols) ∧
    (Symbols.Complete symbols ((RenameTable.ofSymbols ns symbols).substitute text) ↔
      ¬ Symbols.Chained symbols text) := by
  intro ns symbols text
  have hns : ns.Accepted := ⟨by decide, by decide⟩
  have hsymbols : Symbols.Distinct symbols := by
    refine ⟨by decide, fun c names h => ?_, by decide⟩
    simp only [symbols, List.mem_cons, reduceCtorEq, false_or, List.not_mem_nil, or_false,
      Symbols.functions.injEq] at h
    rw [h.1]
    decide
  have hplain : Symbols.Plain symbols := by
    refine ⟨fun n h => ?_, fun n h => ?_, fun names h => ?_⟩
    all_goals
      simp only [symbols, List.mem_cons, reduceCtorEq, false_or, List.not_mem_nil, or_false,
        Symbols.classLike.injEq, Symbols.globals.injEq] at h
      rw [h]
      decide
  exact ⟨⟨hns, hsymbols, hplain⟩, substitute_complete_iff ns hns symbols hsymbols hplain text⟩

/-- The innermost of three nested calls of a function is left bare. -/
theorem nested_call_not_complete :
    let ns : Namespace := ⟨"Facebook\\Libphutil".toList, "Functions".toList⟩
    let symbols : List Symbols := [.functions "u".toList ["f".toList]]
    (ns.Accepted ∧ Symbols.Distinct symbols) ∧
    ¬ Symbols.Complete symbols
      ((RenameTable.ofSymbols ns symbols).substitute " f(f(f(x)))".toList) := by
  intro ns symbols
  have hsymbols : Symbols.Distinct symbols := by
    refine ⟨by decide, fun c names h => ?_, by decide⟩
    simp only [symbols, List.mem_singleton, Symbols.functions.injEq] at h
    rw [h.1]
    decide
  have hleft : (RenameTable.ofSymbols ns symbols).substitute " f(f(f(x)))".toList =
      " \\Facebook\\Libphutil\\Functions\\u::f(\\Facebook\\Libphutil\\Functions\\u::f".toList ++
        "(f(".toList ++ "x)))".toList := by
    rw [RenameTable.substitute_eq_foldl, RenameTable.toList_ofSymbols]
    decide +kernel
  refine ⟨⟨⟨by decide, by decide⟩, hsymbols⟩, fun h => ?_⟩
  have := h (.functions "u".toList ["f".toList]) (by decide) rfl "f".toList (by decide) "(".toList
    (by decide) "(".toList (by decide) _ _ hleft
  revert this
  decide

end Namespacing
