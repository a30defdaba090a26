import Namespacing.Proofs.RenameTable.Commuting
import Namespacing.Proofs.RenameTable.Restorations
set_option autoImplicit false

namespace Namespacing

open Text

def declaration (k z n s : Text) : Text :=
  k ++ ' ' :: (z ++ n ++ s)

theorem functionDeclaration_eq (ns : Namespace) (container n s : Text) :
    "function ".toList ++ ns.qualifyFunction container n ++ s =
      declaration "function".toList (ns.qualifyContainer container ++ "::".toList) n s := by
  rw [Namespace.qualifyFunction_eq, declaration]
  simp only [List.append_assoc]
  rfl

/-- A literal that ends in a text with the words of a static method at its end lies before them. -/
def LiesBeforeStatic (p : Text) : Prop :=
  ∀ x a c : Text, x ++ "static function".toList ++ [' '] = a ++ p ++ c → ∃ f, x = a ++ p ++ f

theorem exists_before_of_last {x w a u e : Text} {c : Char} (hc : c ∉ w) (h : x ++ w = a ++ (u ++ [c]) ++ e) :
    ∃ f, x = a ++ (u ++ [c]) ++ f := by
  rcases List.append_eq_append_iff.1 h with ⟨f, hf, rfl⟩ | ⟨f, rfl, -⟩
  · rcases List.eq_nil_or_concat f with rfl | ⟨f, d, rfl⟩
    · exact ⟨[], by simpa using hf.symm⟩
    · rw [List.concat_eq_append, ← List.append_assoc, ← List.append_assoc] at hf
      obtain rfl := (List.cons.inj (List.append_inj' hf rfl).2).1
      simp at hc
  · exact ⟨f, rfl⟩

theorem Frame.exists_last_of_mem {s : Text} (hs : s ∈ behindFunction) :
    ∃ u c, s = u ++ [c] ∧ c ∈ ['(', '\'', '"'] := by
  have hall : ∀ s ∈ behindFunction, s = s.dropLast ++ [s.getLastD ' '] ∧ s.getLastD ' ' ∈ ['(', '\'', '"'] := by
    decide
  exact ⟨_, _, hall s hs⟩

theorem liesBeforeStatic_of_function {s : Text} (hs : s ∈ Frame.behindFunction) (k z n : Text) :
    LiesBeforeStatic (declaration k z n s) := by
  obtain ⟨u, c, rfl, hc⟩ := Frame.exists_last_of_mem hs
  have hnot : ∀ c ∈ ['(', '\'', '"'], c ∉ "static function".toList ++ [' '] := by decide
  have hsplit : declaration k z n (u ++ [c]) = (k ++ ' ' :: (z ++ n ++ u)) ++ [c] := by simp [declaration]
  intro x a e h
  rw [hsplit, List.append_assoc x] at *
  exact exists_before_of_last (hnot c hc) h

theorem LiteralOf.liesBeforeStatic {ns : Namespace} {n p : Text} (hns : ns.Accepted) (hp : LiteralOf ns n p)
    (hend : NoKeywordEnd n) : LiesBeforeStatic p := by
  intro x a e h
  have hsplit : (x ++ "static".toList ++ [' ']) ++ "function".toList ++ [' '] = a ++ p ++ e := by
    rw [← h]
    simp
  obtain ⟨f, hf⟩ := hp.before_word hns (by decide) (by decide) hend.function hsplit
  exact hp.before_word hns (by decide) (by decide) hend.static hf

section

variable {ns : Namespace} {k z n s : Text}

section

variable (hns : ns.Accepted) (hk : ∀ c ∈ k, isWordChar c = true) (hz : Qualifier ns z)
  (hn : isIdentifier n = true) (hs : s ≠ [] ∧ IsMarks s)

include hns hk hz hn hs

theorem declaration_beside {x y a b z' n' s' : Text} {m : Char} (hn' : isIdentifier n' = true)
    (hm : isRunChar m = false) (hcolon : m ≠ ':') (hz' : Qualifier ns z') (hs' : s' ≠ [] ∧ IsMarks s')
    (h : x ++ [m] ++ z' ++ (n' ++ s' ++ y) = a ++ declaration k z n s ++ b) :
    (∃ c, x ++ [m] = a ++ declaration k z n s ++ c) ∨ (∃ c, n' ++ s' ++ y = c ++ declaration k z n s ++ b) ∨
      m = ' ' ∧ z' = z ∧ n' = n ∧ s' ++ y = s ++ b := by
  obtain ⟨m', s', rfl⟩ := List.exists_cons_of_ne_nil hs'.1
  obtain ⟨ms, s, rfl⟩ := List.exists_cons_of_ne_nil hs.1
  have hblank : isRunChar ' ' = false := by decide
  have hnot : ' ' ≠ ':' := by decide
  rcases beside_or_aligned (t := s' ++ y) hns hn' hk hblank hnot hz hs hn hm hcolon hz'
    (by simpa [declaration] using h) with ⟨c, hc⟩ | ⟨c, hc⟩ | ⟨-, hblank, heq⟩
  · exact Or.inl ⟨c, hc⟩
  · exact Or.inr (Or.inl ⟨c, by simpa [declaration] using hc⟩)
  · obtain ⟨rfl, rfl, hrest⟩ := hz'.parts_inj hns hz hn' hn (hs'.2 m' List.mem_cons_self)
      (hs.2 ms List.mem_cons_self) heq
    exact Or.inr (Or.inr ⟨hblank, rfl, rfl, hrest⟩)

/-- A rename brings a qualified declaration in only if it qualifies the name in that frame. -/
theorem EditOf.contains_of_replacement {x y n' : Text} {e : Edit} (he : EditOf ns n' e) (hne : z ≠ [])
    (hn' : isIdentifier n' = true) (hend : e.front = [] → LiesBeforeStatic (declaration k z n s))
    (h : contains (declaration k z n s) (x ++ e.replacement ++ y) = true) :
    contains (declaration k z n s) (x ++ e.literal ++ y) = true ∨
      ∃ s' t t', e = ⟨[' '], [], z, n ++ s'⟩ ∧ (s' ≠ [] ∧ IsMarks s') ∧ s' ++ t = s ++ t' := by
  obtain ⟨a, b, hab⟩ := contains_iff.1 h
  have hblank : isRunChar ' ' = false := by decide
  have hcolon : ' ' ≠ ':' := by decide
  have hbeside := @declaration_beside _ _ _ _ _ hns hk hz hn hs
  have hleft : ∀ {u c v : Text}, u = a ++ declaration k z n s ++ c →
      contains (declaration k z n s) (u ++ v) = true := by
    rintro u c v rfl
    exact contains_iff.2 ⟨a, c ++ v, by simp⟩
  have hright : ∀ {u c v : Text}, v = c ++ declaration k z n s ++ b →
      contains (declaration k z n s) (u ++ v) = true := by
    rintro u c v rfl
    exact contains_iff.2 ⟨u ++ c, b, by simp⟩
  cases he with
  | @qualify m z' s' hm hcolon' hz' hs' =>
    have hassoc : x ++ (Edit.mk [m] [] z' (n' ++ s')).literal ++ y = (x ++ [m]) ++ (n' ++ s' ++ y) := by
      simp [Edit.literal]
    rw [hassoc]
    rcases hbeside hn' hm hcolon' hz' hs' (by simpa [Edit.replacement] using hab) with ⟨c, hc⟩ | ⟨c, hc⟩ |
      ⟨rfl, rfl, rfl, hrest⟩
    · exact Or.inl (hleft hc)
    · exact Or.inl (hright hc)
    · exact Or.inr ⟨s', y, b, rfl, hs', hrest⟩
  | @restoreClass s' kind hs' =>
    have hassoc : x ++ (Edit.mk (kind.spelling ++ [' ']) ('\\' :: ns.root ++ ['\\']) [] (n' ++ s')).literal ++ y =
        (x ++ kind.spelling ++ [' ']) ++ (('\\' :: ns.root ++ ['\\']) ++ (n' ++ s' ++ y)) := by
      simp [Edit.literal]
    rw [hassoc]
    rcases hbeside (x := x ++ kind.spelling) hn' hblank hcolon .bare hs'
      (by simpa [Edit.replacement] using hab) with ⟨c, hc⟩ | ⟨c, hc⟩ | ⟨-, hnil, -⟩
    · exact Or.inl (hleft hc)
    · rw [← List.append_assoc]
      exact Or.inl (hright hc)
    · exact absurd hnil.symm hne
  | @restoreFunction z' s' hz' hs' =>
    have hend := hend rfl
    have hassoc : x ++ (Edit.mk [] ("function".toList ++ ' ' :: z')
        ("static".toList ++ ' ' :: "function".toList ++ [' ']) (n' ++ s')).literal ++ y =
        x ++ (("function".toList ++ ' ' :: z') ++ (n' ++ s' ++ y)) := by
      simp only [Edit.literal, List.nil_append, List.append_assoc]
    rw [hassoc]
    rcases hbeside (x := x ++ "static".toList ++ [' '] ++ "function".toList) hn' hblank hcolon .bare hs'
      (by simpa only [Edit.replacement, List.nil_append, List.append_nil, List.append_assoc, List.cons_append]
        using hab) with ⟨c, hc⟩ | ⟨c, hc⟩ | ⟨-, hnil, -⟩
    · obtain ⟨f, rfl⟩ := hend x a c (by rw [← hc]; simp)
      exact Or.inl (hleft rfl)
    · rw [← List.append_assoc]
      exact Or.inl (hright hc)
    · exact absurd hnil.symm hne

/-- The rename that makes declarations bare leaves no qualified one behind. -/
theorem not_contains_restored {w : Text} (hne : z ≠ []) (hnil : k ≠ [])
    (hend : k <:+ n → ∀ t t', ' ' :: (z ++ t) ≠ s ++ t')
    (hw : ∀ {x a c : Text}, x ++ w ++ [' '] = a ++ declaration k z n s ++ c →
      ∃ f, x = a ++ declaration k z n s ++ f) (text : Text) :
    contains (declaration k z n s) (replaceAll (declaration k z n s) (w ++ ' ' :: (n ++ s)) text) = false := by
  have hlit : declaration k z n s ≠ [] := by simp [declaration]
  -- A declaration does not start in the name and the marks in front of a text.
  have hinside : ∀ {v c b : Text}, n ++ s ++ v = c ++ declaration k z n s ++ b →
      contains (declaration k z n s) v = true := by
    intro v c b h
    obtain ⟨l, k', rfl⟩ := List.exists_cons_of_ne_nil hnil
    obtain ⟨ms, s', rfl⟩ := List.exists_cons_of_ne_nil hs.1
    have hl : isRunChar l = true := isRunChar_of_isWordChar (hk l List.mem_cons_self)
    have hmark : ∀ c ∈ ms :: s', c ≠ l := by
      rintro c hc rfl
      rw [hs.2 c hc] at hl
      cases hl
    rw [List.append_assoc c] at h
    rcases List.append_eq_append_iff.1 h with ⟨d, -, hd⟩ | ⟨d, hd, hrest⟩
    · exact contains_iff.2 ⟨d, b, by simpa using hd⟩
    · rcases List.append_eq_append_iff.1 hd with ⟨c', -, hs'⟩ | ⟨d₁, rfl, rfl⟩
      · cases d with
        | nil => exact contains_iff.2 ⟨[], b, by simpa using hrest.symm⟩
        | cons d₀ d =>
          obtain ⟨rfl, -⟩ := List.cons.inj hrest
          exact absurd rfl (hmark l (by rw [hs']; simp))
      · exfalso
        cases d₁ with
        | nil => exact hmark ms List.mem_cons_self (List.cons.inj hrest).1.symm
        | cons d₀ d₁ =>
          have hrun : IsRun (d₀ :: d₁) :=
            ⟨by simp, fun e he => (isRun_of_isIdentifier hn).2 e (List.mem_append_right _ he)⟩
          have hrun' : IsRun (l :: k') := ⟨by simp, fun e he => isRunChar_of_isWordChar (hk e he)⟩
          have hblank : isRunChar ' ' = false := by decide
          obtain ⟨heq, rfl, hbehind⟩ := run_mark_inj hrun' hrun hblank (hs.2 ms List.mem_cons_self)
            (t := z ++ (c ++ d₀ :: d₁) ++ ms :: s' ++ b) (by simpa [declaration] using hrest)
          refine hend ⟨c, by rw [heq]⟩ ((c ++ d₀ :: d₁) ++ ' ' :: s' ++ b) v ?_
          simpa using hbehind
  induction hlen : text.length using Nat.strongRecOn generalizing text with
  | ind m ih =>
    subst hlen
    cases ht : contains (declaration k z n s) text with
    | false => rw [replaceAll_of_not_contains ht, ht]
    | true =>
      obtain ⟨u, v, rfl, hu⟩ := Edit.exists_first ht hlit
      rw [Edit.replaceAll_first _ _ hlit hu]
      have hshort := ih v.length (by
        have := List.length_pos_iff.2 hlit
        simp only [List.length_append]
        omega) v rfl
      generalize replaceAll (declaration k z n s) (w ++ ' ' :: (n ++ s)) v = v' at hshort ⊢
      rw [Bool.eq_false_iff, ne_eq, contains_iff]
      rintro ⟨a, b, hab⟩
      have hblank : isRunChar ' ' = false := by decide
      have hcolon : ' ' ≠ ':' := by decide
      rcases declaration_beside (x := u ++ w) (y := v') hns hk hz hn hs hn hblank hcolon .bare hs
        (by simpa using hab) with ⟨c, hc⟩ | ⟨c, hc⟩ | ⟨-, hbare, -⟩
      · obtain ⟨f, rfl⟩ := hw hc
        have := hu a (f ++ declaration k z n s) (by simp)
        exact hlit (List.append_eq_nil_iff.1 this).2
      · rw [hinside hc] at hshort
        cases hshort
      · exact hne hbare.symm

end

section

variable {symbols : List Symbols} (hns : ns.Accepted)
  (hnames : ∀ σ ∈ symbols, ∀ n ∈ σ.names, isIdentifier n = true)
  (hcontainers : ∀ c names, .functions c names ∈ symbols → isIdentifier c = true)

include hns hnames hcontainers

theorem not_contains_foldl (hk : ∀ c ∈ k, isWordChar c = true) (hz : Qualifier ns z) (hn : isIdentifier n = true)
    (hs : s ≠ [] ∧ IsMarks s) (hne : z ≠ [])
    (hend : ∀ c names, .functions c names ∈ symbols → LiesBeforeStatic (declaration k z n s))
    {renames : List Rename}
    (hrules : ∀ r ∈ renames, ∃ σ ∈ symbols, Symbols.Rule ns σ r)
    (hother : ∀ s' t t', (s' ≠ [] ∧ IsMarks s') → s' ++ t = s ++ t' →
      ([' '] ++ n ++ s', [' '] ++ (z ++ n) ++ s') ∉ renames) {text : Text}
    (h : contains (declaration k z n s) text = false) :
    contains (declaration k z n s) (renames.foldl RenameTable.applyRename text) = false := by
  induction renames generalizing text with
  | nil => exact h
  | cons r renames ih =>
    refine ih (fun r hr => hrules r (List.mem_cons_of_mem _ hr))
      (fun s' t t' hs' heq hmem => hother s' t t' hs' heq (List.mem_cons_of_mem _ hmem)) ?_
    obtain ⟨σ, hσ, hrule⟩ := hrules r List.mem_cons_self
    obtain ⟨n', e, hn', he, rfl, hfront⟩ := hrule.exists_edit fun c names hc => hcontainers c names (hc ▸ hσ)
    have hid := hnames σ hσ n' hn'
    rw [RenameTable.applyRename_eq_replaceAll]
    refine replaceAll_induction (motive := fun v => contains (declaration k z n s) v = false)
      (he.proper hid).literal_ne_nil (fun a b hab => ?_) h
    rw [Bool.eq_false_iff] at hab ⊢
    intro hnew
    rcases he.contains_of_replacement hns hk hz hn hs hne hid
      (fun hnil => by
        obtain ⟨c, names, rfl⟩ := hfront hnil
        exact hend c names hσ) hnew with hold | ⟨s', t, t', rfl, hs', hsame⟩
    · exact hab hold
    · refine hother s' t t' hs' hsame ?_
      have : (([' '] ++ n ++ s', [' '] ++ (z ++ n) ++ s') : Rename) =
          ((Edit.mk [' '] [] z (n ++ s')).literal, (Edit.mk [' '] [] z (n ++ s')).replacement) := by
        simp [Edit.literal, Edit.replacement]
      rw [this]
      exact List.mem_cons_self

omit hns hnames hcontainers in
theorem Frame.eq_of_append {behind : List Text}
    (hprefixes : ∀ s ∈ behind, ∀ s' ∈ behind, s.isPrefixOf s' = true → s = s')
    {s s' t t' : Text} (hs' : s' ∈ behind) (hs : s ∈ behind) (h : s' ++ t = s ++ t') : s' = s := by
  rcases List.prefix_or_prefix_of_prefix (List.prefix_append s' t) (h ▸ List.prefix_append s t') with hle | hle
  · exact hprefixes s' hs' s hs (List.isPrefixOf_iff_prefix.2 hle)
  · exact (hprefixes s hs s' hs' (List.isPrefixOf_iff_prefix.2 hle)).symm

omit hns hnames hcontainers in
theorem RenameTable.Follows.exists_split {table : RenameTable} {first second value : Text}
    (h : table.Follows first second value) :
    ∃ A B, table.toList = A ++ (second, value) :: B ∧ first ∈ A.map Prod.fst := by
  obtain ⟨hget, i, j, hi, hj, hij⟩ := h
  rw [get?_eq_lookup, List.lookup_eq_some_iff] at hget
  obtain ⟨A, B, hAB, -⟩ := hget
  have hliterals : table.literals = A.map Prod.fst ++ second :: B.map Prod.fst := by
    rw [literals, hAB, List.map_append, List.map_cons]
  have hsecond : table.literals[A.length]? = some second := by
    rw [hliterals, List.getElem?_append_right (by simp)]
    simp
  obtain rfl : j = A.length :=
    Option.some.inj (hj.symm.trans (position?_eq_some_iff.2 hsecond))
  have hfirst := position?_eq_some_iff.1 hi
  rw [hliterals, List.getElem?_append_left (by simpa using hij)] at hfirst
  exact ⟨A, B, hAB, List.mem_of_getElem? hfirst⟩

/-- A table leaves no qualified declaration behind if it makes such a declaration bare, and qualifies the
name in that frame earlier. -/
theorem not_contains_substitute {w : Text} (hk : ∀ c ∈ k, isWordChar c = true) (hz : Qualifier ns z)
    (hn : isIdentifier n = true) (hs : s ≠ [] ∧ IsMarks s) (hne : z ≠ []) (hnil : k ≠ [])
    (hend : k <:+ n → ∀ t t', ' ' :: (z ++ t) ≠ s ++ t')
    (hw : ∀ {x a c : Text}, x ++ w ++ [' '] = a ++ declaration k z n s ++ c →
      ∃ f, x = a ++ declaration k z n s ++ f)
    (hwords : ∀ c names, .functions c names ∈ symbols → LiesBeforeStatic (declaration k z n s))
    (hfollows : (RenameTable.ofSymbols ns symbols).Follows ([' '] ++ n ++ s) (declaration k z n s)
      (w ++ ' ' :: (n ++ s)))
    (hframe : ∀ σ ∈ symbols, ∀ s', σ.form? ns n s' = some (z ++ n) → ∀ t t', s' ++ t = s ++ t' → s' = s)
    (text : Text) :
    contains (declaration k z n s) ((RenameTable.ofSymbols ns symbols).substitute text) = false := by
  obtain ⟨A, B, hAB, hbefore⟩ := hfollows.exists_split
  have hliterals : (RenameTable.ofSymbols ns symbols).literals =
      A.map Prod.fst ++ declaration k z n s :: B.map Prod.fst := by
    rw [RenameTable.literals, hAB, List.map_append, List.map_cons]
  have hrule : ∀ r ∈ B, ∃ σ ∈ symbols, Symbols.Rule ns σ r := fun r hr =>
    RenameTable.exists_rule_of_mem (by rw [hAB]; exact List.mem_append_right _ (List.mem_cons_of_mem _ hr))
  have hnodup := (RenameTable.ofSymbols ns symbols).nodup_literals
  rw [hliterals, List.nodup_append] at hnodup
  rw [RenameTable.substitute_eq_foldl, hAB, List.foldl_append, List.foldl_cons]
  refine not_contains_foldl hns hnames hcontainers hk hz hn hs hne hwords hrule
    (fun s' t t' hs' heq hmem => ?_) ?_
  · obtain ⟨σ, hσ, hrule⟩ := hrule _ hmem
    obtain ⟨q, behind, hgives, hs'', hq⟩ := hrule.of_framed (by decide) hn hs' (hnames σ hσ)
    obtain rfl := List.append_cancel_left (List.append_cancel_right hq)
    obtain rfl := hframe σ hσ s' (Symbols.form?_eq_some_iff.2 ⟨behind, hgives, hs''⟩) t t' heq
    exact hnodup.2.2 _ hbefore _ (List.mem_cons_of_mem _ (List.mem_map.2 ⟨_, hmem, rfl⟩)) rfl
  · rw [RenameTable.applyRename_eq_replaceAll]
    exact not_contains_restored hns hk hz hn hs hne hnil hend hw _

theorem not_contains_qualifyClass (hσ : .classLike n ∈ symbols) {kind : ClassKind} (hend : ¬ kind.spelling <:+ n)
    (hwords : ∀ c names, .functions c names ∈ symbols → NoKeywordEnd n) (hs : s ∈ Frame.behindClass)
    (text : Text) : contains (declaration kind.spelling ('\\' :: ns.root ++ ['\\']) n s)
      ((RenameTable.ofSymbols ns symbols).substitute text) = false := by
  have hn : isIdentifier n = true := hnames _ hσ n (List.mem_singleton.2 rfl)
  have hmarks := Frame.behindClass_marks s hs
  have hlit : LiteralOf ns n (declaration kind.spelling ('\\' :: ns.root ++ ['\\']) n s) :=
    .intro kind.letters_spelling (by decide) (by decide) .root hmarks
  have hkey : kind.spelling ++ ' ' :: ns.qualifyClass n ++ s =
      declaration kind.spelling ('\\' :: ns.root ++ ['\\']) n s := by
    simp [declaration, Namespace.qualifyClass]
  have hvalue : kind.spelling ++ ' ' :: n ++ s = kind.spelling ++ ' ' :: (n ++ s) := by simp
  have hfollows : (RenameTable.ofSymbols ns symbols).Follows ([' '] ++ n ++ s) _ _ :=
    RenameTable.follows_of_precedes hσ (.restoreClass kind hs)
      (fun τ hτ t h => h.of_classDeclaration (hnames τ hτ) hn hs)
      (fun τ hτ => Symbols.precedes_classDeclaration (hnames τ hτ) (by decide) hn hs)
  rw [hkey, hvalue] at hfollows
  refine not_contains_substitute hns hnames hcontainers kind.letters_spelling .root hn hmarks (by simp)
    kind.isRun_spelling.1 (fun h => absurd h hend)
    (hlit.before_word hns kind.isRun_spelling kind.letters_spelling hend)
    (fun c names hfun => hlit.liesBeforeStatic hns (hwords c names hfun)) hfollows
    (fun σ _ s' hform t t' heq => ?_) text
  have hq : ('\\' :: ns.root ++ ['\\']) ++ n = ns.qualifyClass n := by simp [Namespace.qualifyClass]
  rw [hq] at hform
  exact Frame.eq_of_append Frame.behindClass_prefix (Symbols.eq_classLike_of_form? hform).2 hs heq

omit hns in
theorem functionDeclaration_follows {container : Text} {names : List Text} (hσ : .functions container names ∈ symbols)
    (hmem : n ∈ names) (hs : s ∈ Frame.behindFunction) :
    (RenameTable.ofSymbols ns symbols).Follows ([' '] ++ n ++ s)
      (declaration "function".toList (ns.qualifyContainer container ++ "::".toList) n s)
      ("static function".toList ++ ' ' :: (n ++ s)) := by
  have hn : isIdentifier n = true := hnames _ hσ n hmem
  have hc := hcontainers container names hσ
  have hcontainer : ∀ τ ∈ symbols, ∀ c names, τ = .functions c names → isIdentifier c = true :=
    fun τ hτ c names heq => hcontainers c names (heq ▸ hτ)
  have hvalue : "static function ".toList ++ n ++ s = "static function".toList ++ ' ' :: (n ++ s) := by
    rw [List.append_assoc]
    rfl
  rw [← functionDeclaration_eq, ← hvalue]
  exact RenameTable.follows_of_precedes hσ (.restoreFunction hmem hs)
    (fun τ hτ t h => h.of_functionDeclaration (hnames τ hτ) hc (hcontainer τ hτ) hn hs)
    (fun τ hτ => Symbols.precedes_functionDeclaration (hnames τ hτ) (by decide) hc (hcontainer τ hτ) hn hs)

theorem not_contains_qualifyFunction {container : Text} {names : List Text} (hσ : .functions container names ∈ symbols)
    (hmem : n ∈ names) (hs : s ∈ Frame.behindFunction) (text : Text) :
    contains (declaration "function".toList (ns.qualifyContainer container ++ "::".toList) n s)
      ((RenameTable.ofSymbols ns symbols).substitute text) = false := by
  have hn : isIdentifier n = true := hnames _ hσ n hmem
  have hmarks := Frame.behindFunction_marks s hs
  have hletters : ∀ c ∈ "function".toList, isWordChar c = true := by decide
  have hz : Qualifier ns (ns.qualifyContainer container ++ "::".toList) :=
    .container (hcontainers container names hσ)
  have hbefore := liesBeforeStatic_of_function hs "function".toList (ns.qualifyContainer container ++ "::".toList) n
  refine not_contains_substitute hns hnames hcontainers hletters hz hn hmarks (by simp) (by decide)
    (fun _ t t' => ?_) (hbefore _ _ _) (fun _ _ _ => hbefore)
    (functionDeclaration_follows hnames hcontainers hσ hmem hs)
    (fun σ _ s' hform t t' heq => ?_) text
  · -- A blank behind the name of a function is not followed by a qualifier.
    have hcases : ∀ s ∈ Frame.behindFunction, s.head? = some ' ' → s = [' ', '('] := by decide
    obtain ⟨c, s, rfl⟩ := List.exists_cons_of_ne_nil hmarks.1
    intro heq
    obtain ⟨rfl, heq⟩ := List.cons.inj heq
    obtain rfl := (List.cons.inj (hcases _ hs rfl)).2
    simp [Namespace.qualifyContainer] at heq
  · have hq : (ns.qualifyContainer container ++ "::".toList) ++ n = ns.qualifyFunction container n := by
      rw [Namespace.qualifyFunction_eq, List.append_assoc]
      rfl
    rw [hq] at hform
    obtain ⟨-, -, -, hs'⟩ := Symbols.eq_functions_of_form? hform
    exact Frame.eq_of_append Frame.behindFunction_prefix hs' hs heq

end

end

end Namespacing
