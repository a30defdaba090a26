import Mathlib.Data.Finset.Prod
import Namespacing.Proofs.RenameTable.Insertions
import Namespacing.Proofs.RenameTable.Restorations
set_option autoImplicit false

namespace Namespacing

open Text

/-- A name between a pair of colons and marks is found from the end, so it does not matter what stands
before the colons. -/
theorem contained_inj {c c' n n' s s' : Text} (hn : isIdentifier n = true) (hn' : isIdentifier n' = true)
    (hs : IsMarks s) (hs' : IsMarks s') (h : c ++ "::".toList ++ n ++ s = c' ++ "::".toList ++ n' ++ s') :
    c = c' ∧ n = n' ∧ s = s' := by
  -- Read from the end, the marks stop at the name and the name at the colons; what is left is the container.
  have hreversed : s.reverse ++ (n.reverse ++ ':' :: ':' :: c.reverse) =
      s'.reverse ++ (n'.reverse ++ ':' :: ':' :: c'.reverse) := by
    simpa using congrArg List.reverse h
  have hmarks : ∀ {s : Text}, IsMarks s → ∀ d ∈ s.reverse, (!isRunChar d) = true := by
    intro s hs d hd
    rw [hs d (List.mem_reverse.1 hd)]
    rfl
  have hrun : ∀ {n : Text}, isIdentifier n = true → IsRun n.reverse := by
    intro n hn
    have hn := isRun_of_isIdentifier hn
    exact ⟨by simpa using hn.1, fun d hd => hn.2 d (List.mem_reverse.1 hd)⟩
  have hstop : ∀ {n : Text}, isIdentifier n = true → ∀ t,
      (n.reverse ++ t).head?.any (fun d => !isRunChar d) = false := by
    intro n hn t
    obtain ⟨d, r, hr⟩ := List.exists_cons_of_ne_nil (hrun hn).1
    have hd := (hrun hn).2 d (by rw [hr]; exact List.mem_cons_self)
    rw [hr, List.cons_append, List.head?_cons, Option.any_some, hd]
    rfl
  obtain ⟨hends, hrest⟩ := append_inj_of_stop (hmarks hs) (hmarks hs') (hstop hn _) (hstop hn' _) hreversed
  obtain ⟨hnames, -, hcontainers⟩ := run_mark_inj (hrun hn) (hrun hn') (by decide) (by decide) hrest
  exact ⟨List.reverse_injective (List.cons.inj hcontainers).2, List.reverse_injective hnames,
    List.reverse_injective hends⟩

namespace Symbols

variable {ns : Namespace} {symbols : List Symbols} {n s literal : Text}

def globalNames (symbols : List Symbols) : Finset Text :=
  (symbols.flatMap fun
    | .globals names => names
    | _ => []).toFinset

def classNames (symbols : List Symbols) : Finset Text :=
  (symbols.flatMap fun
    | .classLike name => [name]
    | _ => []).toFinset

def functionNames (symbols : List Symbols) : Finset Text :=
  (symbols.flatMap fun
    | .functions _ names => names
    | _ => []).toFinset

def methods (symbols : List Symbols) : Finset (Text × Text) :=
  (symbols.flatMap fun
    | .functions container names => names.map fun name => (container, name)
    | _ => []).toFinset

theorem mem_globalNames : n ∈ globalNames symbols ↔ ∃ names, .globals names ∈ symbols ∧ n ∈ names := by
  rw [globalNames, List.mem_toFinset, List.mem_flatMap]
  constructor
  · rintro ⟨σ, hσ, hn⟩
    cases σ with
    | globals names => exact ⟨names, hσ, hn⟩
    | classLike => cases hn
    | functions => cases hn
  · rintro ⟨names, hσ, hn⟩
    exact ⟨.globals names, hσ, hn⟩

theorem mem_classNames : n ∈ classNames symbols ↔ .classLike n ∈ symbols := by
  rw [classNames, List.mem_toFinset, List.mem_flatMap]
  constructor
  · rintro ⟨σ, hσ, hn⟩
    cases σ with
    | globals => cases hn
    | classLike name =>
      obtain rfl := List.mem_singleton.1 hn
      exact hσ
    | functions => cases hn
  · intro hσ
    exact ⟨.classLike n, hσ, List.mem_singleton.2 rfl⟩

theorem mem_functionNames :
    n ∈ functionNames symbols ↔ ∃ container names, .functions container names ∈ symbols ∧ n ∈ names := by
  rw [functionNames, List.mem_toFinset, List.mem_flatMap]
  constructor
  · rintro ⟨σ, hσ, hn⟩
    cases σ with
    | globals => cases hn
    | classLike => cases hn
    | functions container names => exact ⟨container, names, hσ, hn⟩
  · rintro ⟨container, names, hσ, hn⟩
    exact ⟨.functions container names, hσ, hn⟩

theorem mem_methods {container : Text} :
    (container, n) ∈ methods symbols ↔ ∃ names, .functions container names ∈ symbols ∧ n ∈ names := by
  rw [methods, List.mem_toFinset, List.mem_flatMap]
  constructor
  · rintro ⟨σ, hσ, hn⟩
    cases σ with
    | globals => cases hn
    | classLike => cases hn
    | functions c names =>
      obtain ⟨name, hname, heq⟩ := List.mem_map.1 hn
      obtain ⟨rfl, rfl⟩ := Prod.mk.inj heq
      exact ⟨names, hσ, hname⟩
  · rintro ⟨names, hσ, hn⟩
    exact ⟨.functions container names, hσ, List.mem_map.2 ⟨n, hn, rfl⟩⟩

def framedNames (symbols : List Symbols) : Finset (Text × Text) :=
  (globalNames symbols ∪ classNames symbols) ×ˢ Frame.behindClass.toFinset ∪
    functionNames symbols ×ˢ Frame.behindFunction.toFinset

theorem mem_framedNames (ns : Namespace) :
    (n, s) ∈ framedNames symbols ↔ ∃ σ ∈ symbols, ∃ q behind, Gives ns σ n q behind ∧ s ∈ behind := by
  simp only [framedNames, Finset.mem_union, Finset.mem_product, List.mem_toFinset, mem_globalNames,
    mem_classNames, mem_functionNames]
  constructor
  · rintro (⟨⟨names, hσ, hn⟩ | hσ, hs⟩ | ⟨⟨container, names, hσ, hn⟩, hs⟩)
    · exact ⟨_, hσ, _, _, .global hn, hs⟩
    · exact ⟨_, hσ, _, _, .classLike, hs⟩
    · exact ⟨_, hσ, _, _, .function hn, hs⟩
  · rintro ⟨σ, hσ, q, behind, hgives, hs⟩
    cases hgives with
    | global hn => exact Or.inl ⟨Or.inl ⟨_, hσ, hn⟩, hs⟩
    | classLike => exact Or.inl ⟨Or.inr hσ, hs⟩
    | function hn => exact Or.inr ⟨⟨_, _, hσ, hn⟩, hs⟩

/-- A name that is both a class and a function has the marks that may stand behind either only once. -/
theorem card_framedNames (symbols : List Symbols) :
    (framedNames symbols).card =
      11 * (globalNames symbols ∪ classNames symbols).card + (4 * (functionNames symbols).card -
        3 * (functionNames symbols ∩ (globalNames symbols ∪ classNames symbols)).card) := by
  have hclass : Frame.behindClass.toFinset.card = 11 := by decide
  have hfunction : Frame.behindFunction.toFinset.card = 4 := by decide
  have hboth : (Frame.behindClass.toFinset ∩ Frame.behindFunction.toFinset).card = 3 := by decide
  have hcount := Finset.card_union_add_card_inter
    ((globalNames symbols ∪ classNames symbols) ×ˢ Frame.behindClass.toFinset)
    (functionNames symbols ×ˢ Frame.behindFunction.toFinset)
  rw [Finset.product_inter_product, Finset.card_product, Finset.card_product, Finset.card_product, hclass,
    hfunction, hboth, Finset.inter_comm _ (functionNames symbols)] at hcount
  have hle : (functionNames symbols ∩ (globalNames symbols ∪ classNames symbols)).card ≤
      (functionNames symbols).card := Finset.card_le_card Finset.inter_subset_left
  rw [framedNames]
  omega

def framedLiterals (symbols : List Symbols) : Finset Text :=
  (Frame.before.toFinset ×ˢ framedNames symbols).image fun x => x.1 ++ x.2.1 ++ x.2.2

def classLiterals (ns : Namespace) (symbols : List Symbols) : Finset Text :=
  (classNames symbols ×ˢ ClassKind.all.toFinset ×ˢ Frame.behindClass.toFinset).image fun x =>
    x.2.1.spelling ++ ' ' :: ns.qualifyClass x.1 ++ x.2.2

def functionLiterals (ns : Namespace) (symbols : List Symbols) : Finset Text :=
  (methods symbols ×ˢ Frame.behindFunction.toFinset).image fun x =>
    "function ".toList ++ ns.qualifyFunction x.1.1 x.1.2 ++ x.2

theorem mem_framedLiterals : literal ∈ framedLiterals symbols ↔
    ∃ p ∈ Frame.before, ∃ n s, (n, s) ∈ framedNames symbols ∧ literal = p ++ n ++ s := by
  rw [framedLiterals, Finset.mem_image]
  constructor
  · rintro ⟨⟨p, n, s⟩, hx, rfl⟩
    rw [Finset.mem_product, List.mem_toFinset] at hx
    exact ⟨p, hx.1, n, s, hx.2, rfl⟩
  · rintro ⟨p, hp, n, s, hframed, rfl⟩
    exact ⟨(p, n, s), Finset.mem_product.2 ⟨List.mem_toFinset.2 hp, hframed⟩, rfl⟩

theorem mem_classLiterals : literal ∈ classLiterals ns symbols ↔
    ∃ n, .classLike n ∈ symbols ∧ ∃ kind : ClassKind, ∃ s ∈ Frame.behindClass,
      literal = kind.spelling ++ ' ' :: ns.qualifyClass n ++ s := by
  rw [classLiterals, Finset.mem_image]
  constructor
  · rintro ⟨⟨n, kind, s⟩, hx, rfl⟩
    rw [Finset.mem_product, Finset.mem_product, List.mem_toFinset, List.mem_toFinset] at hx
    exact ⟨n, mem_classNames.1 hx.1, kind, s, hx.2.2, rfl⟩
  · rintro ⟨n, hn, kind, s, hs, rfl⟩
    refine ⟨(n, kind, s), ?_, rfl⟩
    rw [Finset.mem_product, Finset.mem_product, List.mem_toFinset, List.mem_toFinset]
    exact ⟨mem_classNames.2 hn, mem_all kind, hs⟩

theorem mem_functionLiterals : literal ∈ functionLiterals ns symbols ↔
    ∃ container names n, .functions container names ∈ symbols ∧ n ∈ names ∧ ∃ s ∈ Frame.behindFunction,
      literal = "function ".toList ++ ns.qualifyFunction container n ++ s := by
  rw [functionLiterals, Finset.mem_image]
  constructor
  · rintro ⟨⟨⟨container, n⟩, s⟩, hx, rfl⟩
    rw [Finset.mem_product, List.mem_toFinset] at hx
    obtain ⟨names, hσ, hn⟩ := mem_methods.1 hx.1
    exact ⟨container, names, n, hσ, hn, s, hx.2, rfl⟩
  · rintro ⟨container, names, n, hσ, hn, s, hs, rfl⟩
    refine ⟨((container, n), s), ?_, rfl⟩
    rw [Finset.mem_product, List.mem_toFinset]
    exact ⟨mem_methods.2 ⟨names, hσ, hn⟩, hs⟩

section

variable (hnames : ∀ σ ∈ symbols, ∀ n ∈ σ.names, isIdentifier n = true)

include hnames

theorem card_framedLiterals :
    (framedLiterals symbols).card = 9 * (framedNames symbols).card := by
  have hbefore : Frame.before.toFinset.card = 9 := by decide
  have hparts : ∀ {n s : Text}, (n, s) ∈ framedNames symbols →
      isIdentifier n = true ∧ s ≠ [] ∧ IsMarks s := by
    intro n s hmem
    -- Which namespace the names go to does not matter here.
    obtain ⟨σ, hσ, q, behind, hgives, hs⟩ := (mem_framedNames ⟨[], []⟩).1 hmem
    exact ⟨hnames σ hσ n hgives.mem_names, hgives.marks hs⟩
  rw [framedLiterals, Finset.card_image_of_injOn, Finset.card_product, hbefore]
  rintro ⟨p, n, s⟩ hx ⟨p', n', s'⟩ hx' heq
  rw [Finset.mem_coe, Finset.mem_product, List.mem_toFinset] at hx hx'
  obtain ⟨rfl, rfl, rfl⟩ := framed_inj hx.1 hx'.1 (hparts hx.2).1 (hparts hx'.2).1 (hparts hx.2).2
    (hparts hx'.2).2 heq
  rfl

theorem card_classLiterals (ns : Namespace) :
    (classLiterals ns symbols).card = 33 * (classNames symbols).card := by
  have hclass : Frame.behindClass.toFinset.card = 11 := by decide
  have hkinds : ClassKind.all.toFinset.card = 3 := by decide
  rw [classLiterals, Finset.card_image_of_injOn, Finset.card_product, Finset.card_product, hclass, hkinds,
    Nat.mul_comm]
  rintro ⟨n, kind, s⟩ hx ⟨n', kind', s'⟩ hx' heq
  rw [Finset.mem_coe, Finset.mem_product, Finset.mem_product, List.mem_toFinset, List.mem_toFinset] at hx hx'
  have hname : ∀ {n : Text}, n ∈ classNames symbols → isIdentifier n = true := fun hn =>
    hnames _ (mem_classNames.1 hn) _ (List.mem_singleton.2 rfl)
  obtain ⟨rfl, rfl, rfl⟩ := classDeclaration_inj (hname hx.1) (hname hx'.1)
    (Frame.behindClass_marks s hx.2.2) (Frame.behindClass_marks s' hx'.2.2) heq
  rfl

theorem card_functionLiterals (ns : Namespace) :
    (functionLiterals ns symbols).card = 4 * (methods symbols).card := by
  have hfunction : Frame.behindFunction.toFinset.card = 4 := by decide
  rw [functionLiterals, Finset.card_image_of_injOn, Finset.card_product, hfunction, Nat.mul_comm]
  rintro ⟨⟨c, n⟩, s⟩ hx ⟨⟨c', n'⟩, s'⟩ hx' heq
  rw [Finset.mem_coe, Finset.mem_product, List.mem_toFinset] at hx hx'
  have hname : ∀ {c n : Text}, (c, n) ∈ methods symbols → isIdentifier n = true := by
    intro c n hmem
    obtain ⟨names, hσ, hn⟩ := mem_methods.1 hmem
    exact hnames _ hσ n hn
  have hends : c ++ "::".toList ++ n ++ s = c' ++ "::".toList ++ n' ++ s' := by
    simpa [Namespace.qualifyFunction] using heq
  obtain ⟨rfl, rfl, rfl⟩ := contained_inj (hname hx.1) (hname hx'.1) (Frame.behindFunction_marks s hx.2).2
    (Frame.behindFunction_marks s' hx'.2).2 hends
  rfl

end

theorem disjoint_literals (ns : Namespace) (symbols : List Symbols) :
    Disjoint (framedLiterals symbols) (classLiterals ns symbols ∪ functionLiterals ns symbols) ∧
      Disjoint (classLiterals ns symbols) (functionLiterals ns symbols) := by
  have hfunction : IsRun "function".toList := by decide
  constructor
  · rw [Finset.disjoint_left]
    intro literal hframed hdeclared
    obtain ⟨p, hp, n, s, -, rfl⟩ := mem_framedLiterals.1 hframed
    rcases Finset.mem_union.1 hdeclared with h | h
    · obtain ⟨m, -, kind, t, -, heq⟩ := mem_classLiterals.1 h
      rw [List.append_assoc, List.append_assoc] at heq
      exact framed_ne_of_run hp kind.isRun_spelling heq
    · obtain ⟨container, names, m, -, -, t, -, heq⟩ := mem_functionLiterals.1 h
      rw [List.append_assoc, List.append_assoc] at heq
      exact framed_ne_of_run (t := ' ' :: _) hp hfunction heq
  · rw [Finset.disjoint_left]
    intro literal hclass hdeclared
    obtain ⟨n, -, kind, s, -, rfl⟩ := mem_classLiterals.1 hclass
    obtain ⟨container, names, m, -, -, t, -, heq⟩ := mem_functionLiterals.1 hdeclared
    exact function_ne_classDeclaration heq.symm

end Symbols

namespace RenameTable

open Symbols

variable {ns : Namespace} {symbols : List Symbols} {literal : Text}

theorem mem_literals_iff_rule : literal ∈ (ofSymbols ns symbols).literals ↔
    ∃ σ ∈ symbols, ∃ t, Rule ns σ (literal, t) := by
  rw [literals, toList_ofSymbols, mem_literals_foldl_upsert, List.map_nil, or_iff_left List.not_mem_nil,
    List.mem_map]
  constructor
  · rintro ⟨⟨literal, t⟩, hr, rfl⟩
    obtain ⟨σ, hσ, hr⟩ := List.mem_flatMap.1 hr
    exact ⟨σ, hσ, t, mem_renames_iff.1 hr⟩
  · rintro ⟨σ, hσ, t, hrule⟩
    exact ⟨(literal, t), List.mem_flatMap.2 ⟨σ, hσ, mem_renames_iff.2 hrule⟩, rfl⟩

theorem toFinset_literals (ns : Namespace) (symbols : List Symbols) :
    (ofSymbols ns symbols).literals.toFinset =
      framedLiterals symbols ∪ (classLiterals ns symbols ∪ functionLiterals ns symbols) := by
  ext literal
  rw [List.mem_toFinset, mem_literals_iff_rule, Finset.mem_union, Finset.mem_union, mem_framedLiterals,
    mem_classLiterals, mem_functionLiterals]
  constructor
  · rintro ⟨σ, hσ, t, hrule⟩
    generalize hr : (literal, t) = r at hrule
    cases hrule with
    | qualify hgives hp hs =>
      exact Or.inl ⟨_, hp, _, _, (mem_framedNames ns).2 ⟨σ, hσ, _, _, hgives, hs⟩, (Prod.mk.inj hr).1⟩
    | restoreClass kind hs => exact Or.inr (Or.inl ⟨_, hσ, kind, _, hs, (Prod.mk.inj hr).1⟩)
    | restoreFunction hn hs => exact Or.inr (Or.inr ⟨_, _, _, hσ, hn, _, hs, (Prod.mk.inj hr).1⟩)
  · rintro (⟨p, hp, n, s, hframed, rfl⟩ | ⟨n, hσ, kind, s, hs, rfl⟩ | ⟨container, names, n, hσ, hn, s, hs, rfl⟩)
    · obtain ⟨σ, hσ, q, behind, hgives, hs⟩ := (mem_framedNames ns).1 hframed
      exact ⟨σ, hσ, _, .qualify hgives hp hs⟩
    · exact ⟨_, hσ, _, .restoreClass kind hs⟩
    · exact ⟨_, hσ, _, .restoreFunction hn hs⟩

/-- The size of a table depends on the sets of names among its symbols alone. A class has a rename for every
pair of marks and, if it is one of the library, one for every keyword and mark of its declaration; a function
has those for the marks that no class of its name has already, and one for each mark behind its declaration
in each of its containers. -/
theorem size_ofSymbols (ns : Namespace) (symbols : List Symbols)
    (hnames : ∀ σ ∈ symbols, ∀ n ∈ σ.names, isIdentifier n = true) :
    (ofSymbols ns symbols).size =
      99 * (globalNames symbols ∪ classNames symbols).card + 33 * (classNames symbols).card +
        9 * (4 * (functionNames symbols).card -
          3 * (functionNames symbols ∩ (globalNames symbols ∪ classNames symbols)).card) +
        4 * (methods symbols).card := by
  have hsize : (ofSymbols ns symbols).size = (ofSymbols ns symbols).literals.toFinset.card := by
    rw [List.toFinset_card_of_nodup (ofSymbols ns symbols).nodup_literals, literals, List.length_map,
      size_eq_length]
  obtain ⟨hframed, hdeclared⟩ := disjoint_literals ns symbols
  rw [hsize, toFinset_literals, Finset.card_union_of_disjoint hframed, Finset.card_union_of_disjoint hdeclared,
    card_framedLiterals hnames, card_framedNames, card_classLiterals hnames, card_functionLiterals hnames]
  omega

/-- A class that is also a class of the runtime and a function, in two containers with marks in their names. -/
theorem size_ofSymbols_widget :
    let ns : Namespace := ⟨"Lib".toList, "Functions".toList⟩
    let symbols : List Symbols := [.functions "a::b (".toList ["Widget".toList, "help".toList],
      .globals ["Widget".toList, "Countable".toList], .classLike "Widget".toList,
      .functions "a".toList ["Widget".toList, "Widget".toList], .globals ["Countable".toList]]
    (∀ σ ∈ symbols, ∀ n ∈ σ.names, isIdentifier n = true) ∧
      (ofSymbols ns symbols).size = 99 * 2 + 33 * 1 + 9 * (4 * 2 - 3 * 1) + 4 * 3 := by
  intro ns symbols
  have hnames : ∀ σ ∈ symbols, ∀ n ∈ σ.names, isIdentifier n = true := by decide
  refine ⟨hnames, (size_ofSymbols ns symbols hnames).trans ?_⟩
  have hclasses : (globalNames symbols ∪ classNames symbols).card = 2 := by decide
  have hlibrary : (classNames symbols).card = 1 := by decide
  have hfunctions : (functionNames symbols).card = 2 := by decide
  have hshared : (functionNames symbols ∩ (globalNames symbols ∪ classNames symbols)).card = 1 := by decide
  have hmethods : (methods symbols).card = 3 := by decide
  rw [hclasses, hlibrary, hfunctions, hshared, hmethods]

end RenameTable

end Namespacing
