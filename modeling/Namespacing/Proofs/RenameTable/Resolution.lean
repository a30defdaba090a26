import Mathlib.Data.List.Nodup
import Namespacing.Proofs.RenameTable.Entries
set_option autoImplicit false

namespace Namespacing

open Text

namespace Symbols

def form? (ns : Namespace) (name behind : Text) : Symbols → Option Text
  | .globals names =>
    if name ∈ names ∧ behind ∈ Frame.behindClass then some ('\\' :: name) else none
  | .classLike declared =>
    if declared = name ∧ behind ∈ Frame.behindClass then some (ns.qualifyClass name) else none
  | .functions container names =>
    if name ∈ names ∧ behind ∈ Frame.behindFunction then some (ns.qualifyFunction container name)
    else none

variable {ns : Namespace} {σ : Symbols} {p n s : Text}

theorem form?_eq_some_iff {q : Text} :
    σ.form? ns n s = some q ↔ ∃ behind, Gives ns σ n q behind ∧ s ∈ behind := by
  constructor
  · intro h
    cases σ with
    | globals names =>
      simp only [form?, Option.ite_none_right_eq_some, Option.some.injEq] at h
      obtain ⟨⟨hn, hs⟩, rfl⟩ := h
      exact ⟨_, .global hn, hs⟩
    | classLike declared =>
      simp only [form?, Option.ite_none_right_eq_some, Option.some.injEq] at h
      obtain ⟨⟨rfl, hs⟩, rfl⟩ := h
      exact ⟨_, .classLike, hs⟩
    | functions container names =>
      simp only [form?, Option.ite_none_right_eq_some, Option.some.injEq] at h
      obtain ⟨⟨hn, hs⟩, rfl⟩ := h
      exact ⟨_, .function hn, hs⟩
  · rintro ⟨behind, hgives, hs⟩
    cases hgives with
    | global hn => exact if_pos ⟨hn, hs⟩
    | classLike => exact if_pos ⟨rfl, hs⟩
    | function hn => exact if_pos ⟨hn, hs⟩

theorem marks_of_mem (hs : s ∈ Frame.behindClass ∨ s ∈ Frame.behindFunction) : s ≠ [] ∧ IsMarks s :=
  hs.elim (Frame.behindClass_marks s) (Frame.behindFunction_marks s)

section

variable (hp : p ∈ Frame.before) (hn : isIdentifier n = true) (hs : s ≠ [] ∧ IsMarks s)
  (hnames : ∀ n ∈ σ.names, isIdentifier n = true)

include hp hn hs hnames

theorem mem_literals_iff :
    p ++ n ++ s ∈ (σ.renames ns).map Prod.fst ↔ (σ.form? ns n s).isSome = true := by
  rw [Option.isSome_iff_exists]
  constructor
  · intro h
    obtain ⟨⟨literal, t⟩, hr, rfl⟩ := List.mem_map.1 h
    obtain ⟨q, behind, hgives, hs', -⟩ := (mem_renames_iff.1 hr).of_framed hp hn hs hnames
    exact ⟨q, form?_eq_some_iff.2 ⟨behind, hgives, hs'⟩⟩
  · rintro ⟨q, hq⟩
    obtain ⟨behind, hgives, hs'⟩ := form?_eq_some_iff.1 hq
    exact List.mem_map.2 ⟨_, mem_renames_iff.2 (.qualify hgives hp hs'), rfl⟩

/-- Symbols replace what stood for a framed name by the form that they give to it. -/
theorem lookup_foldl_renames (start : List Rename) :
    ((σ.renames ns).foldl upsert start).lookup (p ++ n ++ s) =
      ((σ.form? ns n s).map fun q => p ++ q ++ s).or (start.lookup (p ++ n ++ s)) := by
  cases hform : σ.form? ns n s with
  | none =>
    apply lookup_foldl_upsert_of_not_mem
    rw [mem_literals_iff hp hn hs hnames, hform]
    exact Bool.false_ne_true
  | some q =>
    apply lookup_foldl_upsert_of_forall
    · rw [mem_literals_iff hp hn hs hnames, hform]
      rfl
    · rintro ⟨literal, t⟩ hr rfl
      obtain ⟨q', behind, hgives, hs', rfl⟩ := (mem_renames_iff.1 hr).of_framed hp hn hs hnames
      rw [form?_eq_some_iff.2 ⟨behind, hgives, hs'⟩] at hform
      rw [Option.some.inj hform]

end

end Symbols

namespace RenameTable

variable {ns : Namespace} {symbols : List Symbols} {p n s : Text}

theorem toList_ofSymbols_append (X : List Symbols) (Y : List Symbols) :
    (ofSymbols ns (X ++ Y)).toList =
      (Y.flatMap (Symbols.renames ns)).foldl upsert (ofSymbols ns X).toList := by
  rw [toList_ofSymbols, toList_ofSymbols, List.flatMap_append, List.foldl_append]

theorem get?_framed (hnames : ∀ σ ∈ symbols, ∀ n ∈ σ.names, isIdentifier n = true)
    (hp : p ∈ Frame.before) (hn : isIdentifier n = true) (hs : s ≠ [] ∧ IsMarks s) :
    (ofSymbols ns symbols).get? (p ++ n ++ s) =
      (symbols.reverse.findSome? (Symbols.form? ns n s)).map fun q => p ++ q ++ s := by
  induction symbols using List.reverseRecOn with
  | nil => rw [get?_eq_lookup, toList_ofSymbols]; rfl
  | append_singleton X σ ih =>
    have hX := ih fun τ hτ => hnames τ (List.mem_append_left _ hτ)
    have hσ := hnames σ (List.mem_append_right _ List.mem_cons_self)
    rw [get?_eq_lookup] at hX
    rw [get?_eq_lookup, toList_ofSymbols_append, List.flatMap_cons, List.flatMap_nil, List.append_nil,
      Symbols.lookup_foldl_renames hp hn hs hσ, hX, List.reverse_append]
    cases hform : σ.form? ns n s with
    | none => simp [hform]
    | some q => simp [hform]

theorem mem_literals_ofSymbols_iff (hnames : ∀ σ ∈ symbols, ∀ n ∈ σ.names, isIdentifier n = true)
    (hp : p ∈ Frame.before) (hn : isIdentifier n = true) (hs : s ≠ [] ∧ IsMarks s) :
    p ++ n ++ s ∈ (ofSymbols ns symbols).literals ↔
      ∃ σ ∈ symbols, (σ.form? ns n s).isSome = true := by
  rw [literals, toList_ofSymbols, mem_literals_foldl_upsert, List.map_nil, or_iff_left List.not_mem_nil,
    List.map_flatMap, List.mem_flatMap]
  constructor
  · rintro ⟨σ, hσ, h⟩
    exact ⟨σ, hσ, (Symbols.mem_literals_iff hp hn hs (hnames σ hσ)).1 h⟩
  · rintro ⟨σ, hσ, h⟩
    exact ⟨σ, hσ, (Symbols.mem_literals_iff hp hn hs (hnames σ hσ)).2 h⟩

end RenameTable

theorem literals_prefix_foldl_upsert (renames start : List Rename) :
    start.map Prod.fst <+: (renames.foldl upsert start).map Prod.fst := by
  induction renames generalizing start with
  | nil => exact List.prefix_rfl
  | cons r renames ih =>
    refine List.IsPrefix.trans ?_ (ih (upsert start r))
    rw [literals_upsert]
    split
    · exact List.prefix_rfl
    · exact List.prefix_append _ _

namespace RenameTable

variable {ns : Namespace} {literal : Text}

theorem literals_prefix_ofSymbols (X Y : List Symbols) :
    (ofSymbols ns X).literals <+: (ofSymbols ns (X ++ Y)).literals := by
  rw [literals, literals, toList_ofSymbols_append]
  exact literals_prefix_foldl_upsert _ _

/-- The place of a literal is where it stands in the list of literals. -/
theorem position?_eq_some_iff {table : RenameTable} {i : Nat} :
    table.position? literal = some i ↔ table.literals[i]? = some literal := by
  rw [position?_eq_idxOf?, List.idxOf?_eq_some_iff]
  constructor
  · rintro ⟨hi, heq, -⟩
    rw [List.getElem?_eq_getElem hi, heq]
  · intro h
    obtain ⟨hi, heq⟩ := List.getElem?_eq_some_iff.1 h
    refine ⟨hi, heq, fun j hj hsame => ?_⟩
    have := (List.Nodup.getElem_inj_iff table.nodup_literals).1 (hsame.trans heq.symm)
    omega

theorem exists_position_of_mem {table : RenameTable} (h : literal ∈ table.literals) :
    ∃ i, table.position? literal = some i := by
  obtain ⟨i, hi⟩ := List.getElem?_of_mem h
  exact ⟨i, position?_eq_some_iff.2 hi⟩

theorem position?_append {X Y : List Symbols} {i : Nat}
    (h : (ofSymbols ns X).position? literal = some i) :
    (ofSymbols ns (X ++ Y)).position? literal = some i := by
  rw [position?_eq_some_iff] at h ⊢
  obtain ⟨rest, hrest⟩ := @literals_prefix_ofSymbols ns X Y
  rw [← hrest]
  rwa [List.getElem?_append_left (List.getElem?_eq_some_iff.1 h).1]

/-- The last symbols that give a form to a framed name decide its replacement; no symbols, no replacement.
The first ones decide its place in the table, behind all that was there. -/
theorem framed_name_resolves (ns : Namespace) (symbols : List Symbols)
    (hnames : ∀ σ ∈ symbols, ∀ n ∈ σ.names, isIdentifier n = true) (p n s : Text)
    (hp : p ∈ Frame.before) (hn : isIdentifier n = true)
    (hs : s ∈ Frame.behindClass ∨ s ∈ Frame.behindFunction) :
    (ofSymbols ns symbols).get? (p ++ n ++ s) =
      (symbols.reverse.findSome? (Symbols.form? ns n s)).map (fun q => p ++ q ++ s) ∧
    ∀ X σ Y, symbols = X ++ σ :: Y → (∀ τ ∈ X, τ.form? ns n s = none) →
      (σ.form? ns n s).isSome = true →
      ∃ i, (ofSymbols ns X).size ≤ i ∧ (ofSymbols ns (X ++ [σ])).position? (p ++ n ++ s) = some i ∧
        (ofSymbols ns symbols).position? (p ++ n ++ s) = some i := by
  have hmarks := Symbols.marks_of_mem hs
  refine ⟨get?_framed hnames hp hn hmarks, ?_⟩
  rintro X σ Y rfl hX hσ
  have hsplit : X ++ σ :: Y = (X ++ [σ]) ++ Y := by simp
  rw [hsplit] at hnames ⊢
  have hfirst : p ++ n ++ s ∉ (ofSymbols ns X).literals := by
    rw [mem_literals_ofSymbols_iff (fun τ hτ => hnames τ (by simp [hτ])) hp hn hmarks]
    rintro ⟨τ, hτ, h⟩
    rw [hX τ hτ] at h
    cases h
  have hadded : p ++ n ++ s ∈ (ofSymbols ns (X ++ [σ])).literals := by
    rw [mem_literals_ofSymbols_iff (fun τ hτ => hnames τ (List.mem_append_left _ hτ)) hp hn hmarks]
    exact ⟨σ, by simp, hσ⟩
  obtain ⟨i, hi⟩ := exists_position_of_mem hadded
  refine ⟨i, ?_, hi, position?_append hi⟩
  by_contra hlt
  rw [position?_eq_some_iff] at hi
  obtain ⟨rest, hrest⟩ := @literals_prefix_ofSymbols ns X [σ]
  have hlen : (ofSymbols ns X).literals.length = (ofSymbols ns X).size := by
    rw [literals, List.length_map, size_eq_length]
  rw [← hrest, List.getElem?_append_left (by omega)] at hi
  exact hfirst (List.mem_of_getElem? hi)

/-- A name of the runtime that a function and then a class of the library take over. -/
theorem framed_name_resolves_widget :
    let ns : Namespace := ⟨"Lib".toList, "Functions".toList⟩
    let symbols : List Symbols := [.globals ["Widget".toList], .functions "u".toList ["Widget".toList],
      .classLike "Gadget".toList]
    ((∀ σ ∈ symbols, ∀ n ∈ σ.names, isIdentifier n = true) ∧ [' '] ∈ Frame.before ∧
      isIdentifier "Widget".toList = true ∧ (['('] ∈ Frame.behindClass ∨ ['('] ∈ Frame.behindFunction)) ∧
    (ofSymbols ns symbols).get? " Widget(".toList = some " \\Lib\\Functions\\u::Widget(".toList ∧
    ∃ i, (ofSymbols ns [.globals ["Widget".toList]]).position? " Widget(".toList = some i ∧
      (ofSymbols ns symbols).position? " Widget(".toList = some i := by
  intro ns symbols
  have hnames : ∀ σ ∈ symbols, ∀ n ∈ σ.names, isIdentifier n = true := by decide
  have hp : [' '] ∈ Frame.before := by decide
  have hn : isIdentifier "Widget".toList = true := by decide
  have hs : ['('] ∈ Frame.behindClass ∨ ['('] ∈ Frame.behindFunction := by decide
  obtain ⟨hget, hplace⟩ := framed_name_resolves ns symbols hnames [' '] "Widget".toList ['('] hp hn hs
  obtain ⟨i, -, hfirst, hlast⟩ := hplace [] _ _ rfl (by simp) (by decide)
  exact ⟨⟨hnames, hp, hn, hs⟩, hget.trans (by decide), i, hfirst, hlast⟩

end RenameTable

end Namespacing
