import Namespacing.Proofs.RenameTable.Bareness
import Namespacing.Proofs.Token.Renaming
set_option autoImplicit false

/-!
# Functions declared with one blank

No literal of a table reaches across the place in front of the word that declares a function, so a table
changes the text before that word and the text from it on one by one. Where one blank and the name of a
function with a mark behind it come next, the name is qualified, then made bare again, and the function made
static. Main theorem: the text from that word on becomes a static declaration.
-/

namespace Namespacing

open Text

section

variable {ns : Namespace} {symbols : List Symbols} {framed framed' : Bool} {tail : Text}

namespace Symbols

theorem Rule.exists_mark {container : Text} {names : List Text} {r : Rename}
    (h : Rule ns (.functions container names) r) : ∃ u, ∃ s ∈ Frame.behindFunction, r.1 = u ++ s := by
  cases h with
  | @qualify _ n q _ p s hgives _ hs =>
    cases hgives
    exact ⟨p ++ n, s, hs, rfl⟩
  | @restoreFunction _ _ n s _ hs => exact ⟨_, s, hs, rfl⟩

theorem Rule.exists_before_word (hns : ns.Accepted) (hsymbols : Worded symbols) {container : Text}
    {names : List Text} (hfun : .functions container names ∈ symbols) {σ : Symbols} (hσ : σ ∈ symbols)
    {r : Rename} (hr : Rule ns σ r) {w : Text} (hw : w ∈ [staticWord, functionWord]) {x a e : Text}
    (h : x ++ w ++ [' '] = a ++ r.1 ++ e) : ∃ f, x = a ++ r.1 ++ f := by
  have hletters : ∀ w ∈ [staticWord, functionWord], IsRun w ∧ ∀ c ∈ w, isWordChar c = true := by decide
  have hclasses : σ.AreClasses → ∃ f, x = a ++ r.1 ++ f := by
    intro hclasses
    obtain ⟨n, e', hn, he, rfl, -⟩ := hr.exists_edit fun c names heq => by
      rw [heq] at hclasses
      cases hclasses
    have hplain := hsymbols.plain container names hfun σ hσ hclasses n hn
    refine he.literalOf.before_word hns (hletters w hw).1 (hletters w hw).2 ?_ h
    simp only [List.mem_cons, List.not_mem_nil, or_false] at hw
    rcases hw with rfl | rfl
    · exact hplain.1
    · exact hplain.2
  cases σ with
  | globals => exact hclasses trivial
  | classLike => exact hclasses trivial
  | functions c names' =>
    obtain ⟨u, s, hs, hlit⟩ := hr.exists_mark
    obtain ⟨v, c, rfl, hc⟩ := Frame.exists_last_of_mem hs
    have hnot : ∀ w ∈ [staticWord, functionWord], ∀ c ∈ ['(', '\'', '"'], c ∉ w ++ [' '] := by decide
    rw [hlit, ← List.append_assoc a] at h ⊢
    rw [List.append_assoc x] at h
    exact exists_before_of_last (hnot w hw c hc) h

end Symbols

theorem exists_behind_letters {k t x e : Text} {m c : Char} (hk : ∀ c ∈ k, isWordChar c = true)
    (hc : isWordChar c = false) (h : k ++ m :: t = x ++ [c] ++ e) : ∃ y, x ++ [c] = k ++ m :: y := by
  have hnot : c ∉ k := fun hmem => by
    rw [hk c hmem] at hc
    cases hc
  rcases List.append_eq_append_iff.1 h with ⟨f, hf, hm⟩ | ⟨f, hf, -⟩
  · cases f with
    | nil => exact absurd (by rw [List.append_nil] at hf; simp [← hf]) hnot
    | cons m' y =>
      obtain ⟨rfl, -⟩ := List.cons.inj hm
      exact ⟨y, hf⟩
  · exact absurd (by simp [hf]) hnot

/-- No literal reaches across the end of a text that ends in no letter and into a word before a function. -/
theorem Symbols.Rule.not_straddles (hns : ns.Accepted) (hsymbols : Worded symbols) {container : Text}
    {names : List Text} (hfun : .functions container names ∈ symbols) {σ : Symbols} (hσ : σ ∈ symbols)
    {r : Rename} (hr : Rule ns σ r) {u w y : Text} {d : Char} (hu : u.getLast?.any isWordChar = false)
    (hw : w ∈ [staticWord, functionWord]) (hd : isRunChar d = true) : ¬ Straddles r.1 u (w ++ ' ' :: d :: y) := by
  rintro ⟨w₁, w₂, r₂, r₃, rfl, hsplit, hlit, hne, hne'⟩
  obtain ⟨x, c, rfl⟩ := (List.eq_nil_or_concat w₂).resolve_left hne
  rw [List.concat_eq_append] at *
  have hc : isWordChar c = false := by simpa [← List.append_assoc] using hu
  obtain ⟨n, e, hn, he, hre, -⟩ := hr.exists_edit fun c names heq => hsymbols.container c names (heq ▸ hσ)
  have hid := hsymbols.identifier σ hσ n hn
  have hform := he.literalOf
  rw [show e.literal = r.1 by rw [hre]] at hform
  have hblank : isRunChar ' ' = false := by decide
  -- The blank behind the word is behind the literal.
  obtain ⟨f, hf⟩ : ∃ f, x ++ [c] ++ w ++ [' '] = [] ++ r.1 ++ f := by
    generalize r.1 = p at hform hlit
    obtain @⟨k, z, s, m, hk, -, -, hz, hs⟩ := hform
    obtain ⟨v, hv⟩ := exists_behind_letters hk hc hlit
    rw [hv] at hlit ⊢
    have hbehind : z ++ n ++ s = v ++ r₂ := by simpa using hlit
    obtain ⟨f, hf⟩ := exists_behind_mark (b := r₃) (c := v ++ w) (r := y) hns hid hz hs hblank (by decide) hd
      (by rw [hbehind, List.append_assoc, ← hsplit]; simp)
    exact ⟨f, by simpa using hf⟩
  obtain ⟨g, hg⟩ := hr.exists_before_word hns hsymbols hfun hσ hw hf
  rw [hlit] at hg
  have := congrArg List.length hg
  have hpos := List.length_pos_iff.2 hne'
  simp only [List.length_append, List.nil_append] at this
  omega

namespace Inserts

theorem getLast?_eq {a u : Text} (h : Inserts ns symbols tail framed a u) : u.getLast? = a.getLast? := by
  induction h with
  | nil => rfl
  | @cons framed c s s' z hz rest ih =>
    rw [List.getLast?_append_of_ne_nil _ (by simp), List.getLast?_cons, List.getLast?_cons, ih]

theorem extend {a u : Text} (h : Inserts ns symbols [] framed a u) (r : Text) : Inserts ns symbols r framed a u := by
  induction h with
  | nil => exact .nil
  | @cons framed c s s' z hz rest ih =>
    refine .cons (hz.imp_right fun hz => ?_) ih
    generalize hsuffix : c :: (s ++ []) = suffix at hz
    rw [List.append_nil] at hsuffix
    rw [← List.cons_append, hsuffix]
    cases hz with
    | @qualifier σ n s' t hσ hn hs =>
      rw [List.append_assoc, List.append_assoc]
      exact .qualifier hσ hn hs
    | static hσ hn hs k =>
      rw [List.append_assoc, List.cons_append, List.append_assoc, List.append_assoc]
      exact .static hσ hn hs k

theorem exists_statics (hsymbols : Symbols.Worded symbols) {r v : Text} (hr : r.head?.any isWordChar = false)
    (h : Inserts ns symbols r framed functionWord v) : ∃ k, v = statics k ++ functionWord := by
  have hspelled := h.respells hsymbols (fun _ hc => hc) (fun c hc => by simp [isNumberChar, hc]) (by decide) hr
  generalize hword : functionWord = w at hspelled
  cases hspelled with
  | keep => exact ⟨0, rfl⟩
  | @name x n s t σ hx hσ hn =>
    have hkeyword := hsymbols.keyword σ hσ n hn
    cases x with
    | nil =>
      rw [List.nil_append] at hword
      rw [← hword] at hkeyword
      exact absurd hkeyword (by decide)
    | cons c x =>
      have hletters : ∀ c ∈ functionWord, isRunChar c = true := by decide
      rw [framedBehind_of_run ⟨by simp, fun d hd => hletters d (by rw [hword]; exact List.mem_append_left _ hd)⟩] at hx
      cases hx
  | @static x k =>
    obtain rfl : x = [] := by
      have := congrArg List.length hword
      simp only [List.length_append] at this
      exact List.eq_nil_of_length_eq_zero (by omega)
    exact ⟨k + 1, rfl⟩

theorem exists_word_blank (hsymbols : Symbols.Worded symbols) {y v : Text} {d : Char} (hd : isRunChar d = true)
    (h : Inserts ns symbols tail framed (functionWord ++ ' ' :: d :: y) v) :
    ∃ w ∈ [staticWord, functionWord], ∃ d' y', v = w ++ ' ' :: d' :: y' ∧ isRunChar d' = true := by
  obtain ⟨v₁, v₂, rfl, h₁, h₂⟩ := h.exists_of_append
  obtain ⟨k, rfl⟩ := h₁.exists_statics hsymbols rfl
  obtain ⟨v₃, rfl, h₃⟩ := exists_of_not_word hsymbols rfl h₂
  obtain ⟨d', y', rfl, hd'⟩ : ∃ d' y', v₃ = d' :: y' ∧ isRunChar d' = true := by
    cases h₃ with
    | cons hz rest =>
      rcases hz with rfl | hz
      · exact ⟨d, _, rfl, hd⟩
      · obtain ⟨c, z, rfl, rfl | ⟨rfl, -⟩⟩ := hz.exists_cons
        · exact ⟨'s', _, rfl, rfl⟩
        · exact ⟨'\\', _, rfl, rfl⟩
  cases k with
  | zero => exact ⟨functionWord, by simp, d', y', rfl, hd'⟩
  | succ k =>
    obtain ⟨e, t, het, he⟩ : ∃ e t, statics k ++ functionWord ++ ' ' :: d' :: y' = e :: t ∧ isRunChar e = true := by
      cases k with
      | zero => exact ⟨'f', _, rfl, rfl⟩
      | succ k => exact ⟨'s', _, rfl, rfl⟩
    refine ⟨staticWord, by simp, e, t, ?_, he⟩
    rw [← het]
    simp [statics]

end Inserts

/-- A table changes the text before the word that declares a function and the text from it on one by one. -/
theorem RenameTable.foldl_applyRename_append (hns : ns.Accepted) (hsymbols : Symbols.Worded symbols)
    {container : Text} {names : List Text} (hfun : .functions container names ∈ symbols) {renames : List Rename}
    (hrules : ∀ r ∈ renames, ∃ σ ∈ symbols, Symbols.Rule ns σ r) {a u v y : Text} {d : Char}
    (ha : a.getLast?.any isWordChar = false) (hd : isRunChar d = true)
    (hbare : Symbols.Bare ns symbols a) (hbare' : Symbols.Bare ns symbols (functionWord ++ ' ' :: d :: y))
    (hu : Inserts ns symbols tail framed a u)
    (hv : Inserts ns symbols tail framed' (functionWord ++ ' ' :: d :: y) v) :
    renames.foldl applyRename (u ++ v) = renames.foldl applyRename u ++ renames.foldl applyRename v := by
  induction renames generalizing u v with
  | nil => rfl
  | cons r renames ih =>
    obtain ⟨σ, hσ, hr⟩ := hrules r List.mem_cons_self
    have hsplit : applyRename (u ++ v) r = applyRename u r ++ applyRename v r := by
      obtain ⟨w, hw, d', y', rfl, hd'⟩ := hv.exists_word_blank hsymbols hd
      rw [applyRename_eq_replaceAll, applyRename_eq_replaceAll, applyRename_eq_replaceAll]
      exact replaceAll_append (ne_nil_of_rule hr)
        (hr.not_straddles hns hsymbols hfun hσ (by rw [hu.getLast?_eq]; exact ha) hw hd')
    rw [List.foldl_cons, List.foldl_cons, List.foldl_cons, hsplit]
    exact ih (fun x hx => hrules x (List.mem_cons_of_mem _ hx)) (hu.applyRename hns hsymbols ⟨σ, hσ, hr⟩ hbare)
      (hv.applyRename hns hsymbols ⟨σ, hσ, hr⟩ hbare')

theorem Symbols.Bare.of_infix {s t : Text} (h : Symbols.Bare ns symbols t) (hs : s <:+: t) :
    Symbols.Bare ns symbols s :=
  ⟨fun n hn kind hin => h.classLike n hn kind (hin.trans hs),
    fun c names hσ n hn hin => h.function c names hσ n hn (hin.trans hs)⟩

theorem RenameTable.substitute_append (hns : ns.Accepted) (hsymbols : Symbols.Worded symbols)
    {container : Text} {names : List Text} (hfun : .functions container names ∈ symbols) {a b y : Text} {d : Char}
    (ha : a.getLast?.any isWordChar = false) (hd : isRunChar d = true) (hb : b = functionWord ++ ' ' :: d :: y)
    (hbare : Symbols.Bare ns symbols (a ++ b)) :
    (ofSymbols ns symbols).substitute (a ++ b) =
      (ofSymbols ns symbols).substitute a ++ (ofSymbols ns symbols).substitute b := by
  subst hb
  simp only [substitute_eq_foldl]
  have hfront : Inserts ns symbols [] false a a := Inserts.refl a
  have hrest : Inserts ns symbols [] false (functionWord ++ ' ' :: d :: y) _ := Inserts.refl _
  exact foldl_applyRename_append hns hsymbols hfun (fun r hr => exists_rule_of_mem hr) ha hd
    (hbare.of_infix (List.prefix_append _ _).isInfix) (hbare.of_infix (List.suffix_append _ _).isInfix) hfront hrest

end

section

variable {ns : Namespace} {symbols : List Symbols} {container : Text} {names : List Text} {n s : Text}
  (hns : ns.Accepted) (hsymbols : Symbols.Worded symbols) (hfun : .functions container names ∈ symbols)
  (hn : n ∈ names) (hs : s ∈ Frame.behindFunction)
  (hunique : ∀ σ ∈ symbols, n ∈ σ.names → σ = .functions container names)

include hns hsymbols hfun hn hs hunique

theorem Symbols.Rule.keeps_declaration {σ : Symbols} (hσ : σ ∈ symbols) {r : Rename} (hr : Rule ns σ r) {p z : Text}
    (hp : p = [] ∨ p = staticWord ++ [' ']) (hz : z = [] ∨ z = ns.qualifyContainer container ++ "::".toList)
    (hforward : z = [] → r.1 ≠ [' '] ++ n ++ s) (hback : z ≠ [] → r.1 ≠ declaration functionWord z n s) {a b : Text}
    (h : p ++ declaration functionWord z n s <+: a ++ r.1 ++ b) :
    p ++ declaration functionWord z n s <+: a ++ r.2 ++ b := by
  have hid := hsymbols.identifier _ hfun n hn
  have hmarks := Frame.behindFunction_marks s hs
  have hletters : ∀ c ∈ functionWord, isWordChar c = true := by decide
  have hqualifier : Qualifier ns z := by
    rcases hz with rfl | rfl
    · exact .bare
    · exact .container (hsymbols.container _ _ hfun)
  have hblank : isRunChar ' ' = false ∧ ' ' ≠ ':' := by decide
  have hplain : '\\' ∉ p := by
    rcases hp with rfl | rfl <;> decide
  obtain ⟨y, hy⟩ := h
  -- Where the declaration lies behind the change, the change lies in the word before it.
  have hbeside : ∀ {x z' n' s' : Text} {m : Char}, isIdentifier n' = true → isRunChar m = false → m ≠ ':' →
      Qualifier ns z' → (s' ≠ [] ∧ IsMarks s') → a ++ r.1 ++ b = x ++ [m] ++ z' ++ (n' ++ s' ++ b) →
      (∃ c, x ++ [m] = p ++ declaration functionWord z n s ++ c) ∨
        (∃ c, n' ++ s' ++ b = c ++ declaration functionWord z n s ++ y ∧ p = x ++ [m] ++ z' ++ c) ∨
        m = ' ' ∧ z' = z ∧ n' = n ∧ s' ++ b = s ++ y := by
    intro x z' n' s' m hn' hm hcolon hz' hs' hsplit
    rw [hsplit] at hy
    rcases declaration_beside hns hletters hqualifier hid hmarks hn' hm hcolon hz' hs' hy.symm with h | ⟨c, hc⟩ | h
    · exact Or.inl h
    · refine Or.inr (Or.inl ⟨c, hc, ?_⟩)
      have hboth : p ++ (declaration functionWord z n s ++ y) =
          (x ++ [m] ++ z' ++ c) ++ (declaration functionWord z n s ++ y) := by
        rw [← List.append_assoc, hy, hc]
        simp
      exact List.append_cancel_right hboth
    · exact Or.inr (Or.inr h)
  cases hr with
  | @qualify _ n' q behind p' s' hgives hp' hs' =>
    obtain ⟨m, rfl, hm, hcolon⟩ := Frame.exists_mark hp'
    have hid' := hsymbols.identifier σ hσ n' hgives.mem_names
    rcases hbeside (x := a) hid' hm hcolon .bare (hgives.marks hs') (by simp) with ⟨c, hc⟩ | ⟨c, hc, hfront⟩ |
      ⟨rfl, hnil, rfl, hrest⟩
    · exact ⟨c ++ (q ++ s' ++ b), by rw [← List.append_assoc, ← hc]; simp⟩
    · exfalso
      rw [List.append_nil] at hfront
      rcases hp with rfl | rfl
      · simp at hfront
      -- The mark is the blank behind the word, so the changed name is the word that declares the function.
      have hm' : isWordChar m = false := by
        rw [Bool.eq_false_iff]
        intro hword
        rw [isRunChar_of_isWordChar hword] at hm
        cases hm
      obtain ⟨v, hv⟩ := exists_behind_letters (by decide) hm' hfront
      rw [hv, List.append_assoc] at hfront
      obtain rfl : c = [] := (List.append_eq_nil_iff.1 (List.cons.inj (List.append_cancel_left hfront)).2.symm).2
      have hsplit : n' ++ (s' ++ b) = functionWord ++ ' ' :: (z ++ n ++ s ++ y) := by
        rw [← List.append_assoc, hc]
        simp [declaration]
      have hkeyword := hsymbols.keyword σ hσ n' hgives.mem_names
      rw [(append_inj_of_stop (fun c => isWordChar_of_mem hid') hletters (head_not_word_of_marks (hgives.marks hs') b)
        rfl hsplit).1] at hkeyword
      exact absurd hkeyword (by decide)
    · obtain rfl := hunique σ hσ hgives.mem_names
      cases hgives
      obtain rfl := Frame.eq_of_append Frame.behindFunction_prefix hs' hs hrest
      exact absurd rfl (hforward hnil.symm)
  | @restoreClass n' kind s' hs' =>
    have hid' := hsymbols.identifier _ hσ n' (List.mem_singleton.2 rfl)
    rcases hbeside (x := a ++ kind.spelling) hid' hblank.1 hblank.2 .root (Frame.behindClass_marks s' hs')
      (by simp [Namespace.qualifyClass]) with ⟨c, hc⟩ | ⟨c, -, rfl⟩ | ⟨-, -, rfl, -⟩
    · exact ⟨c ++ (n' ++ s' ++ b), by rw [← List.append_assoc, ← hc]; simp⟩
    · exact absurd (by simp) hplain
    · cases hunique _ hσ (List.mem_singleton.2 rfl)
  | @restoreFunction container' names' n' s' hn' hs' =>
    have hid' := hsymbols.identifier _ hσ n' hn'
    have hcontainer' := hsymbols.container _ _ hσ
    have hlit : (functionDeclaration n' (ns.qualifyFunction container' n') s').1 =
        declaration functionWord (ns.qualifyContainer container' ++ "::".toList) n' s' :=
      functionDeclaration_eq ns container' n' s'
    have hrep : (functionDeclaration n' (ns.qualifyFunction container' n') s').2 =
        staticWord ++ ' ' :: (functionWord ++ ' ' :: (n' ++ s')) := rfl
    rw [hlit] at hforward hback hbeside
    rcases hbeside (x := a ++ functionWord) hid' hblank.1 hblank.2 (.container hcontainer')
      (Frame.behindFunction_marks s' hs') (by simp [declaration]) with ⟨c, hc⟩ | ⟨c, -, rfl⟩ | ⟨-, rfl, rfl, hrest⟩
    · obtain ⟨u, e, rfl, he⟩ := Frame.exists_last_of_mem hs
      have hnot : ∀ e ∈ ['(', '\'', '"'], e ∉ functionWord ++ [' '] := by decide
      have hdecl : declaration functionWord z n (u ++ [e]) = (functionWord ++ ' ' :: (z ++ n ++ u)) ++ [e] := by
        simp [declaration]
      rw [hdecl, List.append_assoc a] at hc
      obtain ⟨f, rfl⟩ := exists_before_of_last (hnot e he) hc
      rw [hdecl, hrep]
      exact ⟨f ++ staticWord ++ ' ' :: (functionWord ++ ' ' :: (n' ++ s')) ++ b, by simp⟩
    · exact absurd (by simp [Namespace.qualifyContainer]) hplain
    · obtain rfl := Frame.eq_of_append Frame.behindFunction_prefix hs' hs hrest
      exact absurd rfl (hback (by simp))

theorem RenameTable.declaration_prefix_foldl {renames : List Rename}
    (hrules : ∀ r ∈ renames, ∃ σ ∈ symbols, Symbols.Rule ns σ r) {p z : Text} (hp : p = [] ∨ p = staticWord ++ [' '])
    (hz : z = [] ∨ z = ns.qualifyContainer container ++ "::".toList)
    (hforward : z = [] → [' '] ++ n ++ s ∉ renames.map Prod.fst)
    (hback : z ≠ [] → declaration functionWord z n s ∉ renames.map Prod.fst) {v : Text}
    (h : p ++ declaration functionWord z n s <+: v) :
    p ++ declaration functionWord z n s <+: renames.foldl applyRename v := by
  induction renames generalizing v with
  | nil => exact h
  | cons r renames ih =>
    rw [List.map_cons, List.mem_cons, not_or] at hforward hback
    obtain ⟨σ, hσ, hr⟩ := hrules r List.mem_cons_self
    refine ih (fun r hr => hrules r (List.mem_cons_of_mem _ hr)) (fun h => (hforward h).2) (fun h => (hback h).2) ?_
    rw [applyRename_eq_replaceAll]
    exact replaceAll_induction (motive := fun v => p ++ declaration functionWord z n s <+: v) (ne_nil_of_rule hr)
      (fun a b => hr.keeps_declaration hns hsymbols hfun hn hs hunique hσ hp hz (fun h => Ne.symm (hforward h).1)
        fun h => Ne.symm (hback h).1) h

omit hns hsymbols hfun hn hs hunique in
theorem RenameTable.declaration_prefix_qualified {q v : Text} (h : declaration functionWord [] n s <+: v) :
    declaration functionWord q n s <+: applyRename v ([' '] ++ n ++ s, [' '] ++ (q ++ n) ++ s) := by
  obtain ⟨y, rfl⟩ := h
  have hblank : ' ' ∉ functionWord := by decide
  have hsplit : declaration functionWord [] n s ++ y = functionWord ++ (([' '] ++ n ++ s) ++ y) := by
    simp [declaration]
  have hapart : ¬ Straddles ([' '] ++ n ++ s) functionWord (([' '] ++ n ++ s) ++ y) := by
    rintro ⟨w₁, w₂, r₂, r₃, hw, -, hlit, hne, -⟩
    obtain ⟨c, w₂, rfl⟩ := List.exists_cons_of_ne_nil hne
    obtain rfl : ' ' = c := (List.cons.inj hlit).1
    exact hblank (by rw [hw]; simp)
  have habsent : contains ([' '] ++ n ++ s) functionWord = false := by
    rw [Bool.eq_false_iff, ne_eq, contains_iff]
    rintro ⟨a, b, hab⟩
    exact hblank (by rw [hab]; simp)
  rw [applyRename_eq_replaceAll, hsplit, replaceAll_append (by simp) hapart, replaceAll_of_not_contains habsent,
    replaceAll_append_self _ _ (by simp), ← List.append_assoc]
  refine List.IsPrefix.trans ?_ (List.prefix_append _ _)
  simp [declaration]

omit hns in
theorem RenameTable.exists_split_declaration : ∃ A B C, (ofSymbols ns symbols).toList =
      A ++ ([' '] ++ n ++ s, [' '] ++ (ns.qualifyContainer container ++ "::".toList ++ n) ++ s) ::
        (B ++ (declaration functionWord (ns.qualifyContainer container ++ "::".toList) n s,
          staticWord ++ [' '] ++ declaration functionWord [] n s) :: C) ∧
    [' '] ++ n ++ s ∉ A.map Prod.fst ++ C.map Prod.fst ∧
    declaration functionWord (ns.qualifyContainer container ++ "::".toList) n s ∉ B.map Prod.fst := by
  have hid := hsymbols.identifier _ hfun n hn
  have hfollows : (ofSymbols ns symbols).Follows ([' '] ++ n ++ s)
      (declaration functionWord (ns.qualifyContainer container ++ "::".toList) n s)
      (staticWord ++ [' '] ++ declaration functionWord [] n s) :=
    functionDeclaration_follows hsymbols.identifier hsymbols.container hfun hn hs
  obtain ⟨A', C, htable, hmem⟩ := hfollows.exists_split
  obtain ⟨⟨first, value⟩, hfirst, heq⟩ := List.mem_map.1 hmem
  obtain rfl : first = [' '] ++ n ++ s := heq
  obtain ⟨A, B, rfl⟩ := List.append_of_mem hfirst
  have hvalue : value = [' '] ++ (ns.qualifyContainer container ++ "::".toList ++ n) ++ s := by
    obtain ⟨σ, hσ, hr⟩ := exists_rule_of_mem (r := ([' '] ++ n ++ s, value)) (by rw [htable]; simp)
    obtain ⟨q, behind, hgives, -, rfl⟩ :=
      hr.of_framed (by decide) hid (Frame.behindFunction_marks s hs) (hsymbols.identifier σ hσ)
    obtain rfl := hunique σ hσ hgives.mem_names
    rw [hgives.eq_qualifier.1]
    rfl
  have hnodup := (ofSymbols ns symbols).nodup_literals
  rw [literals, htable, hvalue] at hnodup
  rw [htable, hvalue]
  generalize [' '] ++ n ++ s = first at *
  generalize declaration functionWord (ns.qualifyContainer container ++ "::".toList) n s = second at *
  rw [List.append_assoc, List.cons_append] at hnodup ⊢
  refine ⟨A, B, C, rfl, ?_⟩
  simp only [List.map_append, List.map_cons, List.nodup_append, List.nodup_cons, List.mem_append,
    List.mem_cons] at hnodup ⊢
  grind

/-- A function that is declared with one blank before its name and a mark behind it becomes static. -/
theorem RenameTable.static_prefix_substitute (t : Text) :
    staticWord ++ [' '] ++ declaration functionWord [] n s <+:
      (ofSymbols ns symbols).substitute (declaration functionWord [] n s ++ t) := by
  obtain ⟨A, B, C, htable, hforward, hback⟩ :=
    @exists_split_declaration ns symbols container names n s hsymbols hfun hn hs hunique
  have hrules : ∀ r ∈ (ofSymbols ns symbols).toList, ∃ σ ∈ symbols, Symbols.Rule ns σ r :=
    fun r hr => exists_rule_of_mem hr
  rw [substitute_eq_foldl]
  rw [htable] at hrules ⊢
  rw [List.mem_append, not_or] at hforward
  generalize hq : ns.qualifyContainer container ++ "::".toList = q at *
  have hne : q ≠ [] := by simp [← hq]
  rw [List.foldl_append, List.foldl_cons, List.foldl_append, List.foldl_cons]
  have hbare : declaration functionWord [] n s <+: A.foldl applyRename (declaration functionWord [] n s ++ t) :=
    declaration_prefix_foldl (p := []) hns hsymbols hfun hn hs hunique (fun r hr => hrules r (by simp [hr]))
      (Or.inl rfl) (Or.inl rfl) (fun _ => hforward.1) (fun h => absurd rfl h) (List.prefix_append _ _)
  have hrestored : ∀ r ∈ B, ∃ σ ∈ symbols, Symbols.Rule ns σ r := fun r hr => hrules r (by simp [hr])
  have hqualified := declaration_prefix_foldl (p := []) hns hsymbols hfun hn hs hunique hrestored (Or.inl rfl)
    (Or.inr hq.symm) (fun h => absurd h hne) (fun _ => hback) (declaration_prefix_qualified hbare)
  obtain ⟨y, hy⟩ := hqualified
  refine declaration_prefix_foldl hns hsymbols hfun hn hs hunique (fun r hr => hrules r (by simp [hr])) (Or.inr rfl)
    (Or.inl rfl) (fun _ => hforward.2) (fun h => absurd rfl h) ?_
  rw [List.nil_append] at hy
  rw [← hy, applyRename_eq_replaceAll, replaceAll_append_self _ _ (by simp [declaration])]
  exact List.prefix_append _ _

omit hns hunique in
theorem Inserts.exists_static {framed : Bool} {t v : Text}
    (h : Inserts ns symbols [] framed (declaration functionWord [] n s ++ t) v)
    (hv : staticWord ++ [' '] ++ declaration functionWord [] n s <+: v) :
    ∃ y, v = statics 1 ++ (functionWord ++ ' ' :: (n ++ (s ++ y))) ∧
      Inserts ns symbols [] (framedBehind false s) t y := by
  have hsplit : declaration functionWord [] n s ++ t = functionWord ++ ' ' :: (n ++ (s ++ t)) := by
    simp [declaration]
  rw [hsplit] at h
  obtain ⟨v₁, v₂, rfl, h₁, h₂⟩ := h.exists_of_append
  obtain ⟨k, rfl⟩ := h₁.exists_statics hsymbols rfl
  obtain ⟨v₃, rfl, h₃⟩ := exists_of_not_word hsymbols rfl h₂
  obtain ⟨y, hy⟩ := hv
  obtain rfl : k = 1 := by
    rcases k with _ | _ | k
    · cases (List.cons.inj hy).1
    · rfl
    · have hboth : (staticWord ++ [' ']) ++ (functionWord ++ ' ' :: (n ++ s ++ y)) =
          (staticWord ++ [' ']) ++ (staticWord ++ ' ' :: (statics k ++ functionWord ++ ' ' :: v₃)) := by
        simpa [statics, declaration] using hy
      cases (List.cons.inj (List.append_cancel_left hboth)).1
  have hbehind : v₃ = n ++ (s ++ y) := by
    have : statics 1 ++ functionWord ++ ' ' :: v₃ = statics 1 ++ functionWord ++ ' ' :: (n ++ (s ++ y)) := by
      rw [← hy]
      simp [statics, declaration]
    exact (List.cons.inj (List.append_cancel_left this)).2
  rw [hbehind] at h₃ ⊢
  obtain ⟨t', ht', hrest⟩ := h₃.exists_of_name hsymbols (hsymbols.identifier _ hfun n hn)
    (Frame.behindFunction_marks s hs) fun _ _ _ _ => Frame.not_word_behind_blank hs
  obtain rfl := List.append_cancel_left (List.append_cancel_left ht')
  exact ⟨y, List.append_assoc _ _ _, hrest⟩

/-- Where a function is declared with one blank before its name and a mark behind it, behind a text that ends in no
letter, the table puts in the word that makes it static, and changes the text before it and the text behind it. -/
theorem RenameTable.exists_substitute_declaration {a t : Text} (ha : a.getLast?.any isWordChar = false)
    (hbare : Symbols.Bare ns symbols (a ++ (declaration functionWord [] n s ++ t))) :
    ∃ a' v y, (ofSymbols ns symbols).substitute (a ++ (declaration functionWord [] n s ++ t)) = a' ++ v ∧
      v = statics 1 ++ (functionWord ++ ' ' :: (n ++ (s ++ y))) ∧
      Inserts ns symbols (declaration functionWord [] n s ++ t) false a a' ∧
      Inserts ns symbols [] (framedBehind false a) (declaration functionWord [] n s ++ t) v ∧
      Inserts ns symbols [] (framedBehind false s) t y := by
  have hrules : ∀ r ∈ (ofSymbols ns symbols).toList, ∃ σ ∈ symbols, Symbols.Rule ns σ r :=
    fun r hr => exists_rule_of_mem hr
  obtain ⟨d, w, hnd, hd⟩ := exists_cons_of_isIdentifier (hsymbols.identifier _ hfun n hn)
  have hb : declaration functionWord [] n s ++ t = functionWord ++ ' ' :: d :: (w ++ s ++ t) := by
    simp [declaration, hnd]
  have hfront : Inserts ns symbols [] false a ((ofSymbols ns symbols).substitute a) := by
    rw [substitute_eq_foldl]
    exact (Inserts.refl a).foldl_applyRename hns hsymbols hrules (hbare.of_infix (List.prefix_append _ _).isInfix)
  have hrest : Inserts ns symbols [] (framedBehind false a) (declaration functionWord [] n s ++ t)
      ((ofSymbols ns symbols).substitute (declaration functionWord [] n s ++ t)) := by
    rw [substitute_eq_foldl]
    exact (Inserts.refl _).foldl_applyRename hns hsymbols hrules (hbare.of_infix (List.suffix_append _ _).isInfix)
  obtain ⟨y, hy, hbehind⟩ := hrest.exists_static hsymbols hfun hn hs
    (static_prefix_substitute hns hsymbols hfun hn hs hunique t)
  have hrun := isRunChar_of_isWordChar (isWordChar_of_isWordStart hd)
  exact ⟨_, _, y, substitute_append hns hsymbols hfun ha hrun hb hbare, hy, hfront.extend _, hrest, hbehind⟩

end

end Namespacing
