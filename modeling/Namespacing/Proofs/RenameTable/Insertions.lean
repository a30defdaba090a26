import Namespacing.Proofs.RenameTable.Windows
import Namespacing.Proofs.Token.Starts
set_option autoImplicit false

namespace Namespacing

open Text

def isFrameMark (c : Char) : Bool :=
  Frame.before.any fun p => p == [c]

theorem isFrameMark_of_mem {p : Text} (hp : p ∈ Frame.before) : ∃ c, p = [c] ∧ isFrameMark c = true := by
  obtain ⟨c, rfl, -⟩ := Frame.exists_mark hp
  exact ⟨c, rfl, List.any_eq_true.2 ⟨[c], hp, beq_self_eq_true _⟩⟩

theorem isFrameMark_of_isRunChar {c : Char} (h : isRunChar c = true) : isFrameMark c = false := by
  refine List.any_eq_false.2 fun p hp heq => ?_
  obtain ⟨d, rfl, hrun, -⟩ := Frame.exists_mark hp
  obtain rfl := (List.cons.inj (eq_of_beq heq)).1
  rw [hrun] at h
  cases h

def framedBehind (framed : Bool) : Text → Bool
  | [] => framed
  | c :: s => framedBehind (isFrameMark c) s

theorem framedBehind_append (framed : Bool) (s t : Text) :
    framedBehind framed (s ++ t) = framedBehind (framedBehind framed s) t := by
  induction s generalizing framed with
  | nil => rfl
  | cons c s ih => exact ih _

theorem framedBehind_of_not_mark {framed : Bool} {r : Text} (hne : r ≠ [])
    (hall : ∀ c ∈ r, isFrameMark c = false) : framedBehind framed r = false := by
  induction r generalizing framed with
  | nil => exact absurd rfl hne
  | cons c r ih =>
    rw [framedBehind, hall c List.mem_cons_self]
    cases r with
    | nil => rfl
    | cons d r => exact ih (by simp) fun e he => hall e (List.mem_cons_of_mem _ he)

theorem framedBehind_of_run {framed : Bool} {r : Text} (hr : IsRun r) : framedBehind framed r = false :=
  framedBehind_of_not_mark hr.1 fun c hc => isFrameMark_of_isRunChar (hr.2 c hc)

theorem framedBehind_congr {framed framed' : Bool} {s : Text} (hs : s ≠ []) :
    framedBehind framed s = framedBehind framed' s := by
  obtain ⟨c, s, rfl⟩ := List.exists_cons_of_ne_nil hs
  rfl

def staticWord : Text :=
  ['s', 't', 'a', 't', 'i', 'c']

def functionWord : Text :=
  ['f', 'u', 'n', 'c', 't', 'i', 'o', 'n']

def statics : Nat → Text
  | 0 => []
  | k + 1 => staticWord ++ ' ' :: statics k

def Symbols.qualifier (ns : Namespace) : Symbols → Text
  | .globals _ => ['\\']
  | .classLike _ => '\\' :: (ns.root ++ ['\\'])
  | .functions container _ => ns.qualifyContainer container ++ "::".toList

/-- What may come in before a text, behind a mark that names stand behind or elsewhere. -/
inductive Inserted (ns : Namespace) (symbols : List Symbols) : Bool → Text → Text → Prop where
  | qualifier {σ : Symbols} {n s t : Text} (hσ : σ ∈ symbols) (hn : n ∈ σ.names) (hs : s ∈ σ.behind) :
      Inserted ns symbols true (σ.qualifier ns) (n ++ (s ++ t))
  | static {framed : Bool} {container : Text} {names : List Text} {n s t : Text}
      (hσ : .functions container names ∈ symbols) (hn : n ∈ names) (hs : s ∈ Frame.behindFunction) (k : Nat) :
      Inserted ns symbols framed (statics (k + 1)) (functionWord ++ ' ' :: (n ++ (s ++ t)))

/-- Symbols whose names are identifiers and no keywords. Where functions are among them, no class is named
with one of the two words that a method is declared with at the end. -/
structure Symbols.Worded (symbols : List Symbols) : Prop where
  identifier : ∀ σ ∈ symbols, ∀ n ∈ σ.names, isIdentifier n = true
  container : ∀ c names, .functions c names ∈ symbols → isIdentifier c = true
  keyword : ∀ σ ∈ symbols, ∀ n ∈ σ.names, Keyword.ofWord? n = none
  plain : ∀ c names, .functions c names ∈ symbols → ∀ σ ∈ symbols, σ.AreClasses → ∀ n ∈ σ.names,
    ¬ staticWord <:+ n ∧ ¬ functionWord <:+ n

structure Symbols.Bare (ns : Namespace) (symbols : List Symbols) (t : Text) : Prop where
  classLike : ∀ n, .classLike n ∈ symbols → ∀ kind : ClassKind, ¬ kind.spelling ++ ' ' :: ns.qualifyClass n <:+: t
  function : ∀ container names, .functions container names ∈ symbols → ∀ n ∈ names,
    ¬ functionWord ++ ' ' :: ns.qualifyFunction container n <:+: t

/-- A text and what becomes of it by insertions. `tail` stands behind the text. -/
inductive Inserts (ns : Namespace) (symbols : List Symbols) (tail : Text) : Bool → Text → Text → Prop where
  | nil {framed : Bool} : Inserts ns symbols tail framed [] []
  | cons {framed : Bool} {c : Char} {s s' z : Text}
      (hz : z = [] ∨ Inserted ns symbols framed z (c :: (s ++ tail)))
      (rest : Inserts ns symbols tail (isFrameMark c) s s') :
      Inserts ns symbols tail framed (c :: s) (z ++ c :: s')

section

variable {ns : Namespace} {symbols : List Symbols} {tail : Text} {framed : Bool}

theorem append_inj_of_stop {f : Char → Bool} {w w' r r' : Text} (hw : ∀ c ∈ w, f c = true)
    (hw' : ∀ c ∈ w', f c = true) (hr : r.head?.any f = false) (hr' : r'.head?.any f = false)
    (h : w ++ r = w' ++ r') : w = w' ∧ r = r' := by
  have htake := congrArg (List.takeWhile f) h
  have hdrop := congrArg (List.dropWhile f) h
  rw [Lexeme.takeWhile_append_of_stop hw hr, Lexeme.takeWhile_append_of_stop hw' hr'] at htake
  rw [Lexeme.dropWhile_append_of_stop hw hr, Lexeme.dropWhile_append_of_stop hw' hr'] at hdrop
  exact ⟨htake, hdrop⟩

theorem head_not_word_of_marks {s : Text} (hs : s ≠ [] ∧ IsMarks s) (t : Text) :
    (s ++ t).head?.any isWordChar = false := by
  obtain ⟨c, s, rfl⟩ := List.exists_cons_of_ne_nil hs.1
  have hc := hs.2 c List.mem_cons_self
  rw [List.cons_append, List.head?_cons, Option.any_some, Bool.eq_false_iff]
  intro hword
  rw [isRunChar_of_isWordChar hword] at hc
  cases hc

theorem Frame.not_word_behind_blank {s b r : Text} {d : Char} (hs : s ∈ behindFunction)
    (h : s ++ b = ' ' :: d :: r) : isWordChar d = false := by
  have hcases : ∀ s ∈ behindFunction, s.head? = some ' ' → s = [' ', '('] := by decide
  obtain ⟨c, s, rfl⟩ := List.exists_cons_of_ne_nil (behindFunction_marks s hs).1
  obtain ⟨rfl, h⟩ := List.cons.inj h
  obtain rfl := (List.cons.inj (hcases _ hs rfl)).2
  rw [← (List.cons.inj (List.cons.inj h).2).1]
  rfl

theorem statics_append (j k : Nat) : statics (j + k) = statics j ++ statics k := by
  induction j with
  | zero =>
    rw [Nat.zero_add]
    rfl
  | succ j ih =>
    rw [Nat.add_right_comm, statics, statics, ih, List.append_assoc]
    rfl

theorem eq_blank_of_statics {z₁ z₂ : Text} {m : Char} {k : Nat} (h : z₁ ++ m :: z₂ = statics k)
    (hm : isRunChar m = false) : m = ' ' ∧ ∃ j, z₂ = statics j := by
  induction k generalizing z₁ with
  | zero => simp [statics] at h
  | succ k ih =>
    have hword : ∀ c ∈ staticWord, isRunChar c = true := by decide
    rw [statics] at h
    rcases List.append_eq_append_iff.1 h with ⟨x, hx, hy⟩ | ⟨x, rfl, hy⟩
    · cases x with
      | nil =>
        obtain ⟨rfl, rfl⟩ := List.cons.inj hy
        exact ⟨rfl, k, rfl⟩
      | cons d x =>
        obtain ⟨rfl, -⟩ := List.cons.inj hy
        rw [hword m (by simp [hx])] at hm
        cases hm
    · cases x with
      | nil =>
        obtain ⟨rfl, rfl⟩ := List.cons.inj hy
        exact ⟨rfl, k, rfl⟩
      | cons d x =>
        exact ih (List.cons.inj hy).2.symm

theorem exists_cons_of_isIdentifier {n : Text} (hn : isIdentifier n = true) :
    ∃ c r, n = c :: r ∧ isWordStart c = true := by
  cases n with
  | nil => cases hn
  | cons c r =>
    simp only [isIdentifier, Bool.and_eq_true] at hn
    exact ⟨c, r, rfl, hn.1⟩

theorem Symbols.Gives.eq_qualifier {σ : Symbols} {n q : Text} {behind : List Text} (h : Gives ns σ n q behind) :
    q = σ.qualifier ns ++ n ∧ behind = σ.behind := by
  cases h with
  | global => exact ⟨rfl, rfl⟩
  | classLike => exact ⟨by simp [qualifier, Namespace.qualifyClass], rfl⟩
  | function => exact ⟨by simp [qualifier, Namespace.qualifyFunction_eq], rfl⟩

theorem Inserted.exists_word (hsymbols : Symbols.Worded symbols) {z suffix : Text}
    (h : Inserted ns symbols framed z suffix) : ∃ c r, suffix = c :: r ∧ isWordStart c = true := by
  cases h with
  | @qualifier σ n _ _ hσ hn =>
    obtain ⟨c, r, rfl, hc⟩ := exists_cons_of_isIdentifier (hsymbols.identifier σ hσ n hn)
    exact ⟨c, _, rfl, hc⟩
  | static => exact ⟨'f', _, rfl, rfl⟩

theorem Inserted.exists_name (hsymbols : Symbols.Worded symbols) {z suffix : Text}
    (h : Inserted ns symbols framed z suffix) : ∃ n s t, (∀ c ∈ n, isWordChar c = true) ∧
      (s ≠ [] ∧ IsMarks s) ∧ suffix = n ++ (s ++ t) := by
  cases h with
  | @qualifier σ n s t hσ hn hs =>
    exact ⟨n, s, t, fun c => isWordChar_of_mem (hsymbols.identifier σ hσ n hn), Symbols.behind_marks σ hs, rfl⟩
  | static => exact ⟨functionWord, [' '], _, by decide, by decide, rfl⟩

theorem Inserted.starts {z suffix : Text} (h : Inserted ns symbols framed z suffix) :
    framed = true ∧ (∃ y, z = '\\' :: y) ∨
      (∃ container names, .functions container names ∈ symbols) ∧ ∃ k, z = statics (k + 1) := by
  cases h with
  | @qualifier σ => cases σ <;> exact Or.inl ⟨rfl, _, rfl⟩
  | static hσ _ _ k => exact Or.inr ⟨⟨_, _, hσ⟩, k, rfl⟩

theorem Inserted.eq_qualifier {z suffix : Text} (h : Inserted ns symbols framed z suffix) :
    z = ['\\'] ∨ z = '\\' :: (ns.root ++ ['\\']) ∨
      (∃ container names, .functions container names ∈ symbols ∧ z = ns.qualifyContainer container ++ "::".toList) ∨
        ∃ k, z = statics (k + 1) := by
  cases h with
  | @qualifier σ _ _ _ hσ =>
    cases σ with
    | globals => exact Or.inl rfl
    | classLike => exact Or.inr (Or.inl rfl)
    | functions => exact Or.inr (Or.inr (Or.inl ⟨_, _, hσ, rfl⟩))
  | static _ _ _ k => exact Or.inr (Or.inr (Or.inr ⟨k, rfl⟩))

theorem exists_word_backslash {r : Text} (hr : ∀ c ∈ r, isRunChar c = true) (t : Text) :
    ∃ w y, r ++ '\\' :: t = w ++ '\\' :: y ∧ ∀ c ∈ w, isWordChar c = true := by
  induction r with
  | nil => exact ⟨[], t, rfl, by simp⟩
  | cons c r ih =>
    by_cases hc : c = '\\'
    · exact ⟨[], r ++ '\\' :: t, by rw [hc]; rfl, by simp⟩
    · obtain ⟨w, y, hwy, hw⟩ := ih fun d hd => hr d (List.mem_cons_of_mem _ hd)
      have hcword : isWordChar c = true := by
        have := hr c List.mem_cons_self
        simpa [isRunChar, hc] using this
      refine ⟨c :: w, y, by rw [List.cons_append, hwy]; rfl, fun d hd => ?_⟩
      rcases List.mem_cons.1 hd with rfl | hd
      · exact hcword
      · exact hw d hd

theorem Inserted.ends {z suffix : Text} (h : Inserted ns symbols framed z suffix) :
    ∃ y c, z = y ++ [c] ∧ isWordChar c = false := by
  cases h with
  | @qualifier σ =>
    cases σ with
    | globals => exact ⟨[], '\\', rfl, rfl⟩
    | classLike => exact ⟨'\\' :: ns.root, '\\', rfl, rfl⟩
    | functions container =>
      refine ⟨ns.qualifyContainer container ++ [':'], ':', ?_, rfl⟩
      rw [List.append_assoc]
      rfl
  | static _ _ _ k =>
    refine ⟨statics k ++ staticWord, ' ', ?_, rfl⟩
    rw [statics_append k 1, List.append_assoc]
    rfl

theorem Inserted.exists_of_mark (hns : ns.Accepted) (hsymbols : Symbols.Worded symbols) {z₁ z₂ suffix : Text}
    {m : Char} (h : Inserted ns symbols framed (z₁ ++ m :: z₂) suffix) (hm : isRunChar m = false)
    (hcolon : m ≠ ':') : m = ' ' ∧ ∃ j, z₂ = statics j ∧ ∃ r, suffix = functionWord ++ ' ' :: r ∧
      ∃ container names, .functions container names ∈ symbols := by
  generalize hz : z₁ ++ m :: z₂ = z at h
  have hmem : m ∈ z := by simp [← hz]
  cases h with
  | @qualifier σ n _ _ hσ =>
    exfalso
    have hrun : isRunChar m = true ∨ m = ':' := by
      cases σ with
      | globals =>
        rw [List.mem_singleton.1 hmem]
        exact Or.inl rfl
      | classLike =>
        simp only [Symbols.qualifier, List.mem_cons, List.mem_append, List.not_mem_nil, or_false] at hmem
        rcases hmem with rfl | hmem | rfl
        · exact Or.inl rfl
        · exact Or.inl (Namespace.isRunChar_of_mem_root hns.root hmem)
        · exact Or.inl rfl
      | functions container =>
        rcases List.mem_append.1 hmem with hmem | hmem
        · exact Or.inl ((Namespace.isRun_qualifyContainer hns (hsymbols.container _ _ hσ)).2 m hmem)
        · have : ∀ c ∈ "::".toList, c = ':' := by decide
          exact Or.inr (this m hmem)
    rcases hrun with hrun | hrun
    · rw [hm] at hrun
      cases hrun
    · exact hcolon hrun
  | @static _ container names n s t hσ _ _ k =>
    obtain ⟨hblank, j, hj⟩ := eq_blank_of_statics hz hm
    exact ⟨hblank, j, hj, _, rfl, container, names, hσ⟩

/-- Nothing but the word that makes a method static comes in before the word that declares it. -/
theorem Inserted.eq_statics (hsymbols : Symbols.Worded symbols) {z r : Text}
    (h : Inserted ns symbols framed z (functionWord ++ ' ' :: r)) : ∃ k, z = statics (k + 1) := by
  have hword : ∀ c ∈ functionWord, isWordChar c = true := by decide
  have hnot : Keyword.ofWord? functionWord ≠ none := by decide
  generalize hsuffix : functionWord ++ ' ' :: r = suffix at h
  cases h with
  | @qualifier σ n s t hσ hn hs =>
    have hn' := (append_inj_of_stop hword (fun c => isWordChar_of_mem (hsymbols.identifier σ hσ n hn)) rfl
      (head_not_word_of_marks (Symbols.behind_marks σ hs) t) hsuffix).1
    exact absurd (hn' ▸ hsymbols.keyword σ hσ n hn) hnot
  | static _ _ _ k => exact ⟨k, rfl⟩

namespace Inserts

theorem refl (s : Text) : Inserts ns symbols tail framed s s := by
  induction s generalizing framed with
  | nil => exact .nil
  | cons c s ih => exact .cons (z := []) (Or.inl rfl) ih

theorem append {w w' r r' : Text} (hw : Inserts ns symbols (r ++ tail) framed w w')
    (hr : Inserts ns symbols tail (framedBehind framed w) r r') :
    Inserts ns symbols tail framed (w ++ r) (w' ++ r') := by
  induction hw with
  | nil => exact hr
  | cons hz _ ih =>
    rw [List.append_assoc]
    rw [← List.append_assoc] at hz
    exact .cons hz (ih hr)

theorem exists_of_append {w r t : Text} (h : Inserts ns symbols tail framed (w ++ r) t) :
    ∃ w' r', t = w' ++ r' ∧ Inserts ns symbols (r ++ tail) framed w w' ∧
      Inserts ns symbols tail (framedBehind framed w) r r' := by
  induction w generalizing framed t with
  | nil => exact ⟨[], t, rfl, .nil, h⟩
  | cons c w ih =>
    cases h with
    | cons hz rest =>
      obtain ⟨w', r', rfl, hw, hr⟩ := ih rest
      have hz' := List.append_assoc w r tail ▸ hz
      exact ⟨_, r', by rw [List.append_assoc]; rfl, .cons hz' hw, hr⟩

/-- Where the result is cut: between two characters of the text, or in what came in. -/
theorem exists_of_result {t u v : Text} (h : Inserts ns symbols tail framed t (u ++ v)) :
    ∃ t₁ t₂ u₁ z₁, t = t₁ ++ t₂ ∧ u = u₁ ++ z₁ ∧ Inserts ns symbols (t₂ ++ tail) framed t₁ u₁ ∧
      (t₂ = [] ∧ z₁ = [] ∧ v = [] ∨ ∃ c t₃ z₂ v₃, t₂ = c :: t₃ ∧ v = z₂ ++ c :: v₃ ∧
        (z₁ ++ z₂ = [] ∨ Inserted ns symbols (framedBehind framed t₁) (z₁ ++ z₂) (c :: (t₃ ++ tail))) ∧
        Inserts ns symbols tail (isFrameMark c) t₃ v₃) := by
  generalize hw : u ++ v = w at h
  induction h generalizing u with
  | nil =>
    obtain ⟨rfl, rfl⟩ := List.append_eq_nil_iff.1 hw
    exact ⟨[], [], [], [], rfl, rfl, .nil, Or.inl ⟨rfl, rfl, rfl⟩⟩
  | @cons framed c s s' z hz rest ih =>
    rcases List.append_eq_append_iff.1 hw with ⟨x, rfl, rfl⟩ | ⟨x, rfl, hx⟩
    · exact ⟨[], c :: s, [], u, rfl, rfl, .nil, Or.inr ⟨c, s, x, s', rfl, rfl, hz, rest⟩⟩
    · cases x with
      | nil =>
        refine ⟨[], c :: s, [], z, rfl, by simp, .nil, Or.inr ⟨c, s, [], s', rfl, by simpa using hx.symm, ?_, rest⟩⟩
        rwa [List.append_nil]
      | cons d x =>
        obtain ⟨rfl, rfl⟩ := List.cons.inj hx
        obtain ⟨t₁, t₂, u₁, z₁, rfl, rfl, h₁, h₂⟩ := ih rfl
        have hz' := List.append_assoc t₁ t₂ tail ▸ hz
        exact ⟨c :: t₁, t₂, z ++ c :: u₁, z₁, rfl, by simp, .cons hz' h₁, h₂⟩

theorem exists_of_not_word (hsymbols : Symbols.Worded symbols) {c : Char} {s t : Text}
    (hc : isWordStart c = false) (h : Inserts ns symbols tail framed (c :: s) t) :
    ∃ s', t = c :: s' ∧ Inserts ns symbols tail (isFrameMark c) s s' := by
  cases h with
  | @cons _ _ _ s' z hz rest =>
    rcases hz with rfl | hz
    · exact ⟨s', rfl, rest⟩
    · obtain ⟨d, r, heq, hd⟩ := hz.exists_word hsymbols
      obtain ⟨rfl, -⟩ := List.cons.inj heq
      rw [hc] at hd
      cases hd

/-- A result without blanks and other marks was there before. A word may only come in behind a mark, or
where the word that makes a method static stands alone. -/
theorem exists_of_run (hsymbols : Symbols.Worded symbols) {t u v : Text}
    (h : Inserts ns symbols tail framed t (u ++ v)) (hu : ∀ c ∈ u, isFrameMark c = false ∧ c ≠ ' ')
    (hframed : framed = true → u.head? ≠ some '\\') (hv : v.head?.any isWordChar = false)
    (hstatic : (∃ container names, .functions container names ∈ symbols) → staticWord <:+ u →
      ∀ d r, v = ' ' :: d :: r → isWordChar d = false) :
    ∃ t', t = u ++ t' ∧ Inserts ns symbols tail (framedBehind framed u) t' v := by
  induction u generalizing framed t with
  | nil => exact ⟨t, rfl, h⟩
  | cons c u ih =>
    generalize hw : c :: u ++ v = w at h
    cases h with
    | nil => cases hw
    | @cons _ d s s' z hz rest =>
      rcases hz with rfl | hz
      · obtain ⟨rfl, rfl⟩ := List.cons.inj hw
        have hc := (hu c List.mem_cons_self).1
        rw [hc] at rest
        obtain ⟨t', rfl, hrest⟩ := ih rest (fun e he => hu e (List.mem_cons_of_mem _ he)) (by simp)
          (fun hfun hsuffix => hstatic hfun (hsuffix.trans (List.suffix_cons c u)))
        exact ⟨t', rfl, by rw [framedBehind, hc]; exact hrest⟩
      · exfalso
        obtain ⟨e, r, heq, he⟩ := hz.exists_word hsymbols
        obtain ⟨rfl, -⟩ := List.cons.inj heq
        rcases hz.starts with ⟨hf, y, rfl⟩ | ⟨hfun, k, rfl⟩
        · exact hframed hf (by rw [(List.cons.inj hw).1]; rfl)
        · -- The blank behind the word is not in `u`, so the word is `u` or reaches into `v`.
          obtain ⟨x, y, hxy, hx⟩ : ∃ x y, statics (k + 1) ++ d :: s' = staticWord ++ ' ' :: x :: y ∧
              isWordChar x = true := by
            cases k with
            | zero => exact ⟨d, s', rfl, isWordChar_of_isWordStart he⟩
            | succ k => exact ⟨'s', _, rfl, rfl⟩
          rw [hxy, List.cons_append] at hw
          rw [← List.cons_append] at hw
          rcases List.append_eq_append_iff.1 hw with ⟨p, hp, hvp⟩ | ⟨p, hp, hvp⟩
          · cases p with
            | nil =>
              rw [List.append_nil] at hp
              have := hstatic hfun ⟨[], hp⟩ x y hvp
              rw [hx] at this
              cases this
            | cons q p =>
              have hq : q ∈ staticWord := hp ▸ by simp
              have hword : ∀ q ∈ staticWord, isWordChar q = true := by decide
              rw [hvp] at hv
              simp [hword q hq] at hv
          · cases p with
            | nil =>
              rw [List.append_nil] at hp
              have := hstatic hfun ⟨[], hp.symm⟩ x y hvp.symm
              rw [hx] at this
              cases this
            | cons q p =>
              obtain ⟨rfl, -⟩ := List.cons.inj hvp
              exact (hu ' ' (by rw [hp]; simp)).2 rfl

theorem exists_of_marks {t u v : Text} (h : Inserts ns symbols tail framed t (u ++ v)) (hu : IsMarks u) :
    ∃ t', t = u ++ t' ∧ Inserts ns symbols tail (framedBehind framed u) t' v := by
  induction u generalizing framed t with
  | nil => exact ⟨t, rfl, h⟩
  | cons c u ih =>
    generalize hw : c :: u ++ v = w at h
    cases h with
    | nil => cases hw
    | @cons _ d s s' z hz rest =>
      rcases hz with rfl | hz
      · obtain ⟨rfl, rfl⟩ := List.cons.inj hw
        obtain ⟨t', rfl, hrest⟩ := ih rest fun e he => hu e (List.mem_cons_of_mem _ he)
        exact ⟨t', rfl, hrest⟩
      · -- What comes in starts with no mark.
        have hc := hu c List.mem_cons_self
        rcases hz.starts with ⟨-, y, rfl⟩ | ⟨-, k, rfl⟩
        · rw [(List.cons.inj hw).1] at hc
          cases hc
        · rw [show c = 's' from (List.cons.inj hw).1] at hc
          cases hc

theorem eq_of_words {t v : Text} (h : Inserts ns symbols tail framed t v)
    (hv : ∀ c ∈ v, isWordChar c = true) : t = v := by
  induction h with
  | nil => rfl
  | cons hz _ ih =>
    rcases hz with rfl | hz
    · rw [List.nil_append] at hv ⊢
      rw [ih fun e he => hv e (List.mem_cons_of_mem _ he)]
    · obtain ⟨y, c, rfl, hc⟩ := hz.ends
      rw [hv c (by simp)] at hc
      cases hc

theorem exists_of_last_word {t a k : Text} (hk : k ≠ []) (hword : ∀ c ∈ k, isWordChar c = true)
    (h : Inserts ns symbols tail framed t (a ++ k)) :
    ∃ t₀ u₁ z₁, t = t₀ ++ k ∧ a = u₁ ++ z₁ ∧ Inserts ns symbols (k ++ tail) framed t₀ u₁ ∧
      (z₁ = [] ∨ Inserted ns symbols (framedBehind framed t₀) z₁ (k ++ tail)) := by
  obtain ⟨t₁, t₂, u₁, z₁, rfl, rfl, h₁, ⟨-, -, rfl⟩ | ⟨c, t₃, z₂, v₃, rfl, rfl, hz, hrest⟩⟩ := h.exists_of_result
  · exact absurd rfl hk
  · obtain rfl : t₃ = v₃ := eq_of_words hrest fun e he => hword e (by simp [he])
    obtain rfl : z₂ = [] := by
      by_contra hne
      rcases hz with hz | hz
      · exact hne (List.append_eq_nil_iff.1 hz).2
      · obtain ⟨y, d, hy, hd⟩ := hz.ends
        obtain ⟨z₂, e, rfl⟩ := List.eq_nil_or_concat z₂ |>.resolve_left hne
        rw [List.concat_eq_append, ← List.append_assoc] at hy
        obtain rfl : e = d := (List.cons.inj (List.append_inj' hy rfl).2).1
        rw [hword e (by simp)] at hd
        cases hd
    rw [List.append_nil] at hz
    exact ⟨t₁, u₁, z₁, rfl, rfl, h₁, hz⟩

theorem exists_of_mark (hns : ns.Accepted) (hsymbols : Symbols.Worded symbols) {t a v : Text} {m : Char}
    (h : Inserts ns symbols tail framed t (a ++ m :: v)) (hm : isRunChar m = false) (hcolon : m ≠ ':') :
    (∃ t₁ t₃, t = t₁ ++ m :: t₃ ∧ Inserts ns symbols (m :: t₃ ++ tail) framed t₁ a ∧
      Inserts ns symbols tail (isFrameMark m) t₃ v) ∨
    ∃ j c t₃ v₃ r, m = ' ' ∧ v = statics j ++ c :: v₃ ∧ c :: (t₃ ++ tail) = functionWord ++ ' ' :: r ∧
      (∃ container names, .functions container names ∈ symbols) ∧ Inserts ns symbols tail (isFrameMark c) t₃ v₃ := by
  obtain ⟨t₁, t₂, u₁, z₁, rfl, rfl, h₁, ⟨-, -, hv⟩ | ⟨c, t₃, z₂, v₃, rfl, hv, hz, hrest⟩⟩ :=
    h.exists_of_result
  · cases hv
  cases z₂ with
  | nil =>
    obtain ⟨rfl, rfl⟩ := List.cons.inj hv
    refine Or.inl ⟨t₁, t₃, rfl, ?_, hrest⟩
    rcases hz with hz | hz
    · obtain ⟨rfl, -⟩ := List.append_eq_nil_iff.1 hz
      rwa [List.append_nil]
    · obtain ⟨d, r, heq, hd⟩ := hz.exists_word hsymbols
      obtain ⟨rfl, -⟩ := List.cons.inj heq
      rw [isRunChar_of_isWordChar (isWordChar_of_isWordStart hd)] at hm
      cases hm
  | cons d z₂ =>
    obtain ⟨rfl, rfl⟩ := List.cons.inj hv
    rcases hz with hz | hz
    · simp at hz
    obtain ⟨rfl, j, hj, r, hr, hfun⟩ := hz.exists_of_mark hns hsymbols hm hcolon
    exact Or.inr ⟨j, c, t₃, v₃, r, rfl, by rw [hj]; rfl, hr, hfun, hrest⟩

/-- A name of the result was there before. -/
theorem exists_of_name (hsymbols : Symbols.Worded symbols) {t b n s : Text}
    (h : Inserts ns symbols tail framed t (n ++ (s ++ b))) (hn : isIdentifier n = true)
    (hs : s ≠ [] ∧ IsMarks s)
    (hstatic : (∃ container names, .functions container names ∈ symbols) → staticWord <:+ n →
      ∀ d r, s ++ b = ' ' :: d :: r → isWordChar d = false) :
    ∃ t', t = n ++ (s ++ t') ∧ Inserts ns symbols tail (framedBehind false s) t' b := by
  have hword : ∀ c ∈ n, isFrameMark c = false ∧ c ≠ ' ' := fun c hc =>
    ⟨isFrameMark_of_isRunChar (isRunChar_of_isWordChar (isWordChar_of_mem hn hc)),
      fun h => by cases h ▸ isWordChar_of_mem hn hc⟩
  have hhead : n.head? ≠ some '\\' := by
    obtain ⟨c, r, rfl, hc⟩ := exists_cons_of_isIdentifier hn
    rintro heq
    rw [Option.some.inj heq] at hc
    cases hc
  obtain ⟨t', rfl, hrest⟩ :=
    h.exists_of_run hsymbols hword (fun _ => hhead) (head_not_word_of_marks hs b) hstatic
  rw [framedBehind_of_run (isRun_of_isIdentifier hn)] at hrest
  obtain ⟨t₄, rfl, hlast⟩ := hrest.exists_of_marks hs.2
  exact ⟨t₄, rfl, hlast⟩

theorem exists_of_framed (hns : ns.Accepted) (hsymbols : Symbols.Worded symbols) {t a b n s : Text} {m : Char}
    (h : Inserts ns symbols tail framed t (a ++ m :: (n ++ (s ++ b)))) (hm : isFrameMark m = true)
    (hn : isIdentifier n = true) (hkeyword : n ≠ functionWord) (hs : s ≠ [] ∧ IsMarks s)
    (hstatic : (∃ container names, .functions container names ∈ symbols) → staticWord <:+ n →
      ∀ d r, s ++ b = ' ' :: d :: r → isWordChar d = false) :
    ∃ t₁ t₄, t = t₁ ++ m :: (n ++ (s ++ t₄)) ∧
      Inserts ns symbols (m :: (n ++ (s ++ t₄)) ++ tail) framed t₁ a ∧
      Inserts ns symbols tail (framedBehind false s) t₄ b := by
  have hrun : isRunChar m = false ∧ m ≠ ':' := by
    obtain ⟨p, hp, hpm⟩ := List.any_eq_true.1 hm
    obtain ⟨c, rfl, hrun⟩ := Frame.exists_mark hp
    obtain rfl := (List.cons.inj (eq_of_beq hpm)).1
    exact hrun
  have hbehind := head_not_word_of_marks hs
  rcases h.exists_of_mark hns hsymbols hrun.1 hrun.2 with ⟨t₁, t₃, rfl, h₁, h₃⟩ |
    ⟨j, c, t₃, v₃, r, rfl, hv, hsuffix, hfun, hrest⟩
  · obtain ⟨t₄, rfl, h₄⟩ := h₃.exists_of_name hsymbols hn hs hstatic
    exact ⟨t₁, t₄, rfl, h₁, h₄⟩
  · exfalso
    have hnword : ∀ c ∈ n, isWordChar c = true := fun c => isWordChar_of_mem hn
    cases j with
    | zero =>
      have hkept : Inserts ns symbols tail false (c :: t₃) (n ++ (s ++ b)) := by
        rw [hv]
        exact .cons (z := []) (Or.inl rfl) hrest
      obtain ⟨t₄, ht₄, -⟩ := hkept.exists_of_name hsymbols hn hs hstatic
      rw [← List.cons_append, ht₄, List.append_assoc, List.append_assoc] at hsuffix
      exact hkeyword (append_inj_of_stop hnword (by decide) (hbehind _) rfl hsuffix).1
    | succ j =>
      obtain ⟨x, y, hxy, hx⟩ : ∃ x y, statics j ++ c :: v₃ = x :: y ∧ isWordChar x = true := by
        cases j with
        | zero => exact ⟨c, v₃, rfl, by rw [(List.cons.inj hsuffix).1]; rfl⟩
        | succ j => exact ⟨'s', _, rfl, rfl⟩
      rw [statics, List.append_assoc, List.cons_append, hxy] at hv
      obtain ⟨rfl, hrest⟩ := append_inj_of_stop hnword (by decide) (hbehind b) rfl hv
      have := hstatic hfun (List.suffix_refl _) x y hrest
      rw [hx] at this
      cases this

theorem keep {w r r' : Text} (h : Inserts ns symbols tail (framedBehind framed w) r r') :
    Inserts ns symbols tail framed (w ++ r) (w ++ r') :=
  (refl w).append h

theorem qualify (hns : ns.Accepted) (hsymbols : Symbols.Worded symbols) {t a b n s z : Text} {m : Char}
    (h : Inserts ns symbols tail framed t (a ++ m :: (n ++ (s ++ b)))) (hm : isFrameMark m = true)
    (hn : isIdentifier n = true) (hkeyword : n ≠ functionWord) (hs : s ≠ [] ∧ IsMarks s)
    (hstatic : (∃ container names, .functions container names ∈ symbols) → staticWord <:+ n →
      ∀ d r, s ++ b = ' ' :: d :: r → isWordChar d = false)
    (hz : ∀ t, Inserted ns symbols true z (n ++ (s ++ t))) :
    Inserts ns symbols tail framed t (a ++ m :: (z ++ (n ++ (s ++ b)))) := by
  obtain ⟨t₁, t₄, rfl, h₁, h₄⟩ := h.exists_of_framed hns hsymbols hm hn hkeyword hs hstatic
  refine h₁.append (.cons (z := []) (Or.inl rfl) ?_)
  rw [hm]
  obtain ⟨c, r, rfl, -⟩ := exists_cons_of_isIdentifier hn
  have hrest : Inserts ns symbols tail (isFrameMark c) (r ++ (s ++ t₄)) (r ++ (s ++ b)) := by
    refine keep (keep ?_)
    rwa [framedBehind_congr hs.1]
  have hassoc : c :: r ++ (s ++ (t₄ ++ tail)) = c :: (r ++ (s ++ t₄) ++ tail) := by simp
  exact .cons (Or.inr (hassoc ▸ hz (t₄ ++ tail))) hrest

theorem exists_of_blank (hns : ns.Accepted) (hsymbols : Symbols.Worded symbols) {t a y : Text}
    (h : Inserts ns symbols tail framed t (a ++ ' ' :: '\\' :: y)) :
    ∃ t₁ t₃, t = t₁ ++ ' ' :: t₃ ∧ Inserts ns symbols (' ' :: t₃ ++ tail) framed t₁ a ∧
      Inserts ns symbols tail true t₃ ('\\' :: y) := by
  rcases h.exists_of_mark hns hsymbols rfl (by decide) with h | ⟨j, c, t₃, v₃, r, -, hv, hsuffix, -⟩
  · exact h
  · cases j with
    | zero =>
      obtain ⟨rfl, -⟩ := List.cons.inj hv
      cases (List.cons.inj hsuffix).1
    | succ j => cases (List.cons.inj hv).1

theorem exists_of_backslash {t y : Text} (h : Inserts ns symbols tail framed t ('\\' :: y)) :
    (∃ t', t = '\\' :: t' ∧ Inserts ns symbols tail false t' y) ∨
    ∃ z d s s', t = d :: s ∧ '\\' :: y = z ++ d :: s' ∧ framed = true ∧
      Inserted ns symbols true z (d :: (s ++ tail)) ∧ Inserts ns symbols tail (isFrameMark d) s s' := by
  generalize hw : '\\' :: y = w at h
  cases h with
  | nil => cases hw
  | @cons _ d s s' z hz rest =>
    rcases hz with rfl | hz
    · obtain ⟨rfl, rfl⟩ := List.cons.inj hw
      exact Or.inl ⟨s, rfl, rest⟩
    · rcases hz.starts with ⟨rfl, -⟩ | ⟨-, k, rfl⟩
      · exact Or.inr ⟨z, d, s, s', rfl, hw ▸ rfl, rfl, hz, rest⟩
      · cases (List.cons.inj hw).1

theorem not_backslash (hsymbols : Symbols.Worded symbols) {z s s' w y : Text} {d : Char}
    (hz : Inserted ns symbols framed z (d :: (s ++ tail)))
    (h : Inserts ns symbols tail (isFrameMark d) s s') (hw : ∀ c ∈ w, isWordChar c = true) :
    d :: s' ≠ w ++ '\\' :: y := by
  intro heq
  obtain ⟨c, r, hcons, hc⟩ := hz.exists_word hsymbols
  obtain ⟨rfl, -⟩ := List.cons.inj hcons
  have hkept : Inserts ns symbols tail false (d :: s) (w ++ '\\' :: y) := by
    rw [← heq]
    exact .cons (z := []) (Or.inl rfl) h
  have hne : w ≠ [] := by
    rintro rfl
    rw [(List.cons.inj heq).1] at hc
    cases hc
  have hrun : ∀ c ∈ w, isRunChar c = true := fun c hmem => isRunChar_of_isWordChar (hw c hmem)
  obtain ⟨t', ht', hrest⟩ := hkept.exists_of_run hsymbols
    (fun c hmem => ⟨isFrameMark_of_isRunChar (hrun c hmem), fun h => by cases h ▸ hw c hmem⟩)
    (by simp) rfl (fun _ _ d r h => by cases h)
  rw [framedBehind_of_run ⟨hne, hrun⟩] at hrest
  rcases hrest.exists_of_backslash with ⟨t', rfl, -⟩ | ⟨_, _, _, _, -, -, hfalse, -⟩
  · obtain ⟨n, s₀, t₀, hn, hs₀, hsuffix⟩ := hz.exists_name hsymbols
    rw [← List.cons_append, ht', List.append_assoc] at hsuffix
    have := (append_inj_of_stop hw hn rfl (head_not_word_of_marks hs₀ t₀) hsuffix).2
    obtain ⟨c, s₀, rfl⟩ := List.exists_cons_of_ne_nil hs₀.1
    have hc := hs₀.2 c List.mem_cons_self
    rw [← (List.cons.inj this).1] at hc
    cases hc
  · cases hfalse

theorem restoreClass (hns : ns.Accepted) (hsymbols : Symbols.Worded symbols) {t a b n s : Text}
    {kind : ClassKind} (hn : .classLike n ∈ symbols) (hs : s ∈ Frame.behindClass)
    (hbare : ¬ kind.spelling ++ ' ' :: ns.qualifyClass n <:+: t)
    (h : Inserts ns symbols tail framed t (a ++ (kind.spelling ++ ' ' :: (ns.qualifyClass n ++ (s ++ b))))) :
    Inserts ns symbols tail framed t (a ++ (kind.spelling ++ ' ' :: (n ++ (s ++ b)))) := by
  have hid : isIdentifier n = true := hsymbols.identifier _ hn n (List.mem_singleton.2 rfl)
  have hmarks := Frame.behindClass_marks s hs
  have hplain : (∃ container names, .functions container names ∈ symbols) → ¬ staticWord <:+ n :=
    fun ⟨c, names, hfun⟩ => (hsymbols.plain c names hfun _ hn trivial n (List.mem_singleton.2 rfl)).1
  have hkind : kind.spelling ≠ [] ∧ ∀ c ∈ kind.spelling, isWordChar c = true := by cases kind <;> decide
  have hqualified : ns.qualifyClass n ++ (s ++ b) = '\\' :: (ns.root ++ '\\' :: (n ++ (s ++ b))) := by
    simp [Namespace.qualifyClass]
  rw [hqualified, ← List.append_assoc] at h
  obtain ⟨t₁, t₃, rfl, h₁, h₃⟩ := h.exists_of_blank hns hsymbols
  obtain ⟨t₀, -, -, rfl, -⟩ := h₁.exists_of_last_word hkind.1 hkind.2
  suffices ∃ t₄, t₃ = n ++ (s ++ t₄) ∧ Inserts ns symbols tail (framedBehind false s) t₄ b by
    obtain ⟨t₄, rfl, h₄⟩ := this
    rw [← List.append_assoc a]
    refine h₁.append (.cons (z := []) (Or.inl rfl) (keep (keep ?_)))
    rwa [framedBehind_congr hmarks.1]
  rcases h₃.exists_of_backslash with ⟨t', rfl, h'⟩ | ⟨z, d, s₃, s₃', rfl, heq, -, hz, hrest⟩
  · -- The whole qualified name stood in the text.
    exfalso
    have hassoc : ns.root ++ '\\' :: (n ++ (s ++ b)) = (ns.root ++ '\\' :: n) ++ (s ++ b) := by simp
    have hrun := (Namespace.isRun_qualifyClass hns.root hid).2
    have hinner : ∀ c ∈ ns.root ++ '\\' :: n, isFrameMark c = false ∧ c ≠ ' ' := by
      intro c hc
      have := hrun c (by rw [Namespace.qualifyClass]; exact List.mem_cons_of_mem _ hc)
      exact ⟨isFrameMark_of_isRunChar this, fun h => by cases h ▸ this⟩
    rw [hassoc] at h'
    obtain ⟨t'', rfl, -⟩ := h'.exists_of_run hsymbols hinner (by simp) (head_not_word_of_marks hmarks b)
      fun hfun hsuffix => absurd (suffix_of_not_mem (by decide) hsuffix) (hplain hfun)
    refine hbare ⟨t₀, t'', ?_⟩
    simp [Namespace.qualifyClass]
  · rcases hz.eq_qualifier with rfl | rfl | ⟨container, names, hσ, rfl⟩ | ⟨k, rfl⟩
    · exfalso
      obtain ⟨w, y, hwy, hw⟩ := exists_word_backslash
        (fun c => Namespace.isRunChar_of_mem_root hns.root) (n ++ (s ++ b))
      exact not_backslash hsymbols hz hrest hw ((List.cons.inj heq).2.symm.trans hwy)
    · have hcancel : d :: s₃' = n ++ (s ++ b) := by simpa using heq.symm
      have hkept : Inserts ns symbols tail false (d :: s₃) (n ++ (s ++ b)) := by
        rw [← hcancel]
        exact .cons (z := []) (Or.inl rfl) hrest
      exact hkept.exists_of_name hsymbols hid hmarks fun hfun hsuffix => absurd hsuffix (hplain hfun)
    · exfalso
      have hcancel : n ++ (s ++ b) = ns.functionsSegment ++ '\\' :: (container ++ ("::".toList ++ d :: s₃')) := by
        simpa [Namespace.qualifyContainer, Namespace.functionsRoot] using heq
      have := (append_inj_of_stop (fun c => isWordChar_of_mem hid) (fun c => isWordChar_of_mem hns.segment)
        (head_not_word_of_marks hmarks b) rfl hcancel).2
      obtain ⟨c, s, rfl⟩ := List.exists_cons_of_ne_nil hmarks.1
      have hc := hmarks.2 c List.mem_cons_self
      rw [(List.cons.inj this).1] at hc
      cases hc
    · cases (List.cons.inj heq).1

theorem restoreFunction (hns : ns.Accepted) (hsymbols : Symbols.Worded symbols) {t a b n s container : Text}
    {names : List Text} (hσ : .functions container names ∈ symbols) (hn : n ∈ names)
    (hs : s ∈ Frame.behindFunction)
    (hbare : ¬ functionWord ++ ' ' :: ns.qualifyFunction container n <:+: t)
    (h : Inserts ns symbols tail framed t
      (a ++ (functionWord ++ ' ' :: (ns.qualifyFunction container n ++ (s ++ b))))) :
    Inserts ns symbols tail framed t
      (a ++ (staticWord ++ ' ' :: (functionWord ++ ' ' :: (n ++ (s ++ b))))) := by
  have hid : isIdentifier n = true := hsymbols.identifier _ hσ n hn
  have hcontainer : isIdentifier container = true := hsymbols.container _ _ hσ
  have hmarks := Frame.behindFunction_marks s hs
  have hqualified : ns.qualifyFunction container n ++ (s ++ b) =
      '\\' :: (ns.root ++ '\\' :: (ns.functionsSegment ++ '\\' :: (container ++ ':' :: ':' :: (n ++ (s ++ b))))) := by
    simp [Namespace.qualifyFunction, Namespace.functionsRoot]
  rw [hqualified, ← List.append_assoc] at h
  obtain ⟨t₁, t₃, rfl, h₁, h₃⟩ := h.exists_of_blank hns hsymbols
  obtain ⟨t₀, u₁, z₁, rfl, rfl, h₀, hz₁⟩ := h₁.exists_of_last_word (by decide) (by decide)
  suffices ∃ t₄, t₃ = n ++ (s ++ t₄) ∧ Inserts ns symbols tail (framedBehind false s) t₄ b by
    obtain ⟨t₄, rfl, h₄⟩ := this
    obtain ⟨k, rfl⟩ : ∃ k, z₁ = statics k := by
      rcases hz₁ with rfl | hz₁
      · exact ⟨0, rfl⟩
      · obtain ⟨k, rfl⟩ := hz₁.eq_statics hsymbols
        exact ⟨k + 1, rfl⟩
    have hz : Inserted ns symbols (framedBehind framed t₀) (statics (k + 1))
        (functionWord ++ ' ' :: (n ++ (s ++ (t₄ ++ tail)))) := .static hσ hn hs k
    have hjoin : statics k ++ (staticWord ++ ' ' :: (functionWord ++ ' ' :: (n ++ (s ++ b)))) =
        statics (k + 1) ++ (functionWord ++ ' ' :: (n ++ (s ++ b))) := by
      rw [statics_append k 1, List.append_assoc]
      rfl
    obtain ⟨g, hg⟩ : ∃ g, functionWord = 'f' :: g := ⟨_, rfl⟩
    rw [List.append_assoc u₁, hjoin, List.append_assoc t₀]
    refine Inserts.append (by simpa using h₀) ?_
    rw [hg] at hz ⊢
    refine .cons (Or.inr (by simpa using hz)) (keep (.cons (z := []) (Or.inl rfl) (keep (keep ?_))))
    rwa [framedBehind_congr hmarks.1]
  rcases h₃.exists_of_backslash with ⟨t', rfl, h'⟩ | ⟨z, d, s₃, s₃', rfl, heq, -, hz, hrest⟩
  · -- The whole qualified name stood in the text.
    exfalso
    have hassoc : ns.root ++ '\\' :: (ns.functionsSegment ++ '\\' :: (container ++ ':' :: ':' :: (n ++ (s ++ b)))) =
        (ns.root ++ '\\' :: (ns.functionsSegment ++ '\\' :: (container ++ ':' :: ':' :: n))) ++ (s ++ b) := by simp
    have hinner : ∀ c ∈ ns.root ++ '\\' :: (ns.functionsSegment ++ '\\' :: (container ++ ':' :: ':' :: n)),
        isFrameMark c = false ∧ c ≠ ' ' := by
      have hrun : ∀ c, isRunChar c = true → isFrameMark c = false ∧ c ≠ ' ' := fun c hc =>
        ⟨isFrameMark_of_isRunChar hc, fun h => by cases h ▸ hc⟩
      have hword : ∀ w, isIdentifier w = true → ∀ c ∈ w, isFrameMark c = false ∧ c ≠ ' ' := fun w hw c hc =>
        hrun c (isRunChar_of_isWordChar (isWordChar_of_mem hw hc))
      intro c hc
      simp only [List.mem_append, List.mem_cons] at hc
      rcases hc with hc | rfl | hc | rfl | hc | rfl | rfl | hc
      · exact hrun c (Namespace.isRunChar_of_mem_root hns.root hc)
      · exact hrun _ rfl
      · exact hword _ hns.segment c hc
      · exact hrun _ rfl
      · exact hword _ hcontainer c hc
      · decide
      · decide
      · exact hword _ hid c hc
    rw [hassoc] at h'
    obtain ⟨t'', rfl, -⟩ := h'.exists_of_run hsymbols hinner (by simp) (head_not_word_of_marks hmarks b)
      fun _ _ _ _ => Frame.not_word_behind_blank hs
    refine hbare ⟨t₀, t'', ?_⟩
    simp [Namespace.qualifyFunction, Namespace.functionsRoot]
  · rcases hz.eq_qualifier with rfl | rfl | ⟨container', names', hσ', rfl⟩ | ⟨k, rfl⟩
    · exfalso
      obtain ⟨w, y, hwy, hw⟩ := exists_word_backslash (fun c => Namespace.isRunChar_of_mem_root hns.root)
        (ns.functionsSegment ++ '\\' :: (container ++ ':' :: ':' :: (n ++ (s ++ b))))
      exact not_backslash hsymbols hz hrest hw ((List.cons.inj heq).2.symm.trans hwy)
    · exfalso
      have hcancel : ns.functionsSegment ++ '\\' :: (container ++ ':' :: ':' :: (n ++ (s ++ b))) = d :: s₃' := by
        simpa using heq
      exact not_backslash hsymbols hz hrest (fun c => isWordChar_of_mem hns.segment) hcancel.symm
    · have hcancel : container ++ ':' :: ':' :: (n ++ (s ++ b)) = container' ++ ':' :: ':' :: (d :: s₃') := by
        simpa [Namespace.qualifyContainer, Namespace.functionsRoot] using heq
      obtain ⟨rfl, hrest'⟩ := append_inj_of_stop (fun c => isWordChar_of_mem hcontainer)
        (fun c => isWordChar_of_mem (hsymbols.container _ _ hσ')) rfl rfl hcancel
      have hkept : Inserts ns symbols tail false (d :: s₃) (n ++ (s ++ b)) := by
        rw [(List.cons.inj (List.cons.inj hrest').2).2]
        exact .cons (z := []) (Or.inl rfl) hrest
      exact hkept.exists_of_name hsymbols hid hmarks fun _ _ _ _ => Frame.not_word_behind_blank hs
    · cases (List.cons.inj heq).1

theorem step (hns : ns.Accepted) (hsymbols : Symbols.Worded symbols) {t a b : Text} {σ : Symbols}
    {r : Rename} (hσ : σ ∈ symbols) (hr : Symbols.Rule ns σ r) (hbare : Symbols.Bare ns symbols t)
    (h : Inserts ns symbols tail framed t (a ++ r.1 ++ b)) :
    Inserts ns symbols tail framed t (a ++ r.2 ++ b) := by
  cases hr with
  | @qualify _ n q behind p s hgives hp hs =>
    obtain ⟨m, rfl, hm⟩ := isFrameMark_of_mem hp
    have hid := hsymbols.identifier σ hσ n hgives.mem_names
    have hkeyword : n ≠ functionWord := by
      rintro rfl
      cases hsymbols.keyword σ hσ _ hgives.mem_names
    have hmarks := hgives.marks hs
    have hbefore : a ++ ([m] ++ n ++ s) ++ b = a ++ m :: (n ++ (s ++ b)) := by simp
    obtain ⟨rfl, rfl⟩ := hgives.eq_qualifier
    have hstatic : (∃ c names, .functions c names ∈ symbols) → staticWord <:+ n → ∀ d r, s ++ b = ' ' :: d :: r →
        isWordChar d = false := by
      rintro ⟨c, names, hfun⟩ hend
      cases σ with
      | functions => exact fun _ _ => Frame.not_word_behind_blank hs
      | globals => exact absurd hend (hsymbols.plain c names hfun _ hσ trivial n hgives.mem_names).1
      | classLike => exact absurd hend (hsymbols.plain c names hfun _ hσ trivial n hgives.mem_names).1
    have hbehind : a ++ ([m] ++ (σ.qualifier ns ++ n) ++ s) ++ b =
        a ++ m :: (σ.qualifier ns ++ (n ++ (s ++ b))) := by simp
    rw [hbefore] at h
    rw [hbehind]
    exact h.qualify hns hsymbols hm hid hkeyword hmarks hstatic fun t =>
      .qualifier hσ hgives.mem_names hs
  | @restoreClass n kind s hs =>
    have hbefore : a ++ (kind.spelling ++ ' ' :: ns.qualifyClass n ++ s) ++ b =
        a ++ (kind.spelling ++ ' ' :: (ns.qualifyClass n ++ (s ++ b))) := by simp
    have hbehind : a ++ (kind.spelling ++ ' ' :: n ++ s) ++ b =
        a ++ (kind.spelling ++ ' ' :: (n ++ (s ++ b))) := by simp
    rw [hbefore] at h
    rw [hbehind]
    exact h.restoreClass hns hsymbols hσ hs (hbare.classLike n hσ kind)
  | @restoreFunction container names n s hn hs =>
    have hbefore : a ++ (Symbols.functionDeclaration n (ns.qualifyFunction container n) s).1 ++ b =
        a ++ (functionWord ++ ' ' :: (ns.qualifyFunction container n ++ (s ++ b))) := by
      rw [show _ = functionWord ++ ' ' :: _ ++ s from Symbols.fst_functionDeclaration _ _ _]
      simp
    have hbehind : a ++ (Symbols.functionDeclaration n (ns.qualifyFunction container n) s).2 ++ b =
        a ++ (staticWord ++ ' ' :: (functionWord ++ ' ' :: (n ++ (s ++ b)))) := by
      rw [show _ = staticWord ++ ' ' :: functionWord ++ ' ' :: n ++ s from Symbols.snd_functionDeclaration _ _ _]
      simp
    rw [hbefore] at h
    rw [hbehind]
    exact h.restoreFunction hns hsymbols hσ hn hs (hbare.function container names hσ n hn)

theorem applyRename (hns : ns.Accepted) (hsymbols : Symbols.Worded symbols) {t v : Text} {r : Rename}
    (hr : ∃ σ ∈ symbols, Symbols.Rule ns σ r) (hbare : Symbols.Bare ns symbols t)
    (h : Inserts ns symbols tail framed t v) :
    Inserts ns symbols tail framed t (RenameTable.applyRename v r) := by
  obtain ⟨σ, hσ, hrule⟩ := hr
  rw [RenameTable.applyRename_eq_replaceAll]
  exact replaceAll_induction (ne_nil_of_rule hrule) (fun a b => step hns hsymbols hσ hrule hbare) h

theorem foldl_applyRename (hns : ns.Accepted) (hsymbols : Symbols.Worded symbols) {t v : Text}
    {renames : List Rename} (hrules : ∀ r ∈ renames, ∃ σ ∈ symbols, Symbols.Rule ns σ r)
    (hbare : Symbols.Bare ns symbols t) (h : Inserts ns symbols tail framed t v) :
    Inserts ns symbols tail framed t (renames.foldl RenameTable.applyRename v) := by
  induction renames generalizing v with
  | nil => exact h
  | cons r renames ih =>
    exact ih (fun x hx => hrules x (List.mem_cons_of_mem _ hx))
      (h.applyRename hns hsymbols (hrules r List.mem_cons_self) hbare)

end Inserts

end

end Namespacing
