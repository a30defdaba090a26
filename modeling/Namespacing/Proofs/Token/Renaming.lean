import Namespacing.Proofs.RenameTable.Insertions
import Namespacing.Proofs.Layout.Declarations
set_option autoImplicit false

namespace Namespacing

open Lexeme Text

section

variable {ns : Namespace} {symbols : List Symbols} {tail : Text} {framed : Bool}

theorem Inserted.mem_cases (hns : ns.Accepted) (hsymbols : Symbols.Worded symbols) {z suffix : Text}
    (h : Inserted ns symbols framed z suffix) {c : Char} (hc : c ∈ z) :
    isRunChar c = true ∨ c = ':' ∨ c = ' ' := by
  by_cases hrun : isRunChar c = true
  · exact Or.inl hrun
  by_cases hcolon : c = ':'
  · exact Or.inr (Or.inl hcolon)
  obtain ⟨z₁, z₂, rfl⟩ := List.append_of_mem hc
  exact Or.inr (Or.inr (h.exists_of_mark hns hsymbols (by simpa using hrun) hcolon).1)

theorem Inserted.isPlain (hns : ns.Accepted) (hsymbols : Symbols.Worded symbols) {z suffix : Text}
    (h : Inserted ns symbols framed z suffix) {c : Char} (hc : c ∈ z) : isPlain c = true := by
  rcases h.mem_cases hns hsymbols hc with hc | rfl | rfl
  · exact isPlain_of_isRunChar hc
  · rfl
  · rfl

theorem Inserted.not_mem (hns : ns.Accepted) (hsymbols : Symbols.Worded symbols) {z suffix : Text}
    (h : Inserted ns symbols framed z suffix) {c : Char} (hc : c ∈ ['\n', '<', '?']) : c ∉ z := by
  have hall : ∀ c ∈ ['\n', '<', '?'], isRunChar c = false ∧ c ≠ ':' ∧ c ≠ ' ' := by decide
  obtain ⟨hrun, hcolon, hblank⟩ := hall c hc
  intro hmem
  rcases h.mem_cases hns hsymbols hmem with h | h | h
  · rw [hrun] at h
    cases h
  · exact hcolon h
  · exact hblank h

theorem Inserted.exists_cons {z suffix : Text} (h : Inserted ns symbols framed z suffix) :
    ∃ c y, z = c :: y ∧ (c = 's' ∨ c = '\\' ∧ framed = true) := by
  rcases h.starts with ⟨hframed, y, rfl⟩ | ⟨-, k, rfl⟩
  · exact ⟨'\\', y, rfl, Or.inr ⟨rfl, hframed⟩⟩
  · exact ⟨'s', _, rfl, Or.inl rfl⟩

theorem Inserted.eq_of_not_framed {z suffix : Text} {c : Char} (h : Inserted ns symbols false z (c :: suffix)) :
    c = 'f' := by
  generalize hframed : false = framed at h
  generalize hs : c :: suffix = s at h
  cases h with
  | qualifier => cases hframed
  | static => exact (List.cons.inj hs).1

/-- An automaton that text without a meaning leads to the same state, whatever its last character. -/
def Undisturbed {σ : Type} (step : σ → Char → Option σ) : Prop :=
  ∀ c, c ≠ '\\' → ∀ state, ∃ next, ∀ v : Text, (∀ d ∈ v ++ [c], isPlain d = true) →
    (v ++ [c]).head? ≠ some '/' → (v ++ [c]).foldlM step state = some next

theorem undisturbed_quotedStep {q : Char} (hq : isPlain q = false) : Undisturbed (quotedStep q) := by
  refine fun c hc escaped => ⟨false, fun v hv _ => foldlM_quotedStep (fun hmem => ?_) hc escaped⟩
  rw [hv q hmem] at hq
  cases hq

theorem undisturbed_attributeStep : Undisturbed attributeStep := by
  rintro c hc ⟨nested, _ | ⟨double, escaped⟩⟩
  · exact ⟨(nested, none), fun v hv _ => foldlM_attributeStep_none hv nested⟩
  · exact ⟨(nested, some (double, false)), fun v hv _ =>
      foldlM_attributeStep_some (foldlM_quotedStep (quoteMark_not_mem hv double) hc escaped)⟩

theorem undisturbed_blockStep : Undisturbed blockStep := by
  refine fun c hc star => ⟨false, fun v hv hhead => ?_⟩
  obtain ⟨d, w, hw⟩ := List.exists_cons_of_ne_nil (l := v ++ [c]) (by simp)
  rw [hw] at hv hhead ⊢
  have hd : d ≠ '/' := fun h => hhead (by rw [h]; rfl)
  have hstar : d ≠ '*' := by
    rintro rfl
    cases hv _ List.mem_cons_self
  rw [List.foldlM_cons]
  simp only [blockStep, hd, and_false, if_false, beq_false_of_ne hstar]
  exact foldlM_blockStep fun e he => hv e (List.mem_cons_of_mem _ he)

namespace Inserts

theorem eq_nil {t : Text} (h : Inserts ns symbols tail framed [] t) : t = [] := by
  cases h
  rfl

theorem head?_any {s t : Text} (h : Inserts ns symbols tail framed s t) {f : Char → Bool}
    (hf : f 's' = false ∧ f '\\' = false) (hs : s.head?.any f = false) : t.head?.any f = false := by
  cases h with
  | nil => rfl
  | cons hz _ =>
    rcases hz with rfl | hz
    · exact hs
    · obtain ⟨d, y, rfl, rfl | ⟨rfl, -⟩⟩ := hz.exists_cons
      · exact hf.1
      · exact hf.2

theorem head?_ne {s t : Text} (h : Inserts ns symbols tail framed s t) {c : Char}
    (hc : c ≠ 's' ∧ c ≠ '\\') (hs : s.head? ≠ some c) : t.head? ≠ some c := by
  have hany : ∀ {s : Text}, s.head?.any (· == c) = false ↔ s.head? ≠ some c := by
    intro s
    cases s <;> simp
  rw [← hany] at hs ⊢
  exact h.head?_any ⟨beq_false_of_ne hc.1.symm, beq_false_of_ne hc.2.symm⟩ hs

theorem head?_eq (hsymbols : Symbols.Worded symbols) {s t : Text} (h : Inserts ns symbols tail framed s t)
    (hs : s.head?.any isWordStart = false) : t.head? = s.head? := by
  cases s with
  | nil => rw [h.eq_nil]
  | cons c s =>
    obtain ⟨s', rfl, -⟩ := exists_of_not_word hsymbols hs h
    rfl

theorem head?_any_isWordChar (hsymbols : Symbols.Worded symbols) {s t : Text}
    (h : Inserts ns symbols tail framed s t) (hs : s.head?.any isWordChar = false) :
    t.head?.any isWordChar = false := by
  rw [h.head?_eq hsymbols]
  · exact hs
  · cases s with
    | nil => rfl
    | cons c s =>
      rw [List.head?_cons, Option.any_some, Bool.eq_false_iff] at hs ⊢
      exact fun hc => hs (isWordChar_of_isWordStart hc)

theorem exists_of_cons {t v : Text} {c : Char} (hs : c ≠ 's') (hback : framed = true → c ≠ '\\')
    (h : Inserts ns symbols tail framed t (c :: v)) :
    ∃ t', t = c :: t' ∧ Inserts ns symbols tail (isFrameMark c) t' v := by
  generalize hw : c :: v = w at h
  cases h with
  | nil => cases hw
  | @cons _ d t' v' z hz rest =>
    rcases hz with rfl | hz
    · obtain ⟨rfl, rfl⟩ := List.cons.inj hw
      exact ⟨t', rfl, rest⟩
    · obtain ⟨e, y, rfl, he⟩ := hz.exists_cons
      obtain ⟨rfl, -⟩ := List.cons.inj hw
      rcases he with he | ⟨he, hframed⟩
      · exact absurd he hs
      · exact absurd he (hback hframed)

theorem exists_of_letter {s t : Text} {c : Char} (hc : c ≠ 'f') (h : Inserts ns symbols tail false (c :: s) t) :
    ∃ s', t = c :: s' ∧ Inserts ns symbols tail (isFrameMark c) s s' := by
  cases h with
  | @cons _ _ _ s' z hz rest =>
    rcases hz with rfl | hz
    · exact ⟨s', rfl, rest⟩
    · exact absurd hz.eq_of_not_framed hc

theorem eq_self (hsymbols : Symbols.Worded symbols) {s t : Text} (hs : ∀ c ∈ s, isWordStart c = false)
    (h : Inserts ns symbols tail framed s t) : t = s := by
  induction s generalizing framed t with
  | nil => exact h.eq_nil
  | cons c s ih =>
    obtain ⟨s', rfl, hrest⟩ := exists_of_not_word hsymbols (hs c List.mem_cons_self) h
    rw [ih (fun d hd => hs d (List.mem_cons_of_mem _ hd)) hrest]

theorem endsLine_iff (hsymbols : Symbols.Worded symbols) {r r' : Text}
    (h : Inserts ns symbols tail framed r r') : EndsLine r' ↔ EndsLine r := by
  constructor
  · rintro (rfl | hr | ⟨t, rfl⟩)
    · cases r with
      | nil => exact Or.inl rfl
      | cons c r =>
        generalize hw : ([] : Text) = w at h
        cases h
        simp at hw
    · obtain ⟨t, rfl⟩ := List.head?_eq_some_iff.1 hr
      obtain ⟨r, rfl, -⟩ := h.exists_of_cons (by decide) (fun _ => by decide)
      exact Or.inr (Or.inl rfl)
    · obtain ⟨r, rfl, h'⟩ := h.exists_of_cons (by decide) (fun _ => by decide)
      obtain ⟨r, rfl, -⟩ := h'.exists_of_cons (by decide) (fun _ => by decide)
      exact Or.inr (Or.inr ⟨r, rfl⟩)
  · rintro (rfl | hr | ⟨t, rfl⟩)
    · exact Or.inl h.eq_nil
    · obtain ⟨t, rfl⟩ := List.head?_eq_some_iff.1 hr
      obtain ⟨r, rfl, -⟩ := exists_of_not_word hsymbols rfl h
      exact Or.inr (Or.inl rfl)
    · obtain ⟨r, rfl, h'⟩ := exists_of_not_word hsymbols rfl h
      obtain ⟨r, rfl, -⟩ := exists_of_not_word hsymbols rfl h'
      exact Or.inr (Or.inr ⟨r, rfl⟩)

theorem lineCommentLength_skip {z : Text} (hz : '\n' ∉ z ∧ '?' ∉ z) (s : Text) :
    lineCommentLength (z ++ s) = z.length + lineCommentLength s := by
  induction z with
  | nil => exact (Nat.zero_add _).symm
  | cons c z ih =>
    simp only [List.mem_cons, not_or] at hz
    have hends : ¬ EndsLine (c :: (z ++ s)) := by
      rintro (h | h | ⟨t, h⟩)
      · cases h
      · exact hz.1.1 (Option.some.inj h).symm
      · exact hz.2.1 (List.cons.inj h).1.symm
    rw [List.cons_append, lineCommentLength_cons hends, ih ⟨hz.1.2, hz.2.2⟩, List.length_cons]
    omega

theorem lineCommentLength_eq (hns : ns.Accepted) (hsymbols : Symbols.Worded symbols) {u u' r r' : Text}
    (h : Inserts ns symbols (r ++ tail) framed u u')
    (hr : Inserts ns symbols tail (framedBehind framed u) r r') (hu : lineCommentLength (u ++ r) = u.length) :
    lineCommentLength (u' ++ r') = u'.length := by
  induction h with
  | nil => exact lineCommentLength_eq_zero_iff.2 ((hr.endsLine_iff hsymbols).2 (lineCommentLength_eq_zero_iff.1 hu))
  | @cons framed c s s' z hz rest ih =>
    have hends : ¬ EndsLine (c :: (s ++ r)) := (lineCommentLength_eq_length_iff.1 hu).1 [] c s rfl
    have hboth : Inserts ns symbols tail framed (c :: (s ++ r)) (c :: (s' ++ r')) :=
      .cons (z := []) (Or.inl rfl) (rest.append hr)
    rw [List.cons_append, lineCommentLength_cons hends, List.length_cons, Nat.add_right_cancel_iff] at hu
    have hfree : '\n' ∉ z ∧ '?' ∉ z := by
      rcases hz with rfl | hz
      · simp
      · exact ⟨hz.not_mem hns hsymbols (by simp), hz.not_mem hns hsymbols (by simp)⟩
    rw [List.append_assoc, List.cons_append, lineCommentLength_skip hfree,
      lineCommentLength_cons (mt (hboth.endsLine_iff hsymbols).1 hends), ih hr hu]
    simp

theorem scan_eq {σ : Type} {step : σ → Char → Option σ} {state : σ} (hns : ns.Accepted)
    (hsymbols : Symbols.Worded symbols) (hstep : Undisturbed step) {u u' : Text}
    (h : Inserts ns symbols tail framed u u') (hu : scan step state u = some u.length) :
    scan step state u' = some u'.length := by
  induction h generalizing state with
  | nil => exact hu
  | @cons framed c s s' z hz rest ih =>
    have hkept : scan step state (c :: s') = some (c :: s').length := by
      rw [scan] at hu ⊢
      cases hc : step state c with
      | none =>
        rw [hc] at hu
        have hlen : s.length = 0 := by
          have := Option.some.inj hu
          simp only [List.length_cons] at this
          omega
        rw [List.eq_nil_of_length_eq_zero hlen] at rest
        rw [rest.eq_nil]
        rfl
      | some next =>
        rw [hc] at hu
        obtain ⟨m, hm, hlen⟩ := Option.map_eq_some_iff.1 hu
        obtain rfl : m = s.length := Nat.succ.inj hlen
        simp only [ih hm, Option.map_some, List.length_cons]
    rcases hz with rfl | hz
    · exact hkept
    obtain ⟨d, r, hcons, hd⟩ := hz.exists_word hsymbols
    obtain ⟨rfl, -⟩ := List.cons.inj hcons
    have hword := isWordChar_of_isWordStart hd
    have hback : c ≠ '\\' := by
      rintro rfl
      cases hd
    have hslash : c ≠ '/' := by
      rintro rfl
      cases hd
    have hplain := isPlain_of_isRunChar (isRunChar_of_isWordChar hword)
    obtain ⟨next, hnext⟩ := hstep c hback state
    have hone : step state c = some next := by
      have := hnext [] (by simpa using hplain) (by simpa using hslash)
      simpa [List.foldlM_cons] using this
    have hboth : (z ++ [c]).foldlM step state = some next := by
      refine hnext z (fun e he => ?_) ?_
      · rcases List.mem_append.1 he with he | he
        · exact hz.isPlain hns hsymbols he
        · rw [List.mem_singleton.1 he]
          exact hplain
      · obtain ⟨e, y, rfl, rfl | ⟨rfl, -⟩⟩ := hz.exists_cons <;> simp
    rw [scan, hone] at hkept
    have hassoc : z ++ c :: s' = (z ++ [c]) ++ s' := by simp
    obtain ⟨m, hm, hlen⟩ := Option.map_eq_some_iff.1 hkept
    obtain rfl : m = s'.length := Nat.succ.inj hlen
    rw [hassoc, scan_append, hboth]
    simp only [hm, Option.map_some, List.length_append]
    rw [Nat.add_comm]

end Inserts

theorem framedBehind_of_word {x : Text} (hx : ∀ c ∈ x, isWordChar c = true) : framedBehind false x = false := by
  by_cases hnil : x = []
  · rw [hnil]
    rfl
  · exact framedBehind_of_run ⟨hnil, fun c hc => isRunChar_of_isWordChar (hx c hc)⟩

def DeclaresFunction (symbols : List Symbols) (r : Text) : Prop :=
  ∃ container names n s t, .functions container names ∈ symbols ∧ n ∈ names ∧ s ∈ Frame.behindFunction ∧
    r = ' ' :: (n ++ (s ++ t))

theorem DeclaresFunction.exists_functions {r : Text} (h : DeclaresFunction symbols r) :
    ∃ container names, .functions container names ∈ symbols := by
  obtain ⟨container, names, -, -, -, hσ, -⟩ := h
  exact ⟨container, names, hσ⟩

theorem DeclaresFunction.exists_word (hsymbols : Symbols.Worded symbols) {r : Text}
    (h : DeclaresFunction symbols r) : ∃ d y, r = ' ' :: d :: y ∧ isWordChar d = true := by
  obtain ⟨container, names, n, s, t, hσ, hn, -, rfl⟩ := h
  obtain ⟨d, y, rfl, hd⟩ := exists_cons_of_isIdentifier (hsymbols.identifier _ hσ n hn)
  exact ⟨d, _, rfl, isWordChar_of_isWordStart hd⟩

/-- What happens to a word or a number: nothing, or a name at its end is qualified, or the word that declares
a function is and gets the word before it that makes a method static. -/
inductive Respells (ns : Namespace) (symbols : List Symbols) (framed : Bool) (r : Text) : Text → Text → Prop where
  | keep (w : Text) : Respells ns symbols framed r w w
  | name {x n s t : Text} {σ : Symbols} (hx : framedBehind framed x = true) (hσ : σ ∈ symbols) (hn : n ∈ σ.names)
      (hs : s ∈ σ.behind) (hr : r = s ++ t) : Respells ns symbols framed r (x ++ n) (x ++ (σ.qualifier ns ++ n))
  | static {x : Text} {k : Nat} (hr : DeclaresFunction symbols r) :
      Respells ns symbols framed r (x ++ functionWord) (x ++ (statics (k + 1) ++ functionWord))

theorem Respells.cons {r w w' : Text} {c : Char} (h : Respells ns symbols (isFrameMark c) r w w') :
    Respells ns symbols framed r (c :: w) (c :: w') := by
  cases h with
  | keep => exact .keep _
  | @name x n s t σ hx hσ hn hs hr => exact .name (x := c :: x) hx hσ hn hs hr
  | @static x k hr => exact .static (x := c :: x) hr

theorem Inserts.respells (hsymbols : Symbols.Worded symbols) {f : Char → Bool}
    (hword : ∀ c, isWordChar c = true → f c = true) (hnumber : ∀ c, f c = true → isNumberChar c = true)
    {w w' r : Text} (hw : ∀ c ∈ w, f c = true) (hr : r.head?.any f = false)
    (h : Inserts ns symbols r framed w w') : Respells ns symbols framed r w w' := by
  have hmarks : ∀ (σ : Symbols), ∀ s ∈ σ.behind, ∀ t, (s ++ t).head?.any f = false := by
    have hall : ∀ s ∈ Frame.behindClass ++ Frame.behindFunction, s ≠ [] ∧ s.head?.any isNumberChar = false := by
      decide
    intro σ s hs t
    obtain ⟨hne, hhead⟩ := hall s (by cases σ <;> simp_all [Symbols.behind])
    obtain ⟨c, s, rfl⟩ := List.exists_cons_of_ne_nil hne
    rw [List.cons_append, List.head?_cons, Option.any_some, Bool.eq_false_iff] at *
    exact fun hc => hhead (hnumber c hc)
  induction h with
  | nil => exact .keep []
  | @cons framed c s s' z hz rest ih =>
    have hrest := ih fun d hd => hw d (List.mem_cons_of_mem _ hd)
    rcases hz with rfl | hz
    · exact hrest.cons
    -- Nothing more comes in behind the first letter of the word.
    have hkept : ∀ {n t : Text}, (∀ c ∈ n, isWordChar c = true) → t.head?.any f = false →
        n ++ t = c :: (s ++ r) →
        ((∃ c names, .functions c names ∈ symbols) → n = c :: s → functionWord <:+ s →
          ∀ d y, t = ' ' :: d :: y → isWordChar d = false) → n = c :: s ∧ s' = s := by
      intro n t hn ht heq hstatic
      obtain ⟨rfl, rfl⟩ := append_inj_of_stop (fun c hc => hword c (hn c hc)) hw ht hr heq
      have hc := isFrameMark_of_isRunChar (isRunChar_of_isWordChar (hn c List.mem_cons_self))
      rw [hc] at hrest
      refine ⟨rfl, ?_⟩
      generalize hs : s = u at hrest
      cases hrest with
      | keep => rfl
      | @name x n _ _ σ hx =>
        rw [framedBehind_of_word fun d hd => hn d (by simp [hs, hd])] at hx
        cases hx
      | @static x k ht' =>
        obtain ⟨d, y, hdy, hd⟩ := ht'.exists_word hsymbols
        rw [hstatic ht'.exists_functions rfl ⟨x, hs.symm⟩ d y hdy] at hd
        cases hd
    generalize hsuffix : c :: (s ++ r) = suffix at hz
    cases hz with
    | @qualifier σ n s₁ t hσ hn hs₁ =>
      have hid := hsymbols.identifier σ hσ n hn
      obtain ⟨rfl, rfl⟩ := hkept (fun c => isWordChar_of_mem hid) (hmarks σ s₁ hs₁ t) hsuffix.symm
        fun ⟨c₁, names, hfun⟩ hn' hend => by
          have hsuf : functionWord <:+ n := hend.trans (hn' ▸ List.suffix_cons c s)
          cases σ with
          | functions => exact fun _ _ => Frame.not_word_behind_blank hs₁
          | globals => exact absurd hsuf (hsymbols.plain c₁ names hfun _ hσ trivial n hn).2
          | classLike => exact absurd hsuf (hsymbols.plain c₁ names hfun _ hσ trivial n hn).2
      rw [← List.cons_append] at hsuffix
      exact .name (x := []) rfl hσ hn hs₁ (List.append_cancel_left hsuffix)
    | @static _ container names n s₁ t hσ hn hs₁ k =>
      have hblank : ∀ t, (' ' :: t : Text).head?.any f = false := fun t => by
        rw [List.head?_cons, Option.any_some, Bool.eq_false_iff]
        exact fun h => by cases hnumber ' ' h
      obtain ⟨hsame, rfl⟩ := hkept (n := functionWord) (by decide) (hblank _) hsuffix.symm fun _ hn' hend => by
        have hlen := congrArg List.length hn'
        have hle := hend.length_le
        simp only [functionWord, List.length_cons] at hlen hle
        omega
      have hr : r = ' ' :: (n ++ (s₁ ++ t)) := by
        rw [hsame, List.cons_append] at hsuffix
        exact List.append_cancel_left (List.cons.inj hsuffix).2
      rw [← hsame]
      exact .static (x := []) ⟨container, names, n, s₁, t, hσ, hn, hs₁, hr⟩

/-- A label that no table changes and that comes in with none of its words. -/
structure SteadyLabel (symbols : List Symbols) (label : Text) : Prop where
  name : ∀ σ ∈ symbols, label ∉ σ.names
  plain : (∃ c names, .functions c names ∈ symbols) → ¬ staticWord <:+ label ∧ ¬ functionWord <:+ label

theorem isMarks_of_isBlank {blanks : Text} (h : ∀ c ∈ blanks, Lexeme.isBlank c = true) : IsMarks blanks := by
  intro c hc
  have := h c hc
  simp only [Lexeme.isBlank, Bool.or_eq_true, beq_iff_eq] at this
  rcases this with rfl | rfl <;> rfl

theorem isWordStart_of_isRunChar_eq_false {c : Char} (h : isRunChar c = false) : isWordStart c = false := by
  rw [Bool.eq_false_iff] at h ⊢
  exact fun hc => h (isRunChar_of_isWordChar (isWordChar_of_isWordStart hc))

namespace Inserts

theorem head?_any_isWordChar_of_result {s t : Text} (h : Inserts ns symbols tail framed s t)
    (hframed : framed = false) (ht : t.head?.any isWordChar = false) : s.head?.any isWordChar = false := by
  cases h with
  | nil => rfl
  | cons hz _ =>
    rcases hz with rfl | hz
    · exact ht
    · obtain ⟨d, y, rfl, rfl | ⟨-, htrue⟩⟩ := hz.exists_cons
      · cases ht
      · rw [hframed] at htrue
        cases htrue

section

variable {label : Text} (hlabel : label ≠ []) (hword : ∀ c ∈ label, isWordChar c = true)
  (hsteady : SteadyLabel symbols label) (hsymbols : Symbols.Worded symbols)

include hword hsteady hsymbols

theorem label_eq {r w : Text} (hr : r.head?.any isWordChar = false)
    (h : Inserts ns symbols r framed label w) : w = label := by
  have hspelled := h.respells hsymbols (fun _ hc => hc) (fun c hc => by simp [isNumberChar, hc]) hword hr
  generalize hl : label = l at hspelled
  cases hspelled with
  | keep => rfl
  | @name x n _ _ σ hx hσ hn =>
    exfalso
    cases x with
    | nil => exact hsteady.name σ hσ (hl ▸ hn)
    | cons c x =>
      have hrun : IsRun (c :: x) := ⟨by simp, fun d hd => isRunChar_of_isWordChar (hword d (by simp [hl] at hd ⊢; tauto))⟩
      rw [framedBehind_of_run hrun] at hx
      cases hx
  | @static x k hr => exact absurd ⟨x, hl.symm⟩ (hsteady.plain hr.exists_functions).2

include hlabel

theorem closingLabelLength?_eq_none {s t : Text} (h : Inserts ns symbols tail framed s t)
    (hs : closingLabelLength? label s = none) : closingLabelLength? label t = none := by
  cases ht : closingLabelLength? label t with
  | none => rfl
  | some n =>
    obtain ⟨blanks, rest, rfl, hblanks, hrest, -⟩ := (closingLabelLength?_eq_some_iff hlabel hword).1 ht
    obtain ⟨s₁, rfl, h₁⟩ := h.exists_of_marks (isMarks_of_isBlank hblanks)
    have hinner : ∀ c ∈ label, isFrameMark c = false ∧ c ≠ ' ' := fun c hc =>
      ⟨isFrameMark_of_isRunChar (isRunChar_of_isWordChar (hword c hc)), fun heq => by cases heq ▸ hword c hc⟩
    have hhead : label.head? ≠ some '\\' := by
      intro hhead
      obtain ⟨l, rfl⟩ := List.head?_eq_some_iff.1 hhead
      cases hword '\\' List.mem_cons_self
    obtain ⟨s₂, rfl, h₂⟩ := h₁.exists_of_run hsymbols hinner (fun _ => hhead) hrest
      fun hfun hend => absurd hend (hsteady.plain hfun).1
    have hrun : IsRun label := ⟨hlabel, fun c hc => isRunChar_of_isWordChar (hword c hc)⟩
    rw [framedBehind_of_run hrun] at h₂
    have := (closingLabelLength?_eq_some_iff hlabel hword).2
      ⟨blanks, s₂, rfl, hblanks, h₂.head?_any_isWordChar_of_result rfl hrest, rfl⟩
    rw [hs] at this
    cases this

theorem heredocBodyLength?_eq (hns : ns.Accepted) {start : Bool} {b b' r r' : Text}
    (h : Inserts ns symbols r framed b b') (hr : Inserts ns symbols [] (framedBehind framed b) r r')
    (hb : heredocBodyLength? label start (b ++ r) = some b.length) :
    heredocBodyLength? label start (b' ++ r') = some b'.length := by
  induction b generalizing framed start b' with
  | nil => exact absurd (List.suffix_nil.1 (suffix_of_heredocBodyLength? hlabel hword hb).1) hlabel
  | cons c b ih =>
    have hstop := (suffix_of_heredocBodyLength? hlabel hword hb).2
    have hboth : Inserts ns symbols [] framed (c :: b ++ r) (b' ++ r') := Inserts.append (by simpa using h) hr
    cases hclose : (if start then closingLabelLength? label (c :: (b ++ r)) else none) with
    | some n =>
      -- The line closes the here-document, and the label in it stays.
      rw [List.cons_append, heredocBodyLength?, hclose] at hb
      obtain rfl := Option.some.inj hb
      cases start with
      | false => cases hclose
      | true =>
        rw [if_pos rfl] at hclose
        obtain ⟨blanks, rest, heq, hblanks, hrest, hlen⟩ := (closingLabelLength?_eq_some_iff hlabel hword).1 hclose
        obtain ⟨hcb, rfl⟩ : c :: b = blanks ++ label ∧ r = rest := by
          rw [← List.cons_append, ← List.append_assoc] at heq
          exact List.append_inj heq (by rw [hlen, List.length_append])
        rw [hcb] at h
        obtain ⟨x, y, rfl, hx, hy⟩ := h.exists_of_append
        have hmarks := isMarks_of_isBlank hblanks
        obtain rfl := hx.eq_self hsymbols fun d hd => isWordStart_of_isRunChar_eq_false (hmarks d hd)
        obtain rfl := hy.label_eq hword hsteady hsymbols hstop
        have hclose' := (closingLabelLength?_eq_some_iff hlabel hword).2
          ⟨x, r', rfl, hblanks, hr.head?_any_isWordChar hsymbols hstop, rfl⟩
        rw [← List.append_assoc, ← hcb, ← hlen, List.cons_append] at hclose'
        rw [← hcb, List.cons_append, heredocBodyLength?, if_pos rfl, hclose']
    | none =>
      rw [List.cons_append, heredocBodyLength?, hclose] at hb
      obtain ⟨m, hm, hlen⟩ := Option.map_eq_some_iff.1 hb
      obtain rfl : m = b.length := Nat.succ.inj hlen
      cases h with
      | @cons _ _ _ b'' z hz rest =>
        have hrest := ih rest hr hm
        have hline : heredocBodyLength? label start (z ++ c :: (b'' ++ r')) =
            heredocBodyLength? label false (z ++ c :: (b'' ++ r')) := by
          cases start with
          | false => rfl
          | true =>
            rw [if_pos rfl] at hclose
            have := hboth.closingLabelLength?_eq_none hlabel hword hsteady hsymbols hclose
            exact heredocBodyLength?_of_not_closing (by simpa using this)
        have hnewline : '\n' ∉ z := by
          rcases hz with rfl | hz
          · simp
          · exact hz.not_mem hns hsymbols (by simp)
        rw [List.append_assoc, List.cons_append, hline, heredocBodyLength?_skip hnewline,
          heredocBodyLength?_of_not_start, hrest]
        simp
        omega

end

end Inserts

end

end Namespacing
