import Namespacing.Proofs.Token.Heredoc
set_option autoImplicit false

/-!
# Texts with their characters spread out

A text is spread out when blanks may follow each newline and each character outside ASCII may become
several such characters; the indentation of a text and its octets are of this kind. The scanners answer
for the spread text what they answer for the text: the lexeme is the spread lexeme.
-/

namespace Namespacing

/-- What stands for a character: itself, a newline with blanks behind it, or characters outside
ASCII. -/
structure Spreads (g : Char → Text) : Prop where
  plain : ∀ c : Char, c.toNat < 128 → c ≠ '\n' → g c = [c]
  newline : ∃ k, g '\n' = '\n' :: List.replicate k ' '
  wide : ∀ c : Char, 128 ≤ c.toNat → g c ≠ [] ∧ ∀ d ∈ g c, 128 ≤ d.toNat

namespace Lexeme

theorem ne_of_wide {c d : Char} (hc : 128 ≤ c.toNat) (hd : d.toNat < 128) : c ≠ d := by
  rintro rfl
  omega

theorem isWordChar_of_wide {c : Char} (hc : 128 ≤ c.toNat) : Text.isWordChar c = false := by
  have hval : 128 ≤ c.val.toNat := hc
  have hne : c ≠ '_' := ne_of_wide hc (by decide)
  have hZ : 'Z'.val.toNat = 90 := rfl
  have hz : 'z'.val.toNat = 122 := rfl
  have h9 : '9'.val.toNat = 57 := rfl
  simp only [Text.isWordChar, Char.isAlphanum, Bool.or_eq_false_iff, beq_eq_false_iff_ne]
  delta Char.isAlpha Char.isUpper Char.isLower Char.isDigit
  simp only [Bool.or_eq_false_iff, Bool.and_eq_false_iff, decide_eq_false_iff_not, ge_iff_le,
    UInt32.le_iff_toNat_le]
  refine ⟨?_, hne⟩
  omega

theorem isSpace_of_wide {c : Char} (hc : 128 ≤ c.toNat) : isSpace c = false := by
  have h : ∀ d : Char, d.toNat < 128 → c ≠ d := fun d hd => ne_of_wide hc hd
  simp [isSpace, isBlank, h ' ' (by decide), h '\t' (by decide), h '\r' (by decide),
    h '\n' (by decide)]

theorem isBlank_of_wide {c : Char} (hc : 128 ≤ c.toNat) : isBlank c = false := by
  have h := isSpace_of_wide hc
  simp only [isSpace, Bool.or_eq_false_iff] at h
  exact h.1.1

theorem toNat_lt_of_isWordChar {c : Char} (h : Text.isWordChar c = true) : c.toNat < 128 := by
  by_contra hc
  rw [isWordChar_of_wide (by omega)] at h
  cases h

theorem toNat_lt_of_isBlank {c : Char} (h : isBlank c = true) : c.toNat < 128 := by
  by_contra hc
  rw [isBlank_of_wide (by omega)] at h
  cases h

theorem toNat_lt_of_toLower {c : Char} (h : c.toLower.toNat < 128) : c.toNat < 128 := by
  by_contra hc
  have hval : 128 ≤ c.val.toNat := Nat.le_of_not_lt hc
  have hZ : 'Z'.val.toNat = 90 := rfl
  delta Char.toLower at h
  rw [dif_neg] at h
  · exact hc h
  · simp only [UInt32.le_iff_toNat_le]
    omega

theorem takeWhile_flatMap {f : Char → Bool} {g : Char → Text}
    (hyes : ∀ c, f c = true → ∀ d ∈ g c, f d = true)
    (hno : ∀ c, f c = false → ∃ d ds, g c = d :: ds ∧ f d = false) (s : Text) :
    (s.flatMap g).takeWhile f = (s.takeWhile f).flatMap g := by
  induction s with
  | nil => rfl
  | cons c s ih =>
    rw [List.flatMap_cons]
    cases hc : f c with
    | true => rw [List.takeWhile_append_of_pos (hyes c hc), ih, List.takeWhile_cons, hc]; rfl
    | false =>
      obtain ⟨d, ds, hd, hfd⟩ := hno c hc
      simp [hd, hfd, hc]

theorem swallowedNewline_eq_ite (s : Text) : swallowedNewline s =
    if s.head? = some '\r' ∧ s.tail.head? = some '\n' then 2
    else if s.head? = some '\n' then 1 else 0 := by
  unfold swallowedNewline
  split
  · rfl
  · rfl
  · rename_i hcrlf hn
    have h1 : ¬ (s.head? = some '\r' ∧ s.tail.head? = some '\n') := by
      rintro ⟨h, h'⟩
      obtain ⟨t, rfl⟩ := List.head?_eq_some_iff.1 h
      obtain ⟨t, rfl⟩ := List.head?_eq_some_iff.1 h'
      exact hcrlf t rfl
    have h2 : s.head? ≠ some '\n' := by
      intro h
      obtain ⟨t, rfl⟩ := List.head?_eq_some_iff.1 h
      exact hn t rfl
    rw [if_neg h1, if_neg h2]

end Lexeme

open Lexeme

namespace Spreads

variable {g : Char → Text} (hg : Spreads g)

include hg

theorem exists_cons (c : Char) : ∃ d ds, g c = d :: ds ∧ (c.toNat < 128 → d = c) ∧
    (128 ≤ c.toNat → 128 ≤ d.toNat) := by
  by_cases hc : c.toNat < 128
  · by_cases hn : c = '\n'
    · subst hn
      obtain ⟨k, hk⟩ := hg.newline
      exact ⟨_, _, hk, fun _ => rfl, fun h => by omega⟩
    · exact ⟨c, [], hg.plain c hc hn, fun _ => rfl, fun h => by omega⟩
  · obtain ⟨hne, hall⟩ := hg.wide c (by omega)
    obtain ⟨d, ds, hd⟩ := List.exists_cons_of_ne_nil hne
    exact ⟨d, ds, hd, fun h => absurd h hc, fun _ => hall d (by simp [hd])⟩

theorem flatMap_eq_self {s : Text} (h : ∀ c ∈ s, c.toNat < 128 ∧ c ≠ '\n') : s.flatMap g = s := by
  induction s with
  | nil => rfl
  | cons c s ih =>
    have hc := h c List.mem_cons_self
    rw [List.flatMap_cons, hg.plain c hc.1 hc.2, ih fun d hd => h d (List.mem_cons_of_mem _ hd)]
    rfl

theorem flatMap_of_blank {s : Text} (h : ∀ c ∈ s, isBlank c = true) : s.flatMap g = s := by
  apply hg.flatMap_eq_self
  intro c hc
  refine ⟨toNat_lt_of_isBlank (h c hc), ?_⟩
  rintro rfl
  simpa [isBlank] using h _ hc

theorem flatMap_of_word {s : Text} (h : ∀ c ∈ s, Text.isWordChar c = true) : s.flatMap g = s := by
  apply hg.flatMap_eq_self
  intro c hc
  refine ⟨toNat_lt_of_isWordChar (h c hc), ?_⟩
  rintro rfl
  exact absurd (h _ hc) (by decide)

theorem head?_any_isWordChar (s : Text) :
    (s.flatMap g).head?.any Text.isWordChar = s.head?.any Text.isWordChar := by
  cases s with
  | nil => rfl
  | cons c s =>
    obtain ⟨d, ds, hd, hascii, houtside⟩ := hg.exists_cons c
    by_cases hlt : c.toNat < 128
    · simp [hd, hascii hlt]
    · have hc : 128 ≤ c.toNat := by omega
      simp [hd, isWordChar_of_wide (houtside hc), isWordChar_of_wide hc]

theorem takeWhile_eq {f : Char → Bool} (hwide : ∀ c : Char, 128 ≤ c.toNat → f c = false)
    (hblank : f '\n' = true → f ' ' = true) (s : Text) :
    (s.flatMap g).takeWhile f = (s.takeWhile f).flatMap g := by
  apply takeWhile_flatMap
  · intro c hc d hd
    have hlt : c.toNat < 128 := by
      by_contra h
      rw [hwide c (by omega)] at hc
      cases hc
    by_cases hn : c = '\n'
    · subst hn
      obtain ⟨k, hk⟩ := hg.newline
      rw [hk, List.mem_cons] at hd
      rcases hd with rfl | hd
      · exact hc
      · rw [List.eq_of_mem_replicate hd]
        exact hblank hc
    · rw [hg.plain c hlt hn, List.mem_singleton] at hd
      rwa [hd]
  · intro c hc
    obtain ⟨d, ds, hd, hascii, houtside⟩ := hg.exists_cons c
    refine ⟨d, ds, hd, ?_⟩
    by_cases hlt : c.toNat < 128
    · rwa [hascii hlt]
    · exact hwide d (houtside (by omega))

theorem head?_eq_some_iff {s : Text} {a : Char} (ha : a.toNat < 128) :
    (s.flatMap g).head? = some a ↔ s.head? = some a := by
  cases s with
  | nil => simp
  | cons c s =>
    obtain ⟨d, ds, hd, hascii, houtside⟩ := hg.exists_cons c
    simp only [List.flatMap_cons, hd, List.cons_append, List.head?_cons, Option.some.injEq]
    by_cases hlt : c.toNat < 128
    · rw [hascii hlt]
    · have := houtside (by omega)
      constructor
      · rintro rfl
        omega
      · rintro rfl
        omega

/-- A word of ASCII in front stays in front, and none comes in. -/
theorem flatMap_eq_append_iff {w s t : Text} (hw : ∀ c ∈ w, c.toNat < 128 ∧ c ≠ '\n') :
    s.flatMap g = w ++ t ↔ ∃ r, s = w ++ r ∧ t = r.flatMap g := by
  constructor
  · intro h
    induction w generalizing s with
    | nil => exact ⟨s, rfl, h.symm⟩
    | cons a w ih =>
      obtain ⟨ha, hn⟩ := hw a List.mem_cons_self
      have hhead : s.head? = some a := (hg.head?_eq_some_iff ha).1 (by simp [h])
      obtain ⟨s, rfl⟩ : ∃ s', s = a :: s' := by
        cases s with
        | nil => cases hhead
        | cons c s => exact ⟨s, by simpa using hhead⟩
      rw [List.flatMap_cons, hg.plain a ha hn] at h
      obtain ⟨r, hr, ht⟩ := ih (fun c hc => hw c (List.mem_cons_of_mem _ hc)) (List.cons.inj h).2
      exact ⟨r, by rw [hr]; rfl, ht⟩
  · rintro ⟨r, rfl, rfl⟩
    rw [List.flatMap_append, hg.flatMap_eq_self hw]

/-- An automaton that treats all characters outside ASCII alike, and blanks behind a newline like
nothing. -/
theorem scan_eq {σ : Type} {step : σ → Char → Option σ}
    (hnewline : ∀ state, ∃ next, step state '\n' = some next ∧ step next ' ' = some next)
    (hwide : ∀ state, ∃ next, ∀ c : Char, 128 ≤ c.toNat →
      step state c = some next ∧ step next c = some next) (state : σ) (s : Text) :
    scan step state (s.flatMap g) =
      (scan step state s).map fun n => ((s.take n).flatMap g).length := by
  have hstay : ∀ (x : Text) (next : σ), (∀ c ∈ x, step next c = some next) →
      x.foldlM step next = some next := by
    intro x next hx
    induction x with
    | nil => rfl
    | cons c x ih =>
      have hc := hx c List.mem_cons_self
      have hrest := ih fun d hd => hx d (List.mem_cons_of_mem _ hd)
      simp [List.foldlM_cons, hc, hrest]
  apply scan_flatMap
  intro state c
  by_cases hlt : c.toNat < 128
  · by_cases hn : c = '\n'
    · subst hn
      obtain ⟨next, hnext, hblank⟩ := hnewline state
      obtain ⟨k, hk⟩ := hg.newline
      refine ⟨fun h => by simp [h] at hnext, fun last hlast => ?_⟩
      obtain rfl : next = last := by simpa [hnext] using hlast
      have hblanks := hstay (List.replicate k ' ') next fun c hc => by
        rw [List.eq_of_mem_replicate hc]
        exact hblank
      simp [hk, List.foldlM_cons, hnext, hblanks]
    · have hc := hg.plain c hlt hn
      exact ⟨fun _ => hc, fun next hnext => by simp [hc, hnext]⟩
  · obtain ⟨next, hnext⟩ := hwide state
    obtain ⟨hne, hall⟩ := hg.wide c (by omega)
    refine ⟨fun h => absurd (hnext c (by omega)).1 (by simp [h]), ?_⟩
    intro last hlast
    obtain rfl : next = last := by simpa [(hnext c (by omega)).1] using hlast
    obtain ⟨d, ds, hd⟩ := List.exists_cons_of_ne_nil hne
    rw [hd] at hall ⊢
    have hds := hstay ds next fun e he => (hnext e (hall e (List.mem_cons_of_mem _ he))).2
    simp [List.foldlM_cons, (hnext d (hall d List.mem_cons_self)).1, hds]

theorem quotedLength?_eq {quote : Char} (hq : quote ∈ ['\'', '"', '\x60']) (s : Text) :
    quotedLength? quote (s.flatMap g) =
      (quotedLength? quote s).map fun n => ((s.take n).flatMap g).length := by
  have hascii : quote.toNat < 128 ∧ quote ≠ '\n' ∧ quote ≠ ' ' := by
    revert quote
    decide
  simp only [quotedLength?_eq_scan]
  refine hg.scan_eq (fun state => ⟨false, ?_⟩) (fun state => ⟨false, fun c hc => ?_⟩) _ s
  · cases state <;> simp [quotedStep, Ne.symm hascii.2.1, Ne.symm hascii.2.2]
  · have h1 : c ≠ '\\' := ne_of_wide hc (by decide)
    have h2 : c ≠ quote := ne_of_wide hc hascii.1
    cases state <;> simp [quotedStep, h1, h2]

theorem attributeLength?_eq (s : Text) :
    attributeLength? 0 none (s.flatMap g) =
      (attributeLength? 0 none s).map fun n => ((s.take n).flatMap g).length := by
  have hscan := attributeLength?_eq_scan 0 none
  simp only [Option.map_none] at hscan
  simp only [hscan]
  refine hg.scan_eq (fun state => ?_) (fun state => ?_) _ s
  · obtain ⟨nested, _ | ⟨double, escaped⟩⟩ := state
    · exact ⟨(nested, none), by simp [attributeStep], by simp [attributeStep]⟩
    · refine ⟨(nested, some (double, false)), ?_, ?_⟩
      · cases double <;> cases escaped <;> simp [attributeStep, quotedStep, quoteMark]
      · cases double <;> simp [attributeStep, quotedStep, quoteMark]
  · have hne : ∀ c : Char, 128 ≤ c.toNat → ∀ d ∈ ['\'', '"', '[', ']', '\\'], c ≠ d := by
      intro c hc d hd
      refine ne_of_wide hc ?_
      revert d
      decide
    simp only [List.forall_mem_cons, List.not_mem_nil, false_implies, implies_true, and_true] at hne
    obtain ⟨nested, _ | ⟨double, escaped⟩⟩ := state
    · exact ⟨(nested, none), fun c hc => by simp [attributeStep, hne c hc]⟩
    · refine ⟨(nested, some (double, false)), fun c hc => ?_⟩
      cases double <;> cases escaped <;> simp [attributeStep, quotedStep, quoteMark, hne c hc]

theorem blockCommentLength?_eq (s : Text) :
    blockCommentLength? (s.flatMap g) =
      (blockCommentLength? s).map fun n => ((s.take n).flatMap g).length := by
  simp only [blockCommentLength?_eq_scan]
  refine hg.scan_eq (fun state => ⟨false, ?_⟩) (fun state => ⟨false, fun c hc => ?_⟩) _ s
  · cases state <;> simp [blockStep]
  · have h1 : c ≠ '*' := ne_of_wide hc (by decide)
    have h2 : c ≠ '/' := ne_of_wide hc (by decide)
    cases state <;> simp [blockStep, h1, h2]

theorem lineCommentLength_eq (s : Text) :
    lineCommentLength (s.flatMap g) = ((s.take (lineCommentLength s)).flatMap g).length := by
  have hskip : ∀ (x t : Text), (∀ c ∈ x, 128 ≤ c.toNat) →
      lineCommentLength (x ++ t) = x.length + lineCommentLength t := by
    intro x t hx
    induction x with
    | nil => simp
    | cons c x ih =>
      have hc := hx c List.mem_cons_self
      have h1 : c ≠ '\n' := ne_of_wide hc (by decide)
      have h2 : c ≠ '?' := ne_of_wide hc (by decide)
      rw [List.cons_append, lineCommentLength, ih fun d hd => hx d (List.mem_cons_of_mem _ hd)]
      · simp only [List.length_cons]
        omega
      · exact fun heq => absurd heq h1
      · exact fun _ heq => absurd heq h2
  fun_induction lineCommentLength s with
  | case1 => rfl
  | case2 s =>
    obtain ⟨k, hk⟩ := hg.newline
    simp [hk, lineCommentLength]
  | case3 s =>
    have h1 := hg.plain '?' (by decide) (by decide)
    have h2 := hg.plain '>' (by decide) (by decide)
    simp [h1, h2, lineCommentLength]
  | case4 c s hn htag ih =>
    by_cases hlt : c.toNat < 128
    · have hc := hg.plain c hlt fun h => hn h
      rw [List.flatMap_cons, hc, List.singleton_append, lineCommentLength, ih, List.take_succ_cons,
        List.flatMap_cons, hc, List.singleton_append, List.length_cons]
      · exact fun h => hn h
      · intro t hq ht
        have hhead : s.head? = some '>' := (hg.head?_eq_some_iff (by decide)).1 (by simp [ht])
        cases s with
        | nil => cases hhead
        | cons d s => exact htag s hq (by simpa using hhead)
    · obtain ⟨-, hall⟩ := hg.wide c (by omega)
      rw [List.flatMap_cons, hskip _ _ hall, ih]
      simp

theorem closingLabelLength?_eq {label : Text} (hlabel : label ≠ [])
    (hword : ∀ c ∈ label, Text.isWordChar c = true) (line : Text) :
    closingLabelLength? label (line.flatMap g) = closingLabelLength? label line := by
  have hplain : ∀ blanks : Text, (∀ c ∈ blanks, isBlank c = true) →
      ∀ c ∈ blanks ++ label, c.toNat < 128 ∧ c ≠ '\n' := by
    intro blanks hblanks c hc
    rcases List.mem_append.1 hc with hc | hc
    · refine ⟨toNat_lt_of_isBlank (hblanks c hc), ?_⟩
      rintro rfl
      simpa [isBlank] using hblanks _ hc
    · refine ⟨toNat_lt_of_isWordChar (hword c hc), ?_⟩
      rintro rfl
      exact absurd (hword _ hc) (by decide)
  ext n
  rw [closingLabelLength?_eq_some_iff hlabel hword, closingLabelLength?_eq_some_iff hlabel hword]
  constructor
  · rintro ⟨blanks, rest, hline, hblanks, hrest, rfl⟩
    rw [← List.append_assoc] at hline
    obtain ⟨r, rfl, rfl⟩ := (hg.flatMap_eq_append_iff (hplain blanks hblanks)).1 hline
    exact ⟨blanks, r, by simp, hblanks, by rwa [hg.head?_any_isWordChar] at hrest, rfl⟩
  · rintro ⟨blanks, rest, rfl, hblanks, hrest, rfl⟩
    refine ⟨blanks, rest.flatMap g, ?_, hblanks, by rwa [hg.head?_any_isWordChar], rfl⟩
    rw [List.flatMap_append, List.flatMap_append, hg.flatMap_of_blank hblanks, hg.flatMap_of_word hword]

theorem heredocBodyLength?_eq {label : Text} (hlabel : label ≠ [])
    (hword : ∀ c ∈ label, Text.isWordChar c = true) (start : Bool) (s : Text) :
    heredocBodyLength? label start (s.flatMap g) =
      (heredocBodyLength? label start s).map fun n => ((s.take n).flatMap g).length := by
  induction s generalizing start with
  | nil => rfl
  | cons c s ih =>
    -- A line that does not close is read on like the rest of a line.
    have hrest : heredocBodyLength? label false ((c :: s).flatMap g) =
        (heredocBodyLength? label false (c :: s)).map
          fun n => (((c :: s).take n).flatMap g).length := by
      rw [heredocBodyLength?_of_not_start, Option.map_map, List.flatMap_cons]
      by_cases hlt : c.toNat < 128
      · by_cases hn : c = '\n'
        · subst hn
          obtain ⟨k, hk⟩ := hg.newline
          have hblanks : ∀ d ∈ List.replicate k ' ', isBlank d = true := by
            intro d hd
            rw [List.eq_of_mem_replicate hd]
            rfl
          rw [hk, List.cons_append, heredocBodyLength?_of_not_start, beq_self_eq_true,
            heredocBodyLength?_blanks hlabel hword hblanks, ih, Option.map_map, Option.map_map]
          congr 1
          funext n
          simp only [Function.comp_apply, List.take_succ_cons, List.flatMap_cons, hk, List.length_append,
            List.length_cons, List.length_replicate]
          omega
        · have hc := hg.plain c hlt hn
          rw [hc, List.singleton_append, heredocBodyLength?_of_not_start, beq_false_of_ne hn, ih,
            Option.map_map]
          congr 1
          funext n
          simp only [Function.comp_apply, List.take_succ_cons, List.flatMap_cons, hc, List.length_append,
            List.length_cons, List.length_nil]
          omega
      · obtain ⟨-, hall⟩ := hg.wide c (by omega)
        have hn : c ≠ '\n' := ne_of_wide (by omega) (by decide)
        have hnot : '\n' ∉ g c := fun h => ne_of_wide (hall _ h) (by decide) rfl
        rw [heredocBodyLength?_skip hnot, beq_false_of_ne hn, ih, Option.map_map]
        congr 1
        funext n
        simp only [Function.comp_apply, List.take_succ_cons, List.flatMap_cons, List.length_append]
        omega
    cases start with
    | false => exact hrest
    | true =>
      have hclosing := hg.closingLabelLength?_eq hlabel hword (c :: s)
      cases h : closingLabelLength? label (c :: s) with
      | none =>
        rw [h] at hclosing
        rw [heredocBodyLength?_of_not_closing h, heredocBodyLength?_of_not_closing hclosing, hrest]
      | some n =>
        obtain ⟨d, ds, hd, -⟩ := hg.exists_cons c
        obtain ⟨blanks, rest, hline, hblanks, -, rfl⟩ :=
          (closingLabelLength?_eq_some_iff hlabel hword).1 h
        have hself : (blanks ++ label).flatMap g = blanks ++ label := by
          rw [List.flatMap_append, hg.flatMap_of_blank hblanks, hg.flatMap_of_word hword]
        have htake : (c :: s).take (blanks.length + label.length) = blanks ++ label := by
          rw [hline, ← List.append_assoc, ← List.length_append, List.take_left]
        have hleft : heredocBodyLength? label true ((c :: s).flatMap g) =
            some (blanks.length + label.length) := by
          rw [List.flatMap_cons, hd, List.cons_append] at hclosing ⊢
          simp [heredocBodyLength?, hclosing, h]
        rw [hleft, heredocBodyLength?, if_pos rfl, h]
        simp only [Option.map_some, htake, hself, List.length_append]

theorem heredocLength?_eq {s : Text} {n : Nat} (h : heredocLength? s = some n) :
    heredocLength? (s.flatMap g) = some ((s.take n).flatMap g).length := by
  obtain ⟨blanks, quote, label, line, body, m, hform⟩ := exists_heredocForm h
  obtain ⟨k, hk⟩ := hg.newline
  have hquotes : quote.flatMap g = quote := by
    have := hform.quotes
    simp only [List.mem_cons, List.not_mem_nil, or_false] at this
    have h1 := hg.plain '"' (by decide) (by decide)
    have h2 := hg.plain '\'' (by decide) (by decide)
    rcases this with rfl | rfl | rfl <;> simp [h1, h2]
  have hblanks := hg.flatMap_of_blank hform.blank
  have hlabel := hg.flatMap_of_word hform.word
  have hbody : heredocBodyLength? label true (List.replicate k ' ' ++ body.flatMap g) =
      some (k + ((body.take m).flatMap g).length) := by
    rw [heredocBodyLength?_blanks hform.label_ne_nil hform.word, hg.heredocBodyLength?_eq
      hform.label_ne_nil hform.word, hform.closes]
    · simp only [Option.map_some, List.length_replicate, Nat.add_comm]
    · intro c hc
      rw [List.eq_of_mem_replicate hc]
      rfl
  refine @heredocLength?_of_form _ _ blanks quote label (line.flatMap g)
    (List.replicate k ' ' ++ body.flatMap g) _ ⟨?_, hform.blank, hform.quotes, hform.label_ne_nil,
      hform.word, ?_, ?_, hbody, ?_⟩
  · simp only [hform.text, List.flatMap_append, List.flatMap_cons, hquotes, hblanks, hlabel, hk,
      List.cons_append]
  · have := hg.head?_any_isWordChar (quote ++ line)
    rwa [List.flatMap_append, hquotes, hform.stop] at this
  · intro hmem
    obtain ⟨c, hc, hd⟩ := List.mem_flatMap.1 hmem
    have hn : c ≠ '\n' := fun heq => hform.newline_not_mem (heq ▸ hc)
    by_cases hlt : c.toNat < 128
    · rw [hg.plain c hlt hn, List.mem_singleton] at hd
      exact hn hd.symm
    · exact ne_of_wide ((hg.wide c (by omega)).2 _ hd) (by decide) rfl
  · simp only [hform.take, List.flatMap_append, List.flatMap_cons, hquotes, hblanks, hlabel, hk,
      List.length_append, List.length_cons, List.length_replicate]
    omega

theorem exists_line {s line body : Text} (h : s.flatMap g = line ++ '\n' :: body) (hline : '\n' ∉ line) :
    ∃ l b, s = l ++ '\n' :: b ∧ line = l.flatMap g ∧ '\n' :: body = ('\n' :: b).flatMap g := by
  suffices ∃ l b, s = l ++ '\n' :: b ∧ line = l.flatMap g by
    obtain ⟨l, b, rfl, rfl⟩ := this
    rw [List.flatMap_append] at h
    exact ⟨l, b, rfl, rfl, (List.append_cancel_left h).symm⟩
  obtain ⟨k, hk⟩ := hg.newline
  induction s generalizing line with
  | nil => simp at h
  | cons c s ih =>
    rw [List.flatMap_cons] at h
    by_cases hc : c = '\n'
    · subst hc
      cases line with
      | nil => exact ⟨[], s, rfl, rfl⟩
      | cons d line =>
        rw [hk] at h
        exact absurd (List.mem_cons.2 (Or.inl (List.cons.inj h).1)) hline
    · have hnot : '\n' ∉ g c := by
        by_cases hlt : c.toNat < 128
        · rw [hg.plain c hlt hc, List.mem_singleton]
          exact Ne.symm hc
        · exact fun hmem => ne_of_wide ((hg.wide c (by omega)).2 _ hmem) (by decide) rfl
      rcases List.append_eq_append_iff.1 h with ⟨z, rfl, hz⟩ | ⟨z, hz, hz'⟩
      · obtain ⟨l, b, rfl, rfl⟩ := ih hz fun hmem => hline (List.mem_append_right _ hmem)
        exact ⟨c :: l, b, rfl, rfl⟩
      · cases z with
        | nil =>
          obtain ⟨l, b, rfl, hl⟩ := @ih [] hz'.symm (by simp)
          refine ⟨c :: l, b, rfl, ?_⟩
          rw [List.flatMap_cons, ← hl, hz, List.append_nil, List.append_nil]
        | cons d z =>
          obtain ⟨rfl, -⟩ := List.cons.inj hz'
          exact absurd (by simp [hz]) hnot

theorem isSome_heredocLength? {s : Text} {n : Nat} (h : heredocLength? (s.flatMap g) = some n) :
    ∃ m, heredocLength? s = some m := by
  obtain ⟨blanks, quote, label, line, body, m, hform⟩ := exists_heredocForm h
  obtain ⟨k, hk⟩ := hg.newline
  have hplain : ∀ c ∈ blanks ++ (quote ++ (label ++ quote)), c.toNat < 128 ∧ c ≠ '\n' := by
    have hquotes : ∀ c ∈ quote, c.toNat < 128 ∧ c ≠ '\n' := by
      have := hform.quotes
      simp only [List.mem_cons, List.not_mem_nil, or_false] at this
      rcases this with rfl | rfl | rfl <;> decide
    intro c hc
    simp only [List.mem_append] at hc
    rcases hc with hc | hc | hc | hc
    · refine ⟨toNat_lt_of_isBlank (hform.blank c hc), ?_⟩
      rintro rfl
      exact absurd (hform.blank _ hc) (by decide)
    · exact hquotes c hc
    · refine ⟨toNat_lt_of_isWordChar (hform.word c hc), ?_⟩
      rintro rfl
      exact absurd (hform.word _ hc) (by decide)
    · exact hquotes c hc
  obtain ⟨r, rfl, hr⟩ := (hg.flatMap_eq_append_iff hplain).1
    (show s.flatMap g = _ ++ (line ++ '\n' :: body) by rw [hform.text]; simp)
  obtain ⟨l, b, rfl, rfl, hbody⟩ := hg.exists_line hr.symm hform.newline_not_mem
  rw [List.flatMap_cons, hk, List.cons_append, List.cons.injEq] at hbody
  have hcloses := hform.closes
  rw [hbody.2, heredocBodyLength?_blanks hform.label_ne_nil hform.word,
    hg.heredocBodyLength?_eq hform.label_ne_nil hform.word] at hcloses
  · obtain ⟨i, hi, -⟩ := Option.map_eq_some_iff.1 hcloses
    obtain ⟨j, hj, -⟩ := Option.map_eq_some_iff.1 hi
    refine ⟨_, @heredocLength?_of_form _ _ blanks quote label l b j ⟨by simp, hform.blank, hform.quotes,
      hform.label_ne_nil, hform.word, ?_, ?_, hj, rfl⟩⟩
    · rw [← hg.head?_any_isWordChar, List.flatMap_append]
      have hself : quote.flatMap g = quote :=
        hg.flatMap_eq_self fun c hc => hplain c (by simp [hc])
      rw [hself]
      exact hform.stop
    · exact fun hmem => hform.newline_not_mem (List.mem_flatMap.2 ⟨'\n', hmem, by simp [hk]⟩)
  · intro c hc
    rw [List.eq_of_mem_replicate hc]
    rfl

theorem heredocLength?_eq_map (s : Text) :
    heredocLength? (s.flatMap g) = (heredocLength? s).map fun n => ((s.take n).flatMap g).length := by
  cases hn : heredocLength? s with
  | some n => exact hg.heredocLength?_eq hn
  | none =>
    cases hspread : heredocLength? (s.flatMap g) with
    | none => rfl
    | some n =>
      obtain ⟨m, hm⟩ := hg.isSome_heredocLength? hspread
      rw [hn] at hm
      cases hm

theorem head?_any_isSpace (s : Text) :
    (s.flatMap g).head?.any isSpace = s.head?.any isSpace := by
  cases s with
  | nil => rfl
  | cons c s =>
    obtain ⟨d, ds, hd, hascii, houtside⟩ := hg.exists_cons c
    by_cases hlt : c.toNat < 128
    · simp [hd, hascii hlt]
    · have hc : 128 ≤ c.toNat := by omega
      simp [hd, isSpace_of_wide (houtside hc), isSpace_of_wide hc]

theorem crlf_iff (s : Text) :
    ((s.flatMap g).head? = some '\r' ∧ (s.flatMap g).tail.head? = some '\n') ↔
      (s.head? = some '\r' ∧ s.tail.head? = some '\n') := by
  rw [hg.head?_eq_some_iff (by decide)]
  refine and_congr_right fun hr => ?_
  cases s with
  | nil => cases hr
  | cons c s =>
    obtain rfl : c = '\r' := by simpa using hr
    rw [List.flatMap_cons, hg.plain '\r' (by decide) (by decide), List.singleton_append, List.tail_cons,
      List.tail_cons]
    exact hg.head?_eq_some_iff (by decide)

theorem phpTagLength?_eq (r : Text) : phpTagLength? (r.flatMap g) = phpTagLength? r := by
  have hnil : r.flatMap g = [] ↔ r = [] := by
    cases r with
    | nil => simp
    | cons c r =>
      obtain ⟨d, ds, hd, -⟩ := hg.exists_cons c
      simp [hd]
  unfold phpTagLength?
  simp only [hnil, hg.crlf_iff, hg.head?_any_isSpace]

theorem openTagLength?_eq (s : Text) : openTagLength? (s.flatMap g) = openTagLength? s := by
  have hlt : g '<' = ['<'] := hg.plain '<' (by decide) (by decide)
  have hquestion : g '?' = ['?'] := hg.plain '?' (by decide) (by decide)
  by_cases hs : ∃ after, s = '<' :: '?' :: after
  · obtain ⟨after, rfl⟩ := hs
    rw [List.flatMap_cons, List.flatMap_cons, hlt, hquestion]
    simp only [List.cons_append, List.nil_append]
    have hascii : ∀ w : Text, w.map Char.toLower = "php".toList →
        ∀ c ∈ w, c.toNat < 128 ∧ c ≠ '\n' := by
      intro w hw c hc
      have hletters : ∀ d ∈ "php".toList, d.toNat < 128 ∧ d ≠ '\n' := by decide
      obtain ⟨hlower, hn⟩ := hletters c.toLower (hw ▸ List.mem_map_of_mem hc)
      refine ⟨toNat_lt_of_toLower hlower, ?_⟩
      rintro rfl
      exact hn rfl
    by_cases hphp : ∃ w r, after = w ++ r ∧ w.map Char.toLower = "php".toList
    · obtain ⟨w, r, rfl, hw⟩ := hphp
      rw [List.flatMap_append, hg.flatMap_eq_self (hascii w hw), openTagLength?_php hw, openTagLength?_php hw]
      exact hg.phpTagLength?_eq r
    · have hphp' : ∀ w r, after.flatMap g = w ++ r → w.map Char.toLower ≠ "php".toList := by
        intro w r hwr hw
        obtain ⟨r', hr', -⟩ := (hg.flatMap_eq_append_iff (hascii w hw)).1 hwr
        exact hphp ⟨w, r', hr', hw⟩
      have hxml : Text.startsWith "xml".toList (after.flatMap g) = Text.startsWith "xml".toList after := by
        rw [Bool.eq_iff_iff, Text.startsWith_iff, Text.startsWith_iff]
        constructor
        · rintro ⟨r, hr⟩
          obtain ⟨r', hr', -⟩ := (hg.flatMap_eq_append_iff (w := "xml".toList) (by decide)).1 hr
          exact ⟨r', hr'⟩
        · rintro ⟨r, rfl⟩
          exact ⟨r.flatMap g, (hg.flatMap_eq_append_iff (by decide)).2 ⟨r, rfl, rfl⟩⟩
      have heq := hg.head?_eq_some_iff (s := after) (a := '=') (by decide)
      rw [openTagLength?_short hphp', openTagLength?_short fun w r hwr hw => hphp ⟨w, r, hwr, hw⟩, hxml]
      simp only [heq]
  · rw [openTagLength?_eq_none fun after h => hs ⟨after, h⟩, openTagLength?_eq_none]
    intro after h
    obtain ⟨r, hr, -⟩ := (hg.flatMap_eq_append_iff (w := ['<', '?']) (by decide)).1 h
    exact hs ⟨r, hr⟩

theorem htmlLength_eq (s : Text) :
    htmlLength (s.flatMap g) = ((s.take (htmlLength s)).flatMap g).length := by
  have hskip : ∀ (x t : Text), (∀ c ∈ x, c ≠ '<') → htmlLength (x ++ t) = x.length + htmlLength t := by
    intro x t hx
    induction x with
    | nil => simp
    | cons c x ih =>
      have hnone : openTagLength? (c :: (x ++ t)) = none := by
        apply openTagLength?_eq_none
        rintro after heq
        exact hx c List.mem_cons_self (List.cons.inj heq).1
      rw [List.cons_append, htmlLength, hnone, ih fun d hd => hx d (List.mem_cons_of_mem _ hd)]
      simp only [Option.isSome_none, Bool.false_eq_true, if_false, List.length_cons]
      omega
  induction s with
  | nil => rfl
  | cons c s ih =>
    have htag := hg.openTagLength?_eq (c :: s)
    obtain ⟨d, ds, hd, hascii, houtside⟩ := hg.exists_cons c
    have hds : ∀ e ∈ ds, e ≠ '<' := by
      by_cases hlt : c.toNat < 128
      · by_cases hn : c = '\n'
        · subst hn
          obtain ⟨k, hk⟩ := hg.newline
          rw [hk] at hd
          obtain ⟨-, rfl⟩ := List.cons.inj hd
          intro e he
          rw [List.eq_of_mem_replicate he]
          decide
        · rw [hg.plain c hlt hn] at hd
          obtain ⟨-, rfl⟩ := List.cons.inj hd
          simp
      · obtain ⟨-, hall⟩ := hg.wide c (by omega)
        exact fun e he => ne_of_wide (hall e (by simp [hd, he])) (by decide)
    rw [List.flatMap_cons, hd, List.cons_append] at htag ⊢
    rw [htmlLength, htmlLength, htag]
    split
    · simp
    · rw [hskip ds _ hds, ih, List.take_succ_cons, List.flatMap_cons, hd]
      simp only [List.cons_append, List.length_cons, List.length_append]

theorem swallowedNewline_eq (s : Text) : swallowedNewline (s.flatMap g) = swallowedNewline s := by
  rw [swallowedNewline_eq_ite, swallowedNewline_eq_ite]
  simp only [hg.crlf_iff, hg.head?_eq_some_iff (a := '\n') (by decide)]

end Spreads

end Namespacing
