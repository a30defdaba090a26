import Namespacing.Proofs.Token.Expansion
set_option autoImplicit false

namespace Namespacing

namespace Lexeme

section

variable {label : Text} (hlabel : label ≠ []) (hword : ∀ c ∈ label, Text.isWordChar c = true)

include hlabel hword

theorem suffix_of_heredocBodyLength? {start : Bool} {b r : Text}
    (h : heredocBodyLength? label start (b ++ r) = some b.length) :
    label <:+ b ∧ r.head?.any Text.isWordChar = false := by
  have hclosing : ∀ {b : Text}, closingLabelLength? label (b ++ r) = some b.length →
      label <:+ b ∧ r.head?.any Text.isWordChar = false := by
    intro b hb
    obtain ⟨blanks, rest, heq, -, hrest, hlen⟩ := (closingLabelLength?_eq_some_iff hlabel hword).1 hb
    rw [← List.append_assoc] at heq
    obtain ⟨rfl, rfl⟩ := List.append_inj heq (by rw [hlen, List.length_append])
    exact ⟨⟨blanks, rfl⟩, hrest⟩
  induction b generalizing start with
  | nil =>
    cases r with
    | nil => cases h
    | cons c r =>
      rw [List.nil_append, heredocBodyLength?] at h
      split at h
      · rename_i n hn
        split at hn
        · exact hclosing (b := []) (hn.trans h)
        · cases hn
      · obtain ⟨m, -, hm⟩ := Option.map_eq_some_iff.1 h
        exact absurd hm (Nat.succ_ne_zero m)
  | cons c b ih =>
    rw [List.cons_append, heredocBodyLength?] at h
    split at h
    · rename_i n hn
      split at hn
      · exact hclosing (hn.trans h)
      · cases hn
    · obtain ⟨m, hm, hlen⟩ := Option.map_eq_some_iff.1 h
      obtain rfl : m = b.length := Nat.succ.inj hlen
      obtain ⟨hsuffix, hr⟩ := ih hm
      exact ⟨hsuffix.trans (List.suffix_cons c b), hr⟩

theorem closingLabelLength?_congr {b r r' : Text} (hsuffix : label <:+ b)
    (hr : r.head?.any Text.isWordChar = false) (hr' : r'.head?.any Text.isWordChar = false) {n : Nat}
    (h : closingLabelLength? label (b ++ r') = some n) : closingLabelLength? label (b ++ r) = some n := by
  obtain ⟨blanks, rest, heq, hblanks, hrest, rfl⟩ := (closingLabelLength?_eq_some_iff hlabel hword).1 h
  refine (closingLabelLength?_eq_some_iff hlabel hword).2 ?_
  rw [← List.append_assoc] at heq
  rcases List.append_eq_append_iff.1 heq with ⟨x, hx, rfl⟩ | ⟨x, rfl, rfl⟩
  · cases x with
    | nil =>
      rw [List.append_nil] at hx
      exact ⟨blanks, r, by rw [← hx, List.append_assoc], hblanks, hr, rfl⟩
    | cons d x =>
      -- A label that goes on behind the lines would start there with a blank.
      have hd : Text.isWordChar d = false := by simpa using hr'
      rcases List.append_eq_append_iff.1 hx with ⟨y, rfl, hy⟩ | ⟨y, hy, hy'⟩
      · refine absurd (hword d ?_) (by rw [hd]; decide)
        rw [hy]
        simp
      · obtain ⟨c, l, rfl⟩ := List.exists_cons_of_ne_nil hlabel
        obtain ⟨z, rfl⟩ := hsuffix
        have hc : isBlank c = true := by
          apply hblanks
          rw [hy]
          simp
        rw [isBlank_eq_false_of_isWordChar (hword c List.mem_cons_self)] at hc
        cases hc
  · refine ⟨blanks, x ++ r, by simp, hblanks, ?_, rfl⟩
    cases x with
    | nil => exact hr
    | cons d x => simpa using hrest

theorem heredocBodyLength?_congr {start : Bool} {b r r' : Text}
    (h : heredocBodyLength? label start (b ++ r) = some b.length)
    (hr' : r'.head?.any Text.isWordChar = false) :
    heredocBodyLength? label start (b ++ r') = some b.length := by
  induction b generalizing start with
  | nil =>
    have := (suffix_of_heredocBodyLength? hlabel hword h).1
    exact absurd (List.suffix_nil.1 this) hlabel
  | cons c b ih =>
    obtain ⟨hsuffix, hr⟩ := suffix_of_heredocBodyLength? hlabel hword h
    rw [List.cons_append, heredocBodyLength?] at h ⊢
    split at h
    · rename_i n hn
      split at hn
      · rename_i hstart
        have := closingLabelLength?_congr hlabel hword hsuffix hr' hr hn
        rw [List.cons_append] at this
        simp only [hstart, if_true, this]
        exact h
      · cases hn
    · rename_i hnone
      obtain ⟨m, hm, hlen⟩ := Option.map_eq_some_iff.1 h
      obtain rfl : m = b.length := Nat.succ.inj hlen
      have hnone' : (if start = true then closingLabelLength? label (c :: (b ++ r')) else none) = none := by
        split
        · rename_i hstart
          rw [if_pos hstart] at hnone
          cases hclose : closingLabelLength? label (c :: (b ++ r')) with
          | none => rfl
          | some n =>
            have := closingLabelLength?_congr (b := c :: b) hlabel hword hsuffix hr hr' hclose
            rw [List.cons_append, hnone] at this
            cases this
        · rfl
      rw [hnone', ih hm]
      rfl

end

theorem heredocLength?_congr {u r r' : Text} (h : heredocLength? (u ++ r) = some u.length)
    (hr' : r'.head?.any Text.isWordChar = false) : heredocLength? (u ++ r') = some u.length := by
  obtain ⟨blanks, quote, label, line, body, m, hform⟩ := exists_heredocForm h
  have hu : u = blanks ++ (quote ++ (label ++ (quote ++ (line ++ '\n' :: body.take m)))) := by
    rw [← hform.take, List.take_left]
  have hm : (body.take m).length = m := List.length_take_of_le
    (heredocBodyLength?_le hform.label_ne_nil hform.word hform.closes)
  have hcloses : heredocBodyLength? label true (body.take m ++ r') = some m := by
    have hold : heredocBodyLength? label true (body.take m ++ body.drop m) = some (body.take m).length := by
      rw [List.take_append_drop, hm]
      exact hform.closes
    have hnew := heredocBodyLength?_congr hform.label_ne_nil hform.word hold hr'
    rwa [hm] at hnew
  have htext : u ++ r' =
      blanks ++ (quote ++ (label ++ (quote ++ (line ++ '\n' :: (body.take m ++ r'))))) := by
    rw [hu]
    simp
  exact heredocLength?_of_form ⟨htext, hform.blank, hform.quotes, hform.label_ne_nil, hform.word,
    hform.stop, hform.newline_not_mem, hcloses, hform.length⟩

theorem exists_last_of_heredocLength? {u r : Text} (h : heredocLength? (u ++ r) = some u.length) :
    r.head?.any Text.isWordChar = false ∧
      ∃ v c, u = v ++ [c] ∧ Text.isWordChar c = true := by
  obtain ⟨blanks, quote, label, line, body, m, hform⟩ := exists_heredocForm h
  have hu : u = blanks ++ (quote ++ (label ++ (quote ++ (line ++ '\n' :: body.take m)))) := by
    rw [← hform.take, List.take_left]
  have hm : (body.take m).length = m := List.length_take_of_le
    (heredocBodyLength?_le hform.label_ne_nil hform.word hform.closes)
  have hr : r = body.drop m := by
    have htext := hform.text
    rw [hu] at htext
    simp only [List.append_assoc, List.cons_append] at htext
    have := List.append_cancel_left htext
    have := List.append_cancel_left this
    have := List.append_cancel_left this
    have := List.append_cancel_left this
    have := (List.cons.inj (List.append_cancel_left this)).2
    refine @List.append_cancel_left _ (body.take m) _ _ ?_
    rw [this, List.take_append_drop]
  obtain ⟨hsuffix, hstop⟩ := suffix_of_heredocBodyLength? hform.label_ne_nil hform.word
    (b := body.take m) (r := r) (by rw [hr, List.take_append_drop, hm]; exact hform.closes)
  refine ⟨hstop, ?_⟩
  obtain ⟨b, hb⟩ := hsuffix
  obtain ⟨l, c, hl⟩ : ∃ l c, label = l ++ [c] :=
    ⟨label.dropLast, label.getLast hform.label_ne_nil, (List.dropLast_append_getLast _).symm⟩
  refine ⟨blanks ++ (quote ++ (label ++ (quote ++ (line ++ '\n' :: (b ++ l))))), c, ?_,
    hform.word c (by simp [hl])⟩
  rw [hu, ← hb, hl]
  simp

end Lexeme

open Lexeme

/-- Two texts that look alike from behind a lexeme of code; the second may start with a newline
instead. -/
structure Looks (r r' : Text) : Prop where
  head : r'.head? = r.head? ∨ r'.head? = some '\n'
  less : ∀ t, r' = '<' :: '<' :: t → ∃ t, r = '<' :: '<' :: t
  line : ∀ u : Text, lineCommentLength (u ++ r) = u.length → lineCommentLength (u ++ r') = u.length

namespace Looks

variable {r r' : Text} (h : Looks r r')

include h

theorem any_eq_false {f : Char → Bool} (hf : f '\n' = false) (hr : r.head?.any f = false) :
    r'.head?.any f = false := by
  rcases h.head with hhead | hhead
  · rwa [hhead]
  · rw [hhead]
    exact hf

theorem head_ne {c : Char} (hc : c ≠ '\n') (hr : r.head? ≠ some c) : r'.head? ≠ some c := by
  rcases h.head with hhead | hhead
  · rwa [hhead]
  · rw [hhead]
    exact fun heq => hc (Option.some.inj heq).symm

end Looks

theorem StandsAlone.congr {c : Char} {r r' : Text} (h : StandsAlone c r) (hlook : Looks r r') :
    StandsAlone c r' := by
  cases h with
  | mark h => exact .mark h
  | slash h h' => exact .slash (hlook.head_ne (by decide) h) (hlook.head_ne (by decide) h')
  | less h => exact .less fun t ht => (hlook.less t ht).elim h
  | dollar h => exact .dollar (hlook.any_eq_false rfl h)
  | question h => exact .question (hlook.head_ne (by decide) h)

/-- A lexeme stays one when what follows looks the same. -/
theorem CodeForm.congr {kind : TokenKind} {w r r' : Text} (h : CodeForm kind w r) (hlook : Looks r r')
    (hspace : kind = .whitespace → r'.head? = r.head?) (hclose : kind ≠ .closeTag) :
    CodeForm kind w r' := by
  cases h with
  | space hne hw hr => exact .space hne hw (by rwa [hspace rfl])
  | hashBracket h => exact .hashBracket h
  | hash hu h => exact .hash hu (hlook.line _ h)
  | slashes h => exact .slashes (hlook.line _ h)
  | block hkind h => exact .block hkind h
  | quote hq h => exact .quote hq h
  | heredoc h =>
    exact .heredoc (heredocLength?_congr h (hlook.any_eq_false rfl (exists_last_of_heredocLength? h).1))
  | dollarWord hw hr => exact .dollarWord hw (hlook.any_eq_false rfl hr)
  | number hc hw hr => exact .number hc hw (hlook.any_eq_false rfl hr)
  | word hkind hw hr => exact .word hkind hw (hlook.any_eq_false rfl hr)
  | closeTag => exact absurd rfl hclose
  | single h => exact .single (h.congr hlook)

theorem lineCommentLength_append_newline (s t : Text) :
    lineCommentLength (s ++ '\n' :: t) = lineCommentLength s := by
  fun_induction lineCommentLength s with
  | case1 => rfl
  | case2 s => rfl
  | case3 s => rfl
  | case4 c s hn htag ih =>
    rw [List.cons_append, lineCommentLength, ih]
    · exact hn
    · intro u hc hu
      cases s with
      | nil => cases hu
      | cons d s => exact htag s hc (by rw [(List.cons.inj hu).1])

def EndsLine (r : Text) : Prop :=
  r = [] ∨ r.head? = some '\n' ∨ ∃ t, r = '?' :: '>' :: t

theorem lineCommentLength_eq_zero_iff {r : Text} : lineCommentLength r = 0 ↔ EndsLine r := by
  constructor
  · intro h
    unfold lineCommentLength at h
    split at h
    · exact Or.inl rfl
    · exact Or.inr (Or.inl rfl)
    · exact Or.inr (Or.inr ⟨_, rfl⟩)
    · cases h
  · rintro (rfl | h | ⟨t, rfl⟩)
    · rfl
    · obtain ⟨t, rfl⟩ := List.head?_eq_some_iff.1 h
      rfl
    · rfl

theorem lineCommentLength_cons {c : Char} {s : Text} (h : ¬ EndsLine (c :: s)) :
    lineCommentLength (c :: s) = lineCommentLength s + 1 := by
  rw [lineCommentLength]
  · rintro rfl
    exact h (Or.inr (Or.inl rfl))
  · rintro t rfl rfl
    exact h (Or.inr (Or.inr ⟨t, rfl⟩))

theorem lineCommentLength_eq_length_iff {u r : Text} :
    lineCommentLength (u ++ r) = u.length ↔
      (∀ x c y, u = x ++ c :: y → ¬ EndsLine (c :: y ++ r)) ∧ EndsLine r := by
  induction u with
  | nil => simp [lineCommentLength_eq_zero_iff]
  | cons c u ih =>
    by_cases hc : EndsLine (c :: (u ++ r))
    · have hzero : lineCommentLength (c :: u ++ r) ≠ (c :: u).length := by
        rw [List.cons_append, lineCommentLength_eq_zero_iff.2 hc]
        exact (Nat.succ_ne_zero _).symm
      exact ⟨fun h => absurd h hzero, fun h => absurd hc (h.1 [] c u rfl)⟩
    · rw [List.cons_append, lineCommentLength_cons hc, List.length_cons, Nat.add_right_cancel_iff, ih]
      refine and_congr_left fun _ => ⟨fun h => ?_, fun h x d y hy => h (c :: x) d y (by rw [hy]; rfl)⟩
      intro x d y hy
      cases x with
      | nil =>
        obtain ⟨rfl, rfl⟩ := List.cons.inj hy
        exact hc
      | cons e x => exact h x d y (List.cons.inj hy).2

theorem head?_eq_of_take {r r' : Text} {n : Nat} (h : r'.take (n + 1) = r.take (n + 1)) :
    r'.head? = r.head? := by
  cases r <;> cases r' <;> simp_all

theorem endsLine_congr {r r' : Text} (h : r'.take 2 = r.take 2) (hr : EndsLine r) : EndsLine r' := by
  have hhead := head?_eq_of_take h
  rcases hr with rfl | hr | ⟨t, rfl⟩
  · exact Or.inl (by simpa using h)
  · exact Or.inr (Or.inl (hhead.trans hr))
  · refine Or.inr (Or.inr ⟨r'.drop 2, ?_⟩)
    rw [← List.take_append_drop 2 r', h]
    rfl

theorem looks_of_take {r r' : Text} (h : r'.take 2 = r.take 2) : Looks r r' where
  head := Or.inl (head?_eq_of_take h)
  less t ht := by
    refine ⟨r.drop 2, ?_⟩
    rw [← List.take_append_drop 2 r, ← h, ht]
    rfl
  line u hu := by
    rw [lineCommentLength_eq_length_iff] at hu ⊢
    refine ⟨fun x c y hxy hends => hu.1 x c y hxy ?_, endsLine_congr h hu.2⟩
    refine endsLine_congr ?_ hends
    cases y with
    | nil =>
      have hone := congrArg (List.take 1) h.symm
      rw [List.take_take, List.take_take] at hone
      simpa using hone
    | cons d y => simp

theorem looks_append_newline (r t : Text) : Looks r (r ++ '\n' :: t) where
  head := by
    cases r with
    | nil => exact Or.inr rfl
    | cons c r => exact Or.inl rfl
  less u hu := by
    cases r with
    | nil => cases hu
    | cons c r =>
      obtain ⟨rfl, hrest⟩ := List.cons.inj hu
      cases r with
      | nil => cases hrest
      | cons d r =>
        obtain ⟨rfl, -⟩ := List.cons.inj hrest
        exact ⟨r, rfl⟩
  line u hu := by rw [← List.append_assoc, lineCommentLength_append_newline, hu]

end Namespacing
