import Mathlib.Data.List.TakeWhile
import Namespacing.Proofs.Token.Scanners
set_option autoImplicit false

namespace Namespacing

namespace Lexeme

theorem isBlank_eq_false_of_isWordChar {c : Char} (h : Text.isWordChar c = true) : isBlank c = false := by
  cases hc : isBlank c with
  | false => rfl
  | true =>
    simp only [isBlank, Bool.or_eq_true, beq_iff_eq] at hc
    rcases hc with rfl | rfl <;> cases h

theorem takeWhile_append_of_stop {f : Char → Bool} {w r : Text} (hw : ∀ c ∈ w, f c = true)
    (hr : r.head?.any f = false) : (w ++ r).takeWhile f = w := by
  rw [List.takeWhile_append_of_pos hw]
  cases r with
  | nil => simp
  | cons c r =>
    have hc : f c = false := by simpa using hr
    simp [hc]

theorem dropWhile_append_of_stop {f : Char → Bool} {w r : Text} (hw : ∀ c ∈ w, f c = true)
    (hr : r.head?.any f = false) : (w ++ r).dropWhile f = r := by
  rw [List.dropWhile_append_of_pos hw]
  cases r with
  | nil => rfl
  | cons c r =>
    have hc : f c = false := by simpa using hr
    simp [hc]

section

variable {label : Text} (hlabel : label ≠ []) (hword : ∀ c ∈ label, Text.isWordChar c = true)

include hlabel hword

theorem head?_any_isBlank_label (r : Text) : (label ++ r).head?.any isBlank = false := by
  obtain ⟨c, l, rfl⟩ := List.exists_cons_of_ne_nil hlabel
  simpa using isBlank_eq_false_of_isWordChar (hword c List.mem_cons_self)

theorem closingLabelLength?_eq_some_iff {line : Text} {n : Nat} :
    closingLabelLength? label line = some n ↔
      ∃ blanks rest, line = blanks ++ (label ++ rest) ∧ (∀ c ∈ blanks, isBlank c = true) ∧
        rest.head?.any Text.isWordChar = false ∧ n = blanks.length + label.length := by
  constructor
  · intro h
    unfold closingLabelLength? at h
    split at h
    · cases h
    · rename_i rest hrest
      split at h
      · cases h
      · rename_i hstop
        refine ⟨line.takeWhile isBlank, rest, ?_, fun c hc => List.mem_takeWhile_imp hc, by simpa using hstop,
          (Option.some.inj h).symm⟩
        rw [← Text.dropPrefix?_eq_some_iff.1 hrest, List.takeWhile_append_dropWhile]
  · rintro ⟨blanks, rest, rfl, hblanks, hstop, rfl⟩
    have hhead := head?_any_isBlank_label hlabel hword rest
    unfold closingLabelLength?
    rw [dropWhile_append_of_stop hblanks hhead, takeWhile_append_of_stop hblanks hhead,
      Text.dropPrefix?_eq_some_iff.2 rfl]
    simp [hstop]

theorem closingLabelLength?_blanks {blanks : Text} (hblanks : ∀ c ∈ blanks, isBlank c = true)
    (line : Text) : closingLabelLength? label (blanks ++ line) =
      (closingLabelLength? label line).map (· + blanks.length) := by
  ext n
  rw [closingLabelLength?_eq_some_iff hlabel hword, Option.map_eq_some_iff]
  constructor
  · rintro ⟨more, rest, hline, hmore, hstop, rfl⟩
    rcases List.append_eq_append_iff.1 hline with ⟨u, rfl, rfl⟩ | ⟨u, rfl, hu⟩
    · refine ⟨u.length + label.length, ?_, by simp; omega⟩
      exact (closingLabelLength?_eq_some_iff hlabel hword).2
        ⟨u, rest, rfl, fun c hc => hmore c (by simp [hc]), hstop, rfl⟩
    · -- The label starts with no blank, so no blank of the first ones is in it.
      cases u with
      | nil =>
        refine ⟨label.length, ?_, by simp; omega⟩
        exact (closingLabelLength?_eq_some_iff hlabel hword).2
          ⟨[], rest, by simpa using hu.symm, by simp, hstop, by simp⟩
      | cons c u =>
        have hc := hblanks c (by simp)
        have := head?_any_isBlank_label hlabel hword rest
        rw [hu] at this
        simp [hc] at this
  · rintro ⟨m, hm, rfl⟩
    obtain ⟨more, rest, rfl, hmore, hstop, rfl⟩ :=
      (closingLabelLength?_eq_some_iff hlabel hword).1 hm
    refine ⟨blanks ++ more, rest, by simp, fun c hc => ?_, hstop, by simp; omega⟩
    rcases List.mem_append.1 hc with hc | hc
    · exact hblanks c hc
    · exact hmore c hc

end

theorem heredocBodyLength?_of_not_start {label : Text} (c : Char) (s : Text) :
    heredocBodyLength? label false (c :: s) = (heredocBodyLength? label (c == '\n') s).map (· + 1) := by
  simp [heredocBodyLength?]

theorem heredocBodyLength?_of_not_closing {label s : Text} (h : closingLabelLength? label s = none) :
    heredocBodyLength? label true s = heredocBodyLength? label false s := by
  cases s with
  | nil => rfl
  | cons c s => simp [heredocBodyLength?, h]

theorem heredocBodyLength?_skip {label x : Text} (hx : '\n' ∉ x) (s : Text) :
    heredocBodyLength? label false (x ++ s) = (heredocBodyLength? label false s).map (· + x.length) := by
  induction x with
  | nil => simp
  | cons c x ih =>
    simp only [List.mem_cons, not_or] at hx
    have hc : (c == '\n') = false := by simpa using Ne.symm hx.1
    rw [List.cons_append, heredocBodyLength?_of_not_start, hc, ih hx.2, Option.map_map]
    congr 1

theorem heredocBodyLength?_blanks {label : Text} (hlabel : label ≠ [])
    (hword : ∀ c ∈ label, Text.isWordChar c = true) {blanks : Text}
    (hblanks : ∀ c ∈ blanks, isBlank c = true) (s : Text) :
    heredocBodyLength? label true (blanks ++ s) =
      (heredocBodyLength? label true s).map (· + blanks.length) := by
  cases blanks with
  | nil => simp
  | cons b blanks =>
    have hclosing := closingLabelLength?_blanks hlabel hword hblanks s
    cases hs : closingLabelLength? label s with
    | some n =>
      rw [hs, Option.map_some, List.cons_append] at hclosing
      cases s with
      | nil =>
        obtain ⟨more, rest, hnil, -⟩ := (closingLabelLength?_eq_some_iff hlabel hword).1 hs
        simp [hlabel] at hnil
      | cons c s => simp [heredocBodyLength?, hs, hclosing]
    | none =>
      rw [hs, Option.map_none] at hclosing
      have hnewline : '\n' ∉ b :: blanks := fun h => by
        have := hblanks '\n' h
        simp [isBlank] at this
      rw [heredocBodyLength?_of_not_closing hclosing, heredocBodyLength?_skip hnewline,
        heredocBodyLength?_of_not_closing hs]

theorem heredocBodyLength?_le {label s : Text} {start : Bool} {n : Nat} (hlabel : label ≠ [])
    (hword : ∀ c ∈ label, Text.isWordChar c = true) (h : heredocBodyLength? label start s = some n) :
    n ≤ s.length := by
  induction s generalizing start n with
  | nil => cases h
  | cons c s ih =>
    rw [heredocBodyLength?] at h
    split at h
    · rename_i m hm
      obtain rfl := Option.some.inj h
      split at hm
      · obtain ⟨blanks, rest, hline, -, -, rfl⟩ := (closingLabelLength?_eq_some_iff hlabel hword).1 hm
        simp only [hline, List.length_append]
        omega
      · cases hm
    · obtain ⟨m, hm, rfl⟩ := Option.map_eq_some_iff.1 h
      have := ih hm
      simp only [List.length_cons]
      omega

def heredocLabel (s : Text) : Text :=
  let header := s.dropWhile isBlank
  (header.drop (labelQuote header).length).takeWhile Text.isWordChar

/-- What stands behind `<<<`, cut at the places that the scanner looks for. -/
structure HeredocForm (s : Text) (n : Nat) (blanks quote label line body : Text) (m : Nat) : Prop where
  text : s = blanks ++ (quote ++ (label ++ (quote ++ (line ++ '\n' :: body))))
  blank : ∀ c ∈ blanks, isBlank c = true
  quotes : quote ∈ [[], ['"'], ['\'']]
  label_ne_nil : label ≠ []
  word : ∀ c ∈ label, Text.isWordChar c = true
  stop : (quote ++ line).head?.any Text.isWordChar = false
  newline_not_mem : '\n' ∉ line
  closes : heredocBodyLength? label true body = some m
  length : n = blanks.length + quote.length + label.length + quote.length + line.length + 1 + m

theorem HeredocForm.take {s : Text} {n : Nat} {blanks quote label line body : Text} {m : Nat}
    (h : HeredocForm s n blanks quote label line body m) :
    s.take n = blanks ++ (quote ++ (label ++ (quote ++ (line ++ '\n' :: body.take m)))) := by
  have hn : n = blanks.length + (quote.length + (label.length + (quote.length + (line.length + (m + 1))))) := by
    rw [h.length]
    omega
  simp only [h.text, hn, List.take_length_add_append, List.take_succ_cons]

theorem HeredocForm.le_length {s : Text} {n : Nat} {blanks quote label line body : Text} {m : Nat}
    (h : HeredocForm s n blanks quote label line body m) : n ≤ s.length := by
  have := heredocBodyLength?_le h.label_ne_nil h.word h.closes
  simp only [h.text, h.length, List.length_append, List.length_cons]
  omega

theorem labelQuote_mem (s : Text) : labelQuote s ∈ [[], ['"'], ['\'']] := by
  unfold labelQuote
  split <;> simp

theorem labelQuote_prefix (s : Text) : ∃ r, s = labelQuote s ++ r := by
  unfold labelQuote
  split
  · exact ⟨_, rfl⟩
  · exact ⟨_, rfl⟩
  · exact ⟨_, rfl⟩

theorem drop_length_takeWhile (f : Char → Bool) (s : Text) :
    s.drop (s.takeWhile f).length = s.dropWhile f := by
  calc
    s.drop (s.takeWhile f).length =
        (s.takeWhile f ++ s.dropWhile f).drop (s.takeWhile f).length := by
      rw [List.takeWhile_append_dropWhile]
    _ = s.dropWhile f := List.drop_left

theorem head?_dropWhile (f : Char → Bool) (s : Text) : (s.dropWhile f).head?.any f = false := by
  cases h : s.dropWhile f with
  | nil => rfl
  | cons c r =>
    have := List.head_dropWhile_not f (l := s) (by simp [h])
    simpa [h] using this

theorem exists_heredocForm {s : Text} {n : Nat} (h : heredocLength? s = some n) :
    ∃ blanks quote label line body m, HeredocForm s n blanks quote label line body m := by
  unfold heredocLength? at h
  dsimp only at h
  rw [drop_length_takeWhile] at h
  generalize hheader : s.dropWhile isBlank = header at h
  generalize hquote : labelQuote header = quote at h
  generalize hlabel : (header.drop quote.length).takeWhile Text.isWordChar = label at h
  split at h
  · cases h
  · rename_i hne
    split at h
    · cases h
    · rename_i rest hrest
      split at h
      · cases h
      · rename_i c body hline
        obtain ⟨m, hm, rfl⟩ := Option.map_eq_some_iff.1 h
        obtain ⟨behind, hbehind⟩ : ∃ behind, header = quote ++ behind := hquote ▸ labelQuote_prefix header
        have hword : behind.takeWhile Text.isWordChar = label := by rw [← hlabel, hbehind, List.drop_left]
        have hrest' : behind.dropWhile Text.isWordChar = quote ++ rest := by
          rw [← Text.dropPrefix?_eq_some_iff.1 hrest, ← List.drop_drop, hbehind, List.drop_left, ← hword,
            drop_length_takeWhile]
        rw [drop_length_takeWhile] at hline
        have hc : c = '\n' := by
          have := head?_dropWhile (· != '\n') rest
          simpa [hline] using this
        subst hc
        refine ⟨s.takeWhile isBlank, quote, label, rest.takeWhile (· != '\n'), body, m, ?_, ?_, ?_, ?_, ?_, ?_,
          ?_, hm, rfl⟩
        · rw [← hline, List.takeWhile_append_dropWhile, ← hrest', ← hword, List.takeWhile_append_dropWhile,
            ← hbehind, ← hheader, List.takeWhile_append_dropWhile]
        · exact fun c hc => List.mem_takeWhile_imp hc
        · exact hquote ▸ labelQuote_mem header
        · simpa using hne
        · rw [← hword]
          exact fun c hc => List.mem_takeWhile_imp hc
        · have hstop := head?_dropWhile Text.isWordChar behind
          rw [hrest', ← List.takeWhile_append_dropWhile (p := (· != '\n')) (l := rest), hline,
            ← List.append_assoc] at hstop
          cases hhead : quote ++ rest.takeWhile (· != '\n') with
          | nil => rfl
          | cons d r =>
            rw [hhead] at hstop
            simpa using hstop
        · intro hmem
          have := List.mem_takeWhile_imp hmem
          simp at this

namespace HeredocForm

variable {s : Text} {n : Nat} {blanks quote label line body : Text} {m : Nat}
  (h : HeredocForm s n blanks quote label line body m)

include h

theorem quote_cases : quote = [] ∨ quote = ['"'] ∨ quote = ['\''] := by
  simpa using h.quotes

theorem dropWhile_eq :
    s.dropWhile isBlank = quote ++ (label ++ (quote ++ (line ++ '\n' :: body))) ∧ s.takeWhile isBlank = blanks := by
  have hhead : (quote ++ (label ++ (quote ++ (line ++ '\n' :: body)))).head?.any isBlank = false := by
    rcases h.quote_cases with rfl | rfl | rfl
    · exact head?_any_isBlank_label h.label_ne_nil h.word _
    · rfl
    · rfl
  rw [h.text]
  exact ⟨dropWhile_append_of_stop h.blank hhead, takeWhile_append_of_stop h.blank hhead⟩

theorem labelQuote_eq : labelQuote (quote ++ (label ++ (quote ++ (line ++ '\n' :: body)))) = quote := by
  obtain ⟨l, ls, hl⟩ := List.exists_cons_of_ne_nil h.label_ne_nil
  have hlword : Text.isWordChar l = true := h.word l (by simp [hl])
  rcases h.quote_cases with rfl | rfl | rfl
  · rw [hl]
    unfold labelQuote
    split
    · rename_i heq
      rw [(List.cons.inj heq).1] at hlword
      cases hlword
    · rename_i heq
      rw [(List.cons.inj heq).1] at hlword
      cases hlword
    · rfl
  · rfl
  · rfl

theorem takeWhile_label :
    (label ++ (quote ++ (line ++ '\n' :: body))).takeWhile Text.isWordChar = label := by
  refine takeWhile_append_of_stop h.word ?_
  rw [← List.append_assoc]
  cases hhead : quote ++ line with
  | nil => rfl
  | cons d r => simpa [hhead] using h.stop

theorem heredocLabel_eq : heredocLabel s = label := by
  rw [heredocLabel, h.dropWhile_eq.1, h.labelQuote_eq, List.drop_left, h.takeWhile_label]

end HeredocForm

theorem heredocLength?_of_form {s : Text} {n : Nat} {blanks quote label line body : Text} {m : Nat}
    (h : HeredocForm s n blanks quote label line body m) : heredocLength? s = some n := by
  have hline : (line ++ '\n' :: body).takeWhile (· != '\n') = line :=
    takeWhile_append_of_stop (fun c hc => by
      have : c ≠ '\n' := fun heq => h.newline_not_mem (heq ▸ hc)
      simpa using this) (by simp)
  unfold heredocLength?
  dsimp only
  rw [drop_length_takeWhile, h.dropWhile_eq.1, h.dropWhile_eq.2, h.labelQuote_eq, List.drop_left, h.takeWhile_label]
  rw [← List.drop_drop, List.drop_left, List.drop_left, Text.dropPrefix?_eq_some_iff.2 rfl]
  simp only [List.isEmpty_iff, h.label_ne_nil, if_false, hline, List.drop_left]
  rw [h.closes, h.length]
  rfl

end Lexeme

end Namespacing
