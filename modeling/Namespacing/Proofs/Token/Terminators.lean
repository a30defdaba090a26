import Mathlib.Data.List.Induction
import Namespacing.Proofs.Token.Heredoc
import Namespacing.Proofs.Token.Starts
set_option autoImplicit false

namespace Namespacing

namespace Lexeme

section

variable {σ : Type} {step : σ → Char → Option σ} {state : σ} {s : Text}

theorem scan_eq_none_iff :
    scan step state s = none ↔
      ∀ x c y last, s = x ++ c :: y → x.foldlM step state = some last → step last c ≠ none := by
  induction s generalizing state with
  | nil => simp [scan]
  | cons d s ih =>
    rw [scan]
    cases hd : step state d with
    | none =>
      refine ⟨fun h => by simp at h, fun h => ?_⟩
      exact absurd hd (h [] d s state rfl rfl)
    | some next =>
      rw [Option.map_eq_none_iff, ih]
      constructor
      · intro h x c y last heq hx
        cases x with
        | nil =>
          obtain ⟨rfl, -⟩ := List.cons.inj heq
          obtain rfl := Option.some.inj hx
          simp [hd]
        | cons e x =>
          obtain ⟨rfl, hrest⟩ := List.cons.inj heq
          rw [List.foldlM_cons, hd] at hx
          exact h x c y last hrest hx
      · intro h x c y last heq hx
        refine h (d :: x) c y last (congrArg (d :: ·) heq) ?_
        rw [List.foldlM_cons, hd]
        exact hx

theorem foldlM_concat_eq_some_iff {x : Text} {c : Char} {next : σ} :
    (x ++ [c]).foldlM step state = some next ↔
      ∃ last, x.foldlM step state = some last ∧ step last c = some next := by
  rw [List.foldlM_append, Option.bind_eq_bind, Option.bind_eq_some_iff]
  refine exists_congr fun last => and_congr_right fun _ => ?_
  rw [List.foldlM_cons]
  cases step last c <;> rfl

theorem scan_eq_none_iff_foldlM :
    scan step state s = none ↔ ∃ last, s.foldlM step state = some last := by
  induction s generalizing state with
  | nil => exact ⟨fun _ => ⟨state, rfl⟩, fun _ => rfl⟩
  | cons c s ih =>
    rw [scan, List.foldlM_cons]
    cases step state c with
    | none => simp
    | some next =>
      rw [Option.map_eq_none_iff, ih]
      rfl

end

/-- Does a backslash at the end of the text take the next character? A backslash that is taken takes
none, so only the number of backslashes counts. -/
def endsEscaping (x : Text) : Bool :=
  (x.reverse.takeWhile (· == '\\')).length % 2 == 1

theorem endsEscaping_concat (x : Text) (c : Char) :
    endsEscaping (x ++ [c]) = (c == '\\' && !endsEscaping x) := by
  unfold endsEscaping
  rw [List.reverse_append, List.reverse_singleton, List.singleton_append, List.takeWhile_cons]
  by_cases hc : c = '\\'
  · simp only [hc, beq_self_eq_true, if_true, List.length_cons, Bool.true_and]
    have := Nat.mod_two_eq_zero_or_one (x.reverse.takeWhile (· == '\\')).length
    grind
  · simp [hc]

def ClosesQuote (quote : Char) (s : Text) : Prop :=
  ∃ x y, s = x ++ quote :: y ∧ endsEscaping x = false

def Unclosed (quote : Char) (s : Text) : Prop :=
  ∀ x y, s = x ++ quote :: y → endsEscaping x = true

theorem unclosed_iff {quote : Char} {s : Text} : Unclosed quote s ↔ ¬ ClosesQuote quote s := by
  constructor
  · rintro h ⟨x, y, hs, hx⟩
    rw [h x y hs] at hx
    cases hx
  · intro h x y hs
    cases hx : endsEscaping x with
    | true => rfl
    | false => exact absurd ⟨x, y, hs, hx⟩ h

section

variable {quote : Char}

theorem quotedStep_eq (escaped : Bool) (c : Char) :
    quotedStep quote escaped c =
      if escaped = false ∧ c ≠ '\\' ∧ c = quote then none else some (c == '\\' && !escaped) := by
  cases escaped with
  | true => simp [quotedStep]
  | false =>
    by_cases hc : c = '\\'
    · simp [quotedStep, hc]
    · have hfalse : (c == '\\') = false := beq_false_of_ne hc
      simp [quotedStep, hc, hfalse]

theorem eq_endsEscaping {x : Text} {escaped : Bool}
    (h : x.foldlM (quotedStep quote) false = some escaped) : escaped = endsEscaping x := by
  induction x using List.reverseRecOn generalizing escaped with
  | nil => exact (Option.some.inj h).symm
  | append_singleton x c ih =>
    obtain ⟨before, hbefore, hstep⟩ := foldlM_concat_eq_some_iff.1 h
    rw [endsEscaping_concat, ← ih hbefore]
    rw [quotedStep_eq] at hstep
    split at hstep
    · cases hstep
    · exact (Option.some.inj hstep).symm

variable (hquote : quote ≠ '\\')

include hquote

theorem scan_quotedStep_eq_none_iff {s : Text} :
    scan (quotedStep quote) false s = none ↔ Unclosed quote s := by
  constructor
  · intro h x y hs
    obtain ⟨last, hlast⟩ := scan_eq_none_iff_foldlM.1 h
    rw [hs, List.foldlM_append, Option.bind_eq_bind, Option.bind_eq_some_iff] at hlast
    obtain ⟨escaped, hescaped, -⟩ := hlast
    have hstep := scan_eq_none_iff.1 h x quote y escaped hs hescaped
    rw [← eq_endsEscaping hescaped]
    cases escaped with
    | true => rfl
    | false => simp [quotedStep, hquote] at hstep
  · intro h
    rw [scan_eq_none_iff]
    intro x c y escaped hs hescaped hstep
    rw [quotedStep_eq] at hstep
    split at hstep
    · rename_i hends
      obtain ⟨rfl, -, rfl⟩ := hends
      have := h x y hs
      rw [← eq_endsEscaping hescaped] at this
      cases this
    · cases hstep

theorem foldlM_quotedStep {body : Text} (h : Unclosed quote body) :
    body.foldlM (quotedStep quote) false = some (endsEscaping body) := by
  obtain ⟨escaped, hescaped⟩ := scan_eq_none_iff_foldlM.1 ((scan_quotedStep_eq_none_iff hquote).2 h)
  rw [hescaped, eq_endsEscaping hescaped]

theorem quotedLength?_eq_none_iff {s : Text} : quotedLength? quote s = none ↔ ¬ ClosesQuote quote s := by
  rw [quotedLength?_eq_scan, ← unclosed_iff]
  exact scan_quotedStep_eq_none_iff hquote

end

theorem blockCommentLength?_eq_none_iff {s : Text} :
    blockCommentLength? s = none ↔ ∀ x y, s ≠ x ++ '*' :: '/' :: y := by
  fun_induction blockCommentLength? s with
  | case1 => simp
  | case2 s => simpa using ⟨[], s, rfl⟩
  | case3 c s hne ih =>
    rw [Option.map_eq_none_iff, ih]
    constructor
    · intro h x y heq
      cases x with
      | nil =>
        obtain ⟨rfl, rfl⟩ := List.cons.inj heq
        exact hne _ rfl rfl
      | cons d x => exact h x y (List.cons.inj heq).2
    · intro h x y heq
      exact h (c :: x) y (congrArg (c :: ·) heq)

/-- A text in which every quote is closed, and its characters outside of quotes. -/
inductive Outside : Text → Text → Prop where
  | nil : Outside [] []
  | plain {x outer : Text} {c : Char} (h : Outside x outer) (hc : c ≠ '\'') (hc' : c ≠ '"') :
      Outside (x ++ [c]) (outer ++ [c])
  | quoted {x outer body : Text} (double : Bool) (h : Outside x outer)
      (hbody : Unclosed (quoteMark double) body) (hend : endsEscaping body = false) :
      Outside (x ++ quoteMark double :: body ++ [quoteMark double]) outer

theorem quoteMark_ne (double : Bool) : quoteMark double ≠ '\\' := by
  cases double <;> decide

/-- Some brackets are open behind a text. -/
def Nests (nested : Nat) (outer : Text) : Prop := nested + outer.count ']' = outer.count '['

theorem attributeStep_outside {nested : Nat} {c : Char} (hc : c ≠ '\'') (hc' : c ≠ '"') :
    attributeStep (nested, none) c =
      if c = '[' then some (nested + 1, none)
      else if c = ']' then if nested = 0 then none else some (nested - 1, none)
      else some (nested, none) := by
  simp only [attributeStep, if_neg hc, if_neg hc']
  cases nested <;> rfl

theorem Nests.step {nested : Nat} {outer : Text} (h : Nests nested outer) {c : Char}
    {state : Nat × Option (Bool × Bool)} (hc : c ≠ '\'') (hc' : c ≠ '"')
    (hstep : attributeStep (nested, none) c = some state) :
    ∃ next, state = (next, none) ∧ Nests next (outer ++ [c]) := by
  unfold Nests at h ⊢
  rw [attributeStep_outside hc hc'] at hstep
  rw [List.count_append, List.count_append, List.count_singleton, List.count_singleton]
  split at hstep
  · rename_i hopen
    obtain rfl := Option.some.inj hstep
    exact ⟨_, rfl, by simp [hopen]; omega⟩
  · split at hstep
    · rename_i hopen hclose
      split at hstep
      · cases hstep
      · obtain rfl := Option.some.inj hstep
        exact ⟨_, rfl, by simp [hclose]; omega⟩
    · rename_i hopen hclose
      obtain rfl := Option.some.inj hstep
      exact ⟨_, rfl, by simp [hopen, hclose]; omega⟩

theorem attributeStep_quote (nested : Nat) (double : Bool) :
    attributeStep (nested, none) (quoteMark double) = some (nested, some (double, false)) := by
  cases double <;> rfl

theorem Outside.state {x outer : Text} (h : Outside x outer) {state : Nat × Option (Bool × Bool)}
    (hscan : x.foldlM attributeStep (0, none) = some state) :
    ∃ nested, state = (nested, none) ∧ Nests nested outer := by
  induction h generalizing state with
  | nil =>
    obtain rfl := Option.some.inj hscan
    exact ⟨0, rfl, rfl⟩
  | plain h hc hc' ih =>
    obtain ⟨last, hlast, hstep⟩ := foldlM_concat_eq_some_iff.1 hscan
    obtain ⟨nested, rfl, hnests⟩ := ih hlast
    exact hnests.step hc hc' hstep
  | @quoted x outer body double h hbody hend ih =>
    rw [List.append_assoc, List.foldlM_append, Option.bind_eq_bind, Option.bind_eq_some_iff] at hscan
    obtain ⟨last, hlast, hscan⟩ := hscan
    obtain ⟨nested, rfl, hnests⟩ := ih hlast
    have hquoted := @foldlM_attributeStep_some nested _ _ _ _ (foldlM_quotedStep (quoteMark_ne double) hbody)
    rw [List.cons_append, List.foldlM_cons, attributeStep_quote] at hscan
    obtain ⟨last, hlast, hstep⟩ := foldlM_concat_eq_some_iff.1 hscan
    obtain rfl := Option.some.inj (hquoted.symm.trans hlast)
    rw [hend, attributeStep, quotedStep_eq, if_pos ⟨rfl, quoteMark_ne double, rfl⟩] at hstep
    exact ⟨nested, (Option.some.inj hstep).symm, hnests⟩

/-- What the scan has come to behind a text: outside of quotes, or in one that is open. -/
theorem exists_outside {x : Text} {nested : Nat} {quote? : Option (Bool × Bool)}
    (h : x.foldlM attributeStep (0, none) = some (nested, quote?)) :
    match quote? with
    | none => ∃ outer, Outside x outer ∧ Nests nested outer
    | some (double, escaped) => ∃ front outer body, x = front ++ quoteMark double :: body ∧
        Outside front outer ∧ Nests nested outer ∧
        body.foldlM (quotedStep (quoteMark double)) false = some escaped := by
  induction x using List.reverseRecOn generalizing nested quote? with
  | nil =>
    obtain ⟨rfl, rfl⟩ := Prod.mk.inj (Option.some.inj h)
    exact ⟨[], .nil, rfl⟩
  | append_singleton x c ih =>
    obtain ⟨⟨before, quote?'⟩, hbefore, hstep⟩ := foldlM_concat_eq_some_iff.1 h
    rcases quote?' with _ | ⟨double, escaped⟩
    · obtain ⟨outer, houtside, hnests⟩ := ih hbefore
      by_cases hquote : ∃ double, c = quoteMark double
      · obtain ⟨double, rfl⟩ := hquote
        rw [attributeStep_quote] at hstep
        obtain ⟨rfl, rfl⟩ := Prod.mk.inj (Option.some.inj hstep)
        exact ⟨x, outer, [], rfl, houtside, hnests, rfl⟩
      · have hc : c ≠ '\'' := fun hc => hquote ⟨false, hc⟩
        have hc' : c ≠ '"' := fun hc => hquote ⟨true, hc⟩
        obtain ⟨next, hnext, hnests'⟩ := hnests.step hc hc' hstep
        obtain ⟨rfl, rfl⟩ := Prod.mk.inj hnext
        exact ⟨outer ++ [c], .plain houtside hc hc', hnests'⟩
    · obtain ⟨front, outer, body, rfl, houtside, hnests, hbody⟩ := ih hbefore
      rw [attributeStep] at hstep
      cases hnext : quotedStep (quoteMark double) escaped c with
      | none =>
        rw [hnext] at hstep
        obtain ⟨rfl, rfl⟩ := Prod.mk.inj (Option.some.inj hstep)
        have hunclosed := (scan_quotedStep_eq_none_iff (quoteMark_ne double)).1
          (scan_eq_none_iff_foldlM.2 ⟨escaped, hbody⟩)
        rw [quotedStep_eq] at hnext
        split at hnext
        · rename_i hends
          obtain ⟨rfl, -, rfl⟩ := hends
          exact ⟨outer, .quoted double houtside hunclosed (eq_endsEscaping hbody).symm, hnests⟩
        · cases hnext
      | some next =>
        rw [hnext] at hstep
        obtain ⟨rfl, rfl⟩ := Prod.mk.inj (Option.some.inj hstep)
        exact ⟨front, outer, body ++ [c], by simp, houtside, hnests,
          foldlM_concat_eq_some_iff.2 ⟨escaped, hbody, hnext⟩⟩

def ClosesAttribute (s : Text) : Prop :=
  ∃ x outer y, s = x ++ ']' :: y ∧ Outside x outer ∧ outer.count ']' = outer.count '['

theorem attributeLength?_eq_none_iff {s : Text} :
    attributeLength? 0 none s = none ↔ ¬ ClosesAttribute s := by
  have hscan : attributeLength? 0 none s = scan attributeStep (0, none) s := attributeLength?_eq_scan 0 none s
  rw [hscan]
  constructor
  · rintro h ⟨x, outer, y, hs, houtside, hcount⟩
    obtain ⟨last, hlast⟩ := scan_eq_none_iff_foldlM.1 h
    rw [hs, List.foldlM_append, Option.bind_eq_bind, Option.bind_eq_some_iff] at hlast
    obtain ⟨state, hstate, -⟩ := hlast
    obtain ⟨nested, rfl, hnests⟩ := houtside.state hstate
    obtain rfl : nested = 0 := by
      unfold Nests at hnests
      omega
    exact scan_eq_none_iff.1 h x ']' y _ hs hstate rfl
  · intro h
    rw [scan_eq_none_iff]
    rintro x c y ⟨nested, quote?⟩ hs hstate hstep
    have hcome := exists_outside hstate
    rcases quote? with _ | ⟨double, escaped⟩
    · obtain ⟨outer, houtside, hnests⟩ := hcome
      by_cases hquote : ∃ double, c = quoteMark double
      · obtain ⟨double, rfl⟩ := hquote
        rw [attributeStep_quote] at hstep
        cases hstep
      · rw [attributeStep_outside (fun hc => hquote ⟨false, hc⟩) fun hc => hquote ⟨true, hc⟩] at hstep
        split at hstep
        · cases hstep
        · split at hstep
          · rename_i hclose
            split at hstep
            · rename_i hzero
              refine h ⟨x, outer, y, by rw [hs, hclose], houtside, ?_⟩
              rw [← hnests, hzero, Nat.zero_add]
            · cases hstep
          · cases hstep
    · rw [attributeStep] at hstep
      split at hstep <;> cases hstep

def ClosesLine (label s : Text) : Prop :=
  ∃ blanks rest, s = blanks ++ (label ++ rest) ∧ (∀ c ∈ blanks, isBlank c = true) ∧
    rest.head?.any Text.isWordChar = false

def ClosesLines (label : Text) (lineStart : Bool) (s : Text) : Prop :=
  ∃ lines rest, s = lines ++ rest ∧
    (lines = [] ∧ lineStart = true ∨ ∃ front, lines = front ++ ['\n']) ∧ ClosesLine label rest

theorem closesLines_cons_iff {label : Text} {lineStart : Bool} {c : Char} {s : Text} :
    ClosesLines label lineStart (c :: s) ↔
      lineStart = true ∧ ClosesLine label (c :: s) ∨ ClosesLines label (c == '\n') s := by
  constructor
  · rintro ⟨lines, rest, hs, ⟨rfl, hstart⟩ | ⟨front, rfl⟩, hrest⟩
    · exact Or.inl ⟨hstart, by rw [hs]; exact hrest⟩
    · refine Or.inr ?_
      cases front with
      | nil =>
        obtain ⟨rfl, rfl⟩ := List.cons.inj hs
        exact ⟨[], s, rfl, Or.inl ⟨rfl, rfl⟩, hrest⟩
      | cons d front =>
        obtain ⟨rfl, rfl⟩ := List.cons.inj hs
        exact ⟨front ++ ['\n'], rest, rfl, Or.inr ⟨front, rfl⟩, hrest⟩
  · rintro (⟨hstart, hrest⟩ | ⟨lines, rest, rfl, ⟨rfl, hc⟩ | ⟨front, rfl⟩, hrest⟩)
    · exact ⟨[], c :: s, rfl, Or.inl ⟨rfl, hstart⟩, hrest⟩
    · exact ⟨[c], rest, rfl, Or.inr ⟨[], by rw [eq_of_beq hc]; rfl⟩, hrest⟩
    · exact ⟨c :: front ++ ['\n'], rest, rfl, Or.inr ⟨c :: front, rfl⟩, hrest⟩

section

variable {label : Text} (hlabel : label ≠ []) (hword : ∀ c ∈ label, Text.isWordChar c = true)

include hlabel hword

theorem isSome_closingLabelLength?_iff {line : Text} :
    (closingLabelLength? label line).isSome = true ↔ ClosesLine label line := by
  rw [Option.isSome_iff_exists]
  simp only [closingLabelLength?_eq_some_iff hlabel hword]
  constructor
  · rintro ⟨n, blanks, rest, hline, hblanks, hstop, -⟩
    exact ⟨blanks, rest, hline, hblanks, hstop⟩
  · rintro ⟨blanks, rest, hline, hblanks, hstop⟩
    exact ⟨_, blanks, rest, hline, hblanks, hstop, rfl⟩

theorem isSome_heredocBodyLength?_iff {lineStart : Bool} {s : Text} :
    (heredocBodyLength? label lineStart s).isSome = true ↔ ClosesLines label lineStart s := by
  induction s generalizing lineStart with
  | nil =>
    refine ⟨fun h => (by cases h), ?_⟩
    rintro ⟨lines, rest, hs, -, blanks, tail, rfl, -⟩
    have := congrArg List.length hs
    have := List.length_pos_iff.2 hlabel
    simp only [List.length_nil, List.length_append] at *
    omega
  | cons c s ih =>
    rw [closesLines_cons_iff, ← isSome_closingLabelLength?_iff hlabel hword, ← ih, heredocBodyLength?]
    cases lineStart with
    | false => simp
    | true =>
      cases closingLabelLength? label (c :: s) with
      | none => simp
      | some n => simp

end

def ClosesHeredoc (s : Text) : Prop :=
  ∃ blanks quote label line body, s = blanks ++ (quote ++ (label ++ (quote ++ (line ++ '\n' :: body)))) ∧
    (∀ c ∈ blanks, isBlank c = true) ∧ quote ∈ [[], ['"'], ['\'']] ∧ label ≠ [] ∧
    (∀ c ∈ label, Text.isWordChar c = true) ∧ (quote ++ line).head?.any Text.isWordChar = false ∧
    '\n' ∉ line ∧ ClosesLines label true body

theorem heredocLength?_eq_none_iff {s : Text} : heredocLength? s = none ↔ ¬ ClosesHeredoc s := by
  constructor
  · rintro h ⟨blanks, quote, label, line, body, hs, hblanks, hquote, hlabel, hword, hstop, hline, hcloses⟩
    obtain ⟨m, hm⟩ := Option.isSome_iff_exists.1 ((isSome_heredocBodyLength?_iff hlabel hword).2 hcloses)
    rw [heredocLength?_of_form ⟨hs, hblanks, hquote, hlabel, hword, hstop, hline, hm, rfl⟩] at h
    cases h
  · intro h
    cases hlength : heredocLength? s with
    | none => rfl
    | some n =>
      obtain ⟨blanks, quote, label, line, body, m, hform⟩ := exists_heredocForm hlength
      refine absurd ⟨blanks, quote, label, line, body, hform.text, hform.blank, hform.quotes,
        hform.label_ne_nil, hform.word, hform.stop, hform.newline_not_mem, ?_⟩ h
      rw [← isSome_heredocBodyLength?_iff hform.label_ne_nil hform.word, hform.closes]
      rfl

end Lexeme

open Lexeme

/-- Something in the text behind an opener ends the lexeme, by the rule of the opener. -/
def Opener.Closes : Opener → Text → Prop
  | .singleQuote, s => ClosesQuote '\'' s
  | .doubleQuote, s => ClosesQuote '"' s
  | .backtick, s => ClosesQuote '\x60' s
  | .blockComment, s => ∃ x y, s = x ++ '*' :: '/' :: y
  | .heredoc, s => ClosesHeredoc s
  | .attribute, s => ClosesAttribute s

theorem closedLexeme_eq_error_iff {opener o : Opener} {kind : TokenKind} {n : Option Nat} :
    closedLexeme opener kind n = .error o ↔ n = none ∧ o = opener := by
  cases n with
  | none => simp [closedLexeme, eq_comm]
  | some n => simp [closedLexeme]

section

variable {c : Char} (h : c ∈ ['\'', '"', '\x60'])

include h

theorem quote_ne : c ≠ '\\' := by
  rintro rfl
  revert h
  decide

theorem spelling_quoteOpener : (quoteOpener c).spelling = [c] := by
  simp only [List.mem_cons, List.not_mem_nil, or_false] at h
  rcases h with rfl | rfl | rfl <;> rfl

theorem closes_quoteOpener {s : Text} : (quoteOpener c).Closes s ↔ ClosesQuote c s := by
  simp only [List.mem_cons, List.not_mem_nil, or_false] at h
  rcases h with rfl | rfl | rfl <;> exact Iff.rfl

theorem codeLexeme_of_not_closesQuote {s : Text} (hopen : ¬ ClosesQuote c s) :
    codeLexeme c s = .error (quoteOpener c) := by
  rw [codeLexeme_quote h, (quotedLength?_eq_none_iff (quote_ne h)).2 hopen]
  rfl

end

/-- Code does not start with a lexeme exactly where it starts with an opener behind which nothing ends
it. -/
theorem codeLexeme_eq_error_iff {c : Char} {s : Text} {o : Opener} :
    codeLexeme c s = .error o ↔ ∃ t, c :: s = o.spelling ++ t ∧ ¬ o.Closes t := by
  constructor
  · intro h
    cases codeStart c s with
    | space hc =>
      rw [codeLexeme_space hc] at h
      cases h
    | hashBracket t =>
      rw [codeLexeme_hashBracket, closedLexeme_eq_error_iff, attributeLength?_eq_none_iff] at h
      obtain ⟨hopen, rfl⟩ := h
      exact ⟨t, rfl, hopen⟩
    | hash hs =>
      rw [codeLexeme_hash hs] at h
      cases h
    | slashes t =>
      rw [codeLexeme_slashes] at h
      cases h
    | block t =>
      rw [codeLexeme_block, closedLexeme_eq_error_iff, blockCommentLength?_eq_none_iff] at h
      obtain ⟨hopen, rfl⟩ := h
      exact ⟨t, rfl, fun ⟨x, y, ht⟩ => hopen x y ht⟩
    | slash hs hs' =>
      rw [codeLexeme_slash hs hs'] at h
      cases h
    | quote hc =>
      rw [codeLexeme_quote hc, closedLexeme_eq_error_iff, quotedLength?_eq_none_iff (quote_ne hc)] at h
      obtain ⟨hopen, rfl⟩ := h
      exact ⟨s, by rw [spelling_quoteOpener hc]; rfl, by rwa [closes_quoteOpener hc]⟩
    | heredoc t =>
      rw [codeLexeme_heredoc, closedLexeme_eq_error_iff, heredocLength?_eq_none_iff] at h
      obtain ⟨hopen, rfl⟩ := h
      exact ⟨t, rfl, hopen⟩
    | less hs =>
      rw [codeLexeme_less hs] at h
      cases h
    | dollarWord hd =>
      rw [codeLexeme_dollarWord hd] at h
      cases h
    | dollar hs =>
      rw [codeLexeme_dollar hs] at h
      cases h
    | number hc =>
      rw [codeLexeme_number hc] at h
      cases h
    | word hc =>
      rw [codeLexeme_word hc] at h
      cases h
    | closeTag t =>
      rw [codeLexeme_closeTag] at h
      cases h
    | question hs =>
      rw [codeLexeme_question hs] at h
      cases h
    | mark hc =>
      rw [codeLexeme_mark hc] at h
      cases h
  · rintro ⟨t, hs, hopen⟩
    cases o with
    | singleQuote =>
      replace hs : c :: s = '\'' :: t := hs
      obtain ⟨rfl, rfl⟩ := List.cons.inj hs
      exact codeLexeme_of_not_closesQuote (by decide) hopen
    | doubleQuote =>
      replace hs : c :: s = '"' :: t := hs
      obtain ⟨rfl, rfl⟩ := List.cons.inj hs
      exact codeLexeme_of_not_closesQuote (by decide) hopen
    | backtick =>
      replace hs : c :: s = '\x60' :: t := hs
      obtain ⟨rfl, rfl⟩ := List.cons.inj hs
      exact codeLexeme_of_not_closesQuote (by decide) hopen
    | blockComment =>
      replace hs : c :: s = '/' :: '*' :: t := hs
      obtain ⟨rfl, rfl⟩ := List.cons.inj hs
      rw [codeLexeme_block, blockCommentLength?_eq_none_iff.2 fun x y ht => hopen ⟨x, y, ht⟩]
      rfl
    | heredoc =>
      replace hs : c :: s = '<' :: '<' :: '<' :: t := hs
      obtain ⟨rfl, rfl⟩ := List.cons.inj hs
      rw [codeLexeme_heredoc, heredocLength?_eq_none_iff.2 hopen]
      rfl
    | «attribute» =>
      replace hs : c :: s = '#' :: '[' :: t := hs
      obtain ⟨rfl, rfl⟩ := List.cons.inj hs
      rw [codeLexeme_hashBracket, attributeLength?_eq_none_iff.2 hopen]
      rfl

end Namespacing
