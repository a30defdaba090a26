import Namespacing.Proofs.Token.Headers
import Namespacing.Proofs.Token.Terminators
set_option autoImplicit false

/-!
# Where cutting a file stops

A file that cannot be cut into tokens has a first place where no lexeme starts. The tokens up to there
were read with the rest of the file behind them; they stay what they are when the file ends there instead.
Main theorem: cutting fails only inside the code tags, at an opener behind which nothing ends the token, and
the text before it can be cut.
-/

namespace Namespacing

open Lexeme

/-- The tokens of a text, read with more text behind it, up to a place of code where no lexeme starts. -/
inductive Stops (opener : Opener) (after : Text) : Mode → Text → List Shape → Prop where
  | stop {c : Char} {s : Text} (hafter : after = c :: s) (h : codeLexeme c s = .error opener) :
      Stops opener after .code [] []
  | cons {mode : Mode} {kind : TokenKind} {w r : Text} {shapes : List Shape}
      (h : mode.Form kind w (r ++ after)) (rest : Stops opener after (mode.after kind) r shapes) :
      Stops opener after mode (w ++ r) (⟨kind, w⟩ :: shapes)

theorem exists_stops {mode : Mode} {offset : Nat} {s : Text} {u : Unterminated}
    (h : tokensFrom mode offset s = .error u) :
    ∃ before after shapes, s = before ++ after ∧ u.offset = offset + Text.utf8Size before ∧
      Stops u.opener after mode before shapes := by
  induction hn : s.length using Nat.strongRecOn generalizing mode offset s with
  | _ n ih =>
    subst hn
    cases s with
    | nil =>
      rw [tokensFrom] at h
      cases h
    | cons c s =>
      cases hl : mode.lexeme c s with
      | error opener =>
        rw [tokensFrom, hl] at h
        obtain rfl := Except.error.inj h
        cases mode with
        | html => cases hl
        | code => exact ⟨[], c :: s, [], rfl, rfl, .stop rfl hl⟩
      | ok l =>
        obtain ⟨w, r, hs, -, hform⟩ := Mode.form_of_lexeme hl
        have hlt : r.length < (c :: s).length := by
          have := List.length_pos_iff.2 hform.ne_nil
          rw [hs, List.length_append]
          omega
        rw [hs, tokensFrom_of_form hform] at h
        cases hr : tokensFrom (mode.after l.kind) (offset + Text.utf8Size w) r with
        | ok tokens =>
          rw [hr] at h
          cases h
        | error e =>
          rw [hr] at h
          obtain rfl := Except.error.inj h
          obtain ⟨before, after, shapes, rfl, hoffset, hstops⟩ := ih _ hlt hr rfl
          refine ⟨w ++ before, after, ⟨l.kind, w⟩ :: shapes, by rw [hs, List.append_assoc], ?_, .cons hform hstops⟩
          rw [hoffset, Text.utf8Size_append, Nat.add_assoc]

/-- The text that is left out starts like an opener. -/
def Opens (after : Text) : Prop := ∃ c s, after = c :: s ∧ c ∈ ['\'', '"', '\x60', '/', '<', '#']

theorem opens_of_error {c : Char} {s : Text} {o : Opener} (h : codeLexeme c s = .error o) : Opens (c :: s) := by
  obtain ⟨t, ht, -⟩ := codeLexeme_eq_error_iff.1 h
  refine ⟨c, s, rfl, ?_⟩
  cases o with
  | singleQuote => rw [(List.cons.inj (show c :: s = '\'' :: t from ht)).1]; decide
  | doubleQuote => rw [(List.cons.inj (show c :: s = '"' :: t from ht)).1]; decide
  | backtick => rw [(List.cons.inj (show c :: s = '\x60' :: t from ht)).1]; decide
  | blockComment => rw [(List.cons.inj (show c :: s = '/' :: '*' :: t from ht)).1]; decide
  | heredoc => rw [(List.cons.inj (show c :: s = '<' :: '<' :: '<' :: t from ht)).1]; decide
  | «attribute» => rw [(List.cons.inj (show c :: s = '#' :: '[' :: t from ht)).1]; decide

theorem any_head?_of_append {f : Char → Bool} {r after : Text} (h : (r ++ after).head?.any f = false) :
    r.head?.any f = false := by
  cases r with
  | nil => rfl
  | cons c r => exact h

theorem head?_ne_of_append {c : Char} {r after : Text} (h : (r ++ after).head? ≠ some c) :
    r.head? ≠ some c := by
  cases r with
  | nil => exact fun h => by cases h
  | cons d r => exact h

section

variable {after : Text} (hafter : Opens after)

include hafter

theorem endsLine_of_append {r : Text} (h : EndsLine (r ++ after)) : EndsLine r := by
  obtain ⟨c, s, rfl, hc⟩ := hafter
  rcases h with h | h | ⟨t, ht⟩
  · simp at h
  · cases r with
    | nil => exact Or.inl rfl
    | cons d r => exact Or.inr (Or.inl h)
  · cases r with
    | nil => exact Or.inl rfl
    | cons d r =>
      obtain ⟨rfl, hrest⟩ := List.cons.inj ht
      cases r with
      | nil =>
        obtain ⟨rfl, -⟩ := List.cons.inj hrest
        exact absurd hc (by decide)
      | cons e r =>
        obtain ⟨rfl, -⟩ := List.cons.inj hrest
        exact Or.inr (Or.inr ⟨r, rfl⟩)

omit hafter in
theorem EndsLine.append {c : Char} {s : Text} (h : EndsLine (c :: s)) (t : Text) :
    EndsLine (c :: s ++ t) := by
  rcases h with h | h | ⟨u, hu⟩
  · cases h
  · exact Or.inr (Or.inl h)
  · exact Or.inr (Or.inr ⟨u ++ t, by rw [hu]; rfl⟩)

omit hafter in
theorem lineCommentLength_of_append {u r : Text} (hends : EndsLine (r ++ after) → EndsLine r)
    (h : lineCommentLength (u ++ (r ++ after)) = u.length) : lineCommentLength (u ++ r) = u.length := by
  rw [lineCommentLength_eq_length_iff] at h ⊢
  refine ⟨fun x c y hu hends => h.1 x c y hu ?_, hends h.2⟩
  rw [← List.append_assoc]
  exact hends.append after

omit hafter in
theorem swallowedNewline_of_append {u r : Text} (h : swallowedNewline (u ++ (r ++ after)) = u.length) :
    swallowedNewline (u ++ r) = u.length := by
  rcases swallowed_cases h with rfl | rfl | rfl
  · rw [List.nil_append] at h ⊢
    unfold swallowedNewline
    split
    · cases h
    · cases h
    · rfl
  · rfl
  · rfl

omit hafter in
/-- A lexeme of code is one also where the text behind it ends earlier, if a line comment may end there. -/
theorem CodeForm.of_append {kind : TokenKind} {w r : Text} (hends : EndsLine (r ++ after) → EndsLine r)
    (h : CodeForm kind w (r ++ after)) : CodeForm kind w r := by
  cases h with
  | space hne hw hr => exact .space hne hw (any_head?_of_append hr)
  | hashBracket h => exact .hashBracket h
  | hash hu h => exact .hash hu (lineCommentLength_of_append hends h)
  | slashes h => exact .slashes (lineCommentLength_of_append hends h)
  | block hkind h => exact .block hkind h
  | quote hq h => exact .quote hq h
  | heredoc h =>
    exact .heredoc (heredocLength?_congr h (any_head?_of_append (exists_last_of_heredocLength? h).1))
  | dollarWord hw hr => exact .dollarWord hw (any_head?_of_append hr)
  | number hc hw hr => exact .number hc hw (any_head?_of_append hr)
  | word hkind hw hr => exact .word hkind hw (any_head?_of_append hr)
  | closeTag h => exact .closeTag (swallowedNewline_of_append h)
  | single h =>
    refine .single ?_
    cases h with
    | mark h => exact .mark h
    | slash h h' => exact .slash (head?_ne_of_append h) (head?_ne_of_append h')
    | less h => exact .less fun t ht => h (t ++ after) (by rw [ht]; rfl)
    | dollar h => exact .dollar (any_head?_of_append h)
    | question h => exact .question (head?_ne_of_append h)

theorem OpenTag.of_append {w r : Text} (h : OpenTag w (r ++ after)) : OpenTag w r := by
  generalize hs : r ++ after = s at h
  cases h with
  | php hw hspace =>
    refine .php hw ?_
    cases hspace with
    | fileEnd =>
      obtain ⟨c, t, rfl, -⟩ := hafter
      simp at hs
    | crlf => exact .crlf r
    | space hc hnext =>
      subst hs
      exact .space hc fun hcr => head?_ne_of_append (hnext hcr)
  | echo => exact .echo r
  | short hphp hecho hxml =>
    subst hs
    refine .short (fun w t ht => hphp w (t ++ after) (by rw [ht, List.append_assoc])) (head?_ne_of_append hecho) ?_
    rw [Bool.eq_false_iff] at hxml ⊢
    intro hstarts
    obtain ⟨t, rfl⟩ := Text.startsWith_iff.1 hstarts
    exact hxml (Text.startsWith_iff.2 ⟨t ++ after, by rw [List.append_assoc]⟩)

end

theorem isSome_openTagLength?_less {x : Text} (hx : x ≠ []) (t t' : Text) :
    (openTagLength? (x ++ '<' :: t)).isSome = (openTagLength? (x ++ '<' :: t')).isSome := by
  by_cases hopen : ∃ y, x = '<' :: '?' :: y
  · obtain ⟨y, rfl⟩ := hopen
    simp only [List.cons_append]
    by_cases hphp : ∃ w v, y = w ++ v ∧ w.map Char.toLower = "php".toList
    · obtain ⟨w, v, rfl, hw⟩ := hphp
      rw [List.append_assoc, List.append_assoc, openTagLength?_php hw, openTagLength?_php hw,
        isSome_phpTagLength?, isSome_phpTagLength?]
      cases v <;> rfl
    · have hnot : ∀ u, ∀ w r, y ++ '<' :: u = w ++ r → w.map Char.toLower ≠ "php".toList := by
        intro u w r hwr hw
        obtain ⟨v, hv⟩ := exists_prefix_of_append_cons (not_mem_of_php hw (by decide)) hwr
        exact hphp ⟨w, v, hv, hw⟩
      rw [openTagLength?_short (hnot t), openTagLength?_short (hnot t'), startsWith_append_cons (by decide),
        startsWith_append_cons (by decide)]
      cases y <;> rfl
  · have hnone : ∀ u, openTagLength? (x ++ '<' :: u) = none := by
      intro u
      refine openTagLength?_eq_none fun after h => ?_
      obtain ⟨c, y, rfl⟩ := List.exists_cons_of_ne_nil hx
      obtain ⟨rfl, hrest⟩ := List.cons.inj h
      cases y with
      | nil => cases (List.cons.inj hrest).1
      | cons d y =>
        obtain ⟨rfl, -⟩ := List.cons.inj hrest
        exact hopen ⟨y, rfl⟩
    rw [hnone t, hnone t']

theorem htmlLength_less {w t t' : Text} (h : htmlLength (w ++ '<' :: t) = w.length)
    (htag : (openTagLength? ('<' :: t')).isSome = true) : htmlLength (w ++ '<' :: t') = w.length := by
  induction w with
  | nil => rw [List.nil_append, htmlLength, if_pos htag, List.length_nil]
  | cons c w ih =>
    have hsame := isSome_openTagLength?_less (List.cons_ne_nil c w) t t'
    rw [List.cons_append, htmlLength] at h ⊢
    rw [List.cons_append, List.cons_append] at hsame
    rw [← hsame]
    split at h
    · cases h
    · rw [if_neg (by assumption), ih (Nat.succ.inj h), List.length_cons]

theorem OpenTag.head {w r : Text} (h : OpenTag w r) : ∃ v, w = '<' :: v := by
  cases h with
  | php => exact ⟨_, rfl⟩
  | echo => exact ⟨_, rfl⟩
  | short => exact ⟨_, rfl⟩

section

variable {opener : Opener} {after : Text} (hafter : Opens after)

include hafter

theorem Stops.openTag {r : Text} {shapes : List Shape} (h : Stops opener after .html r shapes)
    (htag : (openTagLength? (r ++ after)).isSome = true) :
    ∃ t t', r = '<' :: t ∧ r ++ after = '<' :: t' ∧ (openTagLength? r).isSome = true := by
  cases h with
  | @cons _ kind w r _ hform rest =>
    have hform : HtmlForm kind w (r ++ after) := hform
    cases hform with
    | tag hopen =>
      obtain ⟨v, rfl⟩ := hopen.head
      refine ⟨v ++ r, _, rfl, rfl, ?_⟩
      rw [openTagLength?_eq_some_iff.2 ⟨_, r, rfl, hopen.of_append hafter, rfl⟩]
      rfl
    | text hne hlength =>
      obtain ⟨c, v, rfl⟩ := List.exists_cons_of_ne_nil hne
      rw [List.append_assoc, List.cons_append] at htag
      rw [List.cons_append, htmlLength, if_pos htag] at hlength
      cases hlength

theorem Stops.form {mode : Mode} {kind : TokenKind} {w r : Text} {shapes : List Shape}
    (h : mode.Form kind w (r ++ after)) (rest : Stops opener after (mode.after kind) r shapes) :
    mode.Form kind w r := by
  cases mode with
  | code => exact CodeForm.of_append (endsLine_of_append hafter) h
  | html =>
    have hform : HtmlForm kind w (r ++ after) := h
    change HtmlForm kind w r
    cases hform with
    | tag hopen => exact .tag (hopen.of_append hafter)
    | text hne hlength =>
      obtain ⟨c, s, rfl, -⟩ := id hafter
      have htag := (isSome_openTagLength?_of_htmlLength hlength).resolve_left (by simp)
      obtain ⟨t, t', rfl, heq, hopen⟩ := Stops.openTag hafter rest htag
      rw [heq] at hlength
      exact .text hne (htmlLength_less hlength hopen)

theorem Stops.cuts {mode : Mode} {before : Text} {shapes : List Shape}
    (h : Stops opener after mode before shapes) : Cuts mode before shapes := by
  induction h with
  | stop => exact .nil _
  | cons hform rest ih => exact .cons (rest.form hafter hform) ih

end

theorem wordKind_ne_inlineHtml (w : Text) : wordKind w ≠ .inlineHtml := by
  unfold wordKind
  split
  · exact fun h => by cases h
  · exact fun h => by cases h

theorem CodeForm.ne_inlineHtml {kind : TokenKind} {w r : Text} (h : CodeForm kind w r) : kind ≠ .inlineHtml := by
  rintro rfl
  cases h with
  | @block _ u _ hkind =>
    unfold blockKind at hkind
    split at hkind <;> cases hkind
  | word hkind => exact wordKind_ne_inlineHtml _ hkind.symm

section

variable {opener : Opener} {after before : Text} {mode : Mode} {shapes : List Shape}

theorem Stops.error (h : Stops opener after mode before shapes) :
    ∃ c s, after = c :: s ∧ codeLexeme c s = .error opener := by
  induction h with
  | stop hafter h => exact ⟨_, _, hafter, h⟩
  | cons hform rest ih => exact ih

theorem Stops.last (h : Stops opener after mode before shapes) :
    shapes = [] ∧ mode = .code ∨
      ∃ A x, shapes = A ++ [x] ∧ x.kind ≠ .inlineHtml ∧ x.kind ≠ .closeTag := by
  induction h with
  | stop => exact Or.inl ⟨rfl, rfl⟩
  | @cons mode kind w r shapes hform rest ih =>
    refine Or.inr ?_
    rcases ih with ⟨rfl, hmode⟩ | ⟨A, x, rfl, hx⟩
    · refine ⟨[], ⟨kind, w⟩, rfl, ?_, ?_⟩
      · rintro rfl
        obtain rfl : mode = .code := hmode
        exact CodeForm.ne_inlineHtml hform rfl
      · rintro rfl
        cases hmode
    · exact ⟨⟨kind, w⟩ :: A, x, rfl, hx⟩

end

/-- Where a file cannot be cut, the fault names the place inside the code tags up to which it can, and the
opener there, behind which nothing ends the token. -/
theorem tokenize_stops_at_opener {source : Text} {u : Unterminated} (h : tokenize source = .error u) :
    ∃ before behind tokens last,
      source = before ++ (u.opener.spelling ++ behind) ∧
      u.offset = Text.utf8Size before ∧ u.offset < Text.utf8Size source ∧
      tokenize before = .ok (tokens ++ [last]) ∧ last.kind ≠ .inlineHtml ∧ last.kind ≠ .closeTag ∧
      ¬ u.opener.Closes behind ∧
      u.problem = "unterminated token starting with ".toList ++ Text.quoted u.opener.spelling := by
  obtain ⟨before, after, shapes, rfl, hoffset, hstops⟩ := exists_stops h
  obtain ⟨c, s, rfl, herror⟩ := hstops.error
  obtain ⟨behind, hafter, hopen⟩ := codeLexeme_eq_error_iff.1 herror
  obtain ⟨all, hall, hshapes⟩ := (hstops.cuts (opens_of_error herror)).exists_tokens 0
  obtain ⟨A, x, rfl, hx⟩ := hstops.last.resolve_left fun ⟨_, hmode⟩ => (by cases hmode)
  obtain ⟨tokens, rest, rfl, -, hrest⟩ := List.map_eq_append_iff.1 hshapes
  obtain ⟨last, rfl, rfl⟩ := List.map_eq_singleton_iff.1 hrest
  have hplace : u.offset = Text.utf8Size before := hoffset.trans (Nat.zero_add _)
  refine ⟨before, behind, tokens, last, by rw [hafter], hplace, ?_, hall, hx.1, hx.2, hopen, rfl⟩
  have := Char.utf8Size_pos c
  rw [hplace, Text.utf8Size_append, Text.utf8Size_cons]
  omega

theorem tokenize_stops_at_opener_string :
    let source := "é<?php 'a' . \"b\\\"".toList
    tokenize source = .error ⟨14, .doubleQuote⟩ ∧
    ∃ before behind tokens last,
      source = before ++ (Opener.doubleQuote.spelling ++ behind) ∧
      14 = Text.utf8Size before ∧ 14 < Text.utf8Size source ∧
      tokenize before = .ok (tokens ++ [last]) ∧ last.kind ≠ .inlineHtml ∧ last.kind ≠ .closeTag ∧
      ¬ Opener.doubleQuote.Closes behind ∧
      (Unterminated.mk 14 .doubleQuote).problem =
        "unterminated token starting with ".toList ++ Text.quoted Opener.doubleQuote.spelling := by
  intro source
  have herror : tokenize source = .error ⟨14, .doubleQuote⟩ := by decide +kernel
  exact ⟨herror, tokenize_stops_at_opener herror⟩

end Namespacing
