import Namespacing.Proofs.Token.Starts
import Namespacing.Token.Stream
set_option autoImplicit false

/-!
# The forms of tokens

`CodeForm` and `HtmlForm` say without a scanner's order of tests which texts are a token of which kind,
and what may follow the token. They describe the lexemes exactly, and `Cuts` describes in their terms
the texts that can be cut into tokens and their tokens up to offsets.
-/

namespace Namespacing

open Lexeme

inductive TagSpace : Text → Text → Prop where
  | fileEnd : TagSpace [] []
  | crlf (r : Text) : TagSpace ['\r', '\n'] r
  | space {c : Char} {r : Text} (hc : isSpace c = true) (h : c = '\r' → r.head? ≠ some '\n') :
      TagSpace [c] r

inductive OpenTag : Text → Text → Prop where
  | php {w space r : Text} (hw : w.map Char.toLower = "php".toList) (hspace : TagSpace space r) :
      OpenTag ('<' :: '?' :: (w ++ space)) r
  | echo (r : Text) : OpenTag ['<', '?', '='] r
  | short {r : Text} (hphp : ∀ w t, r = w ++ t → w.map Char.toLower ≠ "php".toList)
      (hecho : r.head? ≠ some '=') (hxml : Text.startsWith "xml".toList r = false) : OpenTag ['<', '?'] r

theorem phpTagLength?_eq_some_iff {s : Text} {n : Nat} :
    phpTagLength? s = some n ↔ ∃ space r, s = space ++ r ∧ TagSpace space r ∧ n = 5 + space.length := by
  constructor
  · intro h
    unfold phpTagLength? at h
    split at h
    · rename_i hs
      refine ⟨[], [], hs, .fileEnd, ?_⟩
      simpa using h.symm
    · split at h
      · rename_i hcrlf
        obtain ⟨s, rfl⟩ := List.head?_eq_some_iff.1 hcrlf.1
        obtain ⟨s, rfl⟩ := List.head?_eq_some_iff.1 hcrlf.2
        refine ⟨['\r', '\n'], s, rfl, .crlf s, ?_⟩
        simpa using h.symm
      · split at h
        · rename_i hcrlf hspace
          cases s with
          | nil => cases hspace
          | cons c s =>
            refine ⟨[c], s, rfl, .space (by simpa using hspace) ?_, by simpa using h.symm⟩
            rintro rfl hs
            exact hcrlf ⟨rfl, hs⟩
        · cases h
  · rintro ⟨space, r, rfl, hspace, rfl⟩
    cases hspace with
    | fileEnd => rfl
    | crlf r => simp [phpTagLength?]
    | @space c r hc h =>
      unfold phpTagLength?
      rw [if_neg (by simp), if_neg]
      · simp [hc]
      · rintro ⟨hcr, hn⟩
        exact h (by simpa using hcr) (by simpa using hn)

theorem openTagLength?_eq_some_iff {s : Text} {n : Nat} :
    openTagLength? s = some n ↔ ∃ w r, s = w ++ r ∧ OpenTag w r ∧ n = w.length := by
  constructor
  · intro h
    by_cases hs : ∃ after, s = '<' :: '?' :: after
    · obtain ⟨after, rfl⟩ := hs
      by_cases hphp : ∃ w r, after = w ++ r ∧ w.map Char.toLower = "php".toList
      · obtain ⟨w, r, rfl, hw⟩ := hphp
        rw [openTagLength?_php hw] at h
        obtain ⟨space, t, rfl, hspace, rfl⟩ := phpTagLength?_eq_some_iff.1 h
        have hlen : w.length = 3 := by simpa using congrArg List.length hw
        refine ⟨_, t, by simp, .php hw hspace, ?_⟩
        simp only [List.length_cons, List.length_append, hlen]
        omega
      · have hphp' : ∀ w r, after = w ++ r → w.map Char.toLower ≠ "php".toList :=
          fun w r hwr hw => hphp ⟨w, r, hwr, hw⟩
        rw [openTagLength?_short hphp'] at h
        split at h
        · rename_i hecho
          obtain ⟨r, rfl⟩ := List.head?_eq_some_iff.1 hecho
          exact ⟨_, r, rfl, .echo r, (Option.some.inj h).symm⟩
        · split at h
          · cases h
          · rename_i hecho hxml
            exact ⟨_, after, rfl, .short hphp' hecho (by simpa using hxml), (Option.some.inj h).symm⟩
    · rw [openTagLength?_eq_none fun after hafter => hs ⟨after, hafter⟩] at h
      cases h
  · rintro ⟨w, r, rfl, htag, rfl⟩
    cases htag with
    | @php w space r hw hspace =>
      have hlen : w.length = 3 := by simpa using congrArg List.length hw
      rw [List.cons_append, List.cons_append, List.append_assoc, openTagLength?_php hw]
      refine phpTagLength?_eq_some_iff.2 ⟨space, r, rfl, hspace, ?_⟩
      simp only [List.length_cons, List.length_append, hlen]
      omega
    | echo r =>
      rw [List.cons_append, List.cons_append, openTagLength?_short]
      · simp
      · rintro w t hwt hw
        cases w with
        | nil => cases hw
        | cons c w =>
          obtain ⟨rfl, -⟩ := List.cons.inj hwt
          simp at hw
    | short hphp hecho hxml =>
      rw [List.cons_append, List.cons_append, List.nil_append, openTagLength?_short hphp, if_neg hecho,
        hxml]
      rfl

inductive HtmlForm : TokenKind → Text → Text → Prop where
  | tag {w r : Text} (h : OpenTag w r) : HtmlForm .openTag w r
  | text {w r : Text} (hne : w ≠ []) (h : htmlLength (w ++ r) = w.length) : HtmlForm .inlineHtml w r

theorem HtmlForm.php (r : Text) : HtmlForm .openTag "<?php ".toList r :=
  .tag (@OpenTag.php "php".toList [' '] r rfl (.space rfl (by simp)))

theorem htmlLength_le (s : Text) : htmlLength s ≤ s.length := by
  induction s with
  | nil => exact Nat.le_refl 0
  | cons c s ih =>
    rw [htmlLength]
    split
    · exact Nat.zero_le _
    · simpa using ih

theorem HtmlForm.of_lexeme (c : Char) (s : Text) :
    ∃ w r, c :: s = w ++ r ∧ w.length = (htmlLexeme c s).length ∧ HtmlForm (htmlLexeme c s).kind w r := by
  unfold htmlLexeme
  split
  · rename_i n hn
    obtain ⟨w, r, hs, htag, rfl⟩ := openTagLength?_eq_some_iff.1 hn
    exact ⟨w, r, hs, rfl, .tag htag⟩
  · rename_i hn
    have hle := htmlLength_le s
    refine ⟨c :: s.take (htmlLength s), s.drop (htmlLength s), by simp, by simp [hle], ?_⟩
    refine .text (by simp) ?_
    rw [List.cons_append, List.take_append_drop, htmlLength, hn]
    simp [hle]

theorem HtmlForm.lexeme_eq {kind : TokenKind} {w r : Text} (h : HtmlForm kind w r) :
    ∃ c u, w = c :: u ∧ htmlLexeme c (u ++ r) = ⟨kind, w.length⟩ := by
  cases h with
  | tag htag =>
    have hlen := openTagLength?_eq_some_iff.2 ⟨w, r, rfl, htag, rfl⟩
    obtain ⟨c, u, rfl⟩ : ∃ c u, w = c :: u := by
      cases htag with
      | php => exact ⟨_, _, rfl⟩
      | echo => exact ⟨_, _, rfl⟩
      | short => exact ⟨_, _, rfl⟩
    refine ⟨c, u, rfl, ?_⟩
    rw [List.cons_append] at hlen
    simp [htmlLexeme, hlen]
  | text hne htext =>
    obtain ⟨c, u, rfl⟩ := List.exists_cons_of_ne_nil hne
    refine ⟨c, u, rfl, ?_⟩
    rw [List.cons_append, htmlLength] at htext
    split at htext
    · simp at htext
    · rename_i hn
      have hn : openTagLength? (c :: (u ++ r)) = none := by simpa using hn
      simp [htmlLexeme, hn, htext]

theorem Lexeme.scan_append_eq_length_iff {σ : Type} {step : σ → Char → Option σ} {state : σ} {u r : Text} :
    scan step state (u ++ r) = some u.length ↔ scan step state u = some u.length := by
  induction u generalizing state with
  | nil =>
    refine ⟨fun h => ?_, fun h => by simp [scan] at h⟩
    have := (scan_bounds h).1
    simp at this
  | cons c u ih =>
    rw [List.cons_append, scan, scan, List.length_cons]
    cases step state c with
    | none => rfl
    | some next =>
      simp only [Option.map_eq_some_iff, Nat.add_right_cancel_iff, exists_eq_right]
      exact ih

theorem Lexeme.exists_of_scan {σ : Type} {step : σ → Char → Option σ} {state : σ} {s : Text} {n : Nat}
    (h : scan step state s = some n) :
    ∃ u r, s = u ++ r ∧ u.length = n ∧ scan step state u = some u.length := by
  have hn : (s.take n).length = n := List.length_take_of_le (scan_bounds h).2
  refine ⟨s.take n, s.drop n, (List.take_append_drop n s).symm, hn, ?_⟩
  rw [← scan_append_eq_length_iff (r := s.drop n), List.take_append_drop, hn]
  exact h

def isNumberChar (c : Char) : Bool :=
  Text.isWordChar c || c == '.'

def wordKind (w : Text) : TokenKind :=
  match Keyword.ofWord? w with
  | some k => .keyword k
  | none => .identifier

def blockKind (u : Text) : TokenKind :=
  if u.head? = some '*' then .docComment else .comment

/-- A character that is a token of its own before what follows. -/
inductive StandsAlone : Char → Text → Prop where
  | mark {c : Char} {r : Text} (h : isMark c = true) : StandsAlone c r
  | slash {r : Text} (h : r.head? ≠ some '/') (h' : r.head? ≠ some '*') : StandsAlone '/' r
  | less {r : Text} (h : ∀ t, r ≠ '<' :: '<' :: t) : StandsAlone '<' r
  | dollar {r : Text} (h : r.head?.any Text.isWordStart = false) : StandsAlone '$' r
  | question {r : Text} (h : r.head? ≠ some '>') : StandsAlone '?' r

/-- The lexemes of code, with what follows them. -/
inductive CodeForm : TokenKind → Text → Text → Prop where
  | space {w r : Text} (hne : w ≠ []) (hw : ∀ c ∈ w, isSpace c = true)
      (hr : r.head?.any isSpace = false) : CodeForm .whitespace w r
  | hashBracket {u r : Text} (h : attributeLength? 0 none u = some u.length) :
      CodeForm .attribute ('#' :: '[' :: u) r
  | hash {u r : Text} (hu : u.head? ≠ some '[') (h : lineCommentLength (u ++ r) = u.length) :
      CodeForm .comment ('#' :: u) r
  | slashes {u r : Text} (h : lineCommentLength (u ++ r) = u.length) :
      CodeForm .comment ('/' :: '/' :: u) r
  | block {kind : TokenKind} {u r : Text} (hkind : kind = blockKind u)
      (h : blockCommentLength? u = some u.length) : CodeForm kind ('/' :: '*' :: u) r
  | quote {q : Char} {u r : Text} (hq : q ∈ ['\'', '"', '\x60'])
      (h : quotedLength? q u = some u.length) : CodeForm .string (q :: u) r
  | heredoc {u r : Text} (h : heredocLength? (u ++ r) = some u.length) :
      CodeForm .heredoc ('<' :: '<' :: '<' :: u) r
  | dollarWord {w r : Text} (hw : Text.isIdentifier w = true)
      (hr : r.head?.any Text.isWordChar = false) : CodeForm .variable ('$' :: w) r
  | number {c : Char} {w r : Text} (hc : c.isDigit = true) (hw : ∀ d ∈ w, isNumberChar d = true)
      (hr : r.head?.any isNumberChar = false) : CodeForm .number (c :: w) r
  | word {kind : TokenKind} {w r : Text} (hkind : kind = wordKind w) (hw : Text.isIdentifier w = true)
      (hr : r.head?.any Text.isWordChar = false) : CodeForm kind w r
  | closeTag {u r : Text} (h : swallowedNewline (u ++ r) = u.length) :
      CodeForm .closeTag ('?' :: '>' :: u) r
  | single {c : Char} {r : Text} (h : StandsAlone c r) : CodeForm .punct [c] r

theorem wordLexeme_eq (c : Char) (s : Text) :
    wordLexeme c s = ⟨wordKind (c :: s.takeWhile Text.isWordChar), (s.takeWhile Text.isWordChar).length + 1⟩ := by
  unfold wordLexeme wordKind
  dsimp only
  cases Keyword.ofWord? (c :: s.takeWhile Text.isWordChar) <;> rfl

theorem attributeLength?_eq_scan_none (s : Text) :
    attributeLength? 0 none s = scan attributeStep (0, none) s := by
  simpa using attributeLength?_eq_scan 0 none s

theorem lineCommentLength_le (s : Text) : lineCommentLength s ≤ s.length := by
  fun_induction lineCommentLength s with
  | case1 => exact Nat.le_refl 0
  | case2 => exact Nat.zero_le _
  | case3 => exact Nat.zero_le _
  | case4 c s hn htag ih => simpa using ih

theorem swallowedNewline_le (s : Text) : swallowedNewline s ≤ s.length := by
  unfold swallowedNewline
  split <;> simp

theorem swallowed_cases {u r : Text} (h : swallowedNewline (u ++ r) = u.length) :
    u = [] ∨ u = ['\n'] ∨ u = ['\r', '\n'] := by
  unfold swallowedNewline at h
  split at h
  · rename_i heq
    have htake := congrArg (List.take 2) heq
    rw [h, List.take_left, ← h] at htake
    exact Or.inr (Or.inr htake)
  · rename_i heq
    have htake := congrArg (List.take 1) heq
    rw [h, List.take_left, ← h] at htake
    exact Or.inr (Or.inl htake)
  · exact Or.inl (List.eq_nil_of_length_eq_zero h.symm)

theorem takeWhile_split (f : Char → Bool) (s : Text) :
    ∃ w r, s = w ++ r ∧ s.takeWhile f = w ∧ (∀ c ∈ w, f c = true) ∧ r.head?.any f = false :=
  ⟨s.takeWhile f, s.dropWhile f, List.takeWhile_append_dropWhile.symm, rfl,
    fun _ hc => List.mem_takeWhile_imp hc, head?_dropWhile f s⟩

theorem split_at_length {s : Text} {n : Nat} (h : n ≤ s.length) :
    ∃ u r, s = u ++ r ∧ u.length = n :=
  ⟨s.take n, s.drop n, (List.take_append_drop n s).symm, List.length_take_of_le h⟩

theorem CodeForm.of_lexeme {c : Char} {s : Text} {l : Lexeme} (hl : codeLexeme c s = .ok l) :
    ∃ w r, c :: s = w ++ r ∧ w.length = l.length ∧ CodeForm l.kind w r := by
  have hclosed : ∀ {opener : Opener} {kind : TokenKind} {n : Option Nat},
      closedLexeme opener kind n = .ok l → ∃ m, n = some m ∧ l = ⟨kind, opener.spelling.length + m⟩ := by
    intro opener kind n h
    cases n with
    | none => cases h
    | some m => exact ⟨m, rfl, (Except.ok.inj h).symm⟩
  have hsingle : ∀ {x y : Lexeme}, (.ok x : Except Opener Lexeme) = .ok y → y = x :=
    fun h => (Except.ok.inj h).symm
  cases codeStart c s with
  | space h =>
    obtain ⟨w, r, rfl, hw, hall, hr⟩ := takeWhile_split isSpace s
    rw [codeLexeme_space h, hw] at hl
    obtain rfl := hsingle hl
    exact ⟨c :: w, r, rfl, rfl, .space (by simp) (by simp [h]; exact hall) hr⟩
  | hashBracket t =>
    rw [codeLexeme_hashBracket] at hl
    obtain ⟨m, hm, rfl⟩ := hclosed hl
    rw [attributeLength?_eq_scan_none] at hm
    obtain ⟨u, r, rfl, rfl, hu⟩ := exists_of_scan hm
    rw [← attributeLength?_eq_scan_none] at hu
    refine ⟨'#' :: '[' :: u, r, rfl, ?_, .hashBracket hu⟩
    simp only [List.length_cons, Opener.spelling]
    exact Nat.add_comm _ 2
  | hash h =>
    rw [codeLexeme_hash h] at hl
    obtain rfl := hsingle hl
    obtain ⟨u, r, rfl, hu⟩ := split_at_length (lineCommentLength_le s)
    refine ⟨'#' :: u, r, rfl, by simp [hu], .hash ?_ hu.symm⟩
    rintro hhead
    obtain ⟨u, rfl⟩ := List.head?_eq_some_iff.1 hhead
    exact h rfl
  | slashes t =>
    rw [codeLexeme_slashes] at hl
    obtain rfl := hsingle hl
    obtain ⟨u, r, rfl, hu⟩ := split_at_length (lineCommentLength_le t)
    exact ⟨'/' :: '/' :: u, r, rfl, by simp [hu], .slashes hu.symm⟩
  | block t =>
    rw [codeLexeme_block] at hl
    obtain ⟨m, hm, rfl⟩ := hclosed hl
    rw [blockCommentLength?_eq_scan] at hm
    obtain ⟨u, r, rfl, rfl, hu⟩ := exists_of_scan hm
    have hne : u ≠ [] := by
      rintro rfl
      simp [scan] at hu
    obtain ⟨d, u, rfl⟩ := List.exists_cons_of_ne_nil hne
    rw [← blockCommentLength?_eq_scan] at hu
    refine ⟨'/' :: '*' :: d :: u, r, rfl, ?_, .block rfl hu⟩
    simp only [List.length_cons, Opener.spelling]
    exact Nat.add_comm _ 2
  | slash h h' =>
    rw [codeLexeme_slash h h'] at hl
    obtain rfl := hsingle hl
    exact ⟨['/'], s, rfl, rfl, .single (.slash h h')⟩
  | quote h =>
    rw [codeLexeme_quote h] at hl
    obtain ⟨m, hm, rfl⟩ := hclosed hl
    rw [quotedLength?_eq_scan] at hm
    obtain ⟨u, r, rfl, rfl, hu⟩ := exists_of_scan hm
    rw [← quotedLength?_eq_scan] at hu
    refine ⟨c :: u, r, rfl, ?_, .quote h hu⟩
    simp only [List.length_cons, length_spelling_quoteOpener]
    exact Nat.add_comm _ 1
  | heredoc t =>
    rw [codeLexeme_heredoc] at hl
    obtain ⟨m, hm, rfl⟩ := hclosed hl
    obtain ⟨blanks, quote, label, line, body, k, hform⟩ := exists_heredocForm hm
    obtain ⟨u, r, rfl, rfl⟩ := split_at_length hform.le_length
    refine ⟨'<' :: '<' :: '<' :: u, r, rfl, ?_, .heredoc hm⟩
    simp only [List.length_cons, Opener.spelling]
    exact Nat.add_comm _ 3
  | less h =>
    rw [codeLexeme_less h] at hl
    obtain rfl := hsingle hl
    exact ⟨['<'], s, rfl, rfl, .single (.less h)⟩
  | @dollarWord d t h =>
    obtain ⟨w, r, rfl, hw, hall, hr⟩ := takeWhile_split Text.isWordChar t
    rw [codeLexeme_dollarWord h, hw] at hl
    obtain rfl := hsingle hl
    refine ⟨'$' :: d :: w, r, rfl, rfl, .dollarWord ?_ hr⟩
    simpa [Text.isIdentifier, h] using hall
  | dollar h =>
    rw [codeLexeme_dollar h] at hl
    obtain rfl := hsingle hl
    exact ⟨['$'], s, rfl, rfl, .single (.dollar h)⟩
  | number h =>
    obtain ⟨w, r, rfl, hw, hall, hr⟩ := takeWhile_split isNumberChar s
    rw [codeLexeme_number h] at hl
    obtain rfl := hsingle hl
    refine ⟨c :: w, r, rfl, ?_, .number h hall hr⟩
    change w.length + 1 = ((w ++ r).takeWhile isNumberChar).length + 1
    rw [hw]
  | word h =>
    obtain ⟨w, r, rfl, hw, hall, hr⟩ := takeWhile_split Text.isWordChar s
    rw [codeLexeme_word h, wordLexeme_eq, hw] at hl
    obtain rfl := hsingle hl
    refine ⟨c :: w, r, rfl, rfl, .word rfl ?_ hr⟩
    simpa [Text.isIdentifier, h] using hall
  | closeTag t =>
    rw [codeLexeme_closeTag] at hl
    obtain rfl := hsingle hl
    obtain ⟨u, r, rfl, hu⟩ := split_at_length (swallowedNewline_le t)
    exact ⟨'?' :: '>' :: u, r, rfl, by simp [hu], .closeTag hu.symm⟩
  | question h =>
    rw [codeLexeme_question h] at hl
    obtain rfl := hsingle hl
    exact ⟨['?'], s, rfl, rfl, .single (.question h)⟩
  | mark h =>
    rw [codeLexeme_mark h] at hl
    obtain rfl := hsingle hl
    exact ⟨[c], s, rfl, rfl, .single (.mark h)⟩

theorem StandsAlone.lexeme_eq {c : Char} {r : Text} (h : StandsAlone c r) :
    codeLexeme c r = .ok ⟨.punct, 1⟩ := by
  cases h with
  | mark h => exact codeLexeme_mark h r
  | slash h h' => exact codeLexeme_slash h h'
  | less h => exact codeLexeme_less h
  | dollar h => exact codeLexeme_dollar h
  | question h => exact codeLexeme_question h

/-- What has one of the forms is a lexeme. -/
theorem CodeForm.lexeme_eq {kind : TokenKind} {w r : Text} (h : CodeForm kind w r) :
    ∃ c u, w = c :: u ∧ codeLexeme c (u ++ r) = .ok ⟨kind, w.length⟩ := by
  cases h with
  | space hne hw hr =>
    obtain ⟨c, u, rfl⟩ := List.exists_cons_of_ne_nil hne
    refine ⟨c, u, rfl, ?_⟩
    rw [codeLexeme_space (hw c List.mem_cons_self),
      takeWhile_append_of_stop (fun d hd => hw d (List.mem_cons_of_mem _ hd)) hr]
    rfl
  | @hashBracket u r h =>
    refine ⟨_, _, rfl, ?_⟩
    rw [attributeLength?_eq_scan_none, ← scan_append_eq_length_iff (r := r),
      ← attributeLength?_eq_scan_none] at h
    rw [List.cons_append, codeLexeme_hashBracket, h]
    exact congrArg (fun n => Except.ok (Lexeme.mk .attribute n)) (Nat.add_comm 2 u.length)
  | @hash u r hu h =>
    refine ⟨_, _, rfl, ?_⟩
    have hhead : (u ++ r).head? ≠ some '[' := by
      cases u with
      | cons d u => simpa using hu
      | nil =>
        rintro hr
        obtain ⟨r, rfl⟩ := List.head?_eq_some_iff.1 hr
        simp [lineCommentLength] at h
    rw [codeLexeme_hash hhead, h]
    rfl
  | slashes h =>
    refine ⟨_, _, rfl, ?_⟩
    rw [List.cons_append, codeLexeme_slashes, h]
    rfl
  | @block _ u r hkind h =>
    subst hkind
    refine ⟨_, _, rfl, ?_⟩
    have hne : u ≠ [] := by
      rintro rfl
      cases h
    obtain ⟨d, u, rfl⟩ := List.exists_cons_of_ne_nil hne
    rw [blockCommentLength?_eq_scan, ← scan_append_eq_length_iff (r := r),
      ← blockCommentLength?_eq_scan] at h
    rw [List.cons_append, codeLexeme_block, h]
    exact congrArg (fun n => Except.ok (Lexeme.mk _ n)) (Nat.add_comm 2 _)
  | @quote q u r hq h =>
    refine ⟨_, _, rfl, ?_⟩
    rw [quotedLength?_eq_scan, ← scan_append_eq_length_iff (r := r), ← quotedLength?_eq_scan] at h
    rw [codeLexeme_quote hq, h]
    simp only [closedLexeme, length_spelling_quoteOpener]
    exact congrArg (fun n => Except.ok (Lexeme.mk _ n)) (Nat.add_comm 1 _)
  | heredoc h =>
    refine ⟨_, _, rfl, ?_⟩
    rw [List.cons_append, List.cons_append, codeLexeme_heredoc, h]
    exact congrArg (fun n => Except.ok (Lexeme.mk _ n)) (Nat.add_comm 3 _)
  | @dollarWord w r hw hr =>
    refine ⟨_, _, rfl, ?_⟩
    cases w with
    | nil => cases hw
    | cons d w =>
      simp only [Text.isIdentifier, Bool.and_eq_true, List.all_eq_true] at hw
      rw [List.cons_append, codeLexeme_dollarWord hw.1, takeWhile_append_of_stop hw.2 hr]
      rfl
  | number hc hw hr =>
    refine ⟨_, _, rfl, ?_⟩
    rw [codeLexeme_number hc]
    have := takeWhile_append_of_stop hw hr
    exact congrArg (fun t : Text => Except.ok (Lexeme.mk .number (t.length + 1))) this
  | word hkind hw hr =>
    subst hkind
    cases w with
    | nil => cases hw
    | cons d w =>
      simp only [Text.isIdentifier, Bool.and_eq_true, List.all_eq_true] at hw
      refine ⟨d, w, rfl, ?_⟩
      rw [codeLexeme_word hw.1, wordLexeme_eq, takeWhile_append_of_stop hw.2 hr]
      rfl
  | closeTag h =>
    refine ⟨_, _, rfl, ?_⟩
    rw [List.cons_append, codeLexeme_closeTag, h]
    rfl
  | single h => exact ⟨_, [], rfl, h.lexeme_eq⟩

/-- The lexemes of a mode, with what follows them. -/
def Mode.Form : Mode → TokenKind → Text → Text → Prop
  | .html => HtmlForm
  | .code => CodeForm

structure Shape where
  kind : TokenKind
  text : Text
  deriving DecidableEq, Repr

def Token.shape (token : Token) : Shape :=
  ⟨token.kind, token.text⟩

/-- A text and its tokens, up to their places. -/
inductive Cuts : Mode → Text → List Shape → Prop where
  | nil (mode : Mode) : Cuts mode [] []
  | cons {mode : Mode} {kind : TokenKind} {w r : Text} {shapes : List Shape} (h : mode.Form kind w r)
      (rest : Cuts (mode.after kind) r shapes) : Cuts mode (w ++ r) (⟨kind, w⟩ :: shapes)

theorem Cuts.ofHtml {kind : TokenKind} {w r : Text} {shapes : List Shape} (h : HtmlForm kind w r)
    (rest : Cuts (Mode.html.after kind) r shapes) : Cuts .html (w ++ r) (⟨kind, w⟩ :: shapes) :=
  @Cuts.cons .html _ _ _ _ h rest

theorem Cuts.ofCode {kind : TokenKind} {w r : Text} {shapes : List Shape} (h : CodeForm kind w r)
    (rest : Cuts (Mode.code.after kind) r shapes) : Cuts .code (w ++ r) (⟨kind, w⟩ :: shapes) :=
  @Cuts.cons .code _ _ _ _ h rest

theorem Mode.form_of_lexeme {mode : Mode} {c : Char} {s : Text} {l : Lexeme}
    (h : mode.lexeme c s = .ok l) :
    ∃ w r, c :: s = w ++ r ∧ w.length = l.length ∧ mode.Form l.kind w r := by
  cases mode with
  | html =>
    obtain rfl := Except.ok.inj h
    exact HtmlForm.of_lexeme c s
  | code => exact CodeForm.of_lexeme h

theorem Mode.Form.lexeme_eq {mode : Mode} {kind : TokenKind} {w r : Text} (h : mode.Form kind w r) :
    ∃ c u, w = c :: u ∧ mode.lexeme c (u ++ r) = .ok ⟨kind, w.length⟩ := by
  cases mode with
  | html =>
    obtain ⟨c, u, hw, hl⟩ := HtmlForm.lexeme_eq h
    exact ⟨c, u, hw, congrArg Except.ok hl⟩
  | code => exact CodeForm.lexeme_eq h

theorem Mode.Form.ne_nil {mode : Mode} {kind : TokenKind} {w r : Text} (h : mode.Form kind w r) :
    w ≠ [] := by
  obtain ⟨c, u, rfl, -⟩ := h.lexeme_eq
  simp

theorem Mode.Form.unique {mode : Mode} {kind kind' : TokenKind} {w w' r r' : Text}
    (h : mode.Form kind w r) (h' : mode.Form kind' w' r') (heq : w ++ r = w' ++ r') :
    kind = kind' ∧ w = w' ∧ r = r' := by
  obtain ⟨c, u, rfl, hl⟩ := h.lexeme_eq
  obtain ⟨c', u', rfl, hl'⟩ := h'.lexeme_eq
  obtain ⟨rfl, hrest⟩ := List.cons.inj heq
  have hrest : u ++ r = u' ++ r' := hrest
  rw [hrest, hl', Except.ok.injEq, Lexeme.mk.injEq] at hl
  obtain ⟨hw, hr⟩ := List.append_inj heq hl.2.symm
  exact ⟨hl.1.symm, hw, hr⟩

theorem tokensFrom_of_form {mode : Mode} {offset : Nat} {kind : TokenKind} {w r : Text}
    (h : mode.Form kind w r) : tokensFrom mode offset (w ++ r) =
      (tokensFrom (mode.after kind) (offset + Text.utf8Size w) r).map (⟨kind, w, offset⟩ :: ·) := by
  obtain ⟨c, u, rfl, hl⟩ := h.lexeme_eq
  rw [List.cons_append, tokensFrom, hl]
  simp only [List.length_cons, Nat.add_sub_cancel, List.take_left, List.drop_left]
  cases tokensFrom (mode.after kind) (offset + Text.utf8Size (c :: u)) r <;> rfl

/-- The tokens of a text, without their places. -/
theorem cuts_of_tokensFrom {mode : Mode} {offset : Nat} {s : Text} {tokens : List Token}
    (h : tokensFrom mode offset s = .ok tokens) : Cuts mode s (tokens.map Token.shape) := by
  induction hn : s.length using Nat.strongRecOn generalizing mode offset s tokens with
  | _ n ih =>
    subst hn
    cases s with
    | nil =>
      rw [tokensFrom] at h
      cases h
      exact .nil mode
    | cons c s =>
      cases hl : mode.lexeme c s with
      | error opener =>
        rw [tokensFrom, hl] at h
        cases h
      | ok l =>
        obtain ⟨w, r, hs, hlen, hform⟩ := Mode.form_of_lexeme hl
        rw [hs, tokensFrom_of_form hform] at h
        cases hr : tokensFrom (mode.after l.kind) (offset + Text.utf8Size w) r with
        | error e =>
          rw [hr] at h
          cases h
        | ok rest =>
          rw [hr] at h
          obtain rfl := Except.ok.inj h
          have hlt : r.length < (c :: s).length := by
            have := List.length_pos_iff.2 hform.ne_nil
            rw [hs, List.length_append]
            omega
          rw [hs]
          exact .cons hform (ih _ hlt hr rfl)

theorem Cuts.exists_tokens {mode : Mode} {s : Text} {shapes : List Shape} (h : Cuts mode s shapes)
    (offset : Nat) :
    ∃ tokens, tokensFrom mode offset s = .ok tokens ∧ tokens.map Token.shape = shapes := by
  induction h generalizing offset with
  | nil mode => exact ⟨[], by rw [tokensFrom], rfl⟩
  | @cons mode kind w r shapes hform rest ih =>
    obtain ⟨tokens, htokens, hshapes⟩ := ih (offset + Text.utf8Size w)
    refine ⟨⟨kind, w, offset⟩ :: tokens, ?_, by simp [hshapes, Token.shape]⟩
    rw [tokensFrom_of_form hform, htokens]
    rfl

theorem Cuts.unique {mode : Mode} {s : Text} {A B : List Shape} (hA : Cuts mode s A)
    (hB : Cuts mode s B) : A = B := by
  induction hA generalizing B with
  | nil mode =>
    generalize hs : ([] : Text) = s at hB
    cases hB with
    | nil => rfl
    | cons hform => exact absurd (List.append_eq_nil_iff.1 hs.symm).1 hform.ne_nil
  | @cons mode kind w r shapes hform rest ih =>
    generalize hs : w ++ r = s at hB
    cases hB with
    | nil => exact absurd (List.append_eq_nil_iff.1 hs).1 hform.ne_nil
    | cons hform' rest' =>
      obtain ⟨rfl, rfl, rfl⟩ := hform.unique hform' hs
      rw [ih rest']

theorem Cuts.exists_rest {mode : Mode} {kind : TokenKind} {w r : Text} {shapes : List Shape}
    (h : Cuts mode (w ++ r) shapes) (hform : mode.Form kind w r) :
    ∃ rest, shapes = ⟨kind, w⟩ :: rest ∧ Cuts (mode.after kind) r rest := by
  generalize hs : w ++ r = s at h
  cases h with
  | nil => exact absurd (List.append_eq_nil_iff.1 hs).1 hform.ne_nil
  | cons hform' rest =>
    obtain ⟨rfl, rfl, rfl⟩ := hform.unique hform' hs
    exact ⟨_, rfl, rest⟩

theorem flatMap_shape (tokens : List Token) :
    (tokens.map Token.shape).flatMap Shape.text = tokens.flatMap Token.text := by
  rw [List.flatMap_map]
  rfl

theorem Cuts.text_eq {mode : Mode} {s : Text} {shapes : List Shape} (h : Cuts mode s shapes) :
    shapes.flatMap Shape.text = s := by
  induction h with
  | nil => rfl
  | cons hform rest ih => rw [List.flatMap_cons, ih]

end Namespacing
