import Namespacing.Proofs.Token.Forms
import Namespacing.Text.Encoding
set_option autoImplicit false

namespace Namespacing

open Lexeme

theorem Lexeme.take_length_takeWhile (f : Char → Bool) (s : Text) :
    s.take (s.takeWhile f).length = s.takeWhile f :=
  List.prefix_iff_eq_take.1 (List.takeWhile_prefix f) |>.symm

namespace Spreads

variable {g : Char → Text} (hg : Spreads g)

theorem length_flatMap_take_succ {c : Char} (hc : g c = [c]) (s : Text) (n : Nat) :
    (((c :: s).take (n + 1)).flatMap g).length = ((s.take n).flatMap g).length + 1 := by
  simp [hc, Nat.add_comm]

def lexeme (g : Char → Text) (s : Text) (l : Lexeme) : Lexeme :=
  ⟨l.kind, ((s.take l.length).flatMap g).length⟩

theorem closedLexeme_eq (opener : Opener) (kind : TokenKind) {c : Char} {s t : Text}
    (hs : ∃ w : Text, c :: s = w ++ t ∧ w.length = opener.spelling.length ∧ w.flatMap g = w)
    (n : Option Nat) :
    closedLexeme opener kind (n.map fun n => ((t.take n).flatMap g).length) =
      (closedLexeme opener kind n).map (lexeme g (c :: s)) := by
  obtain ⟨w, hw, hlen, hself⟩ := hs
  cases n with
  | none => rfl
  | some n =>
    have htake : ((c :: s).take (opener.spelling.length + n)).flatMap g = w ++ (t.take n).flatMap g := by
      rw [hw, ← hlen, List.take_length_add_append, List.flatMap_append, hself]
    simp only [closedLexeme, Option.map_some, Except.map, lexeme, htake, List.length_append, hlen]

include hg

theorem wordLexeme_eq {c : Char} (hc : g c = [c]) (s : Text) :
    wordLexeme c (s.flatMap g) = lexeme g (c :: s) (wordLexeme c s) := by
  have hself := hg.flatMap_of_word fun c hc => List.mem_takeWhile_imp (l := s) hc
  have hword : (s.flatMap g).takeWhile Text.isWordChar = s.takeWhile Text.isWordChar := by
    rw [hg.takeWhile_eq (fun c hc => isWordChar_of_wide hc) (by decide), hself]
  have hlen : (((c :: s).take ((s.takeWhile Text.isWordChar).length + 1)).flatMap g).length =
      (s.takeWhile Text.isWordChar).length + 1 := by
    rw [length_flatMap_take_succ hc, take_length_takeWhile, hself]
  unfold wordLexeme
  rw [hword]
  dsimp only
  split
  · rw [lexeme, List.length_cons, hlen]
  · rw [lexeme, List.length_cons, hlen]

/-- Code that is spread starts with the spread lexeme. A close tag takes the newline behind it, but not
what the newline brings along. -/
theorem codeLexeme_eq {c : Char} {s : Text} (hc : g c = [c])
    (hclose : c = '?' → s.head? = some '>' → g '\n' = ['\n']) :
    codeLexeme c (s.flatMap g) = (codeLexeme c s).map (lexeme g (c :: s)) := by
  have hplain : ∀ d : Char, d.toNat < 128 → d ≠ '\n' → ∀ t : Text,
      (d :: t).flatMap g = d :: t.flatMap g := by
    intro d hd hn t
    rw [List.flatMap_cons, hg.plain d hd hn, List.singleton_append]
  have hsingle : ∀ kind, Except.map (lexeme g (c :: s)) (.ok ⟨kind, 1⟩ : Except Opener Lexeme) =
      .ok ⟨kind, 1⟩ := by
    intro kind
    simp [Except.map, lexeme, hc]
  have hhead : ∀ d : Char, d.toNat < 128 → s.head? ≠ some d → (s.flatMap g).head? ≠ some d :=
    fun d hd h => mt (hg.head?_eq_some_iff hd).1 h
  cases codeStart c s with
  | space h =>
    rw [codeLexeme_space h, codeLexeme_space h, hg.takeWhile_eq (fun c hc => isSpace_of_wide hc) (by decide)]
    simp only [Except.map, lexeme]
    rw [length_flatMap_take_succ hc, take_length_takeWhile]
  | hashBracket t =>
    rw [hplain '[' (by decide) (by decide), codeLexeme_hashBracket, codeLexeme_hashBracket,
      hg.attributeLength?_eq]
    refine closedLexeme_eq _ _ ⟨['#', '['], rfl, rfl, hg.flatMap_eq_self (by decide)⟩ _
  | hash h =>
    rw [codeLexeme_hash h, codeLexeme_hash (hhead '[' (by decide) h), hg.lineCommentLength_eq]
    simp only [Except.map, lexeme]
    rw [length_flatMap_take_succ hc]
  | slashes t =>
    rw [hplain '/' (by decide) (by decide), codeLexeme_slashes, codeLexeme_slashes, hg.lineCommentLength_eq]
    simp only [Except.map, lexeme]
    rw [length_flatMap_take_succ hc, length_flatMap_take_succ hc]
  | block t =>
    rw [hplain '*' (by decide) (by decide), codeLexeme_block, codeLexeme_block, hg.blockCommentLength?_eq]
    simp only [hg.head?_eq_some_iff (show '*'.toNat < 128 by decide)]
    refine closedLexeme_eq _ _ ⟨['/', '*'], rfl, rfl, hg.flatMap_eq_self (by decide)⟩ _
  | slash h h' =>
    rw [codeLexeme_slash h h', codeLexeme_slash (hhead '/' (by decide) h) (hhead '*' (by decide) h'), hsingle]
  | quote h =>
    rw [codeLexeme_quote h, codeLexeme_quote h, hg.quotedLength?_eq h]
    refine closedLexeme_eq _ _ ⟨[c], rfl, ?_, by simp [hc]⟩ _
    rw [length_spelling_quoteOpener]
    rfl
  | heredoc t =>
    rw [hplain '<' (by decide) (by decide), hplain '<' (by decide) (by decide), codeLexeme_heredoc,
      codeLexeme_heredoc, hg.heredocLength?_eq_map]
    exact closedLexeme_eq .heredoc _ ⟨['<', '<', '<'], rfl, rfl, hg.flatMap_eq_self (by decide)⟩ _
  | less h =>
    have h' : ∀ t, s.flatMap g ≠ '<' :: '<' :: t := by
      intro t ht
      obtain ⟨r, hr, -⟩ := (hg.flatMap_eq_append_iff (w := ['<', '<']) (by decide)).1 ht
      exact h r hr
    rw [codeLexeme_less h, codeLexeme_less h', hsingle]
  | @dollarWord d t h =>
    have hd := toNat_lt_of_isWordChar (isWordChar_of_isWordStart h)
    have hn : d ≠ '\n' := by
      rintro rfl
      cases h
    have hself := hg.flatMap_of_word fun c hc => List.mem_takeWhile_imp (l := t) hc
    rw [hplain d hd hn, codeLexeme_dollarWord h, codeLexeme_dollarWord h,
      hg.takeWhile_eq (fun c hc => isWordChar_of_wide hc) (by decide)]
    simp only [Except.map, lexeme]
    rw [length_flatMap_take_succ hc, length_flatMap_take_succ (hg.plain d hd hn), take_length_takeWhile]
  | dollar h =>
    have h' : (s.flatMap g).head?.any Text.isWordStart = false := by
      cases s with
      | nil => rfl
      | cons d t =>
        obtain ⟨e, es, he, hascii, houtside⟩ := hg.exists_cons d
        have hd : Text.isWordStart d = false := by simpa using h
        simp only [List.flatMap_cons, he, List.cons_append, List.head?_cons, Option.any_some]
        by_cases hlt : d.toNat < 128
        · rw [hascii hlt, hd]
        · cases hstart : Text.isWordStart e with
          | false => rfl
          | true =>
            have := toNat_lt_of_isWordChar (isWordChar_of_isWordStart hstart)
            have := houtside (by omega)
            omega
    rw [codeLexeme_dollar h, codeLexeme_dollar h', hsingle]
  | number h =>
    rw [codeLexeme_number h, codeLexeme_number h, hg.takeWhile_eq ?_ (by decide)]
    · simp only [Except.map, lexeme]
      rw [length_flatMap_take_succ hc, take_length_takeWhile]
    · intro d hd
      have hdot : d ≠ '.' := ne_of_wide hd (by decide)
      simp [isWordChar_of_wide hd, hdot]
  | word h =>
    rw [codeLexeme_word h, codeLexeme_word h, hg.wordLexeme_eq hc]
    rfl
  | closeTag t =>
    have hn := hclose rfl rfl
    rw [hplain '>' (by decide) (by decide), codeLexeme_closeTag, codeLexeme_closeTag, hg.swallowedNewline_eq]
    have hcr : g '\r' = ['\r'] := hg.plain '\r' (by decide) (by decide)
    have hself : (t.take (swallowedNewline t)).flatMap g = t.take (swallowedNewline t) := by
      unfold swallowedNewline
      split
      · simp [hcr, hn]
      · simp [hn]
      · simp
    have hle : swallowedNewline t ≤ t.length := by
      unfold swallowedNewline
      split <;> simp
    simp only [Except.map, lexeme]
    rw [length_flatMap_take_succ hc, length_flatMap_take_succ (hg.plain '>' (by decide) (by decide)), hself,
      List.length_take, Nat.min_eq_left hle]
  | question h =>
    rw [codeLexeme_question h, codeLexeme_question (hhead '>' (by decide) h), hsingle]
  | mark h => rw [codeLexeme_mark h, codeLexeme_mark h, hsingle]

theorem codeLexeme_of_ok {c : Char} {s : Text} {l : Lexeme} (hc : g c = [c])
    (hclose : c = '?' → s.head? = some '>' → g '\n' = ['\n']) (hl : codeLexeme c s = .ok l) :
    codeLexeme c (s.flatMap g) = .ok (lexeme g (c :: s) l) := by
  rw [hg.codeLexeme_eq hc hclose, hl]
  rfl

theorem flatMap_openTag (hn : g '\n' = ['\n']) {w r : Text} (h : OpenTag w r) : w.flatMap g = w := by
  have hself : ∀ {t : Text}, (∀ c ∈ t, c.toNat < 128) → t.flatMap g = t := by
    intro t ht
    induction t with
    | nil => rfl
    | cons c t ih =>
      have hc : g c = [c] := by
        by_cases hc : c = '\n'
        · rw [hc, hn]
        · exact hg.plain c (ht c List.mem_cons_self) hc
      rw [List.flatMap_cons, hc, ih fun d hd => ht d (List.mem_cons_of_mem _ hd), List.singleton_append]
  apply hself
  cases h with
  | @php w space _ hw hspace =>
    have hletters : ∀ c ∈ w, c.toNat < 128 := by
      intro c hc
      have : ∀ d ∈ "php".toList, d.toNat < 128 := by decide
      exact toNat_lt_of_toLower (this _ (hw ▸ List.mem_map_of_mem hc))
    have hblank : ∀ c ∈ space, c.toNat < 128 := by
      cases hspace with
      | fileEnd => simp
      | crlf => decide
      | @space d _ hd _ =>
        intro c hc
        rw [List.mem_singleton.1 hc]
        by_contra hwide
        rw [isSpace_of_wide (by omega)] at hd
        cases hd
    intro c hc
    simp only [List.mem_cons, List.mem_append] at hc
    rcases hc with rfl | rfl | hc | hc
    · decide
    · decide
    · exact hletters c hc
    · exact hblank c hc
  | echo => decide
  | short => decide

theorem htmlLexeme_eq (hn : g '\n' = ['\n']) {c : Char} (hc : g c = [c]) (s : Text) :
    htmlLexeme c (s.flatMap g) = lexeme g (c :: s) (htmlLexeme c s) := by
  have htag := hg.openTagLength?_eq (c :: s)
  rw [List.flatMap_cons, hc, List.singleton_append] at htag
  unfold htmlLexeme
  rw [htag]
  split
  · rename_i n hlen
    obtain ⟨w, r, hs, hopen, rfl⟩ := openTagLength?_eq_some_iff.1 hlen
    rw [lexeme, hs, List.take_left, hg.flatMap_openTag hn hopen]
  · rw [hg.htmlLength_eq, lexeme, length_flatMap_take_succ hc]

end Spreads

def Text.octets (s : Text) : Text :=
  Bytes.latin1 s.toUtf8

def Text.octetsOf (c : Char) : Text :=
  Bytes.latin1 (String.utf8EncodeChar c)

theorem Text.octets_eq_flatMap (s : Text) : s.octets = s.flatMap octetsOf :=
  List.map_flatMap

theorem Text.length_octetsOf (c : Char) : (octetsOf c).length = c.utf8Size := by
  simp [octetsOf, Bytes.latin1]

theorem Text.length_flatMap_octetsOf (s : Text) : (s.flatMap octetsOf).length = utf8Size s := by
  induction s with
  | nil => rfl
  | cons c s ih => rw [List.flatMap_cons, List.length_append, ih, length_octetsOf, utf8Size_cons]

theorem Text.toNat_ofNat_octet (o : UInt8) : (Char.ofNat o.toNat).toNat = o.toNat := by
  have hlt : o.toNat < 256 := o.toNat_lt
  have hvalid : o.toNat.isValidChar := Or.inl (by omega)
  rw [Char.ofNat, dif_pos hvalid]
  rfl

theorem Text.octetsOf_of_ascii {c : Char} (hc : c.toNat < 128) : octetsOf c = [c] := by
  have hval : c.val.toNat ≤ 127 := Nat.le_of_lt_succ hc
  have hoctet : (UInt8.ofNat c.val.toNat).toNat = c.toNat := by
    rw [UInt8.toNat_ofNat']
    exact Nat.mod_eq_of_lt (Nat.lt_of_lt_of_le hc (by decide))
  simp only [octetsOf, String.utf8EncodeChar, if_pos hval, Bytes.latin1, List.map_cons, List.map_nil,
    hoctet, Char.ofNat_toNat]

theorem Text.spreads_octetsOf : Spreads octetsOf where
  plain c hc _ := octetsOf_of_ascii hc
  newline := ⟨0, octetsOf_of_ascii (by decide)⟩
  wide c hc := by
    have hval : ¬ c.val.toNat ≤ 127 := Nat.not_le.2 hc
    have hne : octetsOf c ≠ [] := by simp [octetsOf, Bytes.latin1]
    refine ⟨hne, fun d hd => ?_⟩
    obtain ⟨o, ho, rfl⟩ := List.mem_map.1 hd
    rw [toNat_ofNat_octet]
    simp only [String.utf8EncodeChar, if_neg hval] at ho
    have hoctet : ∀ n, 128 ≤ n → n < 256 → 128 ≤ (UInt8.ofNat n).toNat := by
      intro n hn hlt
      rwa [UInt8.toNat_ofNat', Nat.mod_eq_of_lt hlt]
    split at ho
    · simp only [List.mem_cons, List.not_mem_nil, or_false] at ho
      rcases ho with rfl | rfl <;> exact hoctet _ (by omega) (by omega)
    · split at ho
      · simp only [List.mem_cons, List.not_mem_nil, or_false] at ho
        rcases ho with rfl | rfl | rfl <;> exact hoctet _ (by omega) (by omega)
      · simp only [List.mem_cons, List.not_mem_nil, or_false] at ho
        rcases ho with rfl | rfl | rfl | rfl <;> exact hoctet _ (by omega) (by omega)

/-- Read octet by octet, a lexeme that starts with an ASCII character has the same kind and ends at the
octet where its last character ends. -/
theorem Mode.lexeme_octets {mode : Mode} {c : Char} {s : Text} {l : Lexeme} (hc : c.toNat < 128)
    (h : mode.lexeme c s = .ok l) :
    mode.lexeme c s.octets = .ok ⟨l.kind, Text.utf8Size ((c :: s).take l.length)⟩ := by
  have hspread := Text.spreads_octetsOf
  have hself := Text.octetsOf_of_ascii hc
  have hn : Text.octetsOf '\n' = ['\n'] := Text.octetsOf_of_ascii (by decide)
  rw [Text.octets_eq_flatMap, ← Text.length_flatMap_octetsOf]
  cases mode with
  | html =>
    obtain rfl := Except.ok.inj h
    exact congrArg Except.ok (hspread.htmlLexeme_eq hn hself s)
  | code => exact hspread.codeLexeme_of_ok hself (fun _ _ => hn) h

theorem Mode.lexeme_bounds {mode : Mode} {c : Char} {s : Text} {l : Lexeme}
    (h : mode.lexeme c s = .ok l) : 0 < l.length ∧ l.length ≤ (c :: s).length := by
  obtain ⟨w, r, hs, hlen, hform⟩ := Mode.form_of_lexeme h
  have := List.length_pos_iff.2 hform.ne_nil
  rw [hs, List.length_append]
  omega

/-- The tokens of a text that starts at an octet. -/
structure Tiles (offset : Nat) (s : Text) (tokens : List Token) : Prop where
  text_ne_nil : ∀ token ∈ tokens, token.text ≠ []
  text_eq : tokens.flatMap Token.text = s
  offset_eq : ∀ before token behind, tokens = before ++ token :: behind →
    token.offset = offset + Text.utf8Size (before.flatMap Token.text)

theorem Tiles.cons {offset : Nat} {kind : TokenKind} {w r : Text} {tokens : List Token} (hw : w ≠ [])
    (h : Tiles (offset + Text.utf8Size w) r tokens) :
    Tiles offset (w ++ r) (⟨kind, w, offset⟩ :: tokens) where
  text_ne_nil token hmem := by
    rcases List.mem_cons.1 hmem with rfl | hmem
    · exact hw
    · exact h.text_ne_nil token hmem
  text_eq := by rw [List.flatMap_cons, h.text_eq]
  offset_eq before token behind heq := by
    cases before with
    | nil =>
      obtain ⟨rfl, -⟩ := List.cons.inj heq
      rfl
    | cons first before =>
      obtain ⟨rfl, hrest⟩ := List.cons.inj heq
      rw [h.offset_eq before token behind hrest, List.flatMap_cons, Text.utf8Size_append, Nat.add_assoc]

theorem tiles_of_tokensFrom {mode : Mode} {offset : Nat} {s : Text} {tokens : List Token}
    (h : tokensFrom mode offset s = .ok tokens) : Tiles offset s tokens := by
  have hcuts := cuts_of_tokensFrom h
  generalize hshapes : tokens.map Token.shape = shapes at hcuts
  induction hcuts generalizing offset tokens with
  | nil mode =>
    rw [tokensFrom] at h
    obtain rfl := Except.ok.inj h
    exact ⟨by simp, rfl, by simp⟩
  | @cons mode kind w r shapes hform rest ih =>
    rw [tokensFrom_of_form hform] at h
    cases hr : tokensFrom (mode.after kind) (offset + Text.utf8Size w) r with
    | error e =>
      rw [hr] at h
      cases h
    | ok tokens' =>
      rw [hr] at h
      obtain rfl := Except.ok.inj h
      exact (ih hr (List.cons.inj hshapes).2).cons hform.ne_nil

/-- At every place of a file and in every mode, a lexeme has at least one character, ends inside the file
and ends at the end of a character also for a reader of octets. Whenever a file has tokens, none of
them is empty, their texts in a row are the file, and each starts at the octet where the ones before
it end. -/
theorem tokenize_lossless (source : Text) :
    (∀ (mode : Mode) (before : Text) (c : Char) (s : Text), source = before ++ c :: s →
      ∀ l, mode.lexeme c s = .ok l →
        0 < l.length ∧ l.length ≤ (c :: s).length ∧
        (c.utf8Size = 1 →
          mode.lexeme c s.octets = .ok ⟨l.kind, Text.utf8Size ((c :: s).take l.length)⟩)) ∧
    ∀ tokens, tokenize source = .ok tokens →
      (∀ token ∈ tokens, token.text ≠ []) ∧ tokens.flatMap Token.text = source ∧
      ∀ before token behind, tokens = before ++ token :: behind →
        token.offset = Text.utf8Size (before.flatMap Token.text) := by
  refine ⟨fun mode before c s _ l hl => ?_, fun tokens htokens => ?_⟩
  · have hbounds := Mode.lexeme_bounds hl
    refine ⟨hbounds.1, hbounds.2, fun hsize => Mode.lexeme_octets ?_ hl⟩
    have hval : c.val ≤ 127 := Char.utf8Size_eq_one_iff.1 hsize
    exact Nat.lt_succ_of_le (UInt32.le_iff_toNat_le.1 hval)
  · have htiles := tiles_of_tokensFrom htokens
    refine ⟨htiles.text_ne_nil, htiles.text_eq, fun before token behind heq => ?_⟩
    rw [htiles.offset_eq before token behind heq, Nat.zero_add]

/-- Accents outside the code tags and in a string: the string has three characters and four octets. -/
theorem tokenize_lossless_accents :
    let source := "é<?php 'ü';".toList
    let tokens : List Token := [⟨.inlineHtml, ['é'], 0⟩, ⟨.openTag, "<?php ".toList, 2⟩,
      ⟨.string, "'ü'".toList, 8⟩, ⟨.punct, [';'], 12⟩]
    (Mode.code.lexeme '\'' "ü';".toList = .ok ⟨.string, 3⟩ ∧
      Mode.code.lexeme '\'' (Text.octets "ü';".toList) = .ok ⟨.string, 4⟩) ∧
    tokenize source = .ok tokens ∧
      (∀ token ∈ tokens, token.text ≠ []) ∧ tokens.flatMap Token.text = source ∧
      ∀ before token behind, tokens = before ++ token :: behind →
        token.offset = Text.utf8Size (before.flatMap Token.text) := by
  intro source tokens
  have hlexeme : Mode.code.lexeme '\'' "ü';".toList = .ok ⟨.string, 3⟩ := rfl
  have htokens : tokenize source = .ok tokens := by decide +kernel
  have hlossless := tokenize_lossless source
  have hplace := hlossless.1 .code "é<?php ".toList '\'' "ü';".toList rfl _ hlexeme
  exact ⟨⟨hlexeme, hplace.2.2 rfl⟩, htokens, hlossless.2 tokens htokens⟩

end Namespacing
