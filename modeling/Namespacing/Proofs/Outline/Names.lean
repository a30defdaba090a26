import Namespacing.Proofs.Outline.Functions
import Namespacing.Proofs.Token.Modes
set_option autoImplicit false

namespace Namespacing

open Lexeme Text

theorem isWordChar_of_isSpace {c : Char} (h : isSpace c = true) : isWordChar c = false := by
  simp only [isSpace, Lexeme.isBlank, Bool.or_eq_true, beq_iff_eq] at h
  rcases h with ((rfl | rfl) | rfl) | rfl <;> decide

theorem EndsLine.head?_any_isWordChar {r : Text} (h : EndsLine r) : r.head?.any isWordChar = false := by
  rcases h with rfl | hn | ⟨t, rfl⟩
  · rfl
  · rw [hn]
    rfl
  · rfl

theorem not_isWordChar_of_getLast? {v : Text} {c d : Char} (h : (v ++ [d]).getLast? = some c)
    (hd : isWordChar d = false) : isWordChar c = false := by
  rw [List.getLast?_concat] at h
  rwa [← Option.some.inj h]

theorem StandsAlone.isWordChar_eq {c : Char} {r : Text} (h : StandsAlone c r) : isWordChar c = false := by
  cases h with
  | mark h =>
    simp only [isMark, Bool.not_eq_true', Bool.or_eq_false_iff] at h
    exact h.1.2
  | _ => decide

theorem CodeForm.ends_word {kind : TokenKind} {w r : Text} (h : CodeForm kind w r)
    (hlast : w.getLast?.any isWordChar = true) : r.head?.any isWordChar = false := by
  obtain ⟨c, hlast, hc⟩ := (Option.any_eq_true _ _).1 hlast
  -- A token that ends in a mark of its own does not end in a character of a word.
  have hmark : ∀ {v : Text} {d : Char}, (v ++ [d]).getLast? = some c → isWordChar d = false →
      r.head?.any isWordChar = false := by
    intro v d hv hd
    rw [not_isWordChar_of_getLast? hv hd] at hc
    cases hc
  cases h with
  | space _ hw =>
    rw [isWordChar_of_isSpace (hw c (List.mem_of_getLast? hlast))] at hc
    cases hc
  | hashBracket h =>
    rw [attributeLength?_eq_scan_none] at h
    obtain ⟨v, d, last, rfl, hd⟩ := exists_last_of_scan h
    rw [eq_of_attributeStep hd] at hlast
    exact hmark (v := '#' :: '[' :: v) hlast rfl
  | hash _ h => exact (lineCommentLength_eq_length_iff.1 h).2.head?_any_isWordChar
  | slashes h => exact (lineCommentLength_eq_length_iff.1 h).2.head?_any_isWordChar
  | block _ h =>
    rw [blockCommentLength?_eq_scan] at h
    obtain ⟨v, d, last, rfl, hd⟩ := exists_last_of_scan h
    rw [eq_of_blockStep hd] at hlast
    exact hmark (v := '/' :: '*' :: v) hlast rfl
  | @quote q u _ hq h =>
    rw [quotedLength?_eq_scan] at h
    obtain ⟨v, d, last, rfl, hd⟩ := exists_last_of_scan h
    rw [eq_of_quotedStep hd] at hlast
    have hquotes : ∀ q ∈ ['\'', '"', '\x60'], isWordChar q = false := by decide
    exact hmark (v := q :: v) hlast (hquotes q hq)
  | heredoc h => exact (exists_last_of_heredocLength? h).1
  | dollarWord _ hr => exact hr
  | number _ _ hr =>
    cases r with
    | nil => rfl
    | cons d r =>
      simp only [List.head?_cons, Option.any_some, isNumberChar, Bool.or_eq_false_iff] at hr
      exact hr.1
  | word _ _ hr => exact hr
  | closeTag h =>
    rcases swallowed_cases h with rfl | rfl | rfl
    · exact hmark (v := ['?']) hlast rfl
    · exact hmark (v := ['?', '>']) hlast rfl
    · exact hmark (v := ['?', '>', '\r']) hlast rfl
  | single h => exact hmark (v := []) hlast h.isWordChar_eq

theorem HtmlForm.ends_word {kind : TokenKind} {w r : Text} (h : HtmlForm kind w r)
    (hlast : w.getLast?.any isWordChar = true) : r.head?.any isWordChar = false := by
  cases h with
  | text _ hlen =>
    rcases isSome_openTagLength?_of_htmlLength hlen with rfl | htag
    · rfl
    · obtain ⟨n, hn⟩ := Option.isSome_iff_exists.1 htag
      obtain ⟨v, t, rfl, hopen, -⟩ := openTagLength?_eq_some_iff.1 hn
      obtain ⟨u, rfl⟩ := hopen.head
      rfl
  | tag htag =>
    cases htag with
    | echo => cases hlast
    | short => cases hlast
    | @php v _ _ _ hspace =>
      obtain ⟨c, hlast, hc⟩ := (Option.any_eq_true _ _).1 hlast
      cases hspace with
      | fileEnd => rfl
      | crlf =>
        rw [not_isWordChar_of_getLast? (v := '<' :: '?' :: (v ++ ['\r'])) (d := '\n') (by simpa using hlast) rfl] at hc
        cases hc
      | @space d _ hd =>
        rw [not_isWordChar_of_getLast? (v := '<' :: '?' :: v) hlast (isWordChar_of_isSpace hd)] at hc
        cases hc

/-- No token ends within a word. -/
theorem Mode.Form.ends_word {mode : Mode} {kind : TokenKind} {w r : Text} (h : mode.Form kind w r)
    (hlast : w.getLast?.any isWordChar = true) : r.head?.any isWordChar = false := by
  cases mode with
  | html => exact HtmlForm.ends_word h hlast
  | code => exact CodeForm.ends_word h hlast

section

variable {source : Text} {before behind : List Token} {token : Token}

theorem starts_word (h : tokenize source = .ok (before ++ token :: behind))
    (hword : token.text.head?.any isWordChar = true) :
    (before.flatMap Token.text).getLast?.any isWordChar = false := by
  rcases List.eq_nil_or_concat before with rfl | ⟨earlier, last, rfl⟩
  · rfl
  · have h : tokenize source = .ok (earlier ++ last :: token :: behind) := by simpa using h
    obtain ⟨hform, -⟩ := form_of_tokenize h
    obtain ⟨c, u, hu, -⟩ := hform.lexeme_eq
    rw [List.concat_eq_append, List.flatMap_append, List.flatMap_singleton, hu,
      List.getLast?_append_of_ne_nil _ (List.cons_ne_nil c u), ← hu, ← Bool.not_eq_true]
    intro hlast
    have hnext := hform.ends_word hlast
    rw [List.flatMap_cons, List.head?_append_of_ne_nil, hword] at hnext
    · cases hnext
    · intro hnil
      rw [hnil] at hword
      cases hword

end

theorem head?_octets_any_isWordChar (s : Text) : s.octets.head?.any isWordChar = s.head?.any isWordChar := by
  rw [octets_eq_flatMap]
  exact spreads_octetsOf.head?_any_isWordChar s

theorem getLast?_octets_any_isWordChar (s : Text) : s.octets.getLast?.any isWordChar = s.getLast?.any isWordChar := by
  rcases List.eq_nil_or_concat s with rfl | ⟨s, c, rfl⟩
  · rfl
  · rw [List.concat_eq_append, octets_append, List.getLast?_concat, octets_cons, octets_nil, List.append_nil]
    by_cases hc : c.toNat < 128
    · rw [octetsOf_of_ascii hc, List.getLast?_concat]
    · obtain ⟨hne, hwide⟩ := spreads_octetsOf.wide c (by omega)
      rw [List.getLast?_append_of_ne_nil _ hne, List.getLast?_eq_some_getLast hne, Option.any_some, Option.any_some,
        isWordChar_of_wide (hwide _ (List.getLast_mem hne)), isWordChar_of_wide (by omega)]

namespace Outline

def names (outline : Outline) : List Text :=
  outline.classLike.toList.map ClassLike.name ++ outline.functions

theorem exists_of_firstClassLike?_name {tokens : List Token} {declared : ClassLike}
    (h : firstClassLike? tokens = some declared) :
    ∃ token ∈ tokens, token.kind = .identifier ∧ token.text = declared.name := by
  induction tokens with
  | nil => cases h
  | cons word tokens ih =>
    rw [firstClassLike?] at h
    split at h
    · rename_i found hat
      obtain rfl := Option.some.inj h
      obtain ⟨space, name, behind, rfl⟩ := exists_of_classLikeAt? hat
      obtain ⟨-, -, hname, htext⟩ := classLikeAt?_eq_some hat
      exact ⟨name, by simp, hname, htext.symm⟩
    · obtain ⟨token, hmem, htoken⟩ := ih h
      exact ⟨token, List.mem_cons_of_mem _ hmem, htoken⟩

theorem exists_of_mem_functions {tokens : List Token} {name : Text} (h : name ∈ (ofTokens tokens).functions) :
    ∃ token ∈ tokens, token.kind = .identifier ∧ token.text = name := by
  change name ∈ functionsFrom (depth []) (decide (Declares [])) tokens at h
  rw [functionsFrom_eq, List.map_map] at h
  obtain ⟨entry, hentry, rfl⟩ := List.mem_map.1 h
  obtain ⟨hmem, hnames⟩ := List.mem_filter.1 hentry
  exact ⟨entry.1, List.fst_mem_of_mem_zipIdx hmem, (of_decide_eq_true hnames).1, rfl⟩

theorem exists_of_mem_names {tokens : List Token} {name : Text} (h : name ∈ (ofTokens tokens).names) :
    ∃ token ∈ tokens, token.kind = .identifier ∧ token.text = name := by
  rcases List.mem_append.1 h with h | h
  · obtain ⟨declared, hdeclared, rfl⟩ := List.mem_map.1 h
    exact exists_of_firstClassLike?_name (Option.mem_toList.1 hdeclared)
  · exact exists_of_mem_functions h

theorem ofSource_eq_ok {source : Text} {outline : Outline} (h : ofSource source = .ok outline) :
    ∃ tokens, tokenize source = .ok tokens ∧ outline = ofTokens tokens := by
  unfold ofSource at h
  cases htokens : tokenize source with
  | error u =>
    rw [htokens] at h
    cases h
  | ok tokens =>
    rw [htokens] at h
    exact ⟨tokens, rfl, (Except.ok.inj h).symm⟩

/-- Every name that a file declares is a word and no keyword, and it stands in the code of the file at an octet
with no character of a word right before it or right behind it. -/
theorem names_are_whole_words {source : Text} {outline : Outline} (h : ofSource source = .ok outline) {name : Text}
    (hname : name ∈ outline.names) :
    isIdentifier name = true ∧ (∀ k : Keyword, name.map Char.toLower ≠ k.spelling) ∧
      ∃ before token behind p q, tokenize source = .ok (before ++ token :: behind) ∧ InCode before ∧
        token.kind = .identifier ∧ token.text = name ∧
        source.octets = p ++ (name ++ q) ∧ p.length = token.offset ∧
        p.getLast?.any isWordChar = false ∧ q.head?.any isWordChar = false := by
  obtain ⟨tokens, htokens, rfl⟩ := ofSource_eq_ok h
  obtain ⟨token, hmem, hkind, rfl⟩ := exists_of_mem_names hname
  obtain ⟨before, behind, rfl⟩ := List.append_of_mem hmem
  obtain ⟨hform, -⟩ := form_of_tokenize htokens
  have hcode : Mode.html.behind (before.map Token.shape) = .code := by
    cases hmode : Mode.html.behind (before.map Token.shape) with
    | code => rfl
    | html =>
      have := hform.html_iff.1 hmode
      simp [hkind] at this
  rw [hcode, hkind] at hform
  obtain ⟨hid, hkeyword, hbehind⟩ := CodeForm.identifier_inv hform
  obtain ⟨hoctets, hoffset⟩ := octets_of_tokenize htokens
  rw [octets_of_isAscii (IsAscii.of_identifier hid)] at hoctets
  refine ⟨hid, fun k hk => ?_, before, token, behind, _, _, htokens, (inCode_iff before).2 hcode, hkind, rfl,
    hoctets, hoffset.symm, ?_, ?_⟩
  · have hfound := List.find?_eq_none.1 hkeyword k (by cases k <;> decide)
    exact hfound (by simp [hk])
  · rw [getLast?_octets_any_isWordChar]
    refine starts_word htokens ?_
    cases htext : token.text with
    | nil => rw [htext] at hid; cases hid
    | cons c w =>
      rw [htext, isIdentifier, Bool.and_eq_true] at hid
      exact isWordChar_of_isWordStart hid.1
  · rw [head?_octets_any_isWordChar]
    exact hbehind

/-- A function that returns a reference, behind a class. -/
theorem names_are_whole_words_reference :
    let source : Text := "<?php\nclass Widget \x7b\x7d\nfunction &idx() \x7b\x7d\n".toList
    let outline : Outline := ⟨some ⟨.plainClass, "Widget".toList⟩, ["idx".toList]⟩
    ofSource source = .ok outline ∧ "idx".toList ∈ outline.names ∧
      ∃ p q, source.octets = p ++ ("idx".toList ++ q) ∧
        p.getLast?.any isWordChar = false ∧ q.head?.any isWordChar = false := by
  intro source outline
  have hsource : ofSource source = .ok outline := by decide +kernel
  have hname : "idx".toList ∈ outline.names := by decide
  obtain ⟨-, -, -, -, -, p, q, -, -, -, -, hoctets, -, hbefore, hbehind⟩ := names_are_whole_words hsource hname
  exact ⟨hsource, hname, p, q, hoctets, hbefore, hbehind⟩

end Outline

end Namespacing
