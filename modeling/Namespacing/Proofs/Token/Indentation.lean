import Namespacing.Proofs.Token.Expansion
import Namespacing.Proofs.Token.Lossless
set_option autoImplicit false

namespace Namespacing

open Lexeme

def indentChar (c : Char) : Text :=
  if c = '\n' then "\n  ".toList else [c]

theorem indent_eq_flatMap (s : Text) : Layout.indent s = s.flatMap indentChar := rfl

theorem indentChar_of_ne {c : Char} (h : c ≠ '\n') : indentChar c = [c] := by
  simp [indentChar, h]

theorem spreads_indentChar : Spreads indentChar where
  plain _ _ h := indentChar_of_ne h
  newline := ⟨2, rfl⟩
  wide c hc := by
    have hne : c ≠ '\n' := ne_of_wide hc (by decide)
    rw [indentChar_of_ne hne]
    simpa using hc

theorem flatMap_indentChar {s : Text} (h : '\n' ∉ s) : s.flatMap indentChar = s := by
  induction s with
  | nil => rfl
  | cons c s ih =>
    simp only [List.mem_cons, not_or] at h
    rw [List.flatMap_cons, indentChar_of_ne (Ne.symm h.1), ih h.2]
    rfl

theorem startsWith_indent {p : Text} (hp : ∀ c ∈ p, c.toNat < 128 ∧ c ≠ '\n') (s : Text) :
    Text.startsWith p (s.flatMap indentChar) = Text.startsWith p s := by
  rw [Bool.eq_iff_iff, Text.startsWith_iff, Text.startsWith_iff]
  constructor
  · rintro ⟨t, ht⟩
    obtain ⟨r, hr, -⟩ := (spreads_indentChar.flatMap_eq_append_iff hp).1 ht
    exact ⟨r, hr⟩
  · rintro ⟨r, rfl⟩
    exact ⟨r.flatMap indentChar, (spreads_indentChar.flatMap_eq_append_iff hp).2 ⟨r, rfl, rfl⟩⟩

theorem contains_openTag_indent (s : Text) :
    Text.contains Layout.openTag (s.flatMap indentChar) = Text.contains Layout.openTag s := by
  induction s with
  | nil => rfl
  | cons c s ih =>
    have hstart := startsWith_indent (p := Layout.openTag) (by decide) (c :: s)
    rw [List.flatMap_cons] at hstart ⊢
    by_cases hc : c = '\n'
    · subst hc
      have hblanks := contains_openTag_blanks (p := [' ', ' ']) (by simp) (s.flatMap indentChar)
      have hskip : ∀ t, Text.contains Layout.openTag ('\n' :: t) = Text.contains Layout.openTag t := by
        intro t
        simp [Text.contains, Text.startsWith, Layout.openTag]
      change Text.contains Layout.openTag ('\n' :: ([' ', ' '] ++ s.flatMap indentChar)) = _
      rw [hskip, hskip, hblanks, ih]
    · rw [indentChar_of_ne hc, List.singleton_append] at hstart ⊢
      rw [Text.contains, Text.contains, hstart, ih]

theorem isStray_indent (kind : TokenKind) (w : Text) :
    Shape.isStray ⟨kind, w.flatMap indentChar⟩ = Shape.isStray ⟨kind, w⟩ := by
  have hblock := startsWith_indent (p := "/*".toList) (by decide) w
  simp only [Shape.isStray, Shape.isLined, hblock, contains_openTag_indent]

theorem CodeForm.newline_not_mem {kind : TokenKind} {w r : Text} (h : CodeForm kind w r)
    (hloose : kind.isLoose = false) (htag : kind.isTag = false) : '\n' ∉ w := by
  have hword : ∀ {v : Text}, Text.isIdentifier v = true → '\n' ∉ v := by
    intro v hv hmem
    cases v with
    | nil => cases hmem
    | cons d v =>
      simp only [Text.isIdentifier, Bool.and_eq_true, List.all_eq_true] at hv
      rcases List.mem_cons.1 hmem with rfl | hmem
      · cases hv.1
      · cases hv.2 _ hmem
  cases h with
  | space => cases hloose
  | hashBracket => cases hloose
  | hash => cases hloose
  | slashes => cases hloose
  | block hkind h =>
    rw [hkind, isLoose_blockKind] at hloose
    cases hloose
  | quote => cases hloose
  | heredoc => cases hloose
  | dollarWord hw hr =>
    simp only [List.mem_cons, not_or]
    exact ⟨by decide, hword hw⟩
  | @number c w r hc hw hr =>
    simp only [List.mem_cons, not_or]
    refine ⟨?_, fun hmem => ?_⟩
    · rintro rfl
      cases hc
    · cases hw _ hmem
  | word hkind hw hr => exact hword hw
  | closeTag => cases htag
  | @single c r h =>
    rw [List.mem_singleton]
    rintro rfl
    cases h with
    | mark h => cases h

theorem CodeForm.indent {kind : TokenKind} {w r : Text} (h : CodeForm kind w r)
    (hspace : kind ≠ .whitespace) (hclose : kind ≠ .closeTag) :
    CodeForm kind (w.flatMap indentChar) (r.flatMap indentChar) := by
  obtain ⟨c, u, rfl, hl⟩ := h.lexeme_eq
  have hc : c ≠ '\n' := by
    rintro rfl
    rw [codeLexeme_space rfl] at hl
    exact hspace (congrArg Lexeme.kind (Except.ok.inj hl)).symm
  have hquestion : c = '?' → (u ++ r).head? = some '>' → indentChar '\n' = ['\n'] := by
    rintro rfl hhead
    obtain ⟨t, ht⟩ := List.head?_eq_some_iff.1 hhead
    rw [ht, codeLexeme_closeTag] at hl
    exact absurd (congrArg Lexeme.kind (Except.ok.inj hl)).symm hclose
  have hspread := spreads_indentChar.codeLexeme_of_ok (indentChar_of_ne hc) hquestion hl
  obtain ⟨w', r', heq, hlen, hform⟩ := CodeForm.of_lexeme hspread
  have htext : c :: (u ++ r).flatMap indentChar =
      (c :: u).flatMap indentChar ++ r.flatMap indentChar := by
    rw [List.flatMap_append, List.flatMap_cons, indentChar_of_ne hc]
    rfl
  have htake : (c :: (u ++ r)).take (c :: u).length = c :: u := by
    rw [← List.cons_append, List.take_left]
  simp only [Spreads.lexeme, htake] at hlen hform
  obtain ⟨rfl, rfl⟩ := List.append_inj (heq.symm.trans htext) hlen
  exact hform

theorem CodeForm.respaces {kind : TokenKind} {w r : Text} (h : CodeForm kind w r)
    (htag : kind.isTag = false) :
    Respaces [] (·.flatMap indentChar) ⟨kind, w⟩ [⟨kind, w.flatMap indentChar⟩] := by
  cases hloose : kind.isLoose with
  | true => exact .loose hloose (fun hstray => by rwa [isStray_indent] at hstray) fun _ => rfl
  | false =>
    rw [flatMap_indentChar (h.newline_not_mem hloose htag)]
    exact .solid hloose htag

/-- A close tag keeps the newline that it takes, and the blanks behind it are left outside. -/
theorem closeTag_indent {u r : Text} (h : swallowedNewline (u ++ r) = u.length) :
    ∃ p, (∀ c ∈ p, c = ' ') ∧ ('?' :: '>' :: u).flatMap indentChar = '?' :: '>' :: u ++ p ∧
      CodeForm .closeTag ('?' :: '>' :: u) (p ++ r.flatMap indentChar) := by
  rcases swallowed_cases h with rfl | rfl | rfl
  · refine ⟨[], by simp, rfl, .closeTag ?_⟩
    have := spreads_indentChar.swallowedNewline_eq r
    simpa [h] using this.trans h
  · exact ⟨[' ', ' '], by simp, rfl, .closeTag rfl⟩
  · exact ⟨[' ', ' '], by simp, rfl, .closeTag rfl⟩

theorem openTag_indent {w r : Text} (h : OpenTag w r) :
    ∃ p, (∀ c ∈ p, c = ' ') ∧ w.flatMap indentChar = w ++ p ∧ OpenTag w (p ++ r.flatMap indentChar) := by
  cases h with
  | @php w space r hw hspace =>
    have hletters : '\n' ∉ w := by
      intro hmem
      have : '\n'.toLower ∈ "php".toList := hw ▸ List.mem_map_of_mem hmem
      revert this
      decide
    have htext : ∀ p, space.flatMap indentChar = space ++ p →
        ('<' :: '?' :: (w ++ space)).flatMap indentChar = '<' :: '?' :: (w ++ space) ++ p := by
      intro p hp
      simp only [List.flatMap_cons, List.flatMap_append, flatMap_indentChar hletters, hp]
      simp [indentChar]
    cases hspace with
    | fileEnd => exact ⟨[], by simp, htext [] rfl, .php hw .fileEnd⟩
    | crlf r => exact ⟨[' ', ' '], by simp, htext _ rfl, .php hw (.crlf _)⟩
    | @space c r hc hcr =>
      by_cases hn : c = '\n'
      · subst hn
        exact ⟨[' ', ' '], by simp, htext _ rfl, .php hw (.space hc fun h => by cases h)⟩
      · refine ⟨[], by simp, htext [] (by simp [indentChar_of_ne hn]), .php hw (.space hc fun h hhead => ?_)⟩
        exact hcr h ((spreads_indentChar.head?_eq_some_iff (by decide)).1 hhead)
  | echo r => exact ⟨[], by simp, rfl, .echo _⟩
  | @short r hphp hecho hxml =>
    refine ⟨[], by simp, rfl, .short (fun w t heq hw => ?_) (fun hhead => ?_) ?_⟩
    · have hplain : ∀ c ∈ w, c.toNat < 128 ∧ c ≠ '\n' := by
        intro c hc
        have hlower : c.toLower ∈ "php".toList := hw ▸ List.mem_map_of_mem hc
        have hascii : ∀ d ∈ "php".toList, d.toNat < 128 := by decide
        refine ⟨toNat_lt_of_toLower (hascii _ hlower), ?_⟩
        rintro rfl
        revert hlower
        decide
      obtain ⟨t', ht', -⟩ := (spreads_indentChar.flatMap_eq_append_iff hplain).1 heq
      exact hphp w t' ht' hw
    · exact hecho ((spreads_indentChar.head?_eq_some_iff (by decide)).1 hhead)
    · rw [List.nil_append, startsWith_indent (by decide)]
      exact hxml

theorem Cuts.indent {mode : Mode} {s : Text} {A : List Shape} (h : Cuts mode s A) :
    ∃ B, Cuts mode (s.flatMap indentChar) B ∧ Expands (Respaces [] (·.flatMap indentChar)) A B := by
  induction h with
  | nil mode => exact ⟨[], .nil mode, .nil⟩
  | @cons mode kind w r shapes hform rest ih =>
    obtain ⟨B, hB, hAB⟩ := ih
    rw [List.flatMap_append]
    cases mode with
    | html =>
      cases hform with
      | tag htag =>
        obtain ⟨p, hp, hw, htag'⟩ := openTag_indent htag
        obtain ⟨gap, B', hB', hgap, hAB'⟩ := hB.spaces (p := p) (fun c hc => by rw [hp c hc]; rfl) hAB
        refine ⟨_, ?_, .cons (@Respaces.tag _ _ _ _ w _ rfl rfl hgap) hAB'⟩
        rw [hw, List.append_assoc]
        simpa using Cuts.ofHtml (HtmlForm.tag htag') hB'
      | text hne htext =>
        have hlen := spreads_indentChar.htmlLength_eq (w ++ r)
        rw [htext, List.take_left, List.flatMap_append] at hlen
        refine ⟨_, .ofHtml (HtmlForm.text ?_ hlen) hB, .one ?_ hAB⟩
        · obtain ⟨c, u, rfl⟩ := List.exists_cons_of_ne_nil hne
          obtain ⟨d, ds, hd, -⟩ := spreads_indentChar.exists_cons c
          simp [hd]
        · exact .loose rfl (fun hstray => by rwa [isStray_indent] at hstray) fun _ => rfl
    | code =>
      have hcode : CodeForm kind w r := hform
      by_cases hclose : kind = .closeTag
      · subst hclose
        obtain ⟨u, rfl, hu⟩ := hcode.closeTag_inv
        obtain ⟨p, hp, hw, htag⟩ := closeTag_indent hu
        obtain ⟨gap, B', hB', hgap, hAB'⟩ := hB.htmlBlanks hp hAB
        refine ⟨_, ?_, .cons (@Respaces.tag _ _ _ _ ('?' :: '>' :: u) _ rfl rfl hgap) hAB'⟩
        rw [hw, List.append_assoc]
        simpa using Cuts.ofCode htag hB'
      · have htag : kind.isTag = false := hcode.isTag_eq hclose
        rw [Mode.after_of_not_tag htag] at hB rest
        by_cases hspace : kind = .whitespace
        · subst hspace
          obtain ⟨hne, hall, hr⟩ := hcode.space_inv
          refine ⟨_, .ofCode (CodeForm.space ?_ ?_ ?_) hB, .one (hcode.respaces rfl) hAB⟩
          · obtain ⟨c, u, rfl⟩ := List.exists_cons_of_ne_nil hne
            obtain ⟨d, ds, hd, -⟩ := spreads_indentChar.exists_cons c
            simp [hd]
          · have hstay := spreads_indentChar.takeWhile_eq (f := isSpace) (fun c hc => isSpace_of_wide hc)
              (by decide) w
            have hself : w.takeWhile isSpace = w := List.takeWhile_eq_self_iff.2 hall
            rw [hself] at hstay
            exact List.takeWhile_eq_self_iff.1 hstay
          · rw [spreads_indentChar.head?_any_isSpace]
            exact hr
        · refine ⟨_, .ofCode (hcode.indent hspace hclose) ?_, .one (hcode.respaces htag) hAB⟩
          rwa [Mode.after_of_not_tag htag]

end Namespacing
