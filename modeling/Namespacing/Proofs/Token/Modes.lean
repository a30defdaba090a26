import Namespacing.Proofs.Token.Octets
import Namespacing.Proofs.Token.Stops
set_option autoImplicit false

namespace Namespacing

open Lexeme Text

/-- Behind some tokens a file is inside the code tags: an open tag stands among them, and behind it no close
tag. -/
def InCode (before : List Token) : Prop :=
  ∃ earlier tag later, before = earlier ++ tag :: later ∧ tag.kind = .openTag ∧
    ∀ token ∈ later, token.kind ≠ .closeTag

theorem Mode.after_code {kind : TokenKind} (h : kind ≠ .closeTag) : Mode.code.after kind = .code := by
  cases kind <;> first | rfl | exact absurd rfl h

theorem Mode.behind_code {A : List Shape} (h : ∀ x ∈ A, x.kind ≠ .closeTag) : Mode.code.behind A = .code := by
  induction A with
  | nil => rfl
  | cons x A ih =>
    rw [Mode.behind, Mode.after_code (h x List.mem_cons_self)]
    exact ih fun y hy => h y (List.mem_cons_of_mem _ hy)

theorem Mode.behind_concat (mode : Mode) (A : List Shape) (x : Shape) :
    mode.behind (A ++ [x]) = (mode.behind A).after x.kind :=
  mode.behind_append A [x]

theorem inCode_iff (before : List Token) :
    InCode before ↔ Mode.html.behind (before.map Token.shape) = .code := by
  constructor
  · rintro ⟨earlier, tag, later, rfl, htag, hlater⟩
    rw [List.map_append, List.map_cons, Mode.behind_append, Mode.behind, show tag.shape.kind = .openTag from htag]
    refine Mode.behind_code fun x hx => ?_
    obtain ⟨token, htoken, rfl⟩ := List.mem_map.1 hx
    exact hlater token htoken
  · intro h
    induction before using List.reverseRecOn with
    | nil => cases h
    | append_singleton before token ih =>
      rw [List.map_append, List.map_singleton, Mode.behind_concat] at h
      by_cases hopen : token.kind = .openTag
      · exact ⟨before, token, [], rfl, hopen, by simp⟩
      · have hclose : token.kind ≠ .closeTag := by
          intro hclose
          rw [show token.shape.kind = .closeTag from hclose] at h
          cases h
        have hafter : ∀ mode : Mode, mode.after token.kind = mode := by
          intro mode
          cases hkind : token.kind <;> first | rfl | exact absurd hkind hopen | exact absurd hkind hclose
        obtain ⟨earlier, tag, later, rfl, htag, hlater⟩ := ih (by rw [← h]; exact (hafter _).symm)
        refine ⟨earlier, tag, later ++ [token], by simp, htag, fun other hother => ?_⟩
        rcases List.mem_append.1 hother with hother | hother
        · exact hlater other hother
        · rwa [List.mem_singleton.1 hother]

theorem Cuts.form_at {mode : Mode} {s : Text} {A B : List Shape} {x : Shape} (h : Cuts mode s (A ++ x :: B)) :
    (mode.behind A).Form x.kind x.text (B.flatMap Shape.text) ∧
      Cuts ((mode.behind A).after x.kind) (B.flatMap Shape.text) B := by
  have hx := h.behind
  generalize (x :: B).flatMap Shape.text = t at hx
  cases hx with
  | cons hform rest =>
    rw [rest.text_eq]
    exact ⟨hform, rest⟩

section

variable {source : Text} {before behind : List Token} {token : Token}

theorem form_of_tokenize (h : tokenize source = .ok (before ++ token :: behind)) :
    (Mode.html.behind (before.map Token.shape)).Form token.kind token.text (behind.flatMap Token.text) ∧
      Cuts ((Mode.html.behind (before.map Token.shape)).after token.kind) (behind.flatMap Token.text)
        (behind.map Token.shape) := by
  have hcuts := cuts_of_tokensFrom h
  rw [List.map_append, List.map_cons] at hcuts
  have hat := hcuts.form_at
  rwa [flatMap_shape] at hat

theorem octets_of_tokenize (h : tokenize source = .ok (before ++ token :: behind)) :
    source.octets = octets (before.flatMap Token.text) ++
        (token.text.octets ++ octets (behind.flatMap Token.text)) ∧
      token.offset = (octets (before.flatMap Token.text)).length := by
  have htiles := tiles_of_tokensFrom h
  constructor
  · rw [← octets_append, ← octets_append, ← htiles.text_eq, List.flatMap_append, List.flatMap_cons]
  · rw [htiles.offset_eq before token behind rfl, Nat.zero_add, octets_eq_flatMap, length_flatMap_octetsOf]

end

theorem Mode.Form.html_iff {mode : Mode} {kind : TokenKind} {w r : Text} (h : mode.Form kind w r) :
    mode = .html ↔ kind = .inlineHtml ∨ kind = .openTag := by
  cases mode with
  | html =>
    have h : HtmlForm kind w r := h
    cases h with
    | tag => exact iff_of_true rfl (Or.inr rfl)
    | text => exact iff_of_true rfl (Or.inl rfl)
  | code =>
    have h : CodeForm kind w r := h
    refine iff_of_false (fun hmode => by cases hmode) ?_
    rintro (rfl | rfl)
    · exact h.ne_inlineHtml rfl
    · cases h.isTag_eq fun hclose => by cases hclose

theorem openTagLength?_drop {s : Text} {k : Nat} (h : k < htmlLength s) : openTagLength? (s.drop k) = none := by
  induction s generalizing k with
  | nil => cases h
  | cons c s ih =>
    rw [htmlLength] at h
    split at h
    · cases h
    · rename_i hnone
      cases k with
      | zero => simpa using hnone
      | succ k => exact ih (Nat.lt_of_succ_lt_succ h)

theorem OpenTag.unique {w w' r r' : Text} (h : OpenTag w r) (h' : OpenTag w' r') (heq : w ++ r = w' ++ r') :
    w = w' :=
  (@Mode.Form.unique .html _ _ _ _ _ _ (.tag h) (.tag h') heq).2.1

/-- No open tag starts within text outside the code tags. -/
theorem HtmlForm.not_openTag {w r p q : Text} (h : HtmlForm .inlineHtml w r) (heq : w ++ r = p ++ q)
    (hp : p.length < w.length) {tag rest : Text} (hq : q = tag ++ rest) : ¬ OpenTag tag rest := by
  intro htag
  cases h with
  | text hne hlen =>
    rw [← hlen, heq] at hp
    have hnone := openTagLength?_drop hp
    rw [List.drop_left, openTagLength?_eq_some_iff.2 ⟨tag, rest, hq, htag, rfl⟩] at hnone
    cases hnone

theorem HtmlForm.next {w : Text} {B : List Shape} (h : HtmlForm .inlineHtml w (B.flatMap Shape.text))
    (hcuts : Cuts .html (B.flatMap Shape.text) B) : ∀ x ∈ B.head?, x.kind = .openTag := by
  cases h with
  | text hne hlen =>
    rcases isSome_openTagLength?_of_htmlLength hlen with hnil | htag
    · rw [hnil] at hcuts
      simp [hcuts.eq_nil]
    · intro x hx
      obtain ⟨B, rfl⟩ := List.head?_eq_some_iff.1 hx
      obtain ⟨hform, -⟩ := @Cuts.form_at .html _ [] B x hcuts
      have hform : HtmlForm x.kind x.text (B.flatMap Shape.text) := hform
      generalize x.kind = kind at hform
      cases hform with
      | tag => rfl
      | text hne' hlen' =>
        obtain ⟨c, u, hu⟩ := List.exists_cons_of_ne_nil hne'
        rw [List.flatMap_cons, hu, List.cons_append] at htag
        rw [hu, List.cons_append, htmlLength, if_pos htag] at hlen'
        cases hlen'

section

variable {source : Text} {before behind : List Token} {token : Token}

theorem last_of_html {last : Token} (h : tokenize source = .ok (before ++ token :: behind))
    (hmode : Mode.html.behind (before.map Token.shape) = .html) (hlast : last ∈ before.getLast?) :
    last.kind = .closeTag ∨ last.kind = .inlineHtml ∧ token.kind = .openTag := by
  obtain ⟨earlier, rfl⟩ := List.getLast?_eq_some_iff.1 hlast
  rw [List.map_append, List.map_singleton, Mode.behind_concat] at hmode
  rw [List.append_assoc] at h
  obtain ⟨hform, hcuts⟩ := form_of_tokenize h
  by_cases hclose : last.kind = .closeTag
  · exact Or.inl hclose
  · refine Or.inr ?_
    cases hearlier : Mode.html.behind (earlier.map Token.shape) with
    | code =>
      rw [hearlier, show last.shape.kind = last.kind from rfl, Mode.after_code hclose] at hmode
      cases hmode
    | html =>
      rw [hearlier] at hform hcuts hmode
      rcases hform.html_iff.1 rfl with hkind | hkind
      · rw [hkind] at hform hcuts
        rw [← flatMap_shape] at hform hcuts
        exact ⟨hkind, HtmlForm.next hform hcuts token.shape rfl⟩
      · rw [show last.shape.kind = .openTag from hkind] at hmode
        cases hmode

/-- Text outside the code tags stands only at the start of a file or behind a close tag, and goes on to the end
or to an open tag; no open tag starts at any octet of it. An open tag stands only at the start, behind text
outside the code tags or behind a close tag, and is the open tag that starts there. Every other token stands
inside the code tags. -/
theorem tokenize_keeps_modes (h : tokenize source = .ok (before ++ token :: behind)) :
    (token.kind = .inlineHtml →
      (∀ last ∈ before.getLast?, last.kind = .closeTag) ∧ (∀ next ∈ behind.head?, next.kind = .openTag) ∧
      ∀ p q, source.octets = p ++ q → token.offset ≤ p.length →
        p.length < token.offset + Text.utf8Size token.text → ∀ tag rest, q = tag ++ rest → ¬ OpenTag tag rest) ∧
    (token.kind = .openTag →
      (∀ last ∈ before.getLast?, last.kind = .inlineHtml ∨ last.kind = .closeTag) ∧
      ∃ p rest, source.octets = p ++ (token.text ++ rest) ∧ p.length = token.offset ∧ OpenTag token.text rest ∧
        ∀ tag rest', token.text ++ rest = tag ++ rest' → OpenTag tag rest' → tag = token.text) ∧
    (token.kind ≠ .inlineHtml → token.kind ≠ .openTag → InCode before) := by
  obtain ⟨hform, hcuts⟩ := form_of_tokenize h
  obtain ⟨hoctets, hoffset⟩ := octets_of_tokenize h
  refine ⟨fun hkind => ?_, fun hkind => ?_, fun hhtml hopen => ?_⟩
  · have hmode := hform.html_iff.2 (Or.inl hkind)
    have hlast : ∀ last ∈ before.getLast?,
        last.kind = .closeTag ∨ last.kind = .inlineHtml ∧ token.kind = .openTag := fun _ => last_of_html h hmode
    rw [hmode, hkind] at hform hcuts
    refine ⟨fun last hmem => (hlast last hmem).resolve_right fun hopen => ?_, fun next hnext => ?_, ?_⟩
    · rw [hkind] at hopen
      cases hopen.2
    · rw [← flatMap_shape] at hform hcuts
      refine HtmlForm.next hform hcuts next.shape ?_
      rw [List.head?_map, hnext]
      rfl
    · intro p q hpq hle hlt tag rest hq
      rw [hoctets] at hpq
      -- The place lies behind the tokens before, so what stands behind it begins within this token.
      obtain ⟨t, rfl, ht⟩ : ∃ t, p = octets (before.flatMap Token.text) ++ t ∧
          token.text.octets ++ octets (behind.flatMap Token.text) = t ++ q := by
        rcases List.append_eq_append_iff.1 hpq with ⟨t, hp, ht⟩ | ⟨t, hp, ht⟩
        · exact ⟨t, hp, ht⟩
        · have hlen := congrArg List.length hp
          rw [List.length_append, ← hoffset] at hlen
          obtain rfl : t = [] := List.eq_nil_of_length_eq_zero (by omega)
          exact ⟨[], by simpa using hp.symm, by simpa using ht.symm⟩
      refine (HtmlForm.read_octets hform).not_openTag ht ?_ hq
      rw [List.length_append, hoffset, ← length_flatMap_octetsOf token.text, ← octets_eq_flatMap] at hlt
      omega
  · have hmode := hform.html_iff.2 (Or.inr hkind)
    refine ⟨fun last hmem => (last_of_html h hmode hmem).symm.imp_left And.left, ?_⟩
    rw [hmode, hkind] at hform
    have hform : HtmlForm .openTag token.text (behind.flatMap Token.text) := hform
    cases hform with
    | tag htag =>
      obtain ⟨hself, hread⟩ := htag.read_octets
      rw [hself] at hoctets
      exact ⟨_, _, hoctets, hoffset.symm, hread, fun tag rest' heq htag' => (hread.unique htag' heq).symm⟩
  · rw [inCode_iff]
    cases hmode : Mode.html.behind (before.map Token.shape) with
    | code => rfl
    | html => exact absurd (hform.html_iff.1 hmode) (by simp [hhtml, hopen])

/-- An accent and a declaration that is no open tag: the text goes on to the tag behind them. -/
theorem tokenize_keeps_modes_xml :
    let source : Text := "é<?xml ?><?= 1".toList
    let html : Token := ⟨.inlineHtml, "é<?xml ?>".toList, 0⟩
    let tag : Token := ⟨.openTag, "<?=".toList, 10⟩
    let code : List Token := [⟨.whitespace, [' '], 13⟩, ⟨.number, ['1'], 14⟩]
    tokenize source = .ok ([] ++ html :: tag :: code) ∧
    (∀ p q, source.octets = p ++ q → html.offset ≤ p.length →
      p.length < html.offset + Text.utf8Size html.text → ∀ tag rest, q = tag ++ rest → ¬ OpenTag tag rest) ∧
    (∀ last ∈ [html].getLast?, last.kind = .inlineHtml ∨ last.kind = .closeTag) ∧ InCode [html, tag] := by
  intro source html tag code
  have htokens : tokenize source = .ok ([] ++ html :: tag :: code) := by decide +kernel
  have hopened : tokenize source = .ok ([html] ++ tag :: code) := htokens
  have hspaced : tokenize source = .ok ([html, tag] ++ code) := htokens
  exact ⟨htokens, ((tokenize_keeps_modes htokens).1 rfl).2.2, ((tokenize_keeps_modes hopened).2.1 rfl).1,
    (tokenize_keeps_modes hspaced).2.2 (by decide) (by decide)⟩

end

end Namespacing
