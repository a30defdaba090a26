import Namespacing.Proofs.Token.Lookahead
set_option autoImplicit false

namespace Namespacing

open Lexeme

def Mode.behind (mode : Mode) : List Shape → Mode
  | [] => mode
  | x :: shapes => (mode.after x.kind).behind shapes

theorem Mode.behind_append (mode : Mode) (A B : List Shape) :
    mode.behind (A ++ B) = (mode.behind A).behind B := by
  induction A generalizing mode with
  | nil => rfl
  | cons x A ih => exact ih _

theorem Mode.behind_of_not_tag {mode : Mode} {A : List Shape} (h : ∀ x ∈ A, x.kind.isTag = false) :
    mode.behind A = mode := by
  induction A with
  | nil => rfl
  | cons x A ih =>
    rw [Mode.behind, Mode.after_of_not_tag (h x List.mem_cons_self)]
    exact ih fun y hy => h y (List.mem_cons_of_mem _ hy)

theorem Cuts.behind {mode : Mode} {s : Text} {A R : List Shape} (h : Cuts mode s (A ++ R)) :
    Cuts (mode.behind A) (R.flatMap Shape.text) R := by
  induction A generalizing mode s with
  | nil =>
    obtain rfl := h.text_eq
    exact h
  | cons x A ih =>
    cases h with
    | cons hform rest => exact ih rest

theorem isSome_phpTagLength? (r : Text) :
    (phpTagLength? r).isSome = (r.isEmpty || r.head?.any isSpace) := by
  unfold phpTagLength?
  split
  · rename_i h
    simp [h]
  · rename_i h
    split
    · rename_i hcrlf
      rw [hcrlf.1]
      simp [isSpace]
    · split
      · rename_i hspace
        simp [hspace]
      · rename_i hspace
        simp [h, hspace]

theorem not_mem_of_php {w : Text} (hw : w.map Char.toLower = "php".toList) {x : Char}
    (hx : x.toLower ∉ "php".toList) : x ∉ w :=
  fun hmem => hx (hw ▸ List.mem_map_of_mem hmem)

/-- A word in front of a text with a character behind it that the word has not is in front of the text. -/
theorem exists_prefix_of_append_cons {x : Char} {s t w r : Text} (hw : x ∉ w)
    (h : s ++ x :: t = w ++ r) : ∃ r', s = w ++ r' := by
  rcases List.append_eq_append_iff.1 h with ⟨y, rfl, hy⟩ | ⟨y, rfl, -⟩
  · cases y with
    | nil => exact ⟨[], by simp⟩
    | cons c y =>
      obtain ⟨rfl, -⟩ := List.cons.inj hy
      simp at hw
  · exact ⟨y, rfl⟩

theorem startsWith_append_cons {x : Char} {w : Text} (hw : x ∉ w) (s t : Text) :
    Text.startsWith w (s ++ x :: t) = Text.startsWith w s := by
  rw [Bool.eq_iff_iff, Text.startsWith_iff, Text.startsWith_iff]
  constructor
  · rintro ⟨r, hr⟩
    exact exists_prefix_of_append_cons hw hr
  · rintro ⟨r, rfl⟩
    exact ⟨r ++ x :: t, by simp⟩

theorem isSome_openTagLength?_append_newline (s t : Text) :
    (openTagLength? (s ++ '\n' :: t)).isSome = (openTagLength? s).isSome := by
  by_cases hs : ∃ after, s = '<' :: '?' :: after
  · obtain ⟨after, rfl⟩ := hs
    by_cases hphp : ∃ w r, after = w ++ r ∧ w.map Char.toLower = "php".toList
    · obtain ⟨w, r, rfl, hw⟩ := hphp
      rw [List.cons_append, List.cons_append, List.append_assoc, openTagLength?_php hw,
        openTagLength?_php hw, isSome_phpTagLength?, isSome_phpTagLength?]
      cases r with
      | nil => rfl
      | cons c r => rfl
    · have hphp' : ∀ w r, after ++ '\n' :: t = w ++ r → w.map Char.toLower ≠ "php".toList := by
        intro w r hwr hw
        obtain ⟨r', hr'⟩ := exists_prefix_of_append_cons (not_mem_of_php hw (by decide)) hwr
        exact hphp ⟨w, r', hr', hw⟩
      have hecho : (after ++ '\n' :: t).head? = some '=' ↔ after.head? = some '=' := by
        cases after with
        | nil => simp
        | cons c after => simp
      rw [List.cons_append, List.cons_append, openTagLength?_short hphp',
        openTagLength?_short fun w r hwr hw => hphp ⟨w, r, hwr, hw⟩,
        startsWith_append_cons (by decide)]
      simp only [hecho]
  · rw [openTagLength?_eq_none (s := s) fun after h => hs ⟨after, h⟩, openTagLength?_eq_none]
    intro after h
    obtain ⟨r, hr⟩ := exists_prefix_of_append_cons (w := ['<', '?']) (by decide) h
    exact hs ⟨r, hr⟩

theorem htmlLength_append_newline (s t : Text) :
    htmlLength (s ++ '\n' :: t) =
      if htmlLength s = s.length then s.length + htmlLength ('\n' :: t) else htmlLength s := by
  induction s with
  | nil => simp [htmlLength]
  | cons c s ih =>
    rw [List.cons_append, htmlLength, htmlLength, ← List.cons_append, isSome_openTagLength?_append_newline]
    split
    · rw [if_neg (by simp)]
    · rw [ih, List.length_cons]
      by_cases hs : htmlLength s = s.length
      · simp only [hs, if_true]
        omega
      · rw [if_neg hs, if_neg (by omega)]

def closing : Text :=
  ['\n', '\x7d', '\n']

def closingShapes : List Shape :=
  [⟨.punct, ['\x7d']⟩, ⟨.whitespace, ['\n']⟩]

theorem cuts_brace : Cuts .code ['\x7d', '\n'] closingShapes := by
  have hspace : Cuts .code (['\n'] ++ []) [⟨.whitespace, ['\n']⟩] :=
    Cuts.code_cons (.space (by simp) (by simp [isSpace]) rfl) rfl (.nil _)
  exact Cuts.mark rfl hspace

theorem cuts_closing : Cuts .code closing (⟨.whitespace, ['\n']⟩ :: closingShapes) :=
  Cuts.code_cons (w := ['\n']) (.space (by simp) (by simp [isSpace]) rfl) rfl cuts_brace

theorem cuts_html {s : Text} (hne : s ≠ []) (h : htmlLength s = s.length) :
    Cuts .html s [⟨.inlineHtml, s⟩] := by
  have : Cuts .html (s ++ []) [⟨.inlineHtml, s⟩] :=
    .cons (HtmlForm.text hne (by rw [List.append_nil, h])) (.nil _)
  rwa [List.append_nil] at this

theorem contains_openTag_append_closing (s : Text) :
    Text.contains Layout.openTag (s ++ closing) = Text.contains Layout.openTag s := by
  induction s with
  | nil => rfl
  | cons c s ih =>
    have hstart := startsWith_append_cons (show '\n' ∉ Layout.openTag by decide) (c :: s) ['\x7d', '\n']
    rw [List.cons_append, Text.contains, Text.contains, ih]
    exact congrArg (· || _) hstart

/-- The tokens of a text with `closing` behind it. -/
structure Closed (mode : Mode) (s : Text) (A B gap : List Shape) : Prop where
  expands : Expands (Respaces [] id) A B
  isGap : ∀ x ∈ gap, x.isGap = true
  cuts : Cuts mode (s ++ closing) (B ++ (gap ++ if mode.behind A = .code then closingShapes else []))

theorem Closed.cons {mode : Mode} {kind : TokenKind} {w r : Text} {shapes B gap : List Shape}
    (h : mode.Form kind w (r ++ closing)) (hrest : Closed (mode.after kind) r shapes B gap) :
    Closed mode (w ++ r) (⟨kind, w⟩ :: shapes) (⟨kind, w⟩ :: B) gap where
  expands := .one (.refl _) hrest.expands
  isGap := hrest.isGap
  cuts := by
    rw [List.append_assoc]
    exact .cons h hrest.cuts

theorem Closed.last {mode : Mode} {kind : TokenKind} {w p q : Text} {gap : List Shape}
    (hclosing : closing = p ++ q) (h : mode.Form kind (w ++ p) q)
    (hkind : Respaces [] id ⟨kind, w⟩ [⟨kind, w ++ p⟩])
    (hgap : ∀ x ∈ gap, x.isGap = true)
    (hrest : Cuts (mode.after kind) q (gap ++ if mode.after kind = .code then closingShapes else [])) :
    Closed mode w [⟨kind, w⟩] [⟨kind, w ++ p⟩] gap where
  expands := .one hkind .nil
  isGap := hgap
  cuts := by
    rw [hclosing, ← List.append_assoc]
    exact .cons h hrest

theorem closed_nil (mode : Mode) : ∃ gap, Closed mode [] [] [] gap := by
  cases mode with
  | code => exact ⟨[⟨.whitespace, ['\n']⟩], .nil, by decide, cuts_closing⟩
  | html => exact ⟨[⟨.inlineHtml, closing⟩], .nil, by decide, cuts_html (by decide) rfl⟩

theorem Respaces.retag {kind : TokenKind} {w w' : Text} (hkind : kind.isTag = true)
    (hentry : Shape.isEntry ⟨kind, w'⟩ = Shape.isEntry ⟨kind, w⟩) :
    Respaces [] id ⟨kind, w⟩ [⟨kind, w'⟩] := by
  have := @Respaces.tag [] id kind w w' [] hkind hentry (by simp)
  simpa using this

theorem Cuts.eq_nil {mode : Mode} {shapes : List Shape} (h : Cuts mode [] shapes) : shapes = [] :=
  h.unique (.nil mode)

theorem openTag_closing {w r : Text} (h : OpenTag w r) :
    OpenTag w (r ++ closing) ∨ r = [] ∧ OpenTag (w ++ ['\n']) ['\x7d', '\n'] := by
  cases h with
  | php hw hspace =>
    cases hspace with
    | fileEnd =>
      refine Or.inr ⟨rfl, ?_⟩
      rw [List.append_nil]
      exact .php hw (.space rfl fun h => by cases h)
    | crlf r => exact Or.inl (.php hw (.crlf _))
    | @space c r hc hcr =>
      by_cases hlast : c = '\r' ∧ r = []
      · obtain ⟨rfl, rfl⟩ := hlast
        refine Or.inr ⟨rfl, ?_⟩
        have := OpenTag.php hw (.crlf ['\x7d', '\n'])
        simpa using this
      · refine Or.inl (.php hw (.space hc fun h => ?_))
        cases r with
        | nil => exact absurd ⟨h, rfl⟩ hlast
        | cons d r => simpa using hcr h
  | echo r => exact Or.inl (.echo _)
  | @short r hphp hecho hxml =>
    refine Or.inl (.short (fun w t hwt hw => ?_) ?_ ?_)
    · obtain ⟨t', ht'⟩ := exists_prefix_of_append_cons (not_mem_of_php hw (by decide)) hwt
      exact hphp w t' ht' hw
    · cases r with
      | nil => simp [closing]
      | cons d r => simpa using hecho
    · exact (startsWith_append_cons (by decide) r _).trans hxml

theorem swallowedNewline_closing {u r : Text} (h : swallowedNewline (u ++ r) = u.length) :
    swallowedNewline (u ++ (r ++ closing)) = u.length ∨ u = [] ∧ (r = [] ∨ r = ['\r']) := by
  rcases swallowed_cases h with rfl | rfl | rfl
  · rw [swallowedNewline_eq_ite] at h ⊢
    match r with
    | [] => exact Or.inr ⟨rfl, Or.inl rfl⟩
    | [c] =>
      by_cases hc : c = '\r'
      · exact Or.inr ⟨rfl, Or.inr (by rw [hc])⟩
      · refine Or.inl ?_
        simp_all
    | c :: d :: r => exact Or.inl h
  · exact Or.inl rfl
  · exact Or.inl rfl

theorem Cuts.append_closing {mode : Mode} {s : Text} {A : List Shape} (h : Cuts mode s A) :
    ∃ B gap, Closed mode s A B gap := by
  induction h with
  | nil mode => exact ⟨[], closed_nil mode⟩
  | @cons mode kind w r shapes hform rest ih =>
    obtain ⟨B, gap, hclosed⟩ := ih
    by_cases hagain : mode.Form kind w (r ++ closing)
    · exact ⟨_, gap, hclosed.cons hagain⟩
    cases mode with
    | html =>
      cases hform with
      | tag htag =>
        rcases openTag_closing htag with htag' | ⟨rfl, htag'⟩
        · exact absurd (HtmlForm.tag htag') hagain
        · obtain rfl := rest.eq_nil
          refine ⟨[⟨.openTag, w ++ ['\n']⟩], [], ?_⟩
          rw [List.append_nil]
          refine Closed.last (p := ['\n']) rfl (HtmlForm.tag htag') (.retag rfl ?_) (by simp) cuts_brace
          have := startsWith_append_cons (show '\n' ∉ Layout.openTag by decide) w []
          simp only [Shape.isEntry, this]
      | text hne htext =>
        have hlen := htmlLength_append_newline (w ++ r) ['\x7d', '\n']
        by_cases hr : r = []
        · subst hr
          obtain rfl := rest.eq_nil
          rw [List.append_nil] at htext hlen ⊢
          rw [if_pos htext] at hlen
          refine ⟨[⟨.inlineHtml, w ++ closing⟩], [], ?_⟩
          refine Closed.last (p := closing) (q := []) rfl (HtmlForm.text (by simp [hne]) ?_)
            (.loose rfl ?_ fun h => by cases h) (by simp) (.nil _)
          · rw [List.append_nil, List.length_append]
            exact hlen
          · simp only [Shape.isStray, Shape.isLined, contains_openTag_append_closing]
            exact id
        · rw [htext, if_neg (by simp [hr]), List.append_assoc] at hlen
          exact absurd (HtmlForm.text hne hlen) hagain
    | code =>
      have hcode : CodeForm kind w r := hform
      by_cases hclose : kind = .closeTag
      · subst hclose
        obtain ⟨u, rfl, hu⟩ := hcode.closeTag_inv
        rcases swallowedNewline_closing hu with hu' | ⟨rfl, hr⟩
        · exact absurd (CodeForm.closeTag hu') hagain
        · rcases hr with rfl | rfl
          · obtain rfl := rest.eq_nil
            refine ⟨[⟨.closeTag, ['?', '>', '\n']⟩], [⟨.inlineHtml, ['\x7d', '\n']⟩], ?_⟩
            exact Closed.last (p := ['\n']) rfl (CodeForm.closeTag rfl) (.retag rfl rfl)
              (by decide) (cuts_html (by simp) rfl)
          · -- The newline behind a carriage return goes with the tag, and the text behind it is left.
            obtain rfl : shapes = [⟨.inlineHtml, ['\r']⟩] :=
              rest.unique (cuts_html (by simp) rfl)
            refine ⟨[⟨.closeTag, ['?', '>', '\r', '\n']⟩, ⟨.inlineHtml, ['\x7d', '\n']⟩], [], ?_, by simp, ?_⟩
            · exact .one (.retag rfl rfl) (.one (.loose rfl (fun h => by cases h) fun h => by cases h) .nil)
            · exact @Cuts.ofCode _ ['?', '>', '\r', '\n'] _ _ (CodeForm.closeTag rfl)
                (cuts_html (by simp) rfl)
      · have hlook := looks_append_newline r ['\x7d', '\n']
        by_cases hspace : kind = .whitespace → (r ++ closing).head? = r.head?
        · exact absurd (hcode.congr hlook hspace hclose) hagain
        · obtain ⟨rfl, hhead⟩ := Classical.not_imp.1 hspace
          obtain rfl : r = [] := by
            cases r with
            | nil => rfl
            | cons c r => exact absurd rfl hhead
          obtain rfl := rest.eq_nil
          obtain ⟨hne, hall, -⟩ := hcode.space_inv
          refine ⟨[⟨.whitespace, w ++ ['\n']⟩], [], ?_⟩
          rw [List.append_nil]
          refine Closed.last (p := ['\n']) rfl (CodeForm.space (by simp) (fun c hc => ?_) rfl)
            (.loose rfl (fun h => by cases h) fun h => by cases h) (by simp) cuts_brace
          rcases List.mem_append.1 hc with hc | hc
          · exact hall c hc
          · rw [List.mem_singleton.1 hc]
            rfl

end Namespacing
