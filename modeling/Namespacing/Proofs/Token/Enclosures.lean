import Namespacing.Proofs.Token.Headers
set_option autoImplicit false

namespace Namespacing

open Lexeme

def quotes : List Char := ['\'', '"', '\x60']

/-- Two texts that start with tokens of one group. -/
inductive Kin : Text → Text → Prop where
  | quoted {q q' : Char} (hq : q ∈ quotes) (hq' : q' ∈ quotes) (u u' : Text) : Kin (q :: u) (q' :: u')
  | block (u u' : Text) : Kin ('/' :: '*' :: u) ('/' :: '*' :: u')
  | heredoc (u u' : Text) : Kin ('<' :: '<' :: '<' :: u) ('<' :: '<' :: '<' :: u')

inductive Resembles : Text → Text → Prop where
  | here {s s' : Text} (h : Kin s s') : Resembles s s'
  | cons {s s' : Text} (c : Char) (h : Resembles s s') : Resembles (c :: s) (c :: s')

theorem Kin.symm {s s' : Text} (h : Kin s s') : Kin s' s := by
  cases h with
  | quoted hq hq' u u' => exact .quoted hq' hq u' u
  | block u u' => exact .block u' u
  | heredoc u u' => exact .heredoc u' u

theorem not_opener_of_isSpace {c : Char} (h : isSpace c = true) : c ∉ '/' :: '<' :: quotes := by
  intro hc
  simp only [quotes, List.mem_cons, List.not_mem_nil, or_false] at hc
  rcases hc with rfl | rfl | rfl | rfl | rfl <;> cases h

theorem not_opener_of_php {w : Text} (hw : w.map Char.toLower = "php".toList) {c : Char} (hc : c ∈ w) :
    c ∉ '/' :: '<' :: quotes := by
  intro hopener
  have hmem : c.toLower ∈ "php".toList := hw ▸ List.mem_map_of_mem hc
  simp only [quotes, List.mem_cons, List.not_mem_nil, or_false] at hopener
  rcases hopener with rfl | rfl | rfl | rfl | rfl <;> exact absurd hmem (by decide)

namespace Resembles

variable {s s' : Text}

theorem append (h : Resembles s s') (w : Text) : Resembles (w ++ s) (w ++ s') := by
  induction w with
  | nil => exact h
  | cons c w ih => exact .cons c ih

theorem symm (h : Resembles s s') : Resembles s' s := by
  induction h with
  | here h => exact .here h.symm
  | cons c h ih => exact .cons c ih

theorem ne_nil (h : Resembles s s') : s ≠ [] := by
  cases h with
  | here h => cases h <;> simp
  | cons c h => simp

theorem head_any (h : Resembles s s') {f : Char → Bool} (hf : ∀ q ∈ quotes, f q = false) :
    s'.head?.any f = s.head?.any f := by
  cases h with
  | here h =>
    cases h with
    | quoted hq hq' u u' => simp [hf _ hq, hf _ hq']
    | block => rfl
    | heredoc => rfl
  | cons => rfl

theorem head_iff (h : Resembles s s') {c : Char} (hc : c ∉ quotes) : s'.head? = some c ↔ s.head? = some c := by
  cases h with
  | here h =>
    cases h with
    | quoted hq hq' u u' =>
      refine iff_of_false (fun heq => hc ?_) fun heq => hc ?_
      · exact Option.some.inj heq ▸ hq'
      · exact Option.some.inj heq ▸ hq
    | block => exact Iff.rfl
    | heredoc => exact Iff.rfl
  | cons => exact Iff.rfl

theorem exists_cons {c : Char} {t : Text} (h : Resembles (c :: t) s') (hc : c ∉ '/' :: '<' :: quotes) :
    ∃ t', s' = c :: t' ∧ Resembles t t' := by
  simp only [List.mem_cons, not_or] at hc
  cases h with
  | here h =>
    cases h with
    | quoted hq => exact absurd hq hc.2.2
    | block => exact absurd rfl hc.1
    | heredoc => exact absurd rfl hc.2.1
  | cons _ h => exact ⟨_, rfl, h⟩

theorem exists_append {w r : Text} (h : Resembles (w ++ r) s') (hw : ∀ c ∈ w, c ∉ '/' :: '<' :: quotes) :
    ∃ r', s' = w ++ r' ∧ Resembles r r' := by
  induction w generalizing s' with
  | nil => exact ⟨s', rfl, h⟩
  | cons c w ih =>
    obtain ⟨t, rfl, ht⟩ := h.exists_cons (hw c List.mem_cons_self)
    obtain ⟨r', rfl, hr⟩ := ih ht fun d hd => hw d (List.mem_cons_of_mem _ hd)
    exact ⟨r', rfl, hr⟩

theorem less (h : Resembles s s') (hs : ∃ t, s = '<' :: '<' :: t) : ∃ t, s' = '<' :: '<' :: t := by
  obtain ⟨t, rfl⟩ := hs
  cases h with
  | here h =>
    cases h with
    | quoted hq => exact absurd hq (by decide)
    | heredoc u u' => exact ⟨_, rfl⟩
  | cons _ h =>
    obtain ⟨t', rfl⟩ := List.head?_eq_some_iff.1 ((h.head_iff (c := '<') (by decide)).2 rfl)
    exact ⟨t', rfl⟩

theorem endsLine (h : Resembles s s') (hs : EndsLine s) : EndsLine s' := by
  rcases hs with rfl | hs | ⟨t, rfl⟩
  · exact absurd rfl h.ne_nil
  · exact Or.inr (Or.inl ((h.head_iff (by decide)).2 hs))
  · obtain ⟨t', rfl, -⟩ := h.exists_append (w := ['?', '>']) (by decide)
    exact Or.inr (Or.inr ⟨t', rfl⟩)

theorem swallowedNewline_of_ne_zero (h : Resembles s s') (hs : swallowedNewline s ≠ 0) :
    swallowedNewline s' = swallowedNewline s := by
  unfold swallowedNewline at hs
  split at hs
  · obtain ⟨t', rfl, -⟩ := h.exists_append (w := ['\r', '\n']) (by decide)
    rfl
  · obtain ⟨t', rfl, -⟩ := h.exists_cons (by decide)
    rfl
  · exact absurd rfl hs

theorem swallowedNewline_eq (h : Resembles s s') : swallowedNewline s' = swallowedNewline s := by
  by_cases hs : swallowedNewline s = 0
  · by_cases hs' : swallowedNewline s' = 0
    · rw [hs, hs']
    · exact (h.symm.swallowedNewline_of_ne_zero hs').symm
  · exact h.swallowedNewline_of_ne_zero hs

theorem tagSpace {space r r' : Text} (h : Resembles r r') (hspace : TagSpace space r) : TagSpace space r' := by
  cases hspace with
  | fileEnd => exact absurd rfl h.ne_nil
  | crlf => exact .crlf r'
  | space hc hr => exact .space hc fun hcr hn => hr hcr ((h.head_iff (by decide)).1 hn)

theorem not_php (h : Resembles s s') (hs : ∀ w t, s = w ++ t → w.map Char.toLower ≠ "php".toList) :
    ∀ w t, s' = w ++ t → w.map Char.toLower ≠ "php".toList := by
  rintro w t rfl hw
  obtain ⟨t', rfl, -⟩ := h.symm.exists_append fun c hc => not_opener_of_php hw hc
  exact hs w t' rfl hw

theorem openTag {w r r' : Text} (h : Resembles r r') (htag : OpenTag w r) : OpenTag w r' := by
  cases htag with
  | php hw hspace => exact .php hw (h.tagSpace hspace)
  | echo => exact .echo r'
  | short hphp hecho hxml =>
    refine .short (h.not_php hphp) (mt (h.head_iff (by decide)).1 hecho) ?_
    rw [← Bool.not_eq_true, Text.startsWith_iff] at hxml ⊢
    rintro ⟨t, rfl⟩
    obtain ⟨t', rfl, -⟩ := h.symm.exists_append (w := "xml".toList) (by decide)
    exact hxml ⟨t', rfl⟩

theorem exists_openTag (h : Resembles s s') {w r : Text} (hs : s = w ++ r) (htag : OpenTag w r) :
    ∃ r', s' = w ++ r' ∧ Resembles r r' := by
  subst hs
  have hfront : ∀ {v t s' : Text}, Resembles ('<' :: '?' :: (v ++ t)) s' → (∀ c ∈ v, c ∉ '/' :: '<' :: quotes) →
      ∃ t', s' = '<' :: '?' :: (v ++ t') ∧ Resembles t t' := by
    intro v t s' hv hopener
    cases hv with
    | here hkin =>
      cases hkin with
      | quoted hq => exact absurd hq (by decide)
    | cons _ htail =>
      obtain ⟨u, rfl, hu⟩ := htail.exists_cons (by decide)
      obtain ⟨t', rfl, ht⟩ := hu.exists_append hopener
      exact ⟨t', rfl, ht⟩
  cases htag with
  | @php w space r hw hspace =>
    refine hfront h fun c hc => ?_
    rcases List.mem_append.1 hc with hc | hc
    · exact not_opener_of_php hw hc
    · exact not_opener_of_isSpace (hspace.isSpace c hc)
  | echo => exact hfront (v := ['=']) h (by decide)
  | short => exact hfront (v := []) h (by simp)

theorem isSome_openTagLength?_eq (h : Resembles s s') :
    (openTagLength? s').isSome = (openTagLength? s).isSome := by
  have hmono : ∀ {s s' : Text}, Resembles s s' → (openTagLength? s).isSome = true →
      (openTagLength? s').isSome = true := by
    intro s s' h hs
    obtain ⟨n, hn⟩ := Option.isSome_iff_exists.1 hs
    obtain ⟨w, r, hw, htag, -⟩ := openTagLength?_eq_some_iff.1 hn
    obtain ⟨r', rfl, hr⟩ := h.exists_openTag hw htag
    exact Option.isSome_iff_exists.2 ⟨_, openTagLength?_eq_some_iff.2 ⟨w, r', rfl, hr.openTag htag, rfl⟩⟩
  exact Bool.eq_iff_iff.2 ⟨hmono h.symm, hmono h⟩

theorem htmlLength_eq (h : Resembles s s') {w : Text} (hw : htmlLength (w ++ s) = w.length) :
    htmlLength (w ++ s') = w.length := by
  induction w with
  | nil =>
    obtain ⟨c, t, rfl⟩ := List.exists_cons_of_ne_nil h.ne_nil
    obtain ⟨c', t', rfl⟩ := List.exists_cons_of_ne_nil h.symm.ne_nil
    rw [List.nil_append, htmlLength] at hw ⊢
    rw [h.isSome_openTagLength?_eq]
    split at hw
    · rw [if_pos (by assumption), List.length_nil]
    · cases hw
  | cons c w ih =>
    have hsome := (h.append (c :: w)).isSome_openTagLength?_eq
    rw [List.cons_append, List.cons_append] at hsome
    rw [List.cons_append, htmlLength] at hw ⊢
    rw [hsome]
    split at hw
    · cases hw
    · rw [if_neg (by assumption), ih (Nat.succ.inj hw), List.length_cons]

theorem lineCommentLength_eq (h : Resembles s s') {u : Text} (hu : lineCommentLength (u ++ s) = u.length) :
    lineCommentLength (u ++ s') = u.length := by
  rw [lineCommentLength_eq_length_iff] at hu ⊢
  exact ⟨fun x c y hxy hends => hu.1 x c y hxy ((h.symm.append (c :: y)).endsLine hends), h.endsLine hu.2⟩

theorem standsAlone (h : Resembles s s') {c : Char} (hc : StandsAlone c s) : StandsAlone c s' := by
  cases hc with
  | mark hc => exact .mark hc
  | slash hslash hstar => exact .slash (mt (h.head_iff (by decide)).1 hslash) (mt (h.head_iff (by decide)).1 hstar)
  | less hless =>
    refine .less fun t ht => ?_
    obtain ⟨t', ht'⟩ := h.symm.less ⟨t, ht⟩
    exact hless t' ht'
  | dollar hword => exact .dollar (by rwa [h.head_any (by decide)])
  | question hclose => exact .question (mt (h.head_iff (by decide)).1 hclose)

theorem codeForm (h : Resembles s s') {kind : TokenKind} {w : Text} (hw : CodeForm kind w s) :
    CodeForm kind w s' := by
  cases hw with
  | space hne hw hr => exact .space hne hw (by rwa [h.head_any (by decide)])
  | hashBracket hu => exact .hashBracket hu
  | hash hu hline => exact .hash hu (h.lineCommentLength_eq hline)
  | slashes hline => exact .slashes (h.lineCommentLength_eq hline)
  | block hkind hu => exact .block hkind hu
  | quote hq hu => exact .quote hq hu
  | heredoc hu =>
    refine .heredoc (heredocLength?_congr hu ?_)
    rw [h.head_any (by decide)]
    exact (exists_last_of_heredocLength? hu).1
  | dollarWord hw hr => exact .dollarWord hw (by rwa [h.head_any (by decide)])
  | number hc hw hr => exact .number hc hw (by rwa [h.head_any (by decide)])
  | word hkind hw hr => exact .word hkind hw (by rwa [h.head_any (by decide)])
  | closeTag hu => exact .closeTag (by rw [(h.append _).swallowedNewline_eq, hu])
  | single hc => exact .single (h.standsAlone hc)

theorem form (h : Resembles s s') {mode : Mode} {kind : TokenKind} {w : Text} (hw : mode.Form kind w s) :
    mode.Form kind w s' := by
  cases mode with
  | code => exact h.codeForm hw
  | html =>
    cases hw with
    | tag htag => exact .tag (h.openTag htag)
    | text hne hlen => exact .text hne (h.htmlLength_eq hlen)

end Resembles

theorem CodeForm.string_inv {w r : Text} (h : CodeForm .string w r) :
    ∃ q u, w = q :: u ∧ q ∈ quotes ∧ quotedLength? q u = some u.length := by
  generalize hkind : TokenKind.string = kind at h
  cases h with
  | quote hq hu => exact ⟨_, _, rfl, hq, hu⟩
  | block hblock =>
    rw [hblock, blockKind] at hkind
    split at hkind <;> cases hkind
  | word hword =>
    rw [hword, wordKind] at hkind
    split at hkind <;> cases hkind
  | _ => cases hkind

theorem CodeForm.heredoc_inv {w r : Text} (h : CodeForm .heredoc w r) :
    ∃ u, w = '<' :: '<' :: '<' :: u ∧ heredocLength? (u ++ r) = some u.length := by
  generalize hkind : TokenKind.heredoc = kind at h
  cases h with
  | heredoc hu => exact ⟨_, rfl, hu⟩
  | block hblock =>
    rw [hblock, blockKind] at hkind
    split at hkind <;> cases hkind
  | word hword =>
    rw [hword, wordKind] at hkind
    split at hkind <;> cases hkind
  | _ => cases hkind

theorem CodeForm.block_inv {kind : TokenKind} {u r : Text} (h : CodeForm kind ('/' :: '*' :: u) r)
    (hkind : kind = .comment ∨ kind = .docComment) :
    kind = blockKind u ∧ blockCommentLength? u = some u.length := by
  generalize hw : '/' :: '*' :: u = w at h
  cases h with
  | block hblock hu =>
    obtain rfl := (List.cons.inj (List.cons.inj hw).2).2
    exact ⟨hblock, hu⟩
  | hash => simp at hw
  | slashes => simp at hw
  | word hword =>
    rw [hword, wordKind] at hkind
    split at hkind <;> simp at hkind
  | _ => simp at hkind

/-- The groups of tokens that enclose a text. -/
inductive Enclosure where
  | string
  | heredoc
  | blockComment
  deriving DecidableEq, Repr

/-- Is a token one of the group? A block comment is told from a line comment by how it starts. -/
def Enclosure.holds (group : Enclosure) (x : Shape) : Bool :=
  match group with
  | .string => x.kind == .string
  | .heredoc => x.kind == .heredoc
  | .blockComment => (x.kind == .comment || x.kind == .docComment) && Text.startsWith "/*".toList x.text

theorem CodeForm.exchange {group : Enclosure} {kind kind' : TokenKind} {w w' r : Text} (h : CodeForm kind w r)
    (h' : CodeForm kind' w' []) (hx : group.holds ⟨kind, w⟩ = true) (hy : group.holds ⟨kind', w'⟩ = true) :
    CodeForm kind' w' r ∧ Kin (w ++ r) (w' ++ r) := by
  cases group with
  | string =>
    obtain rfl : kind = .string := by simpa [Enclosure.holds] using hx
    obtain rfl : kind' = .string := by simpa [Enclosure.holds] using hy
    obtain ⟨q, u, rfl, hq, -⟩ := h.string_inv
    obtain ⟨q', u', rfl, hq', hu'⟩ := h'.string_inv
    exact ⟨.quote hq' hu', .quoted hq hq' _ _⟩
  | heredoc =>
    obtain rfl : kind = .heredoc := by simpa [Enclosure.holds] using hx
    obtain rfl : kind' = .heredoc := by simpa [Enclosure.holds] using hy
    obtain ⟨u, rfl, hu⟩ := h.heredoc_inv
    obtain ⟨u', rfl, hu'⟩ := h'.heredoc_inv
    exact ⟨.heredoc (heredocLength?_congr hu' (exists_last_of_heredocLength? hu).1), .heredoc _ _⟩
  | blockComment =>
    simp only [Enclosure.holds, Bool.and_eq_true, Bool.or_eq_true, beq_iff_eq, Text.startsWith_iff] at hx hy
    obtain ⟨hkind, u, rfl⟩ := hx
    obtain ⟨hkind', u', rfl⟩ := hy
    obtain ⟨rfl, hu'⟩ := h'.block_inv hkind'
    exact ⟨.block rfl hu', .block _ _⟩

/-- The tokens before a text stay the same when it becomes one that resembles it. -/
theorem Cuts.append_congr {mode : Mode} {s s' : Text} {A B B' : List Shape}
    (h : Cuts mode (A.flatMap Shape.text ++ s) (A ++ B)) (hs : Resembles s s')
    (hB : Cuts (mode.behind A) s' B') : Cuts mode (A.flatMap Shape.text ++ s') (A ++ B') := by
  induction A generalizing mode with
  | nil => exact hB
  | cons x A ih =>
    obtain ⟨kind, w⟩ := x
    rw [List.flatMap_cons, List.append_assoc] at h ⊢
    generalize hr : w ++ (A.flatMap Shape.text ++ s) = r at h
    cases h with
    | cons hform rest =>
      obtain rfl := List.append_cancel_left hr
      exact .cons ((hs.append _).form hform) (ih rest hB)

theorem Enclosure.code_of_holds {group : Enclosure} {mode : Mode} {kind : TokenKind} {w r : Text}
    (h : mode.Form kind w r) (hx : group.holds ⟨kind, w⟩ = true) : mode = .code ∧ CodeForm kind w r := by
  cases mode with
  | code => exact ⟨rfl, h⟩
  | html => cases h <;> cases group <;> simp [Enclosure.holds] at hx

theorem Enclosure.after_of_holds {group : Enclosure} {kind : TokenKind} {w : Text}
    (hx : group.holds ⟨kind, w⟩ = true) (mode : Mode) : mode.after kind = mode := by
  cases kind <;> first | rfl | (cases group <;> simp [Enclosure.holds] at hx)

theorem Cuts.exchange {group : Enclosure} {A B : List Shape} {x y : Shape} {s : Text}
    (h : Cuts .html s (A ++ x :: B)) (hx : group.holds x = true) (hy : group.holds y = true)
    (hform : CodeForm y.kind y.text []) :
    Cuts .html (A.flatMap Shape.text ++ (y.text ++ B.flatMap Shape.text)) (A ++ y :: B) := by
  have hrest := h.behind
  have hs : s = A.flatMap Shape.text ++ (x.text ++ B.flatMap Shape.text) := by
    rw [← h.text_eq, List.flatMap_append, List.flatMap_cons]
  subst hs
  rw [List.flatMap_cons] at hrest
  obtain ⟨kind, w⟩ := x
  generalize ht : w ++ B.flatMap Shape.text = t at hrest
  cases hrest with
  | cons hlexeme rest =>
    obtain rfl := List.append_cancel_left ht
    obtain ⟨hmode, hcode⟩ := Enclosure.code_of_holds hlexeme hx
    obtain ⟨hnew, hkin⟩ := hcode.exchange hform hx hy
    refine h.append_congr (.here hkin) ?_
    rw [hmode] at rest ⊢
    rw [Enclosure.after_of_holds hx] at rest
    refine .ofCode hnew ?_
    rwa [Enclosure.after_of_holds hy]

end Namespacing
