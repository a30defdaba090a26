import Namespacing.Proofs.Text.Replacement
import Namespacing.Proofs.Token.Ending
set_option autoImplicit false

namespace Namespacing

namespace Text

theorem take_replaceAll {p h : Text} (hp : p ≠ []) (s : Text) :
    (replaceAll p (p ++ h) s).take p.length = s.take p.length := by
  suffices ∀ n, n ≤ p.length → (replaceAll p (p ++ h) s).take n = s.take n from this _ (Nat.le_refl _)
  induction s using replaceAll_cases hp with
  | nil => simp [replaceAll_nil _ hp]
  | found s ih =>
    intro n hn
    rw [replaceAll_append_self _ _ hp, List.append_assoc, List.take_append_of_le_length hn,
      List.take_append_of_le_length hn]
  | kept c s hc ih =>
    intro n hn
    rw [replaceAll_cons _ _ _ hp hc]
    cases n with
    | zero => rfl
    | succ n => rw [List.take_succ_cons, List.take_succ_cons, ih n (by omega)]

end Text

open Lexeme Text

theorem openTag_eq : Layout.openTag = ['<', '?', 'p', 'h', 'p'] := rfl

theorem openTag_ne_nil : Layout.openTag ≠ [] := by
  decide

section

variable {w r : Text}

theorem Text.Straddles.exists_split (h : Straddles Layout.openTag w r) :
    ∃ v t, (w = v ++ ['<'] ∧ r = '?' :: 'p' :: 'h' :: 'p' :: t) ∨
      (w = v ++ ['<', '?'] ∧ r = 'p' :: 'h' :: 'p' :: t) ∨
      (w = v ++ ['<', '?', 'p'] ∧ r = 'h' :: 'p' :: t) ∨
      (w = v ++ ['<', '?', 'p', 'h'] ∧ r = 'p' :: t) := by
  obtain ⟨v, w₂, r₂, t, rfl, rfl, hp, hw₂, hr₂⟩ := h
  rw [openTag_eq] at hp
  refine ⟨v, t, ?_⟩
  match w₂ with
  | [] => exact absurd rfl hw₂
  | [_] =>
    simp only [List.cons_append, List.nil_append, List.cons.injEq] at hp
    simp [← hp.1, ← hp.2]
  | [_, _] =>
    simp only [List.cons_append, List.nil_append, List.cons.injEq] at hp
    simp [← hp.1, ← hp.2.1, ← hp.2.2]
  | [_, _, _] =>
    simp only [List.cons_append, List.nil_append, List.cons.injEq] at hp
    simp [← hp.1, ← hp.2.1, ← hp.2.2.1, ← hp.2.2.2]
  | [_, _, _, _] =>
    simp only [List.cons_append, List.nil_append, List.cons.injEq] at hp
    simp [← hp.1, ← hp.2.1, ← hp.2.2.1, ← hp.2.2.2.1, ← hp.2.2.2.2]
  | _ :: _ :: _ :: _ :: _ :: w =>
    simp only [List.cons_append, List.cons.injEq] at hp
    exact absurd (List.append_eq_nil_iff.1 hp.2.2.2.2.2.symm).2 hr₂

theorem not_straddles_of_not_mem (h : '<' ∉ w) : ¬ Straddles Layout.openTag w r := by
  intro hs
  obtain ⟨v, t, ⟨rfl, -⟩ | ⟨rfl, -⟩ | ⟨rfl, -⟩ | ⟨rfl, -⟩⟩ := hs.exists_split
  all_goals simp at h

theorem not_straddles_of_head (h : ∀ c ∈ ['?', 'p', 'h'], r.head? ≠ some c) :
    ¬ Straddles Layout.openTag w r := by
  intro hs
  obtain ⟨v, t, ⟨-, rfl⟩ | ⟨-, rfl⟩ | ⟨-, rfl⟩ | ⟨-, rfl⟩⟩ := hs.exists_split
  all_goals simp at h

theorem not_straddles_of_last {v : Text} {c : Char} (hc : c ∉ ['<', '?', 'p', 'h']) :
    ¬ Straddles Layout.openTag (v ++ [c]) r := by
  have hlast : ∀ (x y : Text) (d : Char), v ++ [c] = x ++ (y ++ [d]) → d = c := by
    intro x y d h
    rw [← List.append_assoc] at h
    exact (List.cons.inj (List.append_inj' h rfl).2).1.symm
  intro hs
  obtain ⟨x, t, ⟨hw, -⟩ | ⟨hw, -⟩ | ⟨hw, -⟩ | ⟨hw, -⟩⟩ := hs.exists_split
  · exact hc (hlast x [] '<' hw ▸ by simp)
  · exact hc (hlast x ['<'] '?' hw ▸ by simp)
  · exact hc (hlast x ['<', '?'] 'p' hw ▸ by simp)
  · exact hc (hlast x ['<', '?', 'p'] 'h' hw ▸ by simp)

theorem not_straddles_of_endsLine (h : EndsLine r) : ¬ Straddles Layout.openTag w r := by
  rcases h with rfl | hr | ⟨t, rfl⟩
  · exact not_straddles_of_head (by simp)
  · exact not_straddles_of_head (by rw [hr]; decide)
  · intro hs
    obtain ⟨v, t, ⟨-, hr⟩ | ⟨-, hr⟩ | ⟨-, hr⟩ | ⟨-, hr⟩⟩ := hs.exists_split
    all_goals simp at hr

theorem not_straddles_of_word {v : Text} {c : Char} (hc : isWordChar c = true)
    (hr : r.head?.any isWordChar = false) : ¬ Straddles Layout.openTag (v ++ [c]) r := by
  intro hs
  obtain ⟨x, t, ⟨hw, -⟩ | ⟨hw, -⟩ | ⟨-, rfl⟩ | ⟨-, rfl⟩⟩ := hs.exists_split
  · obtain rfl : c = '<' := (List.cons.inj (List.append_inj' hw rfl).2).1
    cases hc
  · obtain rfl : c = '?' := by
      have : v ++ [c] = (x ++ ['<']) ++ ['?'] := by simpa using hw
      exact (List.cons.inj (List.append_inj' this rfl).2).1
    cases hc
  · cases hr
  · cases hr

end

theorem Lexeme.exists_last_of_scan {σ : Type} {step : σ → Char → Option σ} {state : σ} {w : Text}
    (h : scan step state w = some w.length) :
    ∃ v c last, w = v ++ [c] ∧ step last c = none := by
  induction w generalizing state with
  | nil => cases h
  | cons c w ih =>
    rw [scan] at h
    cases hc : step state c with
    | none =>
      rw [hc] at h
      have hlen : w.length = 0 := by
        have := Option.some.inj h
        simp only [List.length_cons] at this
        omega
      exact ⟨[], c, state, by rw [List.eq_nil_of_length_eq_zero hlen]; rfl, hc⟩
    | some next =>
      rw [hc] at h
      obtain ⟨m, hm, hlen⟩ := Option.map_eq_some_iff.1 h
      obtain rfl : m = w.length := Nat.succ.inj hlen
      obtain ⟨v, d, last, rfl, hd⟩ := ih hm
      exact ⟨c :: v, d, last, rfl, hd⟩

/-- An automaton that goes through a literal open tag to the same state with and without `header`
behind it. -/
def Ignores {σ : Type} (step : σ → Char → Option σ) (header : Text) : Prop :=
  ∀ state, ∃ next, Layout.openTag.foldlM step state = some next ∧ header.foldlM step next = some next

theorem Ignores.scan_replaceAll {σ : Type} {step : σ → Char → Option σ} {header : Text}
    (h : Ignores step header) {state : σ} {u : Text} (hu : scan step state u = some u.length) :
    scan step state (replaceAll Layout.openTag (Layout.openTag ++ header) u) =
      some (replaceAll Layout.openTag (Layout.openTag ++ header) u).length := by
  have hp := openTag_ne_nil
  induction u using replaceAll_cases hp generalizing state with
  | nil => cases hu
  | found s ih =>
    obtain ⟨next, htag, hheader⟩ := h state
    rw [scan_append, htag] at hu
    obtain ⟨m, hm, hlen⟩ := Option.map_eq_some_iff.1 hu
    obtain rfl : m = s.length := by
      rw [List.length_append] at hlen
      omega
    have hboth : (Layout.openTag ++ header).foldlM step state = some next := by
      rw [List.foldlM_append, htag]
      exact hheader
    rw [replaceAll_append_self _ _ hp, scan_append, hboth]
    simp only [ih hm, Option.map_some, List.length_append]
    rw [Nat.add_comm]
  | kept c s hc ih =>
    rw [replaceAll_cons _ _ _ hp hc]
    rw [scan] at hu ⊢
    cases hstep : step state c with
    | none =>
      rw [hstep] at hu
      have hlen : s.length = 0 := by
        have := Option.some.inj hu
        simp only [List.length_cons] at this
        omega
      rw [List.eq_nil_of_length_eq_zero hlen, replaceAll_nil _ hp]
      rfl
    | some next =>
      rw [hstep] at hu
      obtain ⟨m, hm, hlen⟩ := Option.map_eq_some_iff.1 hu
      obtain rfl : m = s.length := Nat.succ.inj hlen
      simp only [ih hm, Option.map_some, List.length_cons]

theorem eq_of_quotedStep {quote c : Char} {escaped : Bool} (h : quotedStep quote escaped c = none) :
    c = quote := by
  unfold quotedStep at h
  split at h
  · cases h
  · split at h
    · cases h
    · split at h
      · assumption
      · cases h

theorem eq_of_attributeStep {c : Char} {state : Nat × Option (Bool × Bool)}
    (h : attributeStep state c = none) : c = ']' := by
  obtain ⟨nested, _ | ⟨double, escaped⟩⟩ := state
  · by_contra hc
    simp only [attributeStep, if_neg hc] at h
    split at h
    · cases h
    · split at h
      · cases h
      · split at h <;> cases h
  · simp only [attributeStep] at h
    split at h <;> cases h

theorem eq_of_blockStep {c : Char} {star : Bool} (h : blockStep star c = none) : c = '/' := by
  unfold blockStep at h
  split at h
  · rename_i hc
    exact hc.2
  · cases h

theorem not_mem_of_isIdentifier {w : Text} {c : Char} (hw : isIdentifier w = true)
    (hc : isWordChar c = false) : c ∉ w := by
  intro hmem
  cases w with
  | nil => cases hmem
  | cons d w =>
    simp only [isIdentifier, Bool.and_eq_true, List.all_eq_true] at hw
    rcases List.mem_cons.1 hmem with rfl | hmem
    · rw [isWordChar_of_isWordStart hw.1] at hc
      cases hc
    · rw [hw.2 c hmem] at hc
      cases hc

theorem CodeForm.not_straddles {kind : TokenKind} {w r : Text} (h : CodeForm kind w r)
    (hspelled : w = ['<'] → ∀ t, r ≠ '?' :: 'p' :: 'h' :: 'p' :: t) :
    ¬ Straddles Layout.openTag w r := by
  cases h with
  | space hne hw hr =>
    refine not_straddles_of_not_mem fun hmem => ?_
    cases hw _ hmem
  | hashBracket h =>
    rw [attributeLength?_eq_scan_none] at h
    obtain ⟨v, c, last, rfl, hc⟩ := exists_last_of_scan h
    rw [eq_of_attributeStep hc]
    exact not_straddles_of_last (v := '#' :: '[' :: v) (by decide)
  | hash hu h => exact not_straddles_of_endsLine (lineCommentLength_eq_length_iff.1 h).2
  | slashes h => exact not_straddles_of_endsLine (lineCommentLength_eq_length_iff.1 h).2
  | block hkind h =>
    rw [blockCommentLength?_eq_scan] at h
    obtain ⟨v, c, last, rfl, hc⟩ := exists_last_of_scan h
    rw [eq_of_blockStep hc]
    exact not_straddles_of_last (v := '/' :: '*' :: v) (by decide)
  | @quote q u r hq h =>
    rw [quotedLength?_eq_scan] at h
    obtain ⟨v, c, last, rfl, hc⟩ := exists_last_of_scan h
    rw [eq_of_quotedStep hc]
    have hquotes : ∀ q ∈ ['\'', '"', '\x60'], q ∉ ['<', '?', 'p', 'h'] := by decide
    exact not_straddles_of_last (v := q :: v) (hquotes q hq)
  | heredoc h =>
    obtain ⟨hr, v, c, rfl, hc⟩ := exists_last_of_heredocLength? h
    exact not_straddles_of_word (v := '<' :: '<' :: '<' :: v) hc hr
  | dollarWord hw hr =>
    refine not_straddles_of_not_mem ?_
    simp only [List.mem_cons, not_or]
    exact ⟨by decide, not_mem_of_isIdentifier hw rfl⟩
  | number hc hw hr =>
    refine not_straddles_of_not_mem fun hmem => ?_
    rcases List.mem_cons.1 hmem with rfl | hmem
    · cases hc
    · cases hw _ hmem
  | word hkind hw hr => exact not_straddles_of_not_mem (not_mem_of_isIdentifier hw rfl)
  | closeTag h =>
    refine not_straddles_of_not_mem ?_
    rcases swallowed_cases h with rfl | rfl | rfl <;> decide
  | @single c r h =>
    by_cases hc : c = '<'
    · subst hc
      intro hs
      obtain ⟨v, t, ⟨-, hr⟩ | ⟨hw, -⟩ | ⟨hw, -⟩ | ⟨hw, -⟩⟩ := hs.exists_split
      · exact hspelled rfl t hr
      all_goals
        have := congrArg List.length hw
        simp at this
    · exact not_straddles_of_not_mem (by simpa using Ne.symm hc)

theorem isSome_openTagLength?_of_htmlLength {w r : Text} (h : htmlLength (w ++ r) = w.length) :
    r = [] ∨ (openTagLength? r).isSome = true := by
  induction w with
  | nil =>
    cases r with
    | nil => exact Or.inl rfl
    | cons c r =>
      rw [List.nil_append, htmlLength] at h
      split at h
      · exact Or.inr (by assumption)
      · cases h
  | cons c w ih =>
    rw [List.cons_append, htmlLength] at h
    split at h
    · cases h
    · exact ih (Nat.succ.inj h)

theorem HtmlForm.not_straddles {kind : TokenKind} {w r : Text} (h : HtmlForm kind w r) :
    ¬ Straddles Layout.openTag w r := by
  cases h with
  | tag h =>
    cases h with
    | @php w space r hw hspace =>
      cases hspace with
      | fileEnd => exact not_straddles_of_endsLine (Or.inl rfl)
      | crlf r =>
        have := not_straddles_of_last (r := r) (v := '<' :: '?' :: (w ++ ['\r'])) (c := '\n') (by decide)
        simpa using this
      | @space c r hc _ =>
        refine not_straddles_of_last (v := '<' :: '?' :: w) ?_
        simp only [List.mem_cons, List.not_mem_nil, or_false]
        rintro (rfl | rfl | rfl | rfl) <;> cases hc
    | echo r => exact not_straddles_of_last (v := ['<', '?']) (by decide)
    | short hphp hecho hxml =>
      intro hs
      obtain ⟨v, t, ⟨hw, -⟩ | ⟨-, rfl⟩ | ⟨hw, -⟩ | ⟨hw, -⟩⟩ := hs.exists_split
      · simpa using congrArg List.getLast? hw
      · exact hphp "php".toList t rfl rfl
      all_goals
        have := congrArg List.length hw
        simp at this
  | text hne h =>
    rcases isSome_openTagLength?_of_htmlLength h with rfl | htag
    · exact not_straddles_of_endsLine (Or.inl rfl)
    · obtain ⟨n, hn⟩ := Option.isSome_iff_exists.1 htag
      obtain ⟨v, t, rfl, hopen, -⟩ := openTagLength?_eq_some_iff.1 hn
      have hhead : (v ++ t).head? = some '<' := by cases hopen <;> rfl
      exact not_straddles_of_head (by rw [hhead]; decide)

def headed (text s : Text) : Text :=
  replaceAll Layout.openTag (Layout.openTag ++ text) s

/-- A text that may be put behind open tags: a newline, and then the tokens `shapes`, whatever code
follows. Strings, attributes and block comments that it comes into do not end in it. -/
structure Header (text : Text) (shapes : List Shape) : Prop where
  cuts : ∃ body, text = '\n' :: body ∧
    ∀ t B, Cuts .code t B → Cuts .code (body ++ t) (shapes ++ B)
  quoted : ∀ q ∈ ['\'', '"', '\x60'], Ignores (quotedStep q) text
  bracketed : Ignores attributeStep text
  commented : Ignores blockStep text

section

variable {text : Text} {w r : Text}

theorem headed_nil : headed text [] = [] :=
  replaceAll_nil _ openTag_ne_nil

theorem headed_of_not_contains (h : contains Layout.openTag w = false) : headed text w = w :=
  replaceAll_of_not_contains h

theorem headed_cons {c : Char} (hc : c ≠ '<') (s : Text) : headed text (c :: s) = c :: headed text s := by
  refine replaceAll_cons _ c s openTag_ne_nil ?_
  rw [openTag_eq]
  rintro ⟨t, ht⟩
  exact hc (List.cons.inj ht).1.symm

theorem headed_append (h : ¬ Straddles Layout.openTag w r) :
    headed text (w ++ r) = headed text w ++ headed text r :=
  replaceAll_append openTag_ne_nil h

theorem take_headed (n : Nat) (hn : n ≤ 5) (s : Text) : (headed text s).take n = s.take n := by
  have hle : n ≤ Layout.openTag.length := hn
  have := congrArg (List.take n) (take_replaceAll (h := text) openTag_ne_nil s)
  rwa [List.take_take, List.take_take, Nat.min_eq_left hle] at this

theorem contains_eq_false_of_not_mem (h : '<' ∉ w) : contains Layout.openTag w = false := by
  rw [← Bool.not_eq_true, contains_iff]
  rintro ⟨a, b, rfl⟩
  simp [openTag_eq] at h

theorem isStray_block {kind : TokenKind} {u v : Text} (hkind : kind = blockKind u) :
    Shape.isStray ⟨kind, '/' :: '*' :: v⟩ = false := by
  rw [hkind, blockKind]
  split <;> rfl

theorem CodeForm.form_headed {kind : TokenKind} {shapes : List Shape} (htext : Header text shapes)
    (h : CodeForm kind w r) (hclose : kind ≠ .closeTag) (hstray : Shape.isStray ⟨kind, w⟩ = false) :
    CodeForm kind (headed text w) (headed text r) ∧
      Respaces shapes (headed text) ⟨kind, w⟩ [⟨kind, headed text w⟩] := by
  have hhead : (headed text r).head? = r.head? := head?_eq_of_take (n := 0) (take_headed 1 (by decide) r)
  have hlook : Looks r (headed text r) := looks_of_take (take_headed 2 (by decide) r)
  have hkept : ∀ {w : Text}, CodeForm kind w r → contains Layout.openTag w = false →
      CodeForm kind (headed text w) (headed text r) ∧
        Respaces shapes (headed text) ⟨kind, w⟩ [⟨kind, headed text w⟩] := by
    intro w h hw
    have hself : headed text w = w := headed_of_not_contains hw
    rw [hself]
    refine ⟨h.congr hlook (fun _ => hhead) hclose, ?_⟩
    cases hloose : kind.isLoose with
    | true => exact .loose hloose id fun _ => hself.symm
    | false => exact .solid hloose (h.isTag_eq hclose)
  have hlined : Shape.isLined ⟨kind, w⟩ = true → contains Layout.openTag w = false := by
    intro hl
    simpa [Shape.isStray, hl] using hstray
  cases h with
  | space hne hw hr =>
    refine hkept (.space hne hw hr) (contains_eq_false_of_not_mem fun hmem => ?_)
    cases hw _ hmem
  | @hashBracket u r h =>
    have hscan := h
    rw [attributeLength?_eq_scan_none] at hscan
    have := htext.bracketed.scan_replaceAll hscan
    rw [← attributeLength?_eq_scan_none] at this
    rw [headed_cons (by decide), headed_cons (by decide)]
    exact ⟨.hashBracket this, .loose rfl (fun h => by cases h) fun h => by cases h⟩
  | hash hu h => exact hkept (.hash hu h) (hlined rfl)
  | slashes h => exact hkept (.slashes h) (hlined rfl)
  | @block _ u r hkind h =>
    have hscan := h
    rw [blockCommentLength?_eq_scan] at hscan
    have := htext.commented.scan_replaceAll hscan
    rw [← blockCommentLength?_eq_scan] at this
    have hhead : (headed text u).head? = u.head? := head?_eq_of_take (n := 0) (take_headed 1 (by decide) u)
    rw [headed_cons (by decide), headed_cons (by decide)]
    refine ⟨.block ?_ this, ?_⟩
    · rw [hkind, blockKind, blockKind, hhead]
    · refine .loose (by rw [hkind, isLoose_blockKind]) (fun h => ?_) fun _ => ?_
      · rw [isStray_block hkind] at h
        cases h
      · rw [headed_cons (by decide), headed_cons (by decide)]
  | @quote q u r hq h =>
    have hne : q ≠ '<' := by
      have : ∀ q ∈ ['\'', '"', '\x60'], q ≠ '<' := by decide
      exact this q hq
    have hscan := h
    rw [quotedLength?_eq_scan] at hscan
    have := (htext.quoted q hq).scan_replaceAll hscan
    rw [← quotedLength?_eq_scan] at this
    rw [headed_cons hne]
    exact ⟨.quote hq this, .loose rfl (fun h => by cases h) fun _ => (headed_cons hne u).symm⟩
  | heredoc h => exact hkept (.heredoc h) (hlined rfl)
  | dollarWord hw hr =>
    refine hkept (.dollarWord hw hr) (contains_eq_false_of_not_mem ?_)
    simp only [List.mem_cons, not_or]
    exact ⟨by decide, not_mem_of_isIdentifier hw rfl⟩
  | number hc hw hr =>
    refine hkept (.number hc hw hr) (contains_eq_false_of_not_mem fun hmem => ?_)
    rcases List.mem_cons.1 hmem with rfl | hmem
    · cases hc
    · cases hw _ hmem
  | word hkind hw hr =>
    exact hkept (.word hkind hw hr) (contains_eq_false_of_not_mem (not_mem_of_isIdentifier hw rfl))
  | closeTag => exact absurd rfl hclose
  | @single c r h =>
    refine hkept (.single h) ?_
    rw [← Bool.not_eq_true, contains_iff]
    rintro ⟨a, b, heq⟩
    have := congrArg List.length heq
    simp [openTag_eq] at this
    omega

theorem swallowedNewline_congr {r' : Text} (h : r'.take 2 = r.take 2) :
    swallowedNewline r' = swallowedNewline r := by
  have htail : r'.tail.head? = r.tail.head? := by
    cases r with
    | nil => cases r' with
      | nil => rfl
      | cons c r' => cases h
    | cons c r => cases r' with
      | nil => cases h
      | cons c' r' => exact head?_eq_of_take (n := 0) (List.cons.inj h).2
  rw [swallowedNewline_eq_ite, swallowedNewline_eq_ite, head?_eq_of_take h, htail]

theorem closeTag_headed (text : Text) {u : Text} (h : swallowedNewline (u ++ r) = u.length) :
    headed text ('?' :: '>' :: u) = '?' :: '>' :: u ∧ CodeForm .closeTag ('?' :: '>' :: u) (headed text r) := by
  have hlook := @take_headed text 2 (by decide) r
  rcases swallowed_cases h with rfl | rfl | rfl
  · refine ⟨headed_of_not_contains rfl, .closeTag ?_⟩
    rw [List.nil_append, swallowedNewline_congr hlook]
    exact h
  · exact ⟨headed_of_not_contains rfl, .closeTag rfl⟩
  · exact ⟨headed_of_not_contains rfl, .closeTag rfl⟩

theorem TagSpace.isSpace {space r : Text} (h : TagSpace space r) : ∀ c ∈ space, Lexeme.isSpace c = true := by
  cases h with
  | fileEnd => simp
  | crlf => decide
  | space hc _ => simpa using hc

theorem less_not_mem_of_php {v space : Text} (hv : v.map Char.toLower = "php".toList)
    (hspace : TagSpace space r) : '<' ∉ '?' :: (v ++ space) := by
  simp only [List.mem_cons, List.mem_append, not_or]
  refine ⟨by decide, fun hmem => ?_, fun hmem => ?_⟩
  · have : '<'.toLower ∈ "php".toList := hv ▸ List.mem_map_of_mem hmem
    revert this
    decide
  · cases hspace.isSpace _ hmem

/-- An open tag that is no literal one stays as it is. -/
theorem openTag_headed (text : Text) (h : OpenTag w r) (hentry : startsWith Layout.openTag w = false) :
    headed text w = w ∧ OpenTag w (headed text r) := by
  have hhead : (headed text r).head? = r.head? := head?_eq_of_take (n := 0) (take_headed 1 (by decide) r)
  have hfront : ∀ v t, v.length = 3 → headed text r = v ++ t → r = v ++ r.drop 3 := by
    intro v t hv ht
    have := @take_headed text 3 (by decide) r
    rw [ht, ← hv, List.take_left, hv] at this
    rw [this, List.take_append_drop]
  cases h with
  | @php v space r hv hspace =>
    have hself : contains Layout.openTag ('<' :: '?' :: (v ++ space)) = false := by
      rw [contains, hentry, contains_eq_false_of_not_mem (less_not_mem_of_php hv hspace)]
      rfl
    refine ⟨headed_of_not_contains hself, .php hv ?_⟩
    cases hspace with
    | fileEnd =>
      rw [headed_nil]
      exact .fileEnd
    | crlf r => exact .crlf _
    | space hc hcr => exact .space hc (by rwa [hhead])
  | echo r => exact ⟨headed_of_not_contains rfl, .echo _⟩
  | short hphp hecho hxml =>
    refine ⟨headed_of_not_contains rfl, .short (fun v t heq hv => ?_) (by rwa [hhead]) ?_⟩
    · have hlen : v.length = 3 := by simpa using congrArg List.length hv
      exact hphp v _ (hfront v t hlen heq) hv
    · rw [← Bool.not_eq_true, startsWith_iff]
      rintro ⟨t, ht⟩
      rw [← Bool.not_eq_true, startsWith_iff] at hxml
      exact hxml ⟨_, hfront "xml".toList t rfl ht⟩

theorem entry_headed (text : Text) (h : OpenTag w r) (hentry : startsWith Layout.openTag w = true) :
    ∃ space, (∀ c ∈ space, Lexeme.isSpace c = true) ∧
      headed text w = Layout.openTag ++ (text ++ space) := by
  obtain ⟨space, rfl⟩ := startsWith_iff.1 hentry
  have hspace : ∀ c ∈ space, Lexeme.isSpace c = true := by
    generalize hw : Layout.openTag ++ space = w at h
    rw [openTag_eq] at hw
    cases h with
    | @php v gap r hv hgap =>
      have hlen : v.length = 3 := by simpa using congrArg List.length hv
      have heq : ['p', 'h', 'p'] ++ space = v ++ gap := by simpa using hw
      obtain ⟨-, rfl⟩ := List.append_inj heq (by simp [hlen])
      exact hgap.isSpace
    | echo r => simp at hw
    | short => simp at hw
  refine ⟨space, hspace, ?_⟩
  have hself : headed text space = space := by
    refine headed_of_not_contains (contains_eq_false_of_not_mem fun hmem => ?_)
    cases hspace _ hmem
  rw [headed, replaceAll_append_self _ _ openTag_ne_nil, ← headed, hself, List.append_assoc]

end

def spelledTag (w : Text) : List Shape :=
  [⟨.punct, ['<']⟩, ⟨.punct, ['?']⟩, ⟨wordKind ('p' :: 'h' :: 'p' :: w), 'p' :: 'h' :: 'p' :: w⟩]

/-- The literal open tag stands in open tags, strings, attributes and block comments only. -/
structure TagsInPlace (shapes : List Shape) : Prop where
  held : ∀ x ∈ shapes, x.isStray = false
  unspelled : ∀ A B w, shapes ≠ A ++ spelledTag w ++ B

theorem TagsInPlace.tail {x : Shape} {shapes : List Shape} (h : TagsInPlace (x :: shapes)) :
    TagsInPlace shapes where
  held y hy := h.held y (List.mem_cons_of_mem _ hy)
  unspelled A B w heq := h.unspelled (x :: A) B w (by rw [heq]; rfl)

theorem Cuts.spells {t : Text} {shapes : List Shape}
    (h : Cuts .code ('?' :: 'p' :: 'h' :: 'p' :: t) shapes) :
    ∃ w B, ⟨.punct, ['<']⟩ :: shapes = spelledTag w ++ B := by
  obtain ⟨v, r, rfl, -, hv, hr⟩ := takeWhile_split isWordChar t
  have hquestion : CodeForm .punct ['?'] ('p' :: 'h' :: 'p' :: (v ++ r)) := .single (.question (by simp))
  have hword : CodeForm (wordKind ('p' :: 'h' :: 'p' :: v)) ('p' :: 'h' :: 'p' :: v) r := by
    refine .word rfl ?_ hr
    simp only [isIdentifier, List.all_cons, Bool.and_eq_true, List.all_eq_true]
    exact ⟨rfl, rfl, rfl, hv⟩
  obtain ⟨A, rfl, hA⟩ := Cuts.exists_rest (w := ['?']) h hquestion
  obtain ⟨B, rfl, -⟩ := Cuts.exists_rest (w := 'p' :: 'h' :: 'p' :: v) hA hword
  exact ⟨v, B, rfl⟩

theorem isSome_openTagLength?_take (s : Text) :
    (openTagLength? (s.take 6)).isSome = (openTagLength? s).isSome := by
  by_cases hs : ∃ after, s = '<' :: '?' :: after
  · obtain ⟨after, rfl⟩ := hs
    have htake : ('<' :: '?' :: after).take 6 = '<' :: '?' :: after.take 4 := rfl
    rw [htake]
    by_cases hphp : ∃ w r, after = w ++ r ∧ w.map Char.toLower = "php".toList
    · obtain ⟨w, r, rfl, hw⟩ := hphp
      have hlen : w.length = 3 := by simpa using congrArg List.length hw
      have hr : (w ++ r).take 4 = w ++ r.take 1 := by
        rw [List.take_append, hlen, List.take_of_length_le (by omega)]
      rw [hr, openTagLength?_php hw, openTagLength?_php hw, isSome_phpTagLength?, isSome_phpTagLength?]
      cases r <;> rfl
    · have hphp' : ∀ w r, after.take 4 = w ++ r → w.map Char.toLower ≠ "php".toList := by
        intro w r hwr hw
        refine hphp ⟨w, r ++ after.drop 4, ?_, hw⟩
        rw [← List.append_assoc, ← hwr, List.take_append_drop]
      have hxml : startsWith "xml".toList (after.take 4) = startsWith "xml".toList after := by
        rw [Bool.eq_iff_iff, startsWith_iff, startsWith_iff]
        constructor
        · rintro ⟨t, ht⟩
          refine ⟨t ++ after.drop 4, ?_⟩
          rw [← List.append_assoc, ← ht, List.take_append_drop]
        · rintro ⟨t, rfl⟩
          exact ⟨t.take 1, rfl⟩
      have hecho : (after.take 4).head? = after.head? := by cases after <;> rfl
      rw [openTagLength?_short hphp', openTagLength?_short fun w r hwr hw => hphp ⟨w, r, hwr, hw⟩,
        hxml, hecho]
  · rw [openTagLength?_eq_none (s := s) fun after h => hs ⟨after, h⟩, openTagLength?_eq_none]
    intro after h
    refine hs ⟨after ++ s.drop 6, ?_⟩
    rw [← List.cons_append, ← List.cons_append, ← h, List.take_append_drop]

theorem htmlLength_congr {w r r' : Text} (h : htmlLength (w ++ r) = w.length)
    (htake : r'.take 5 = r.take 5) (htag : r' = [] ∨ (openTagLength? r').isSome = true) :
    htmlLength (w ++ r') = w.length := by
  induction w with
  | nil =>
    rcases htag with rfl | htag
    · rfl
    · cases r' with
      | nil => rfl
      | cons c r' => rw [List.nil_append, htmlLength, if_pos htag, List.length_nil]
  | cons c w ih =>
    have hsix : (c :: (w ++ r')).take 6 = (c :: (w ++ r)).take 6 := by
      simp only [List.take_succ_cons, List.take_append, List.cons.injEq, true_and]
      have := congrArg (List.take (5 - w.length)) htake
      rw [List.take_take, List.take_take, Nat.min_eq_left (by omega)] at this
      rw [this]
    rw [List.cons_append, htmlLength] at h ⊢
    rw [← isSome_openTagLength?_take, hsix, isSome_openTagLength?_take]
    split at h
    · cases h
    · rw [if_neg (by assumption), ih (Nat.succ.inj h), List.length_cons]

theorem isSome_openTagLength?_headed {r text : Text} (htext : text.head? = some '\n')
    (h : (openTagLength? r).isSome = true) : (openTagLength? (headed text r)).isSome = true := by
  obtain ⟨n, hn⟩ := Option.isSome_iff_exists.1 h
  obtain ⟨v, t, rfl, hopen, -⟩ := openTagLength?_eq_some_iff.1 hn
  rw [headed_append (HtmlForm.tag hopen).not_straddles]
  cases hentry : startsWith Layout.openTag v with
  | false =>
    obtain ⟨hv, hopen'⟩ := openTag_headed text hopen hentry
    rw [hv, openTagLength?_eq_some_iff.2 ⟨v, _, rfl, hopen', rfl⟩]
    rfl
  | true =>
    obtain ⟨space, -, hv⟩ := entry_headed text hopen hentry
    obtain ⟨body, rfl⟩ : ∃ body, text = '\n' :: body := by
      cases text with
      | nil => cases htext
      | cons c body => exact ⟨body, by rw [Option.some.inj htext]⟩
    rw [hv]
    rfl

theorem Cuts.exists_headed {mode : Mode} {s text : Text} {A shapes : List Shape} (h : Cuts mode s A)
    (htext : Header text shapes) (hA : TagsInPlace A) :
    ∃ B, Cuts mode (headed text s) B ∧ Expands (Respaces shapes (headed text)) A B := by
  induction h with
  | nil mode => exact ⟨[], by rw [headed_nil]; exact .nil mode, .nil⟩
  | @cons mode kind w r A hform rest ih =>
    obtain ⟨B, hB, hAB⟩ := ih hA.tail
    have hstray : Shape.isStray ⟨kind, w⟩ = false := hA.held _ List.mem_cons_self
    cases mode with
    | html =>
      have hhtml : HtmlForm kind w r := hform
      rw [headed_append hhtml.not_straddles]
      cases hhtml with
      | tag htag =>
        cases hentry : startsWith Layout.openTag w with
        | false =>
          obtain ⟨hw, htag'⟩ := openTag_headed text htag hentry
          have hstay : Shape.isEntry ⟨.openTag, w⟩ = false := hentry
          have hx := @Respaces.tag shapes (headed text) .openTag w w [] rfl rfl (by simp)
          rw [hstay] at hx
          rw [hw]
          exact ⟨_, .ofHtml (HtmlForm.tag htag') hB, .one hx hAB⟩
        | true =>
          obtain ⟨space, hspace, hw⟩ := entry_headed text htag hentry
          obtain ⟨gap, B', hB', hgap, hAB'⟩ := hB.spaces hspace hAB
          obtain ⟨body, rfl, hcuts⟩ := htext.cuts
          have hstay : Shape.isEntry ⟨.openTag, w⟩ = true := hentry
          have hx := @Respaces.tag shapes (headed ('\n' :: body)) .openTag w (Layout.openTag ++ ['\n']) gap rfl
            (by rw [hstay]; rfl) hgap
          rw [hstay, if_pos rfl] at hx
          refine ⟨_, ?_, .cons hx hAB'⟩
          have htag' : OpenTag (Layout.openTag ++ ['\n']) (body ++ (space ++ headed ('\n' :: body) r)) :=
            .php rfl (.space rfl fun h => by cases h)
          have := Cuts.ofHtml (HtmlForm.tag htag') (hcuts _ _ hB')
          rw [hw]
          simpa using this
      | text hne hlen =>
        have hw : headed text w = w := headed_of_not_contains (by simpa [Shape.isStray, Shape.isLined] using hstray)
        have hnewline : text.head? = some '\n' := by
          obtain ⟨body, rfl, -⟩ := htext.cuts
          rfl
        have hnext : headed text r = [] ∨ (openTagLength? (headed text r)).isSome = true := by
          refine (isSome_openTagLength?_of_htmlLength hlen).imp ?_ (isSome_openTagLength?_headed hnewline)
          rintro rfl
          exact headed_nil
        have hform' : HtmlForm .inlineHtml w (headed text r) :=
          .text hne (htmlLength_congr hlen (take_headed 5 (by decide) r) hnext)
        rw [hw]
        exact ⟨_, .ofHtml hform' hB, .one (.loose rfl id fun h => by cases h) hAB⟩
    | code =>
      have hcode : CodeForm kind w r := hform
      have hsplit : ¬ Straddles Layout.openTag w r := by
        refine hcode.not_straddles ?_
        rintro rfl t rfl
        obtain ⟨rfl, -, -⟩ := @Mode.Form.unique .code _ _ _ ['<'] _ _ hcode
          (CodeForm.single (.less fun t h => by cases h)) rfl
        obtain ⟨v, B, hspelled⟩ := Cuts.spells rest
        exact hA.unspelled [] B v hspelled
      rw [headed_append hsplit]
      by_cases hclose : kind = .closeTag
      · subst hclose
        obtain ⟨u, rfl, hu⟩ := hcode.closeTag_inv
        obtain ⟨hw, htag⟩ := closeTag_headed text hu
        have hx := @Respaces.tag shapes (headed text) .closeTag ('?' :: '>' :: u) ('?' :: '>' :: u) []
          rfl rfl (by simp)
        rw [hw]
        exact ⟨_, .ofCode htag hB, .one hx hAB⟩
      · obtain ⟨hform', hx⟩ := hcode.form_headed htext hclose hstray
        exact ⟨_, .ofCode hform' hB, .one hx hAB⟩

end Namespacing
