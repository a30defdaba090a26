import Namespacing.Proofs.Outline.Veils
import Namespacing.Proofs.Token.Ending
import Namespacing.Proofs.Token.Lossless
set_option autoImplicit false

namespace Namespacing

open Lexeme

def Text.IsAscii (s : Text) : Prop :=
  ∀ c ∈ s, c.toNat < 128

instance (s : Text) : Decidable s.IsAscii :=
  inferInstanceAs (Decidable (∀ c ∈ s, c.toNat < 128))

namespace Text

theorem isAscii_append {s t : Text} : IsAscii (s ++ t) ↔ IsAscii s ∧ IsAscii t :=
  List.forall_mem_append

theorem isAscii_cons {c : Char} {s : Text} : IsAscii (c :: s) ↔ c.toNat < 128 ∧ IsAscii s :=
  List.forall_mem_cons

theorem IsAscii.of_identifier {s : Text} (h : isIdentifier s = true) : IsAscii s := by
  cases s with
  | nil => cases h
  | cons c s =>
    simp only [isIdentifier, Bool.and_eq_true, List.all_eq_true] at h
    exact isAscii_cons.2 ⟨toNat_lt_of_isWordChar (isWordChar_of_isWordStart h.1),
      fun d hd => toNat_lt_of_isWordChar (h.2 d hd)⟩

theorem octets_nil : octets [] = [] := rfl

theorem octets_append (s t : Text) : octets (s ++ t) = octets s ++ octets t := by
  simp only [octets_eq_flatMap, List.flatMap_append]

theorem octets_cons (c : Char) (s : Text) : octets (c :: s) = octetsOf c ++ octets s :=
  octets_append [c] s |>.trans (by rw [octets_eq_flatMap [c], List.flatMap_singleton])

theorem octets_of_isAscii {s : Text} (h : IsAscii s) : octets s = s := by
  induction s with
  | nil => rfl
  | cons c s ih =>
    obtain ⟨hc, hs⟩ := isAscii_cons.1 h
    rw [octets_cons, octetsOf_of_ascii hc, ih hs, List.singleton_append]

theorem octets_eq_append_iff {w s t : Text} (hw : IsAscii w) :
    octets s = w ++ t ↔ ∃ r, s = w ++ r ∧ t = octets r := by
  constructor
  · intro h
    induction w generalizing s with
    | nil => exact ⟨s, rfl, h.symm⟩
    | cons a w ih =>
      obtain ⟨ha, hw⟩ := isAscii_cons.1 hw
      have hhead : s.head? = some a := by
        rw [← spreads_octetsOf.head?_eq_some_iff ha, ← octets_eq_flatMap, h]
        rfl
      obtain ⟨s, rfl⟩ := List.head?_eq_some_iff.1 hhead
      rw [octets_cons, octetsOf_of_ascii ha] at h
      obtain ⟨r, rfl, ht⟩ := ih hw (List.cons.inj h).2
      exact ⟨r, rfl, ht⟩
  · rintro ⟨r, rfl, rfl⟩
    rw [octets_append, octets_of_isAscii hw]

end Text

open Text

theorem OpenTag.read_octets {w r : Text} (h : OpenTag w r) : w.octets = w ∧ OpenTag w r.octets := by
  have hself : w.octets = w := by
    rw [octets_eq_flatMap]
    exact spreads_octetsOf.flatMap_openTag (octetsOf_of_ascii (by decide)) h
  refine ⟨hself, ?_⟩
  have hlen := openTagLength?_eq_some_iff.2 ⟨w, r, rfl, h, rfl⟩
  rw [← spreads_octetsOf.openTagLength?_eq, ← octets_eq_flatMap, octets_append, hself] at hlen
  obtain ⟨w', r', heq, htag, hwlen⟩ := openTagLength?_eq_some_iff.1 hlen
  obtain ⟨rfl, rfl⟩ := List.append_inj heq hwlen
  exact htag

theorem HtmlForm.read_octets {kind : TokenKind} {w r : Text} (h : HtmlForm kind w r) :
    HtmlForm kind w.octets r.octets := by
  cases h with
  | tag htag =>
    rw [htag.read_octets.1]
    exact .tag htag.read_octets.2
  | text hne hlen =>
    refine .text ?_ ?_
    · intro hnil
      rw [octets_eq_flatMap] at hnil
      obtain ⟨c, u, rfl⟩ := List.exists_cons_of_ne_nil hne
      obtain ⟨d, ds, hd, -⟩ := spreads_octetsOf.exists_cons c
      simp [hd] at hnil
    · rw [← octets_append, octets_eq_flatMap, spreads_octetsOf.htmlLength_eq, hlen, List.take_left,
        ← octets_eq_flatMap]

theorem CodeForm.read_octets {kind : TokenKind} {c : Char} {u r : Text} (h : CodeForm kind (c :: u) r)
    (hc : c.toNat < 128) : CodeForm kind (octets (c :: u)) r.octets := by
  obtain ⟨d, v, hdv, hl⟩ := h.lexeme_eq
  obtain ⟨rfl, rfl⟩ := List.cons.inj hdv
  have hlexeme := @Mode.lexeme_octets .code c (u ++ r) _ hc hl
  obtain ⟨w', r', heq, hlen, hform⟩ := Mode.form_of_lexeme hlexeme
  have htake : (c :: (u ++ r)).take (c :: u).length = c :: u := @List.take_left _ (c :: u) r
  have htext : octets (c :: u) ++ r.octets = w' ++ r' := by
    rw [← octets_append, List.cons_append, octets_cons, octetsOf_of_ascii hc, List.singleton_append, heq]
  simp only [htake, ← length_flatMap_octetsOf, ← octets_eq_flatMap] at hlen
  obtain ⟨rfl, rfl⟩ := List.append_inj htext hlen.symm
  exact hform

theorem isMark_of_wide {c : Char} (hc : 128 ≤ c.toNat) : isMark c = true := by
  have hne : c ∉ ['#', '/', '\'', '"', '\x60', '<', '$', '?'] := by
    intro hmem
    have hascii : ∀ d ∈ ['#', '/', '\'', '"', '\x60', '<', '$', '?'], d.toNat < 128 := by decide
    exact absurd (hascii c hmem) (by omega)
  simpa [isMark, isSpace_of_wide hc, isWordChar_of_wide hc] using hne

theorem CodeForm.wide_inv {kind : TokenKind} {c : Char} {u r : Text} (h : CodeForm kind (c :: u) r)
    (hc : 128 ≤ c.toNat) : kind = .punct ∧ u = [] := by
  have hmark : Mode.code.Form .punct [c] (u ++ r) := CodeForm.single (.mark (isMark_of_wide hc))
  obtain ⟨hkind, hu, -⟩ := @Mode.Form.unique .code _ _ _ _ _ _ h hmark rfl
  exact ⟨hkind, (List.cons.inj hu).2⟩

def markShapes (marks : Text) : List Shape :=
  marks.map fun c => ⟨.punct, [c]⟩

theorem Cuts.ofMarks {marks t : Text} {B : List Shape} (hmarks : ∀ c ∈ marks, isMark c = true)
    (h : Cuts .code t B) : Cuts .code (marks ++ t) (markShapes marks ++ B) := by
  induction marks with
  | nil => exact h
  | cons c marks ih =>
    refine .ofCode (w := [c]) (.single (.mark (hmarks c List.mem_cons_self))) ?_
    exact ih fun d hd => hmarks d (List.mem_cons_of_mem _ hd)

theorem Cuts.exists_of_marks {marks t : Text} {B : List Shape} (hmarks : ∀ c ∈ marks, isMark c = true)
    (h : Cuts .code (marks ++ t) B) : ∃ B', Cuts .code t B' := by
  induction marks generalizing B with
  | nil => exact ⟨B, h⟩
  | cons c marks ih =>
    have hform : Mode.code.Form .punct [c] (marks ++ t) :=
      CodeForm.single (.mark (hmarks c List.mem_cons_self))
    obtain ⟨rest, -, hrest⟩ := Cuts.exists_rest (w := [c]) h hform
    exact ih (fun d hd => hmarks d (List.mem_cons_of_mem _ hd)) hrest

theorem isMark_octetsOf {c : Char} (hc : 128 ≤ c.toNat) : ∀ d ∈ octetsOf c, isMark d = true :=
  fun d hd => isMark_of_wide ((spreads_octetsOf.wide c hc).2 d hd)

/-- The octets of a character outside ASCII end a declaration, as it does. -/
theorem veils_markShapes {c : Char} (hc : 128 ≤ c.toNat) : Veils ⟨.punct, [c]⟩ (markShapes (octetsOf c)) := by
  have hinert : ∀ d : Char, 128 ≤ d.toNat → Shape.isInert ⟨.punct, [d]⟩ = true := by
    intro d hd
    have hne : d ≠ '&' ∧ d ≠ '\x7b' ∧ d ≠ '\x7d' :=
      ⟨ne_of_wide hd (by decide), ne_of_wide hd (by decide), ne_of_wide hd (by decide)⟩
    simpa [Shape.isInert] using hne
  obtain ⟨hne, hwide⟩ := spreads_octetsOf.wide c hc
  obtain ⟨d, ds, hd⟩ := List.exists_cons_of_ne_nil hne
  rw [hd] at hwide ⊢
  refine .inert (hinert c hc) fun z hz => ?_
  obtain ⟨e, he, rfl⟩ : ∃ e ∈ d :: ds, ⟨.punct, [e]⟩ = z := List.mem_map.1 hz
  exact hinert e (hwide e he)

theorem isAscii_of_isSpace {w : Text} (h : ∀ c ∈ w, isSpace c = true) : IsAscii w := by
  intro c hc
  by_contra hwide
  have := h c hc
  rw [isSpace_of_wide (by omega)] at this
  cases this

theorem isRemark_blockKind (u : Text) : (blockKind u).isRemark = true := by
  unfold blockKind
  split <;> rfl

theorem CodeForm.veils_octets {kind : TokenKind} {c : Char} {u r : Text} (h : CodeForm kind (c :: u) r)
    (hc : c.toNat < 128) : Veils ⟨kind, c :: u⟩ [⟨kind, octets (c :: u)⟩] := by
  have hsame : ∀ {kind : TokenKind} {w : Text}, IsAscii w → Veils ⟨kind, w⟩ [⟨kind, octets w⟩] := by
    intro kind w hw
    rw [octets_of_isAscii hw]
    exact .same _
  cases h with
  | space _ hw => exact hsame (isAscii_of_isSpace hw)
  | hashBracket => exact .remark rfl rfl
  | hash => exact .remark rfl rfl
  | slashes => exact .remark rfl rfl
  | block hkind => exact .remark (hkind ▸ isRemark_blockKind _) (hkind ▸ isRemark_blockKind _)
  | quote => exact .inert rfl (by simp [Shape.isInert])
  | heredoc => exact .inert rfl (by simp [Shape.isInert])
  | dollarWord => exact .inert rfl (by simp [Shape.isInert])
  | number => exact .inert rfl (by simp [Shape.isInert])
  | word _ hw => exact hsame (.of_identifier hw)
  | closeTag => exact .inert rfl (by simp [Shape.isInert])
  | single => exact hsame (isAscii_cons.2 ⟨hc, by simp [IsAscii]⟩)

theorem HtmlForm.veils_octets {kind : TokenKind} {w r : Text} (h : HtmlForm kind w r) (w' : Text) :
    Veils ⟨kind, w⟩ [⟨kind, w'⟩] := by
  cases h with
  | tag => exact .inert rfl (by simp [Shape.isInert])
  | text => exact .inert rfl (by simp [Shape.isInert])

/-- What the octets of a token become, whatever follows. -/
theorem Mode.Form.exists_octets {mode : Mode} {kind : TokenKind} {w r : Text} (h : mode.Form kind w r) :
    ∃ ys, Veils ⟨kind, w⟩ ys ∧
      (∀ {B}, Cuts (mode.after kind) r.octets B → Cuts mode (w ++ r).octets (ys ++ B)) ∧
      ∀ {B}, Cuts mode (w ++ r).octets B → ∃ B', Cuts (mode.after kind) r.octets B' := by
  -- A token that stays one is the first lexeme of the octets.
  have hone : ∀ {w' : Text}, w.octets = w' → mode.Form kind w' r.octets → Veils ⟨kind, w⟩ [⟨kind, w'⟩] →
      ∃ ys, Veils ⟨kind, w⟩ ys ∧
        (∀ {B}, Cuts (mode.after kind) r.octets B → Cuts mode (w ++ r).octets (ys ++ B)) ∧
        ∀ {B}, Cuts mode (w ++ r).octets B → ∃ B', Cuts (mode.after kind) r.octets B' := by
    rintro w' rfl hform hveils
    refine ⟨_, hveils, fun hB => ?_, fun hB => ?_⟩
    · rw [octets_append]
      exact .cons hform hB
    · rw [octets_append] at hB
      obtain ⟨rest, -, hrest⟩ := hB.exists_rest hform
      exact ⟨rest, hrest⟩
  cases mode with
  | html =>
    have h : HtmlForm kind w r := h
    exact hone rfl h.read_octets (h.veils_octets _)
  | code =>
    have hcode : CodeForm kind w r := h
    obtain ⟨c, u, rfl⟩ := List.exists_cons_of_ne_nil h.ne_nil
    by_cases hc : c.toNat < 128
    · exact hone rfl (hcode.read_octets hc) (hcode.veils_octets hc)
    · have hwide : 128 ≤ c.toNat := Nat.le_of_not_lt hc
      obtain ⟨rfl, rfl⟩ := hcode.wide_inv hwide
      have hsplit : octets ([c] ++ r) = octetsOf c ++ r.octets := octets_cons c r
      refine ⟨_, veils_markShapes hwide, fun hB => ?_, fun hB => ?_⟩
      · rw [hsplit]
        exact .ofMarks (isMark_octetsOf hwide) hB
      · rw [hsplit] at hB
        exact hB.exists_of_marks (isMark_octetsOf hwide)

theorem Cuts.exists_octets {mode : Mode} {s : Text} {A : List Shape} (h : Cuts mode s A) :
    ∃ B, Cuts mode s.octets B ∧ Expands Veils A B := by
  induction h with
  | nil mode => exact ⟨[], .nil mode, .nil⟩
  | @cons mode kind w r A hform rest ih =>
    obtain ⟨B, hB, hAB⟩ := ih
    obtain ⟨ys, hys, hcut, -⟩ := hform.exists_octets
    exact ⟨ys ++ B, hcut hB, .cons hys hAB⟩

theorem Mode.lexeme_octets_error {mode : Mode} {c : Char} {s : Text} {opener : Opener}
    (h : mode.lexeme c s = .error opener) : c.toNat < 128 ∧ mode.lexeme c s.octets = .error opener := by
  cases mode with
  | html => cases h
  | code =>
    have h : codeLexeme c s = .error opener := h
    have hc : c.toNat < 128 := by
      by_contra hwide
      rw [codeLexeme_mark (isMark_of_wide (by omega))] at h
      cases h
    refine ⟨hc, ?_⟩
    have hn : octetsOf '\n' = ['\n'] := octetsOf_of_ascii (by decide)
    change codeLexeme c s.octets = .error opener
    rw [octets_eq_flatMap, spreads_octetsOf.codeLexeme_eq (octetsOf_of_ascii hc) fun _ _ => hn, h]
    rfl

theorem Cuts.exists_of_octets {mode : Mode} {s : Text} {B : List Shape} (h : Cuts mode s.octets B) :
    ∃ A, Cuts mode s A := by
  induction hn : s.length using Nat.strongRecOn generalizing mode s B with
  | _ n ih =>
    subst hn
    cases s with
    | nil => exact ⟨[], .nil mode⟩
    | cons c s =>
      cases hl : mode.lexeme c s with
      | error opener =>
        obtain ⟨hc, herror⟩ := Mode.lexeme_octets_error hl
        rw [octets_cons, octetsOf_of_ascii hc, List.singleton_append] at h
        generalize ht : c :: octets s = t at h
        cases h with
        | nil => cases ht
        | cons hform =>
          obtain ⟨d, u, rfl, hok⟩ := hform.lexeme_eq
          obtain ⟨rfl, hs⟩ := List.cons.inj ht
          rw [hs] at herror
          cases herror.symm.trans hok
      | ok l =>
        obtain ⟨w, r, hs, -, hform⟩ := Mode.form_of_lexeme hl
        rw [hs] at h ⊢
        obtain ⟨ys, -, -, hrest⟩ := hform.exists_octets
        obtain ⟨B', hB'⟩ := hrest h
        have hlt : r.length < (c :: s).length := by
          have := List.length_pos_iff.2 hform.ne_nil
          rw [hs, List.length_append]
          omega
        obtain ⟨A, hA⟩ := ih _ hlt hB' rfl
        exact ⟨_, .cons hform hA⟩

end Namespacing
