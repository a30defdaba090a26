import Namespacing.Proofs.Token.Renaming
set_option autoImplicit false

namespace Namespacing

open Lexeme Text

section

variable {declares : Prop} {ns : Namespace} {symbols : List Symbols} {tail : Text} {framed : Bool}

def backslash : Shape :=
  ⟨.punct, ['\\']⟩

def colon : Shape :=
  ⟨.punct, [':']⟩

/-- A qualifier and its tokens. -/
inductive QualifierShapes : Text → List Shape → Prop where
  | global : QualifierShapes ['\\'] [backslash]
  | root {v : Text} {A : List Shape} (h : QualifiedName v A) :
      QualifierShapes ('\\' :: (v ++ ['\\'])) (backslash :: (A ++ [backslash]))
  | container {v : Text} {A : List Shape} (h : QualifiedName v A) :
      QualifierShapes ('\\' :: (v ++ [':', ':'])) (backslash :: (A ++ [colon, colon]))

theorem exists_qualifierShapes (hns : ns.Accepted) (hsymbols : Symbols.Worded symbols) {σ : Symbols}
    (hσ : σ ∈ symbols) : ∃ Z, QualifierShapes (σ.qualifier ns) Z := by
  obtain ⟨A, hA⟩ := exists_qualifiedName_root hns.root
  cases σ with
  | globals => exact ⟨_, .global⟩
  | classLike => exact ⟨_, .root hA⟩
  | functions container names =>
    have hname := (hA.snoc hns.segment).snoc (hsymbols.container _ _ hσ)
    have hz : Symbols.qualifier ns (.functions container names) =
        '\\' :: ((ns.root ++ '\\' :: ns.functionsSegment) ++ '\\' :: container ++ [':', ':']) := rfl
    rw [hz]
    exact ⟨_, .container hname⟩

namespace QualifierShapes

variable {z t : Text} {Z B : List Shape}

theorem cuts (h : QualifierShapes z Z) (rest : Cuts .code t B) : Cuts .code (z ++ t) (Z ++ B) := by
  cases h with
  | global => exact Cuts.mark rfl rest
  | root h =>
    have hname := Cuts.mark (c := '\\') rfl (h.cuts rfl (Cuts.mark (c := '\\') rfl rest))
    simpa [backslash] using hname
  | container h =>
    have hcolons := Cuts.mark (c := ':') rfl (Cuts.mark (c := ':') rfl rest)
    have hname := Cuts.mark (c := '\\') rfl (h.cuts rfl hcolons)
    simpa [backslash, colon] using hname

theorem text_eq (h : QualifierShapes z Z) : Z.flatMap Shape.text = z := by
  have hcuts := (h.cuts (.nil .code)).text_eq
  rwa [List.append_nil, List.append_nil] at hcuts

theorem exists_cons (h : QualifierShapes z Z) : ∃ Y, Z = backslash :: Y := by
  cases h <;> exact ⟨_, rfl⟩

theorem head_text (h : QualifierShapes z Z) : ∃ y, z = '\\' :: y := by
  cases h <;> exact ⟨_, rfl⟩

theorem mem_shapes (h : QualifierShapes z Z) {x : Shape} (hx : x ∈ Z) :
    x = backslash ∨ x = colon ∨ ∃ w, isIdentifier w = true ∧ x = ⟨wordKind w, w⟩ := by
  cases h with
  | global => exact Or.inl (List.mem_singleton.1 hx)
  | root h =>
    simp only [List.mem_cons, List.mem_append, List.not_mem_nil, or_false] at hx
    rcases hx with rfl | hx | rfl
    · exact Or.inl rfl
    · exact (h.mem_shapes hx).imp_right Or.inr
    · exact Or.inl rfl
  | container h =>
    simp only [List.mem_cons, List.mem_append, List.not_mem_nil, or_false] at hx
    rcases hx with rfl | hx | rfl | rfl
    · exact Or.inl rfl
    · exact (h.mem_shapes hx).imp_right Or.inr
    · exact Or.inr (Or.inl rfl)
    · exact Or.inr (Or.inl rfl)

end QualifierShapes

def staticShapes : Nat → List Shape
  | 0 => []
  | k + 1 => ⟨.identifier, staticWord⟩ :: ⟨.whitespace, [' ']⟩ :: staticShapes k

def functionShape : Shape :=
  ⟨.keyword .functionKw, functionWord⟩

theorem cuts_statics {t : Text} {B : List Shape} (ht : t.head?.any isSpace = false) (rest : Cuts .code t B)
    (k : Nat) : Cuts .code (statics k ++ t) (staticShapes k ++ B) := by
  induction k with
  | zero => exact rest
  | succ k ih =>
    have hhead : (statics k ++ t).head?.any isSpace = false := by
      cases k with
      | zero => exact ht
      | succ k => rfl
    have hblank := Cuts.space (p := [' ']) (by simp) (by decide) hhead ih
    have hword := Cuts.word (w := staticWord) (by decide) rfl hblank
    have hkind : wordKind staticWord = .identifier := by decide
    rw [hkind] at hword
    rw [statics, List.append_assoc]
    exact hword

/-- A word that ends in the word that declares a function, with a function of the library behind it. -/
structure Shape.Declares (symbols : List Symbols) (x : Shape) (r : Text) : Prop where
  solid : x.kind.isLoose = false
  word : functionWord <:+ x.text
  behind : DeclaresFunction symbols r

/-- What a table makes of a token. The word that makes a method static comes in only if `declares` holds. -/
inductive RenamesIf (declares : Prop) (ns : Namespace) (symbols : List Symbols) : Shape → List Shape → Prop where
  | keep (x : Shape) : RenamesIf declares ns symbols x [x]
  | loose {kind : TokenKind} {w w' : Text} (hkind : kind.isLoose = true) (hspace : kind ≠ .whitespace)
      (hstray : Shape.isStray ⟨kind, w'⟩ = true → Shape.isStray ⟨kind, w⟩ = true) :
      RenamesIf declares ns symbols ⟨kind, w⟩ [⟨kind, w'⟩]
  | name {σ : Symbols} {n : Text} {Z : List Shape} (hσ : σ ∈ symbols) (hn : n ∈ σ.names)
      (hZ : QualifierShapes (σ.qualifier ns) Z) :
      RenamesIf declares ns symbols ⟨.identifier, n⟩ (Z ++ [⟨.identifier, n⟩])
  | number {σ : Symbols} {x n : Text} {Z : List Shape} (hσ : σ ∈ symbols) (hn : n ∈ σ.names)
      (hZ : QualifierShapes (σ.qualifier ns) Z) :
      RenamesIf declares ns symbols ⟨.number, x ++ n⟩ (⟨.number, x⟩ :: (Z ++ [⟨.identifier, n⟩]))
  | static (hdeclares : declares) (k : Nat) :
      RenamesIf declares ns symbols functionShape (staticShapes (k + 1) ++ [functionShape])
  | split {kind : TokenKind} {x : Text} (hdeclares : declares) (hx : x ≠ [])
      (hkind : kind ∈ [.identifier, .variable, .number]) (k : Nat) :
      RenamesIf declares ns symbols ⟨kind, x ++ functionWord⟩
        (⟨kind, x ++ staticWord⟩ :: ⟨.whitespace, [' ']⟩ :: (staticShapes k ++ [functionShape]))

abbrev Renames (ns : Namespace) (symbols : List Symbols) : Shape → List Shape → Prop :=
  RenamesIf (∃ c names, .functions c names ∈ symbols) ns symbols

theorem RenamesIf.eq_self {x : Shape} {ys : List Shape} (h : RenamesIf declares ns symbols x ys)
    (hkind : x.kind = .whitespace ∨ ∃ k, x.kind = .keyword k ∧ k ≠ .functionKw) : ys = [x] := by
  cases h with
  | keep => rfl
  | loose hloose hspace =>
    rcases hkind with h | ⟨k, h, -⟩
    · exact absurd h hspace
    · obtain rfl := h
      cases hloose
  | name => rcases hkind with h | ⟨k, h, -⟩ <;> cases h
  | number => rcases hkind with h | ⟨k, h, -⟩ <;> cases h
  | static =>
    rcases hkind with h | ⟨k, h, hne⟩
    · cases h
    · exact absurd (TokenKind.keyword.inj h).symm hne
  | split _ _ hmem =>
    simp only [List.mem_cons, List.not_mem_nil, or_false] at hmem
    rcases hmem with rfl | rfl | rfl <;> rcases hkind with h | ⟨k, h, -⟩ <;> cases h

theorem wordKind_of_keyword_none {w : Text} (h : Keyword.ofWord? w = none) : wordKind w = .identifier := by
  rw [wordKind, h]

/-- A word that ends in the end of a keyword only if it is the keyword itself. -/
theorem wordKind_append {x y : Text} (hx : x ≠ [])
    (hy : ∀ k : Keyword, y.map Char.toLower <:+ k.spelling → k.spelling.length = y.length) :
    wordKind (x ++ y) = .identifier := by
  refine wordKind_of_keyword_none (List.find?_eq_none.2 fun k _ heq => ?_)
  rw [beq_iff_eq, List.map_append] at heq
  have hlen := hy k ⟨_, heq.symm⟩
  have := congrArg List.length heq
  rw [List.length_append, List.length_map, List.length_map, hlen] at this
  exact hx (List.eq_nil_of_length_eq_zero (by omega))

theorem wordKind_append_function {x : Text} (hx : x ≠ []) : wordKind (x ++ functionWord) = .identifier := by
  refine wordKind_append hx fun k => ?_
  cases k <;> decide

theorem wordKind_append_static {x : Text} (hx : x ≠ []) : wordKind (x ++ staticWord) = .identifier := by
  refine wordKind_append hx fun k => ?_
  cases k <;> decide

theorem isIdentifier_append {x y y' : Text} (h : isIdentifier (x ++ y) = true) (hy : isIdentifier y' = true) :
    isIdentifier (x ++ y') = true := by
  cases x with
  | nil => exact hy
  | cons c x =>
    simp only [List.cons_append, isIdentifier, Bool.and_eq_true, List.all_eq_true] at h ⊢
    refine ⟨h.1, fun d hd => ?_⟩
    rcases List.mem_append.1 hd with hd | hd
    · exact h.2 d (List.mem_append_left _ hd)
    · exact isWordChar_of_mem hy hd

theorem isWordStart_of_isSpace {c : Char} (h : Lexeme.isSpace c = true) : isWordStart c = false := by
  simp only [Lexeme.isSpace, Lexeme.isBlank, Bool.or_eq_true, beq_iff_eq] at h
  rcases h with ((rfl | rfl) | rfl) | rfl <;> rfl

namespace Inserts

theorem exists_of_prefix {t u v : Text} (hu : ∀ c ∈ u, c ≠ 's' ∧ c ≠ '\\')
    (h : Inserts ns symbols tail framed t (u ++ v)) :
    ∃ t', t = u ++ t' ∧ Inserts ns symbols tail (framedBehind framed u) t' v := by
  induction u generalizing framed t with
  | nil => exact ⟨t, rfl, h⟩
  | cons c u ih =>
    have hc := hu c List.mem_cons_self
    obtain ⟨t₁, rfl, h₁⟩ := exists_of_cons hc.1 (fun _ => hc.2) h
    obtain ⟨t₂, rfl, h₂⟩ := ih (fun d hd => hu d (List.mem_cons_of_mem _ hd)) h₁
    exact ⟨t₂, rfl, h₂⟩

theorem exists_of_letters {s t u : Text} (hu : ∀ c ∈ u, c ≠ 'f' ∧ isFrameMark c = false)
    (h : Inserts ns symbols tail false (u ++ s) t) :
    ∃ s', t = u ++ s' ∧ Inserts ns symbols tail false s s' := by
  induction u generalizing t with
  | nil => exact ⟨t, rfl, h⟩
  | cons c u ih =>
    have hc := hu c List.mem_cons_self
    obtain ⟨t₁, rfl, h₁⟩ := exists_of_letter hc.1 h
    rw [hc.2] at h₁
    obtain ⟨t₂, rfl, h₂⟩ := ih (fun d hd => hu d (List.mem_cons_of_mem _ hd)) h₁
    exact ⟨t₂, rfl, h₂⟩

theorem contains_openTag (hns : ns.Accepted) (hsymbols : Symbols.Worded symbols) {s t : Text}
    (h : Inserts ns symbols tail framed s t) (ht : contains Layout.openTag t = true) :
    contains Layout.openTag s = true := by
  obtain ⟨a, b, rfl⟩ := contains_iff.1 ht
  rw [List.append_assoc, openTag_eq] at h
  obtain ⟨t₁, t₂, u₁, z₁, rfl, rfl, -, ⟨-, -, hnil⟩ | ⟨c, t₃, z₂, v₃, rfl, hv, hz, hrest⟩⟩ := h.exists_of_result
  · cases hnil
  · cases z₂ with
    | nil =>
      obtain ⟨rfl, rfl⟩ := List.cons.inj hv
      obtain ⟨t₄, rfl, -⟩ := exists_of_prefix (u := ['?', 'p', 'h', 'p']) (by decide) hrest
      exact contains_iff.2 ⟨t₁, t₄, by simp [openTag_eq]⟩
    | cons d z₂ =>
      obtain ⟨rfl, -⟩ := List.cons.inj hv
      rcases hz with hz | hz
      · simp at hz
      · exact absurd (by simp) (hz.not_mem hns hsymbols (c := '<') (by simp))

/-- A token that holds a stray tag held it before. -/
theorem isStray (hns : ns.Accepted) (hsymbols : Symbols.Worded symbols) {w w' : Text}
    (h : Inserts ns symbols tail framed w w') {kind : TokenKind} (hstray : Shape.isStray ⟨kind, w'⟩ = true) :
    Shape.isStray ⟨kind, w⟩ = true := by
  simp only [Shape.isStray, Bool.and_eq_true] at hstray ⊢
  refine ⟨?_, h.contains_openTag hns hsymbols hstray.2⟩
  have hlined := hstray.1
  simp only [Shape.isLined, Bool.or_eq_true, Bool.and_eq_true, Bool.not_eq_true'] at hlined ⊢
  refine hlined.imp_right (And.imp_right fun hblock => ?_)
  rw [Bool.eq_false_iff] at hblock ⊢
  intro hstart
  obtain ⟨r, rfl⟩ := startsWith_iff.1 hstart
  obtain ⟨w₁, rfl, h₁⟩ := exists_of_not_word hsymbols rfl h
  obtain ⟨w₂, rfl, -⟩ := exists_of_not_word hsymbols rfl h₁
  exact hblock (startsWith_iff.2 ⟨w₂, rfl⟩)

end Inserts

def Shape.label? (x : Shape) : Option Text :=
  if x.kind = .heredoc then some (heredocLabel (x.text.drop 3)) else none

namespace Inserts

theorem not_mem {s t : Text} {c : Char} (hns : ns.Accepted) (hsymbols : Symbols.Worded symbols)
    (hc : c ∈ ['\n', '<', '?']) (hs : c ∉ s) (h : Inserts ns symbols tail framed s t) : c ∉ t := by
  induction h with
  | nil => exact hs
  | @cons framed d s s' z hz rest ih =>
    rw [List.mem_cons, not_or] at hs
    have hz' : c ∉ z := by
      rcases hz with rfl | hz
      · simp
      · exact hz.not_mem hns hsymbols hc
    simp only [List.mem_append, List.mem_cons, not_or]
    exact ⟨hz', hs.1, ih hs.2⟩

theorem eq_self_of_marks (hsymbols : Symbols.Worded symbols) {s t : Text} (hs : IsMarks s)
    (h : Inserts ns symbols tail framed s t) : t = s :=
  h.eq_self hsymbols fun c hc => isWordStart_of_isRunChar_eq_false (hs c hc)

theorem heredocLength?_eq (hns : ns.Accepted) (hsymbols : Symbols.Worded symbols) {u u' r r' : Text}
    (h : Inserts ns symbols r framed u u') (hr : Inserts ns symbols [] (framedBehind framed u) r r')
    (hsteady : SteadyLabel symbols (heredocLabel u)) (hu : heredocLength? (u ++ r) = some u.length) :
    heredocLength? (u' ++ r') = some u'.length := by
  have hstop := (exists_last_of_heredocLength? hu).1
  have halone : heredocLength? (u ++ []) = some u.length := heredocLength?_congr hu rfl
  rw [List.append_nil] at halone
  obtain ⟨blanks, quote, label, line, body, k, hform⟩ := exists_heredocForm halone
  rw [hform.heredocLabel_eq] at hsteady
  obtain rfl : k = body.length := by
    have hlen := congrArg List.length hform.text
    have := hform.length
    simp only [List.length_append, List.length_cons] at hlen
    omega
  have hbody : heredocBodyLength? label true (body ++ r) = some body.length :=
    heredocBodyLength?_congr (r := []) hform.label_ne_nil hform.word (by simpa using hform.closes) hstop
  have hquote : IsMarks quote := by
    rcases hform.quote_cases with rfl | rfl | rfl <;> decide
  -- The pieces of the header are changed one by one.
  have hsplit := hform.text ▸ h
  obtain ⟨b', u₁, rfl, hb, h₁⟩ := hsplit.exists_of_append
  obtain rfl := hb.eq_self_of_marks hsymbols (isMarks_of_isBlank hform.blank)
  obtain ⟨q', u₂, rfl, hq, h₂⟩ := h₁.exists_of_append
  obtain rfl := hq.eq_self_of_marks hsymbols hquote
  obtain ⟨l', u₃, rfl, hl, h₃⟩ := h₂.exists_of_append
  have hbehind : (q' ++ (line ++ '\n' :: body) ++ r).head?.any isWordChar = false := by
    cases hhead : q' ++ line with
    | nil =>
      obtain ⟨rfl, rfl⟩ := List.append_eq_nil_iff.1 hhead
      rfl
    | cons d y =>
      have := hform.stop
      rw [← List.append_assoc, hhead] at *
      exact this
  obtain rfl := hl.label_eq hform.word hsteady hsymbols hbehind
  obtain ⟨q', u₄, rfl, hq', h₄⟩ := h₃.exists_of_append
  obtain rfl := hq'.eq_self_of_marks hsymbols hquote
  obtain ⟨line', u₅, rfl, hline, h₅⟩ := h₄.exists_of_append
  obtain ⟨body', rfl, h₆⟩ := exists_of_not_word hsymbols rfl h₅
  have hstop' : (q' ++ line').head?.any isWordChar = false :=
    (Inserts.append (by rwa [List.append_assoc] at hq') hline).head?_any_isWordChar hsymbols hform.stop
  have hne : body ≠ [] := by
    rintro hnil
    have := hform.closes
    rw [hnil] at this
    cases this
  have hframed : framedBehind framed u = framedBehind (isFrameMark '\n') body := by
    have : u = (b' ++ (q' ++ (l' ++ (q' ++ line))) ++ ['\n']) ++ body := by
      rw [hform.text]
      simp
    rw [this, framedBehind_append]
    exact framedBehind_congr hne
  rw [hframed] at hr
  have hcloses := h₆.heredocBodyLength?_eq hform.label_ne_nil hform.word hsteady hsymbols hns hr hbody
  have htext : b' ++ (q' ++ (l' ++ (q' ++ (line' ++ '\n' :: body')))) ++ r' =
      b' ++ (q' ++ (l' ++ (q' ++ (line' ++ '\n' :: (body' ++ r'))))) := by simp
  have hnewline : '\n' ∉ line' := hline.not_mem hns hsymbols (by simp) hform.newline_not_mem
  refine heredocLength?_of_form ⟨htext, hform.blank, hform.quotes, hform.label_ne_nil, hform.word, hstop',
    hnewline, hcloses, ?_⟩
  simp only [List.length_append, List.length_cons]
  omega

end Inserts

section

variable {t : Text} {B : List Shape} (ht : t.head?.any isWordChar = false) (rest : Cuts .code t B)

include ht rest

theorem Cuts.qualified (hsymbols : Symbols.Worded symbols) {σ : Symbols} {n : Text} {Z : List Shape}
    (hσ : σ ∈ symbols) (hn : n ∈ σ.names) (hZ : QualifierShapes (σ.qualifier ns) Z) :
    Cuts .code (σ.qualifier ns ++ (n ++ t)) (Z ++ ⟨.identifier, n⟩ :: B) := by
  have hword := Cuts.word (hsymbols.identifier σ hσ n hn) ht rest
  rw [wordKind_of_keyword_none (hsymbols.keyword σ hσ n hn)] at hword
  exact hZ.cuts hword

theorem Cuts.declared (k : Nat) :
    Cuts .code (statics k ++ (functionWord ++ t)) (staticShapes k ++ functionShape :: B) := by
  have hword := Cuts.word (w := functionWord) (by decide) ht rest
  have hkind : wordKind functionWord = .keyword .functionKw := by decide
  rw [hkind] at hword
  exact cuts_statics rfl hword k

theorem Cuts.split {kind : TokenKind} {x : Text} (hform : ∀ t, CodeForm kind (x ++ staticWord) (' ' :: t))
    (htag : kind.isTag = false) (k : Nat) :
    Cuts .code (x ++ (statics (k + 1) ++ functionWord) ++ t)
      (⟨kind, x ++ staticWord⟩ :: ⟨.whitespace, [' ']⟩ :: (staticShapes k ++ functionShape :: B)) := by
  have hhead : (statics k ++ (functionWord ++ t)).head?.any isSpace = false := by cases k <;> rfl
  have hblank := Cuts.space (p := [' ']) (by simp) (by decide) hhead (Cuts.declared ht rest k)
  have := Cuts.code_cons (hform _) htag hblank
  simpa [statics] using this

end

/-- A token of code and the tokens that a changed text has in its place. -/
def CodeRenamed (declares : Prop) (ns : Namespace) (symbols : List Symbols) (kind : TokenKind) (w w' r' : Text) :
    Prop :=
  ∃ ys, RenamesIf declares ns symbols ⟨kind, w⟩ ys ∧
    ∀ B, Cuts (Mode.code.after kind) r' B → Cuts .code (w' ++ r') (ys ++ B)

theorem codeRenamed_keep {kind : TokenKind} {w r' : Text} (h : CodeForm kind w r') :
    CodeRenamed declares ns symbols kind w w r' :=
  ⟨_, .keep _, fun _ rest => .ofCode h rest⟩

theorem codeRenamed_loose {kind : TokenKind} {w w' r' : Text} (h : CodeForm kind w' r') (hkind : kind.isLoose = true)
    (hspace : kind ≠ .whitespace) (hstray : Shape.isStray ⟨kind, w'⟩ = true → Shape.isStray ⟨kind, w⟩ = true) :
    CodeRenamed declares ns symbols kind w w' r' :=
  ⟨_, .loose hkind hspace hstray, fun _ rest => .ofCode h rest⟩

section

variable (hns : ns.Accepted) (hsymbols : Symbols.Worded symbols) {w w' r r' : Text}

include hns hsymbols

theorem codeRenamed_word (hw : isIdentifier w = true) (hr : r.head?.any isWordChar = false)
    (hr' : r'.head?.any isWordChar = false) (hdeclares : Shape.Declares symbols ⟨wordKind w, w⟩ r → declares)
    (h : Inserts ns symbols r framed w w') : CodeRenamed declares ns symbols (wordKind w) w w' r' := by
  have hspelled := h.respells hsymbols (fun _ hc => hc) (fun c hc => by simp [isNumberChar, hc])
    (fun c => isWordChar_of_mem hw) hr
  have htag : (Mode.code.after (wordKind w)) = .code := Mode.after_of_not_tag (isTag_wordKind w)
  cases hspelled with
  | keep => exact codeRenamed_keep (.word rfl hw hr')
  | @name x n s t σ hx hσ hn =>
    have hword : ∀ c ∈ x, isWordChar c = true := fun c hc => isWordChar_of_mem hw (List.mem_append_left _ hc)
    obtain rfl : x = [] := by
      by_contra hne
      rw [framedBehind_of_run ⟨hne, fun c hc => isRunChar_of_isWordChar (hword c hc)⟩] at hx
      cases hx
    obtain ⟨Z, hZ⟩ := exists_qualifierShapes hns hsymbols hσ
    rw [List.nil_append] at htag ⊢
    have hkind := wordKind_of_keyword_none (hsymbols.keyword σ hσ n hn)
    refine ⟨Z ++ [⟨.identifier, n⟩], ?_, fun B rest => ?_⟩
    · rw [hkind]
      exact .name hσ hn hZ
    · rw [htag] at rest
      simpa using Cuts.qualified hr' rest hsymbols hσ hn hZ
  | @static x k hbehind =>
    have hdeclared := hdeclares ⟨isLoose_wordKind _, ⟨x, rfl⟩, hbehind⟩
    by_cases hx : x = []
    · subst hx
      refine ⟨_, .static hdeclared k, fun B rest => ?_⟩
      have := Cuts.declared hr' rest (k + 1)
      simpa using this
    · rw [wordKind_append_function hx]
      have hform : ∀ t, CodeForm .identifier (x ++ staticWord) (' ' :: t) := fun t =>
        .word (wordKind_append_static hx).symm (isIdentifier_append hw (by decide)) rfl
      refine ⟨_, .split hdeclared hx (by simp) k, fun B rest => ?_⟩
      have := Cuts.split hr' rest hform rfl k
      simpa using this

omit hns in
theorem codeRenamed_variable (hw : isIdentifier w = true) (hr : r.head?.any isWordChar = false)
    (hr' : r'.head?.any isWordChar = false) (hdeclares : Shape.Declares symbols ⟨.variable, '$' :: w⟩ r → declares)
    (h : Inserts ns symbols r false w w') :
    CodeRenamed declares ns symbols .variable ('$' :: w) ('$' :: w') r' := by
  have hspelled := h.respells hsymbols (fun _ hc => hc) (fun c hc => by simp [isNumberChar, hc])
    (fun c => isWordChar_of_mem hw) hr
  cases hspelled with
  | keep => exact codeRenamed_keep (.dollarWord hw hr')
  | @name x n s t σ hx hσ hn =>
    rw [framedBehind_of_word fun c hc => isWordChar_of_mem hw (List.mem_append_left _ hc)] at hx
    cases hx
  | @static x k hbehind =>
    have hdeclared := hdeclares ⟨rfl, ⟨'$' :: x, rfl⟩, hbehind⟩
    have hform : ∀ t, CodeForm .variable (('$' :: x) ++ staticWord) (' ' :: t) := fun t =>
      .dollarWord (isIdentifier_append hw (by decide)) rfl
    refine ⟨_, .split (x := '$' :: x) hdeclared (by simp) (by simp) k, fun B rest => ?_⟩
    have := Cuts.split hr' rest hform rfl k
    simpa using this

theorem codeRenamed_number {c : Char} (hc : c.isDigit = true) (hw : ∀ d ∈ w, isNumberChar d = true)
    (hr : r.head?.any isNumberChar = false) (hr' : r'.head?.any isNumberChar = false)
    (hdeclares : Shape.Declares symbols ⟨.number, c :: w⟩ r → declares)
    (h : Inserts ns symbols r false w w') : CodeRenamed declares ns symbols .number (c :: w) (c :: w') r' := by
  have hspelled := h.respells hsymbols (fun c hc => by simp [isNumberChar, hc]) (fun _ hc => hc) hw hr
  have hword : r'.head?.any isWordChar = false := by
    cases r' with
    | nil => rfl
    | cons d r' =>
      rw [List.head?_cons, Option.any_some, Bool.eq_false_iff] at hr' ⊢
      exact fun hd => hr' (by simp [isNumberChar, hd])
  cases hspelled with
  | keep => exact codeRenamed_keep (.number hc hw hr')
  | @name x n s t σ hx hσ hn =>
    obtain ⟨Z, hZ⟩ := exists_qualifierShapes hns hsymbols hσ
    refine ⟨_, .number (x := c :: x) hσ hn hZ, fun B rest => ?_⟩
    have hname := Cuts.qualified hword rest hsymbols hσ hn hZ
    have hform : CodeForm .number (c :: x) (σ.qualifier ns ++ (n ++ r')) := by
      refine .number hc (fun d hd => hw d (List.mem_append_left _ hd)) ?_
      obtain ⟨y, hy⟩ := hZ.head_text
      rw [hy]
      rfl
    simpa using Cuts.code_cons hform rfl hname
  | @static x k hbehind =>
    have hdeclared := hdeclares ⟨rfl, ⟨c :: x, rfl⟩, hbehind⟩
    have hstatic : ∀ d ∈ staticWord, isNumberChar d = true := by decide
    have hform : ∀ t, CodeForm .number ((c :: x) ++ staticWord) (' ' :: t) := fun t =>
      .number hc (fun d hd => (List.mem_append.1 hd).elim (fun hd => hw d (List.mem_append_left _ hd)) (hstatic d))
        rfl
    refine ⟨_, .split (x := c :: x) hdeclared (by simp) (by simp) k, fun B rest => ?_⟩
    have := Cuts.split hword rest hform rfl k
    simpa using this

end

theorem Inserts.swallowedNewline_eq_zero {s t : Text} (h : Inserts ns symbols tail framed s t)
    (hs : swallowedNewline s = 0) : swallowedNewline t = 0 := by
  unfold swallowedNewline
  split
  · rename_i v
    obtain ⟨s', rfl, -⟩ := Inserts.exists_of_prefix (u := ['\r', '\n']) (v := v) (by decide) h
    cases hs
  · rename_i v
    obtain ⟨s', rfl, -⟩ := Inserts.exists_of_prefix (u := ['\n']) (v := v) (by decide) h
    cases hs
  · rfl

section

variable (hns : ns.Accepted) (hsymbols : Symbols.Worded symbols)

include hns hsymbols

omit hns in
theorem StandsAlone.renamed {c : Char} {r r' : Text} (h : StandsAlone c r)
    (hr : Inserts ns symbols [] (isFrameMark c) r r') : StandsAlone c r' := by
  cases h with
  | mark h => exact .mark h
  | slash h h' => exact .slash (hr.head?_ne (by decide) h) (hr.head?_ne (by decide) h')
  | less h =>
    refine .less fun t ht => ?_
    rw [ht] at hr
    obtain ⟨r₁, rfl, -⟩ := Inserts.exists_of_prefix (u := ['<', '<']) (v := t) (by decide) hr
    exact h r₁ rfl
  | dollar h =>
    refine .dollar ?_
    rw [hr.head?_eq hsymbols h]
    exact h
  | question h => exact .question (hr.head?_ne (by decide) h)

theorem CodeForm.renamed {kind : TokenKind} {w w' r r' : Text} (h : CodeForm kind w r)
    (hsteady : ∀ label, Shape.label? ⟨kind, w⟩ = some label → SteadyLabel symbols label)
    (hdeclares : Shape.Declares symbols ⟨kind, w⟩ r → declares)
    (hw : Inserts ns symbols r framed w w') (hr : Inserts ns symbols [] (framedBehind framed w) r r') :
    CodeRenamed declares ns symbols kind w w' r' := by
  have hstray : Shape.isStray ⟨kind, w'⟩ = true → Shape.isStray ⟨kind, w⟩ = true := hw.isStray hns hsymbols
  cases h with
  | space hne hall hstop =>
    obtain rfl := hw.eq_self hsymbols fun c hc => isWordStart_of_isSpace (hall c hc)
    exact codeRenamed_keep (.space hne hall (hr.head?_any ⟨rfl, rfl⟩ hstop))
  | @hashBracket u r h =>
    obtain ⟨w₁, rfl, h₁⟩ := Inserts.exists_of_not_word hsymbols rfl hw
    obtain ⟨u', rfl, h₂⟩ := Inserts.exists_of_not_word hsymbols rfl h₁
    rw [attributeLength?_eq_scan_none] at h
    have hscan := h₂.scan_eq hns hsymbols undisturbed_attributeStep h
    rw [← attributeLength?_eq_scan_none] at hscan
    exact codeRenamed_loose (.hashBracket hscan) rfl (by decide) hstray
  | @hash u r hu h =>
    obtain ⟨u', rfl, h₁⟩ := Inserts.exists_of_not_word hsymbols rfl hw
    have hr₁ : Inserts ns symbols [] (framedBehind (isFrameMark '#') u) r r' := hr
    have hline := Inserts.lineCommentLength_eq hns hsymbols (by simpa using h₁) hr₁ h
    exact codeRenamed_loose (.hash (h₁.head?_ne (by decide) hu) hline) rfl (by decide) hstray
  | @slashes u r h =>
    obtain ⟨w₁, rfl, h₁⟩ := Inserts.exists_of_not_word hsymbols rfl hw
    obtain ⟨u', rfl, h₂⟩ := Inserts.exists_of_not_word hsymbols rfl h₁
    have hr₁ : Inserts ns symbols [] (framedBehind (isFrameMark '/') u) r r' := hr
    have hline := Inserts.lineCommentLength_eq hns hsymbols (by simpa using h₂) hr₁ h
    exact codeRenamed_loose (.slashes hline) rfl (by decide) hstray
  | @block _ u r hkind h =>
    obtain ⟨w₁, rfl, h₁⟩ := Inserts.exists_of_not_word hsymbols rfl hw
    obtain ⟨u', rfl, h₂⟩ := Inserts.exists_of_not_word hsymbols rfl h₁
    have hscan := h
    rw [blockCommentLength?_eq_scan] at hscan
    have hscan' := h₂.scan_eq hns hsymbols undisturbed_blockStep hscan
    rw [← blockCommentLength?_eq_scan] at hscan'
    have hkind' : kind = blockKind u' := by
      rw [hkind, blockKind, blockKind]
      by_cases hstar : u.head? = some '*'
      · rw [h₂.head?_eq hsymbols (by rw [hstar]; rfl)]
      · rw [if_neg hstar, if_neg (h₂.head?_ne (by decide) hstar)]
    refine codeRenamed_loose (.block hkind' hscan') ?_ ?_ hstray
    · rw [hkind, isLoose_blockKind]
    · rw [hkind, blockKind]
      split <;> decide
  | @quote q u r hq h =>
    have hq' : isWordStart q = false ∧ isPlain q = false := by
      have hall : ∀ q ∈ ['\'', '"', '\x60'], isWordStart q = false ∧ isPlain q = false := by decide
      exact hall q hq
    obtain ⟨u', rfl, h₁⟩ := Inserts.exists_of_not_word hsymbols hq'.1 hw
    rw [quotedLength?_eq_scan] at h
    have hscan := h₁.scan_eq hns hsymbols (undisturbed_quotedStep hq'.2) h
    rw [← quotedLength?_eq_scan] at hscan
    exact codeRenamed_loose (.quote hq hscan) rfl (by decide) hstray
  | @heredoc u r h =>
    obtain ⟨w₁, rfl, h₁⟩ := Inserts.exists_of_not_word hsymbols rfl hw
    obtain ⟨w₂, rfl, h₂⟩ := Inserts.exists_of_not_word hsymbols rfl h₁
    obtain ⟨u', rfl, h₃⟩ := Inserts.exists_of_not_word hsymbols rfl h₂
    have hlength := h₃.heredocLength?_eq hns hsymbols hr (hsteady _ rfl) h
    exact codeRenamed_loose (.heredoc hlength) rfl (by decide) hstray
  | @dollarWord u r hu hstop =>
    obtain ⟨u', rfl, h₁⟩ := Inserts.exists_of_not_word hsymbols rfl hw
    exact codeRenamed_variable hsymbols hu hstop (hr.head?_any_isWordChar hsymbols hstop) hdeclares h₁
  | @number c u r hc hu hstop =>
    have hstart : isWordStart c = false := by
      rw [Bool.eq_false_iff]
      intro hstart
      rw [isDigit_eq_false_of_isWordStart hstart] at hc
      cases hc
    obtain ⟨u', rfl, h₁⟩ := Inserts.exists_of_not_word hsymbols hstart hw
    rw [isFrameMark_of_isRunChar (isRunChar_of_isWordChar (isWordChar_of_isDigit hc))] at h₁
    have hhead : r.head?.any isWordStart = false := by
      cases r with
      | nil => rfl
      | cons d r =>
        rw [List.head?_cons, Option.any_some, Bool.eq_false_iff] at hstop ⊢
        exact fun hd => hstop (by simp [isNumberChar, isWordChar_of_isWordStart hd])
    refine codeRenamed_number hns hsymbols hc hu hstop ?_ hdeclares h₁
    rw [hr.head?_eq hsymbols hhead]
    exact hstop
  | word hkind hid hstop =>
    rw [hkind] at hdeclares ⊢
    exact codeRenamed_word hns hsymbols hid hstop (hr.head?_any_isWordChar hsymbols hstop) hdeclares hw
  | @closeTag u r h =>
    have hmarks : IsMarks ('?' :: '>' :: u) := by rcases swallowed_cases h with rfl | rfl | rfl <;> decide
    obtain rfl := hw.eq_self_of_marks hsymbols hmarks
    refine codeRenamed_keep (.closeTag ?_)
    rcases swallowed_cases h with rfl | rfl | rfl
    · exact hr.swallowedNewline_eq_zero h
    · rfl
    · rfl
  | @single c r h =>
    have hstart : isWordStart c = false := by
      cases h with
      | mark h =>
        simp only [isMark, Bool.not_eq_true', Bool.or_eq_false_iff] at h
        rw [Bool.eq_false_iff]
        intro hstart
        rw [isWordChar_of_isWordStart hstart] at h
        cases h.1.2
      | _ => rfl
    obtain ⟨u', rfl, h₁⟩ := Inserts.exists_of_not_word hsymbols hstart hw
    rw [h₁.eq_nil]
    exact codeRenamed_keep (.single (h.renamed hsymbols hr))

end

theorem letters_of_lower {w u : Text} (hw : w.map Char.toLower = u)
    (hu : ∀ c ∈ u, c ∈ ['p', 'h', 'x', 'm', 'l']) : ∀ c ∈ w, (c ≠ 's' ∧ c ≠ '\\') ∧ c ≠ 'f' ∧ isFrameMark c = false := by
  intro c hc
  have hlower := hu c.toLower (hw ▸ List.mem_map_of_mem hc)
  have hne : ∀ d : Char, d.toLower ∉ ['p', 'h', 'x', 'm', 'l'] → c ≠ d := by
    rintro d hd rfl
    exact hd hlower
  refine ⟨⟨hne _ (by decide), hne _ (by decide)⟩, hne _ (by decide), ?_⟩
  refine List.any_eq_false.2 fun p hp heq => ?_
  have hall : ∀ p ∈ Frame.before, ∀ d ∈ p, d.toLower ∉ ['p', 'h', 'x', 'm', 'l'] := by decide
  rw [eq_of_beq heq] at hp
  exact hall _ hp c List.mem_cons_self hlower

namespace Inserts

theorem not_starts_word {s t : Text} {u : Text} (hu : ∀ c ∈ u, c ∈ ['p', 'h', 'x', 'm', 'l'])
    (h : Inserts ns symbols tail framed s t) (hs : ∀ w r, s = w ++ r → w.map Char.toLower ≠ u) :
    ∀ w r, t = w ++ r → w.map Char.toLower ≠ u := by
  rintro w r rfl hw
  obtain ⟨s', rfl, -⟩ := exists_of_prefix (fun c hc => (letters_of_lower hw hu c hc).1) h
  exact hs w s' rfl hw

theorem starts_word {s t w : Text} {u : Text} (hu : ∀ c ∈ u, c ∈ ['p', 'h', 'x', 'm', 'l'])
    (hw : w.map Char.toLower = u) (h : Inserts ns symbols tail false (w ++ s) t) :
    ∃ s', t = w ++ s' ∧ Inserts ns symbols tail false s s' :=
  exists_of_letters (fun c hc => (letters_of_lower hw hu c hc).2) h

end Inserts

section

variable (hsymbols : Symbols.Worded symbols)

include hsymbols

theorem TagSpace.renamed {space r v : Text} (h : TagSpace space r)
    (hv : Inserts ns symbols [] framed (space ++ r) v) :
    ∃ r', v = space ++ r' ∧ Inserts ns symbols [] (framedBehind framed space) r r' ∧ TagSpace space r' := by
  cases h with
  | fileEnd =>
    obtain rfl := hv.eq_nil
    exact ⟨[], rfl, .nil, .fileEnd⟩
  | crlf r =>
    obtain ⟨v₁, rfl, h₁⟩ := Inserts.exists_of_not_word hsymbols rfl hv
    obtain ⟨v₂, rfl, h₂⟩ := Inserts.exists_of_not_word hsymbols rfl h₁
    exact ⟨v₂, rfl, h₂, .crlf v₂⟩
  | @space c r hc hcr =>
    obtain ⟨v₁, rfl, h₁⟩ := Inserts.exists_of_not_word hsymbols (isWordStart_of_isSpace hc) hv
    exact ⟨v₁, rfl, h₁, .space hc fun heq => h₁.head?_ne (by decide) (hcr heq)⟩

theorem OpenTag.eq_self {w w' r : Text} (h : OpenTag w r) (hw : Inserts ns symbols tail framed w w') : w' = w := by
  cases h with
  | @php v space _ hv hspace =>
    obtain ⟨w₁, rfl, h₁⟩ := Inserts.exists_of_not_word hsymbols rfl hw
    obtain ⟨w₂, rfl, h₂⟩ := Inserts.exists_of_not_word hsymbols rfl h₁
    obtain ⟨w₃, rfl, h₃⟩ := Inserts.starts_word (by decide) hv h₂
    rw [h₃.eq_self hsymbols fun c hc => isWordStart_of_isSpace (hspace.isSpace c hc)]
  | echo => exact hw.eq_self hsymbols (by decide)
  | short => exact hw.eq_self hsymbols (by decide)

theorem OpenTag.renamed {w r v : Text} (h : OpenTag w r) (hv : Inserts ns symbols [] framed (w ++ r) v) :
    ∃ r', v = w ++ r' ∧ Inserts ns symbols [] (framedBehind framed w) r r' ∧ OpenTag w r' := by
  have hless : isWordStart '<' = false := rfl
  have hquestion : isWordStart '?' = false := rfl
  cases h with
  | @php w space r hw hspace =>
    obtain ⟨v₁, rfl, h₁⟩ := Inserts.exists_of_not_word hsymbols hless hv
    obtain ⟨v₂, rfl, h₂⟩ := Inserts.exists_of_not_word hsymbols hquestion h₁
    have h₂ : Inserts ns symbols [] false (w ++ space ++ r) v₂ := h₂
    rw [List.append_assoc] at h₂
    obtain ⟨v₃, rfl, h₃⟩ := Inserts.starts_word (by decide) hw h₂
    obtain ⟨r', rfl, h₄, hspace'⟩ := hspace.renamed hsymbols h₃
    have hne : w ≠ [] := by
      rintro rfl
      cases hw
    refine ⟨r', by simp, ?_, .php hw hspace'⟩
    have hframed : framedBehind framed ('<' :: '?' :: (w ++ space)) = framedBehind false space := by
      rw [framedBehind, framedBehind, framedBehind_append,
        framedBehind_of_not_mark hne fun c hc => (letters_of_lower hw (by decide) c hc).2.2]
    rw [hframed]
    exact h₄
  | echo r =>
    obtain ⟨v₁, rfl, h₁⟩ := Inserts.exists_of_not_word hsymbols hless hv
    obtain ⟨v₂, rfl, h₂⟩ := Inserts.exists_of_not_word hsymbols hquestion h₁
    obtain ⟨v₃, rfl, h₃⟩ := Inserts.exists_of_not_word hsymbols rfl h₂
    exact ⟨v₃, rfl, h₃, .echo v₃⟩
  | short hphp hecho hxml =>
    obtain ⟨v₁, rfl, h₁⟩ := Inserts.exists_of_not_word hsymbols hless hv
    obtain ⟨v₂, rfl, h₂⟩ := Inserts.exists_of_not_word hsymbols hquestion h₁
    refine ⟨v₂, rfl, h₂, .short (h₂.not_starts_word (by decide) hphp) (h₂.head?_ne (by decide) hecho) ?_⟩
    rw [Bool.eq_false_iff]
    intro hstart
    obtain ⟨v₃, rfl⟩ := startsWith_iff.1 hstart
    obtain ⟨r₁, rfl, -⟩ := Inserts.exists_of_prefix (by decide) h₂
    rw [startsWith_iff.2 ⟨r₁, rfl⟩] at hxml
    cases hxml

theorem isSome_openTagLength?_of_renamed {s t : Text} (h : Inserts ns symbols [] framed s t)
    (ht : (openTagLength? t).isSome = true) : (openTagLength? s).isSome = true := by
  obtain ⟨n, hn⟩ := Option.isSome_iff_exists.1 ht
  obtain ⟨w, r, rfl, htag, -⟩ := openTagLength?_eq_some_iff.1 hn
  cases htag with
  | @php w space r hw hspace =>
    have hassoc : '<' :: '?' :: (w ++ space) ++ r = ['<', '?'] ++ (w ++ (space ++ r)) := by simp
    rw [hassoc] at h
    obtain ⟨s₁, rfl, h₁⟩ := Inserts.exists_of_prefix (by decide) h
    obtain ⟨s₂, rfl, h₂⟩ := Inserts.exists_of_prefix
      (fun c hc => (letters_of_lower hw (by decide) c hc).1) h₁
    have hgoal : (openTagLength? ('<' :: '?' :: (w ++ s₂))).isSome = true := by
      rw [openTagLength?_php hw, isSome_phpTagLength?]
      cases hspace with
      | fileEnd =>
        generalize hnil : ([] ++ [] : Text) = u at h₂
        cases h₂ with
        | nil => rfl
        | cons => simp at hnil
      | crlf r =>
        obtain ⟨s₃, rfl, -⟩ := Inserts.exists_of_prefix (u := ['\r', '\n']) (by decide) h₂
        rfl
      | @space c r hc =>
        have hne : c ≠ 's' ∧ c ≠ '\\' := by
          constructor <;> (rintro rfl; cases hc)
        obtain ⟨s₃, rfl, -⟩ := Inserts.exists_of_prefix (u := [c]) (by simpa using hne) h₂
        simp [hc]
    exact hgoal
  | echo r =>
    obtain ⟨s₁, rfl, -⟩ := Inserts.exists_of_prefix (u := ['<', '?', '=']) (by decide) h
    rw [openTagLength?_eq_some_iff.2 ⟨_, _, rfl, .echo s₁, rfl⟩]
    rfl
  | short hphp hecho hxml =>
    obtain ⟨s₁, rfl, h₁⟩ := Inserts.exists_of_prefix (u := ['<', '?']) (by decide) h
    have h₁ : Inserts ns symbols [] false s₁ r := h₁
    refine Option.isSome_iff_exists.2 ⟨_, openTagLength?_eq_some_iff.2 ⟨_, _, rfl, .short ?_ ?_ ?_, rfl⟩⟩
    · rintro w t rfl hw
      obtain ⟨r', rfl, -⟩ := Inserts.starts_word (by decide) hw h₁
      exact hphp w r' rfl hw
    · intro hhead
      rw [h₁.head?_eq hsymbols (by rw [hhead]; rfl)] at hecho
      exact hecho hhead
    · rw [Bool.eq_false_iff]
      intro hstart
      obtain ⟨t, rfl⟩ := startsWith_iff.1 hstart
      obtain ⟨r', rfl, -⟩ := Inserts.starts_word (u := "xml".toList) (by decide) (by decide) h₁
      rw [startsWith_iff.2 ⟨r', rfl⟩] at hxml
      cases hxml

end

theorem htmlLength_skip {z : Text} (hz : '<' ∉ z) (s : Text) : htmlLength (z ++ s) = z.length + htmlLength s := by
  induction z with
  | nil => exact (Nat.zero_add _).symm
  | cons c z ih =>
    simp only [List.mem_cons, not_or] at hz
    have hnone : openTagLength? (c :: (z ++ s)) = none :=
      openTagLength?_eq_none fun after h => hz.1 (List.cons.inj h).1.symm
    rw [List.cons_append, htmlLength, hnone, ih hz.2, List.length_cons]
    simp only [Option.isSome_none, Bool.false_eq_true, if_false]
    omega

theorem Inserts.htmlLength_eq (hns : ns.Accepted) (hsymbols : Symbols.Worded symbols) {u u' r r' : Text}
    (h : Inserts ns symbols r framed u u') (hr : Inserts ns symbols [] (framedBehind framed u) r r')
    (hu : htmlLength (u ++ r) = u.length) (hend : r' = [] ∨ (openTagLength? r').isSome = true) :
    htmlLength (u' ++ r') = u'.length := by
  induction h with
  | nil =>
    rcases hend with rfl | hend
    · rfl
    · cases r' with
      | nil => rfl
      | cons c r' => rw [List.nil_append, htmlLength, if_pos hend, List.length_nil]
  | @cons framed c s s' z hz rest ih =>
    rw [List.cons_append, htmlLength] at hu
    split at hu
    · cases hu
    · rename_i hnot
      have hboth : Inserts ns symbols [] framed (c :: (s ++ r)) (c :: (s' ++ r')) :=
        .cons (z := []) (Or.inl rfl) (Inserts.append (by simpa using rest) hr)
      have hless : '<' ∉ z := by
        rcases hz with rfl | hz
        · simp
        · exact hz.not_mem hns hsymbols (by simp)
      have hnot' : ¬ (openTagLength? (c :: (s' ++ r'))).isSome = true :=
        mt (isSome_openTagLength?_of_renamed hsymbols hboth) hnot
      rw [List.append_assoc, List.cons_append, htmlLength_skip hless, htmlLength, if_neg hnot',
        ih hr (Nat.succ.inj hu), List.length_append, List.length_cons]

section

variable (hns : ns.Accepted) (hsymbols : Symbols.Worded symbols)

include hns hsymbols

theorem HtmlForm.renamed {kind : TokenKind} {w w' r r' : Text} (h : HtmlForm kind w r)
    (hw : Inserts ns symbols r framed w w') (hr : Inserts ns symbols [] (framedBehind framed w) r r') :
    RenamesIf declares ns symbols ⟨kind, w⟩ [⟨kind, w'⟩] ∧ HtmlForm kind w' r' := by
  cases h with
  | tag htag =>
    obtain rfl := htag.eq_self hsymbols hw
    obtain ⟨r'', heq, -, htag'⟩ := htag.renamed hsymbols (Inserts.append (by simpa using hw) hr)
    obtain rfl := List.append_cancel_left heq
    exact ⟨.keep _, .tag htag'⟩
  | text hne hlen =>
    have hend : r' = [] ∨ (openTagLength? r').isSome = true := by
      refine (isSome_openTagLength?_of_htmlLength hlen).imp ?_ fun htag => ?_
      · rintro rfl
        exact hr.eq_nil
      · obtain ⟨n, hn⟩ := Option.isSome_iff_exists.1 htag
        obtain ⟨v, r₁, rfl, hopen, -⟩ := openTagLength?_eq_some_iff.1 hn
        obtain ⟨r₂, rfl, -, hopen'⟩ := hopen.renamed hsymbols hr
        rw [openTagLength?_eq_some_iff.2 ⟨v, r₂, rfl, hopen', rfl⟩]
        rfl
    have hne' : w' ≠ [] := by
      rintro rfl
      generalize hnil : ([] : Text) = v at hw
      cases hw with
      | nil => exact hne rfl
      | cons => simp at hnil
    exact ⟨.loose rfl (by decide) fun h => hw.isStray hns hsymbols h,
      .text hne' (hw.htmlLength_eq hns hsymbols hr hlen hend)⟩

theorem Mode.Form.renamed {mode : Mode} {kind : TokenKind} {w w' r r' : Text} (h : mode.Form kind w r)
    (hsteady : ∀ label, Shape.label? ⟨kind, w⟩ = some label → SteadyLabel symbols label)
    (hdeclares : Shape.Declares symbols ⟨kind, w⟩ r → declares)
    (hw : Inserts ns symbols r framed w w') (hr : Inserts ns symbols [] (framedBehind framed w) r r') :
    ∃ ys, RenamesIf declares ns symbols ⟨kind, w⟩ ys ∧
      ∀ B, Cuts (mode.after kind) r' B → Cuts mode (w' ++ r') (ys ++ B) := by
  cases mode with
  | html =>
    obtain ⟨hrenames, hform⟩ := HtmlForm.renamed hns hsymbols h hw hr
    exact ⟨_, hrenames, fun B rest => .ofHtml hform rest⟩
  | code => exact CodeForm.renamed hns hsymbols h hsteady hdeclares hw hr

/-- The tokens in front of a place in the text, and what becomes of them when the two parts of the text are
changed one by one. -/
theorem Cuts.renamed_front {mode : Mode} {a a' r r' : Text} {A R : List Shape} (h : Cuts mode (a ++ r) (A ++ R))
    (ha : A.flatMap Shape.text = a)
    (hsteady : ∀ x ∈ A, ∀ label, x.label? = some label → SteadyLabel symbols label)
    (hdeclares : ∀ U x V, A = U ++ x :: V → x.Declares symbols (V.flatMap Shape.text ++ r) → declares)
    (hw : Inserts ns symbols r framed a a') (hr : Inserts ns symbols [] (framedBehind framed a) r r') :
    ∃ A', Expands (RenamesIf declares ns symbols) A A' ∧
      ∀ R', Cuts (mode.behind A) r' R' → Cuts mode (a' ++ r') (A' ++ R') := by
  induction A generalizing mode a a' framed with
  | nil =>
    obtain rfl : [] = a := ha
    rw [hw.eq_nil]
    exact ⟨[], .nil, fun R' rest => rest⟩
  | cons x A ih =>
    obtain ⟨kind, w⟩ := x
    rw [List.flatMap_cons] at ha
    subst ha
    rw [List.append_assoc] at h
    obtain ⟨w', b', rfl, hw', hb⟩ := hw.exists_of_append
    rw [framedBehind_append] at hr
    generalize hs : w ++ (A.flatMap Shape.text ++ r) = s at h
    have hs' : w ++ (A.flatMap Shape.text ++ r) = s := hs
    cases h with
    | @cons _ _ _ r₀ _ hform rest =>
      obtain rfl := List.append_cancel_left hs'
      obtain ⟨ys, hrenames, hcuts⟩ := hform.renamed hns hsymbols (hsteady _ List.mem_cons_self)
        (hdeclares [] _ A rfl) hw' (Inserts.append (by simpa using hb) hr)
      obtain ⟨A', hA, hrest⟩ := ih rest rfl (fun x hx => hsteady x (List.mem_cons_of_mem _ hx))
        (fun U x V hA => hdeclares (_ :: U) x V (congrArg _ hA)) hb hr
      refine ⟨ys ++ A', .cons hrenames hA, fun R' hR' => ?_⟩
      rw [List.append_assoc, List.append_assoc]
      exact hcuts _ (hrest R' hR')

theorem Cuts.exists_renamed {mode : Mode} {a r t : Text} {A R : List Shape} (h : Cuts mode (a ++ r) (A ++ R))
    (ha : A.flatMap Shape.text = a)
    (hsteady : ∀ x ∈ A, ∀ label, x.label? = some label → SteadyLabel symbols label)
    (hdeclares : ∀ U x V, A = U ++ x :: V → x.Declares symbols (V.flatMap Shape.text ++ r) → declares)
    (ht : Inserts ns symbols [] framed (a ++ r) t) :
    ∃ a' r' A', t = a' ++ r' ∧ Inserts ns symbols [] (framedBehind framed a) r r' ∧
      Expands (RenamesIf declares ns symbols) A A' ∧
      ∀ R', Cuts (mode.behind A) r' R' → Cuts mode (a' ++ r') (A' ++ R') := by
  obtain ⟨a', r', rfl, hw, hr⟩ := ht.exists_of_append
  obtain ⟨A', hA, hcuts⟩ := h.renamed_front hns hsymbols ha hsteady hdeclares (by simpa using hw) hr
  exact ⟨a', r', A', rfl, hr, hA, hcuts⟩

theorem Cuts.renamed {mode : Mode} {s t : Text} {A : List Shape} (h : Cuts mode s A)
    (hsteady : ∀ x ∈ A, ∀ label, x.label? = some label → SteadyLabel symbols label)
    (hdeclares : ∀ U x V, A = U ++ x :: V → x.Declares symbols (V.flatMap Shape.text) → declares)
    (ht : Inserts ns symbols [] framed s t) : ∃ B, Cuts mode t B ∧ Expands (RenamesIf declares ns symbols) A B := by
  obtain ⟨t, r, B, rfl, hr, hB, hcuts⟩ := Cuts.exists_renamed (r := []) (R := []) hns hsymbols (by simpa using h)
    h.text_eq hsteady (by simpa using hdeclares) (by simpa using ht)
  obtain rfl := hr.eq_nil
  exact ⟨B, by simpa using hcuts [] (.nil _), hB⟩

end

end

end Namespacing
