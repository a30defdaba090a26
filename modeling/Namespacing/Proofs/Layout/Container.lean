import Namespacing.Proofs.Layout.Declarations
import Namespacing.Proofs.Token.Indentation
set_option autoImplicit false

namespace Namespacing

open Lexeme Text Layout

section

variable {f : Text → Text} {A B : List Shape}

theorem TagsInPlace.respaces (h : TagsInPlace A) (hB : Expands (Respaces [] f) A B) : TagsInPlace B where
  held y hy := by
    obtain ⟨B₁, B₂, rfl⟩ := List.append_of_mem hy
    obtain ⟨A₁, x, A₂, _, ys, zs, _, rfl, -, -, -, hx, -⟩ := hB.exists_origin
    have hstray := h.held x (by simp)
    generalize hC : ys ++ y :: zs = C at hx
    have hmem : y ∈ C := by simp [← hC]
    cases hx with
    | solid => rwa [List.mem_singleton.1 hmem]
    | @loose kind v v' _ hback =>
      rw [List.mem_singleton.1 hmem, ← Bool.not_eq_true]
      intro hv
      rw [hback hv] at hstray
      cases hstray
    | @tag kind v v' _ hkind _ hgap =>
      rw [ite_self, List.nil_append] at hmem
      rcases List.mem_cons.1 hmem with rfl | hmem
      · cases kind <;> first | rfl | cases hkind
      · exact Shape.isStray_of_isGap (hgap y hmem)
  unspelled B₁ B₂ w heq := by
    have hlone : ∀ z ∈ spelledTag w, Lone (Respaces [] f) z := by
      intro z hz
      simp only [spelledTag, List.mem_cons, List.not_mem_nil, or_false] at hz
      rcases hz with rfl | rfl | rfl
      · exact Respaces.lone rfl rfl
      · exact Respaces.lone rfl rfl
      · exact Respaces.lone (isLoose_wordKind ('p' :: 'h' :: 'p' :: w)) (isTag_wordKind ('p' :: 'h' :: 'p' :: w))
    rw [heq] at hB
    obtain ⟨A₁, A₂, hA, -⟩ := hB.exists_lone (fun _ _ h => h.ne_nil) hlone
    exact h.unspelled A₁ A₂ w hA

theorem TagsInPlace.append (h : TagsInPlace A) (hstray : ∀ x ∈ B, x.isStray = false)
    (hspelled : ∀ x ∈ B, ∀ w, x ∉ spelledTag w) : TagsInPlace (A ++ B) where
  held x hx := (List.mem_append.1 hx).elim (h.held x) (hstray x)
  unspelled C D w heq := by
    -- The last of the three tokens stands in `A`, and so do the two before it.
    obtain ⟨U, z, hU⟩ : ∃ U z, spelledTag w = U ++ [z] :=
      ⟨[⟨.punct, ['<']⟩, ⟨.punct, ['?']⟩], _, rfl⟩
    have hz : z ∈ spelledTag w := by simp [hU]
    have hassoc : A ++ B = (C ++ U) ++ z :: D := by
      rw [heq, hU]
      simp
    rcases List.append_eq_append_iff.1 hassoc with ⟨x, -, hB⟩ | ⟨x, hA, hB⟩
    · exact hspelled z (by simp [hB]) w hz
    · cases x with
      | nil => exact hspelled z (by simp [← show z :: D = B from hB]) w hz
      | cons y x =>
        obtain ⟨rfl, -⟩ := List.cons.inj hB
        exact h.unspelled C x w (by rw [hA, hU]; simp)

theorem Mode.behind_respaces {header : List Shape} (hheader : ∀ x ∈ header, x.kind.isTag = false)
    (h : Expands (Respaces header f) A B) (mode : Mode) : mode.behind B = mode.behind A := by
  induction h generalizing mode with
  | nil => rfl
  | @cons x ys shapes shapes' hx _ ih =>
    rw [Mode.behind_append, ih, Mode.behind]
    congr 1
    cases hx with
    | solid => rfl
    | loose => rfl
    | @tag kind _ _ gap _ _ hgap =>
      rw [Mode.behind]
      refine Mode.behind_of_not_tag fun y hy => ?_
      rcases List.mem_append.1 hy with hy | hy
      · split at hy
        · exact hheader y hy
        · cases hy
      · cases htag : y.kind.isTag with
        | false => rfl
        | true =>
          have := TokenKind.isLoose_of_isGap (Shape.isGap_kind (hgap y hy))
          rw [TokenKind.isLoose_of_isTag htag] at this
          cases this

def closeBrace : Shape :=
  ⟨.punct, ['\x7d']⟩

theorem solid_of_mem_spelledTag {x : Shape} {w : Text} (hx : x ∈ spelledTag w) :
    x.kind.isLoose = false ∧ x ≠ closeBrace := by
  simp only [spelledTag, List.mem_cons, List.not_mem_nil, or_false] at hx
  rcases hx with rfl | rfl | rfl
  · exact ⟨rfl, by decide⟩
  · exact ⟨rfl, by decide⟩
  · exact ⟨isLoose_wordKind ('p' :: 'h' :: 'p' :: w), by simp [closeBrace]⟩

theorem headed_closing (text s : Text) : headed text s ++ closing = headed text (s ++ closing) := by
  have hclosing : headed text closing = closing := headed_of_not_contains rfl
  rw [headed_append (not_straddles_of_head (by decide)), hclosing]

theorem Cuts.exists_wrapped {text s : Text} {shapes : List Shape} (htext : Header text shapes)
    (h : Cuts .html s A) (hA : TagsInPlace A) :
    ∃ B gap last, Cuts .html (headed text (Layout.indent s) ++ closing) (B ++ (gap ++ last)) ∧
      Expands (Respaces shapes fun w => headed text (w.flatMap indentChar)) A B ∧
      (∀ x ∈ gap, x.isGap = true) ∧
      if Mode.html.behind A = .code then ∃ w, last = [closeBrace, ⟨.whitespace, w⟩] else last = [] := by
  obtain ⟨A₁, hcuts₁, h₁⟩ := h.indent
  rw [← indent_eq_flatMap] at hcuts₁
  obtain ⟨A₂, gap, hclosed⟩ := hcuts₁.append_closing
  have hmode : Mode.html.behind A₁ = Mode.html.behind A := Mode.behind_respaces (by simp) h₁ _
  have hplace : TagsInPlace (A₂ ++ (gap ++ if Mode.html.behind A₁ = .code then closingShapes else [])) := by
    have hbehind : ∀ x ∈ gap ++ (if Mode.html.behind A₁ = .code then closingShapes else []),
        x.isStray = false ∧ (x.kind.isLoose = true ∨ x = closeBrace) := by
      intro x hx
      rcases List.mem_append.1 hx with hx | hx
      · have hgap := hclosed.isGap x hx
        exact ⟨Shape.isStray_of_isGap hgap, Or.inl (TokenKind.isLoose_of_isGap (Shape.isGap_kind hgap))⟩
      · have hclosing : ∀ x ∈ closingShapes, x.isStray = false ∧ (x.kind.isLoose = true ∨ x = closeBrace) := by
          decide
        split at hx
        · exact hclosing x hx
        · cases hx
    refine ((hA.respaces h₁).respaces hclosed.expands).append (fun x hx => (hbehind x hx).1) fun x hx w hw => ?_
    obtain ⟨hloose, hne⟩ := solid_of_mem_spelledTag hw
    rcases (hbehind x hx).2 with hx | hx
    · rw [hx] at hloose
      cases hloose
    · exact hne hx
  obtain ⟨C, hcuts, hC⟩ := hclosed.cuts.exists_headed htext hplace
  obtain ⟨B, D, rfl, hB, hD⟩ := hC.exists_of_append
  obtain ⟨gap', last, rfl, hgap', hlast⟩ := hD.exists_of_append
  rw [headed_closing]
  refine ⟨B, gap', last, hcuts, (h₁.trans_respaces hclosed.expands).trans_respaces hB,
    hgap'.isGap_of_respaces hclosed.isGap, ?_⟩
  rw [hmode] at hlast
  split
  · rename_i hcode
    rw [if_pos hcode] at hlast
    cases hlast with
    | cons hbrace hspace =>
      obtain rfl := hbrace.eq_of_solid rfl rfl
      cases hspace with
      | cons hspace hnil =>
        obtain ⟨w, rfl⟩ := hspace.exists_of_loose rfl
        cases hnil
        exact ⟨w, rfl⟩
  · rename_i hhtml
    rw [if_neg hhtml] at hlast
    cases hlast
    rfl

end

def braces (shapes : List Shape) : List Bool :=
  shapes.flatMap fun x => x.brace?.toList

/-- The depth behind a brace. The outermost depth cannot be left. -/
def braceStep : Nat → Bool → Option Nat
  | depth, true => some (depth + 1)
  | 0, false => none
  | depth + 1, false => some depth

/-- No brace closes that was not opened, and every brace that was opened is closed. -/
def Balanced (shapes : List Shape) : Prop :=
  (braces shapes).foldlM braceStep 0 = some 0

instance (shapes : List Shape) : Decidable (Balanced shapes) :=
  inferInstanceAs (Decidable (_ = _))

/-- The number of literal open tags among tokens. -/
def entries (shapes : List Shape) : Nat :=
  shapes.countP Shape.isEntry

section

variable {f : Text → Text} {A B : List Shape}

theorem foldlM_braceStep_add {l : List Bool} {depth last : Nat} (h : l.foldlM braceStep depth = some last)
    (k : Nat) : l.foldlM braceStep (depth + k) = some (last + k) := by
  induction l generalizing depth with
  | nil =>
    obtain rfl : depth = last := Option.some.inj h
    rfl
  | cons b l ih =>
    rw [List.foldlM_cons] at h ⊢
    cases b with
    | true =>
      have := @ih (depth + 1) h
      rwa [Nat.add_right_comm] at this
    | false =>
      cases depth with
      | zero => cases h
      | succ depth =>
        rw [Nat.add_right_comm]
        exact @ih depth h

theorem Shape.brace?_of_isEntry {x : Shape} (h : x.isEntry = true) : x.brace? = none := by
  rw [brace?, kind_of_isEntry h]
  rfl

def openedBraces (x : Shape) : List Bool :=
  if x.isEntry then [true] else x.brace?.toList

/-- Every literal open tag takes the file one brace deeper. -/
theorem foldlM_openedBraces {depth last : Nat} (h : (braces A).foldlM braceStep depth = some last) :
    (A.flatMap openedBraces).foldlM braceStep depth = some (last + entries A) := by
  induction A generalizing depth with
  | nil => exact h
  | cons x A ih =>
    rw [List.flatMap_cons, List.foldlM_append, openedBraces]
    rw [braces, List.flatMap_cons, ← braces, List.foldlM_append] at h
    cases hentry : x.isEntry with
    | true =>
      rw [Shape.brace?_of_isEntry hentry] at h
      have := foldlM_braceStep_add (ih h) 1
      rw [entries, List.countP_cons_of_pos hentry, ← entries]
      exact this
    | false =>
      rw [entries, List.countP_cons_of_neg (by simp [hentry]), ← entries]
      simp only [Bool.false_eq_true, if_false]
      cases hstep : x.brace?.toList.foldlM braceStep depth with
      | none =>
        rw [hstep] at h
        cases h
      | some next =>
        rw [hstep] at h
        exact ih h

theorem brace?_of_isLoose {x : Shape} (h : x.kind.isLoose = true) : x.brace? = none := by
  rw [Shape.brace?, if_neg]
  intro hpunct
  rw [hpunct] at h
  cases h

theorem braces_of_isGap {gap : List Shape} (h : ∀ x ∈ gap, x.isGap = true) : braces gap = [] := by
  rw [braces, List.flatMap_eq_nil_iff]
  intro x hx
  rw [brace?_of_isLoose (TokenKind.isLoose_of_isGap (Shape.isGap_kind (h x hx)))]
  rfl

theorem braces_append (A B : List Shape) : braces (A ++ B) = braces A ++ braces B :=
  List.flatMap_append

theorem braces_respaces {header : List Shape} (hheader : braces header = [true])
    (h : Expands (Respaces header f) A B) : braces B = A.flatMap openedBraces := by
  refine h.flatMap_eq fun x ys hx => ?_
  rw [← braces]
  cases hx with
  | @solid x hloose htag =>
    have hentry : x.isEntry = false := by
      obtain ⟨kind, w⟩ := x
      cases kind <;> first | rfl | cases htag
    rw [openedBraces, hentry]
    simp [braces]
  | @loose kind w w' hkind =>
    have hentry : Shape.isEntry ⟨kind, w⟩ = false := by
      cases kind <;> first | rfl | cases hkind
    have hbrace : ∀ v, Shape.brace? ⟨kind, v⟩ = none := fun v => brace?_of_isLoose (x := ⟨kind, v⟩) hkind
    rw [openedBraces, hentry, hbrace]
    simp [braces, hbrace]
  | @tag kind w w' gap hkind hentry hgap =>
    have hbrace : ∀ v, Shape.brace? ⟨kind, v⟩ = none := by
      intro v
      cases kind <;> first | rfl | cases hkind
    rw [openedBraces, braces, List.flatMap_cons, ← braces, braces_append, braces_of_isGap hgap, hbrace, hbrace]
    split
    · rw [hheader]
      rfl
    · rfl

theorem Balanced.respaces {header : List Shape} (h : Balanced A) (hentries : entries A = 0)
    (hheader : braces header = [true]) (hB : Expands (Respaces header f) A B) : Balanced B := by
  rw [Balanced, braces_respaces hheader hB, foldlM_openedBraces h, hentries]

theorem Balanced.append (hA : Balanced A) (hB : Balanced B) : Balanced (A ++ B) := by
  rw [Balanced, braces_append, List.foldlM_append, hA]
  exact hB

theorem Balanced.of_append (h : Balanced (A ++ B)) (hA : Balanced A) : Balanced B := by
  rw [Balanced, braces_append, List.foldlM_append, hA] at h
  exact h

theorem balanced_of_braces (h : braces A = []) : Balanced A := by
  rw [Balanced, h]
  rfl

/-- One class encloses everything behind its head, and the last brace closes it. -/
def Encloses (container : Text) (shapes : List Shape) : Prop :=
  ∃ head body w, shapes = head ++ classShapes container ++ openBrace :: (body ++ [closeBrace, ⟨.whitespace, w⟩]) ∧
    Balanced head ∧ Balanced body

theorem brace?_wordKind (w : Text) : Shape.brace? ⟨wordKind w, w⟩ = none := by
  rw [Shape.brace?, if_neg]
  unfold wordKind
  split <;> simp

theorem braces_namespaceShapes {name : Text} (h : QualifiedName name A) : braces (namespaceShapes A) = [] := by
  have hname : braces A = [] := by
    rw [braces, List.flatMap_eq_nil_iff]
    intro x hx
    rcases h.mem_shapes hx with rfl | ⟨w, -, rfl⟩
    · rfl
    · rw [brace?_wordKind]
      rfl
  have : namespaceShapes A = [⟨.whitespace, ['\n']⟩, ⟨.identifier, "namespace".toList⟩, ⟨.whitespace, [' ']⟩] ++
    A ++ [⟨.punct, [';']⟩] := rfl
  rw [this, braces_append, braces_append, hname]
  rfl

theorem braces_classShapes (container : Text) : braces (classShapes container) = [] := by
  simp only [classShapes, braces, List.flatMap_cons, brace?_wordKind]
  rfl

theorem braces_containerShapes {name : Text} (h : QualifiedName name A) (container : Text) :
    braces (containerShapes A container) = [true] := by
  rw [containerShapes, braces_append, braces_append, braces_namespaceShapes h, braces_classShapes]
  rfl

/-- A file that is cut into tokens and has balanced braces is still cut into tokens when it has become a
container class, provided that the literal open tag stands nowhere but in open tags, strings, attributes
and block comments. The braces balance exactly if a file that ends in code has one literal open tag and
one that ends outside of it has none. The class encloses the file if the tag stands outside all braces. -/
theorem functionSource_closes_container (ns : Namespace) (hns : ns.Accepted) (container : Text)
    (hcontainer : isIdentifier container = true) (source : Text) (tokens : List Token)
    (htokens : tokenize source = .ok tokens) (hbalanced : Balanced (tokens.map Token.shape))
    (hplace : TagsInPlace (tokens.map Token.shape)) :
    ∃ revised, tokenize (Revision.functionSource ⟨ns, RenameTable.empty⟩ container source) = .ok revised ∧
      (Balanced (revised.map Token.shape) ↔ entries (tokens.map Token.shape) =
        if Mode.html.behind (tokens.map Token.shape) = .code then 1 else 0) ∧
      (Mode.html.behind (tokens.map Token.shape) = .code → ∀ before tag behind,
        tokens.map Token.shape = before ++ tag :: behind → tag.isEntry = true → entries before = 0 →
        entries behind = 0 → Balanced before → Encloses container (revised.map Token.shape)) := by
  obtain ⟨name, hname⟩ := exists_qualifiedName_functionsRoot hns
  have hcuts := cuts_of_tokensFrom htokens
  generalize tokens.map Token.shape = A at *
  obtain ⟨B, gap, last, hwrapped, hB, hgap, hlast⟩ :=
    hcuts.exists_wrapped (header_container hname hcontainer) hplace
  obtain ⟨revised, hrevised, hshapes⟩ := hwrapped.exists_tokens 0
  have hsource : Revision.functionSource ⟨ns, RenameTable.empty⟩ container source =
      headed (containerText ns container) (Layout.indent source) ++ closing := wrapInContainer_eq _ _ _
  have hheader := braces_containerShapes hname container
  have hbraces := braces_respaces hheader hB
  have hdepth := foldlM_openedBraces hbalanced
  refine ⟨revised, by rw [hsource]; exact hrevised, ?_, ?_⟩
  · rw [hshapes, Balanced, braces_append, braces_append, braces_of_isGap hgap, hbraces, List.nil_append,
      List.foldlM_append, hdepth, Nat.zero_add]
    split at hlast
    · obtain ⟨w, rfl⟩ := hlast
      rw [if_pos (by assumption)]
      have hlast : braces [closeBrace, ⟨.whitespace, w⟩] = [false] := rfl
      rw [hlast]
      cases entries A with
      | zero => simp [List.foldlM_cons, braceStep]
      | succ n => simp [List.foldlM_cons, braceStep]
    · subst hlast
      rw [if_neg (by assumption)]
      simp [braces]
  · intro hcode before tag behind hA htag hbefore hbehind hbal
    rw [if_pos hcode] at hlast
    obtain ⟨w, rfl⟩ := hlast
    subst hA
    obtain ⟨B₁, ys, B₂, rfl, hB₁, htag', hB₂⟩ := hB.exists_of_cons
    obtain ⟨v, gap', rfl, hgap'⟩ := htag'.exists_of_isEntry htag
    have htagged : Balanced [tag] := balanced_of_braces (by simp [braces, Shape.brace?_of_isEntry htag])
    have hrest : Balanced behind := (hbalanced.of_append hbal).of_append (A := [tag]) htagged
    refine ⟨B₁ ++ ⟨.openTag, v⟩ :: namespaceShapes name, gap' ++ B₂ ++ gap, w, ?_, ?_, ?_⟩
    · rw [hshapes]
      simp [containerShapes]
    · refine (hbal.respaces hbefore hheader hB₁).append (balanced_of_braces ?_)
      rw [braces, List.flatMap_cons, ← braces, braces_namespaceShapes hname]
      rfl
    · have hgaps : ∀ {gap}, (∀ x ∈ gap, x.isGap = true) → Balanced gap :=
        fun h => balanced_of_braces (braces_of_isGap h)
      exact ((hgaps hgap').append (hrest.respaces hbehind hheader hB₂)).append (hgaps hgap)

theorem tagsInPlace_of_not_mem (hstray : ∀ x ∈ A, x.isStray = false) (hless : ⟨.punct, ['<']⟩ ∉ A) :
    TagsInPlace A where
  held := hstray
  unspelled B C w heq := hless (by simp [heq, spelledTag])

end

theorem eq_ok_of_toOption_eq_some {ε α : Type} {result : Except ε α} {value : α}
    (h : result.toOption = some value) : result = .ok value := by
  cases result with
  | error => cases h
  | ok => exact congrArg _ (Option.some.inj h)

/-- A file with one function. -/
theorem functionSource_closes_container_of_function :
    let ns : Namespace := ⟨"Facebook\\Libphutil".toList, "Functions".toList⟩
    let source := "<?php\nfunction f() \x7b\x7d\n".toList
    let tokens : List Token := [⟨.openTag, "<?php\n".toList, 0⟩, ⟨.keyword .functionKw, "function".toList, 6⟩,
      ⟨.whitespace, [' '], 14⟩, ⟨.identifier, ['f'], 15⟩, ⟨.punct, ['('], 16⟩, ⟨.punct, [')'], 17⟩,
      ⟨.whitespace, [' '], 18⟩, ⟨.punct, ['\x7b'], 19⟩, ⟨.punct, ['\x7d'], 20⟩, ⟨.whitespace, ['\n'], 21⟩]
    (ns.Accepted ∧ isIdentifier ['u'] = true ∧ tokenize source = .ok tokens ∧
      Balanced (tokens.map Token.shape) ∧ TagsInPlace (tokens.map Token.shape)) ∧
    ∃ revised, tokenize (Revision.functionSource ⟨ns, RenameTable.empty⟩ ['u'] source) = .ok revised ∧
      Balanced (revised.map Token.shape) ∧ Encloses ['u'] (revised.map Token.shape) := by
  intro ns source tokens
  have hns : ns.Accepted := ⟨by decide, by decide⟩
  have htokens : tokenize source = .ok tokens := by decide +kernel
  have hbalanced : Balanced (tokens.map Token.shape) := by decide
  have hplace : TagsInPlace (tokens.map Token.shape) := tagsInPlace_of_not_mem (by decide) (by decide)
  obtain ⟨revised, hrevised, hiff, hencloses⟩ := functionSource_closes_container ns hns ['u'] (by decide)
    source tokens htokens hbalanced hplace
  exact ⟨⟨hns, by decide, htokens, hbalanced, hplace⟩, revised, hrevised, hiff.2 (by decide),
    hencloses (by decide) [] _ _ rfl (by decide) (by decide) (by decide) (by decide)⟩

/-- A close tag at the end of the file leaves the container class open. -/
theorem functionSource_leaves_container_open :
    let ns : Namespace := ⟨"Facebook\\Libphutil".toList, "Functions".toList⟩
    let source := "<?php\nfunction f() \x7b\x7d\n?>\n".toList
    (ns.Accepted ∧ isIdentifier ['u'] = true ∧ Outline.ofSource source = .ok ⟨none, [['f']]⟩ ∧
      (tokenize source).toOption.any (fun tokens => Balanced (tokens.map Token.shape)) = true) ∧
    ¬ ∃ revised, tokenize (Revision.functionSource ⟨ns, RenameTable.empty⟩ ['u'] source) = .ok revised ∧
      Balanced (revised.map Token.shape) := by
  intro ns source
  refine ⟨⟨⟨by decide, by decide⟩, by decide, by decide +kernel, by decide +kernel⟩, ?_⟩
  rintro ⟨revised, hrevised, hbalanced⟩
  have hnot : (tokenize (Revision.functionSource ⟨ns, RenameTable.empty⟩ ['u'] source)).toOption.any
      (fun tokens => Balanced (tokens.map Token.shape)) = false := by decide +kernel
  rw [hrevised] at hnot
  simp [Except.toOption, hbalanced] at hnot

end Namespacing
