import Namespacing.Proofs.RenameTable.Entries
import Namespacing.Proofs.Token.Headers
set_option autoImplicit false

namespace Namespacing

open Lexeme Text

/-- Words with backslashes between them, and their tokens. -/
inductive QualifiedName : Text → List Shape → Prop where
  | word {w : Text} (hw : isIdentifier w = true) : QualifiedName w [⟨wordKind w, w⟩]
  | cons {w v : Text} {shapes : List Shape} (hw : isIdentifier w = true) (rest : QualifiedName v shapes) :
      QualifiedName (w ++ '\\' :: v) (⟨wordKind w, w⟩ :: ⟨.punct, ['\\']⟩ :: shapes)

section

variable {t : Text} {B : List Shape}

theorem Cuts.word {w : Text} (hw : isIdentifier w = true) (ht : t.head?.any isWordChar = false)
    (rest : Cuts .code t B) : Cuts .code (w ++ t) (⟨wordKind w, w⟩ :: B) :=
  Cuts.code_cons (.word rfl hw ht) (isTag_wordKind w) rest

theorem Cuts.space {p : Text} (hne : p ≠ []) (hp : ∀ c ∈ p, isSpace c = true)
    (ht : t.head?.any isSpace = false) (rest : Cuts .code t B) :
    Cuts .code (p ++ t) (⟨.whitespace, p⟩ :: B) :=
  Cuts.code_cons (.space hne hp ht) rfl rest

theorem head_not_space_of_isIdentifier {w : Text} (hw : isIdentifier w = true) (t : Text) :
    (w ++ t).head?.any isSpace = false := by
  obtain ⟨c, w, rfl⟩ := List.exists_cons_of_ne_nil (ne_nil_of_isIdentifier hw)
  have hc : isWordChar c = true := isWordChar_of_mem hw List.mem_cons_self
  rw [List.cons_append, List.head?_cons, Option.any_some, Bool.eq_false_iff]
  intro hspace
  simp only [isSpace, Lexeme.isBlank, Bool.or_eq_true, beq_iff_eq] at hspace
  rcases hspace with ((rfl | rfl) | rfl) | rfl <;> cases hc

namespace QualifiedName

variable {v : Text} {A : List Shape}

theorem cuts (h : QualifiedName v A) (ht : t.head?.any isWordChar = false) (rest : Cuts .code t B) :
    Cuts .code (v ++ t) (A ++ B) := by
  induction h with
  | word hw => exact Cuts.word hw ht rest
  | cons hw _ ih =>
    rw [List.append_assoc]
    exact Cuts.word hw rfl (Cuts.mark rfl ih)

theorem snoc (h : QualifiedName v A) {w : Text} (hw : isIdentifier w = true) :
    QualifiedName (v ++ '\\' :: w) (A ++ [⟨.punct, ['\\']⟩, ⟨wordKind w, w⟩]) := by
  induction h with
  | word hv => exact .cons hv (.word hw)
  | cons hv _ ih =>
    rw [List.append_assoc]
    exact .cons hv ih

theorem head_not_space (h : QualifiedName v A) (t : Text) : (v ++ t).head?.any isSpace = false := by
  cases h with
  | word hw => exact head_not_space_of_isIdentifier hw t
  | cons hw _ =>
    rw [List.append_assoc]
    exact head_not_space_of_isIdentifier hw _

theorem isRunChar_of_mem (h : QualifiedName v A) {c : Char} (hc : c ∈ v) : isRunChar c = true := by
  induction h with
  | word hw => exact isRunChar_of_isWordChar (isWordChar_of_mem hw hc)
  | cons hw _ ih =>
    rcases List.mem_append.1 hc with hc | hc
    · exact isRunChar_of_isWordChar (isWordChar_of_mem hw hc)
    · rcases List.mem_cons.1 hc with rfl | hc
      · decide
      · exact ih hc

theorem mem_shapes (h : QualifiedName v A) {x : Shape} (hx : x ∈ A) :
    x = ⟨.punct, ['\\']⟩ ∨ ∃ w, isIdentifier w = true ∧ x = ⟨wordKind w, w⟩ := by
  induction h with
  | @word w hw => exact Or.inr ⟨w, hw, List.mem_singleton.1 hx⟩
  | @cons w v shapes hw _ ih =>
    rcases List.mem_cons.1 hx with rfl | hx
    · exact Or.inr ⟨w, hw, rfl⟩
    · rcases List.mem_cons.1 hx with rfl | hx
      · exact Or.inl rfl
      · exact ih hx

end QualifiedName

end

theorem exists_qualifiedName_of_pieces {pieces : List Text} (hne : pieces ≠ [])
    (h : ∀ w ∈ pieces, isIdentifier w = true) :
    ∃ shapes, QualifiedName (joinWith ['\\'] pieces) shapes := by
  induction pieces with
  | nil => exact absurd rfl hne
  | cons w pieces ih =>
    have hw := h w List.mem_cons_self
    cases pieces with
    | nil => exact ⟨_, .word (by simpa [joinWith, List.intercalate] using hw)⟩
    | cons v pieces =>
      obtain ⟨shapes, hrest⟩ := ih (by simp) fun u hu => h u (List.mem_cons_of_mem _ hu)
      refine ⟨⟨wordKind w, w⟩ :: ⟨.punct, ['\\']⟩ :: shapes, ?_⟩
      have hjoin : joinWith ['\\'] (w :: v :: pieces) = w ++ '\\' :: joinWith ['\\'] (v :: pieces) := by
        simp [joinWith, List.intercalate]
      rw [hjoin]
      exact .cons hw hrest

theorem exists_qualifiedName_root {ns : Namespace} (h : Settings.isRoot ns.root = true) :
    ∃ shapes, QualifiedName ns.root shapes := by
  rw [← joinWith_splitOn '\\' ns.root]
  exact exists_qualifiedName_of_pieces (splitOn_ne_nil _ _) (List.all_eq_true.1 h)

/-- A character that has no meaning in strings, attributes and block comments, but for the backslash. -/
def isPlain (c : Char) : Bool :=
  c ∉ ['\'', '"', '\x60', '*', '[', ']']

theorem isPlain_of_isRunChar {c : Char} (h : isRunChar c = true) : isPlain c = true := by
  rw [isPlain, decide_eq_true_eq]
  intro hmem
  have : ∀ d ∈ ['\'', '"', '\x60', '*', '[', ']'], isRunChar d = false := by decide
  rw [this c hmem] at h
  cases h

section

variable {v : Text} {c : Char}

theorem exists_foldlM_quotedStep {q : Char} (hv : q ∉ v) (escaped : Bool) :
    ∃ escaped', v.foldlM (quotedStep q) escaped = some escaped' := by
  induction v generalizing escaped with
  | nil => exact ⟨escaped, rfl⟩
  | cons d v ih =>
    rw [List.mem_cons, not_or] at hv
    obtain ⟨next, hnext⟩ : ∃ next, quotedStep q escaped d = some next := by
      cases escaped with
      | true => exact ⟨false, rfl⟩
      | false =>
        by_cases hd : d = '\\'
        · exact ⟨true, by simp [quotedStep, hd]⟩
        · exact ⟨false, by simp [quotedStep, hd, Ne.symm hv.1]⟩
    obtain ⟨last, hlast⟩ := ih hv.2 next
    exact ⟨last, by simp [List.foldlM_cons, hnext, hlast]⟩

/-- Behind a character that is no backslash nothing is taken. -/
theorem foldlM_quotedStep {q : Char} (hv : q ∉ v ++ [c]) (hc : c ≠ '\\') (escaped : Bool) :
    (v ++ [c]).foldlM (quotedStep q) escaped = some false := by
  rw [List.mem_append, not_or] at hv
  obtain ⟨last, hlast⟩ := exists_foldlM_quotedStep hv.1 escaped
  have hne : c ≠ q := fun h => hv.2 (by simp [h])
  rw [List.foldlM_append, hlast]
  cases last <;> simp [List.foldlM_cons, quotedStep, hc, hne]

theorem openTag_append_last : Layout.openTag = "<?ph".toList ++ ['p'] := rfl

theorem ignores_quotedStep {q : Char} (hq : q ∉ Layout.openTag) (hv : q ∉ v ++ [c]) (hc : c ≠ '\\') :
    Ignores (quotedStep q) (v ++ [c]) := by
  intro escaped
  refine ⟨false, ?_, foldlM_quotedStep hv hc false⟩
  rw [openTag_append_last] at hq ⊢
  exact foldlM_quotedStep hq (by decide) escaped

theorem foldlM_attributeStep_none (hv : ∀ d ∈ v, isPlain d = true) (nested : Nat) :
    v.foldlM attributeStep (nested, none) = some (nested, none) := by
  induction v with
  | nil => rfl
  | cons d v ih =>
    have hd := hv d List.mem_cons_self
    simp only [isPlain, decide_eq_true_eq, List.mem_cons, not_or] at hd
    rw [List.foldlM_cons]
    simp only [attributeStep, hd, if_false]
    exact ih fun e he => hv e (List.mem_cons_of_mem _ he)

theorem quoteMark_not_mem (hv : ∀ d ∈ v, isPlain d = true) (double : Bool) : quoteMark double ∉ v := by
  intro hmem
  have := hv _ hmem
  cases double <;> cases this

theorem ignores_attributeStep (hv : ∀ d ∈ v ++ [c], isPlain d = true) (hc : c ≠ '\\') :
    Ignores attributeStep (v ++ [c]) := by
  have htag : ∀ d ∈ Layout.openTag, isPlain d = true := by decide
  rintro ⟨nested, _ | ⟨double, escaped⟩⟩
  · exact ⟨(nested, none), foldlM_attributeStep_none htag nested, foldlM_attributeStep_none hv nested⟩
  · obtain ⟨next, hnext, hstay⟩ := ignores_quotedStep (quoteMark_not_mem htag double)
      (quoteMark_not_mem hv double) hc escaped
    exact ⟨(nested, some (double, next)), foldlM_attributeStep_some hnext, foldlM_attributeStep_some hstay⟩

theorem foldlM_blockStep (hv : ∀ d ∈ v, isPlain d = true) : v.foldlM blockStep false = some false := by
  induction v with
  | nil => rfl
  | cons d v ih =>
    have hd : d ≠ '*' := by
      rintro rfl
      cases hv _ List.mem_cons_self
    rw [List.foldlM_cons]
    simp only [blockStep, Bool.false_eq_true, false_and, if_false, beq_false_of_ne hd]
    exact ih fun e he => hv e (List.mem_cons_of_mem _ he)

theorem ignores_blockStep (hv : ∀ d ∈ v, isPlain d = true) : Ignores blockStep v := by
  intro star
  refine ⟨false, ?_, foldlM_blockStep hv⟩
  cases star <;> rfl

theorem header_of_plain {body : Text} {shapes : List Shape} (hbody : '\n' :: body = v ++ [c])
    (hplain : ∀ d ∈ '\n' :: body, isPlain d = true) (hc : c ≠ '\\')
    (hcuts : ∀ t B, Cuts .code t B → Cuts .code (body ++ t) (shapes ++ B)) :
    Header ('\n' :: body) shapes where
  cuts := ⟨body, rfl, hcuts⟩
  quoted q hq := by
    have hquote : ∀ q ∈ ['\'', '"', '\x60'], q ∉ Layout.openTag ∧ isPlain q = false := by decide
    obtain ⟨htag, hnot⟩ := hquote q hq
    rw [hbody] at hplain ⊢
    refine ignores_quotedStep htag (fun hmem => ?_) hc
    rw [hplain q hmem] at hnot
    cases hnot
  bracketed := by
    rw [hbody] at hplain ⊢
    exact ignores_attributeStep hplain hc
  commented := ignores_blockStep hplain

end

namespace Layout

def namespaceText (name : Text) : Text :=
  '\n' :: '\n' :: ("namespace ".toList ++ name ++ [';'])

def containerText (ns : Namespace) (container : Text) : Text :=
  namespaceText ns.functionsRoot ++ "\n\nclass ".toList ++ container ++ " \x7b".toList

def namespaceShapes (name : List Shape) : List Shape :=
  ⟨.whitespace, ['\n']⟩ :: ⟨.identifier, "namespace".toList⟩ :: ⟨.whitespace, [' ']⟩ ::
    (name ++ [⟨.punct, [';']⟩])

def classShapes (container : Text) : List Shape :=
  [⟨.whitespace, "\n\n".toList⟩, ⟨.keyword .classKw, "class".toList⟩, ⟨.whitespace, [' ']⟩,
    ⟨wordKind container, container⟩, ⟨.whitespace, [' ']⟩]

def openBrace : Shape :=
  ⟨.punct, ['\x7b']⟩

def containerShapes (name : List Shape) (container : Text) : List Shape :=
  namespaceShapes name ++ (classShapes container ++ [openBrace])

theorem declareNamespace_eq (ns : Namespace) (text : Text) :
    declareNamespace ns text = headed (namespaceText ns.root) text := by
  simp only [declareNamespace, headed, namespaceHeader, List.append_assoc]
  rfl

theorem wrapInContainer_eq (ns : Namespace) (container text : Text) :
    wrapInContainer ns container text = headed (containerText ns container) text ++ closing := by
  have hname : openTag ++ namespaceText ns.functionsRoot = namespaceHeader ns.functionsRoot := by
    simp only [namespaceHeader, List.append_assoc]
    rfl
  simp only [wrapInContainer, headed, containerText, ← hname, List.append_assoc]
  rfl

end Layout

open Layout

theorem cuts_namespace {name t : Text} {A B : List Shape} (hname : QualifiedName name A)
    (rest : Cuts .code t B) :
    Cuts .code ('\n' :: ("namespace ".toList ++ name ++ [';']) ++ t) (namespaceShapes A ++ B) := by
  have hmark : Cuts .code (';' :: t) (⟨.punct, [';']⟩ :: B) := Cuts.mark rfl rest
  have hrest := hname.cuts rfl hmark
  have hblank := Cuts.space (p := [' ']) (by simp) (by decide) (hname.head_not_space _) hrest
  have hword := Cuts.word (w := "namespace".toList) (by decide) rfl hblank
  have hline := Cuts.space (p := ['\n']) (by simp) (by decide) rfl hword
  have hkind : wordKind "namespace".toList = .identifier := by decide
  rw [hkind] at hline
  have htext : '\n' :: ("namespace ".toList ++ name ++ [';']) ++ t =
      ['\n'] ++ ("namespace".toList ++ ([' '] ++ (name ++ ';' :: t))) := by
    rw [List.cons_append, List.append_assoc, List.append_assoc]
    rfl
  have hshapes : namespaceShapes A ++ B = ⟨.whitespace, ['\n']⟩ :: ⟨.identifier, "namespace".toList⟩ ::
      ⟨.whitespace, [' ']⟩ :: (A ++ ⟨.punct, [';']⟩ :: B) := by
    rw [List.append_cons]
    rfl
  rw [htext, hshapes]
  exact hline

theorem cuts_class {container t : Text} {B : List Shape} (hcontainer : isIdentifier container = true)
    (rest : Cuts .code t B) :
    Cuts .code ("\n\nclass ".toList ++ container ++ " \x7b".toList ++ t)
      (classShapes container ++ openBrace :: B) := by
  have hmark : Cuts .code ('\x7b' :: t) (openBrace :: B) := Cuts.mark rfl rest
  have hgap := Cuts.space (p := [' ']) (by simp) (by decide) rfl hmark
  have hname := Cuts.word hcontainer rfl hgap
  have hblank := Cuts.space (p := [' ']) (by simp) (by decide)
    (head_not_space_of_isIdentifier hcontainer _) hname
  have hword := Cuts.word (w := "class".toList) (by decide) rfl hblank
  have hline := Cuts.space (p := "\n\n".toList) (by simp) (by decide) rfl hword
  have hkind : wordKind "class".toList = .keyword .classKw := by decide
  rw [hkind] at hline
  have htext : "\n\nclass ".toList ++ container ++ " \x7b".toList ++ t =
      "\n\n".toList ++ ("class".toList ++ ([' '] ++ (container ++ ([' '] ++ '\x7b' :: t)))) := by
    rw [List.append_assoc, List.append_assoc]
    rfl
  rw [htext]
  exact hline

theorem isPlain_of_mem_namespaceText {name : Text} {A : List Shape} (hname : QualifiedName name A)
    {c : Char} (hc : c ∈ namespaceText name) : isPlain c = true := by
  have hword : ∀ c ∈ "namespace ".toList, isPlain c = true := by decide
  simp only [namespaceText, List.mem_cons, List.mem_append, List.not_mem_nil,
    or_false] at hc
  rcases hc with rfl | rfl | (hc | hc) | rfl
  · rfl
  · rfl
  · exact hword c hc
  · exact isPlain_of_isRunChar (hname.isRunChar_of_mem hc)
  · rfl

theorem header_namespace {name : Text} {A : List Shape} (hname : QualifiedName name A) :
    Header (namespaceText name) (namespaceShapes A) := by
  exact header_of_plain (c := ';') (v := '\n' :: '\n' :: ("namespace ".toList ++ name)) rfl
    (fun c => isPlain_of_mem_namespaceText hname) (by decide) fun t B rest => cuts_namespace hname rest

theorem header_container {ns : Namespace} {container : Text} {A : List Shape}
    (hname : QualifiedName ns.functionsRoot A) (hcontainer : isIdentifier container = true) :
    Header (containerText ns container) (containerShapes A container) := by
  have hplain : ∀ c ∈ containerText ns container, isPlain c = true := by
    have hwords : ∀ c ∈ "\n\nclass ".toList ++ " \x7b".toList, isPlain c = true := by decide
    intro c hc
    simp only [containerText, List.mem_append] at hc
    rcases hc with ((hc | hc) | hc) | hc
    · exact isPlain_of_mem_namespaceText hname hc
    · exact hwords c (List.mem_append_left _ hc)
    · exact isPlain_of_isRunChar (isRunChar_of_isWordChar (isWordChar_of_mem hcontainer hc))
    · exact hwords c (List.mem_append_right _ hc)
  have heq : containerText ns container =
      '\n' :: ('\n' :: ("namespace ".toList ++ ns.functionsRoot ++ [';']) ++
        ("\n\nclass ".toList ++ container ++ " \x7b".toList)) := by
    rw [containerText, List.append_assoc, List.append_assoc]
    rfl
  have hlast : containerText ns container =
      namespaceText ns.functionsRoot ++ "\n\nclass ".toList ++ container ++ [' '] ++ ['\x7b'] := by
    rw [containerText, List.append_assoc _ [' ']]
    rfl
  rw [heq] at hplain hlast ⊢
  refine header_of_plain hlast hplain (by decide) fun t B rest => ?_
  have := cuts_namespace hname (cuts_class hcontainer rest)
  simpa only [containerShapes, List.append_assoc, List.singleton_append] using this

theorem exists_qualifiedName_functionsRoot {ns : Namespace} (h : ns.Accepted) :
    ∃ shapes, QualifiedName ns.functionsRoot shapes := by
  obtain ⟨A, hA⟩ := exists_qualifiedName_root h.root
  exact ⟨_, hA.snoc h.segment⟩

end Namespacing
