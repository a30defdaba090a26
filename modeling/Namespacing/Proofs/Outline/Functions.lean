import Mathlib.Data.List.Induction
import Namespacing.Proofs.Outline.Veils
set_option autoImplicit false

/-!
# Which functions a file declares

The names of functions are collected in one pass that carries the brace depth and whether a `function` keyword
still waits for its name. `NamesFunction` says without that state which tokens are the names, by what stands
before them once trivia is left out. Main theorem: the names are the texts of exactly these tokens, in order,
and trivia does not matter to them.
-/

namespace Namespacing

namespace Outline

def significant (tokens : List Token) : List Token :=
  tokens.filter fun token => !token.kind.isTrivia

def depth (tokens : List Token) : Nat :=
  tokens.foldl (fun depth token => if token.kind = .punct then depthAfter depth token.text else depth) 0

/-- Trivia left out, some tokens end in a `function` keyword outside all braces, with no more than by-reference
marks behind it. -/
def Declares (before : List Token) : Prop :=
  ∃ earlier word marks, significant before = earlier ++ word :: marks ∧ word.kind = .keyword .functionKw ∧
    (∀ mark ∈ marks, mark.kind = .punct ∧ mark.text = ['&']) ∧ depth earlier = 0

/-- A token behind some others is the name of a function. -/
def NamesFunction (before : List Token) (token : Token) : Prop :=
  token.kind = .identifier ∧ Declares before

section

variable {before tokens : List Token} {token : Token}

theorem significant_concat_trivia (h : token.kind.isTrivia = true) :
    significant (before ++ [token]) = significant before := by
  simp [significant, h]

theorem significant_concat (h : token.kind.isTrivia = false) :
    significant (before ++ [token]) = significant before ++ [token] := by
  simp [significant, h]

theorem depth_concat : depth (before ++ [token]) =
    if token.kind = .punct then depthAfter (depth before) token.text else depth before := by
  rw [depth, List.foldl_append]
  rfl

theorem ne_punct_of_isTrivia {kind : TokenKind} (h : kind.isTrivia = true) : kind ≠ .punct := by
  rintro rfl
  cases h

theorem depth_significant (tokens : List Token) : depth (significant tokens) = depth tokens := by
  induction tokens using List.reverseRecOn with
  | nil => rfl
  | append_singleton tokens token ih =>
    cases h : token.kind.isTrivia with
    | true => rw [significant_concat_trivia h, depth_concat, if_neg (ne_punct_of_isTrivia h), ih]
    | false => rw [significant_concat h, depth_concat, depth_concat, ih]

theorem declares_concat_trivia (h : token.kind.isTrivia = true) : Declares (before ++ [token]) ↔ Declares before := by
  rw [Declares, significant_concat_trivia h]
  rfl

theorem declares_concat (h : token.kind.isTrivia = false) : Declares (before ++ [token]) ↔
    token.kind = .keyword .functionKw ∧ depth before = 0 ∨
      (token.kind = .punct ∧ token.text = ['&']) ∧ Declares before := by
  constructor
  · rintro ⟨earlier, word, marks, heq, hword, hmarks, hdepth⟩
    rw [significant_concat h] at heq
    rcases List.eq_nil_or_concat marks with rfl | ⟨marks, mark, rfl⟩
    · obtain ⟨rfl, hlast⟩ := List.append_inj' heq rfl
      obtain rfl := (List.cons.inj hlast).1
      exact Or.inl ⟨hword, by rwa [depth_significant] at hdepth⟩
    · rw [List.concat_eq_append, ← List.cons_append, ← List.append_assoc] at heq
      obtain ⟨hbefore, hlast⟩ := List.append_inj' heq rfl
      obtain rfl := (List.cons.inj hlast).1
      refine Or.inr ⟨hmarks token (by simp), earlier, word, marks, hbefore, hword, fun m hm => ?_, hdepth⟩
      exact hmarks m (by simp [hm])
  · rintro (⟨hword, hdepth⟩ | ⟨hmark, earlier, word, marks, heq, hword, hmarks, hdepth⟩)
    · exact ⟨significant before, token, [], significant_concat h, hword, by simp, by rwa [depth_significant]⟩
    · refine ⟨earlier, word, marks ++ [token], by simp [significant_concat h, heq], hword, fun m hm => ?_, hdepth⟩
      rcases List.mem_append.1 hm with hm | hm
      · exact hmarks m hm
      · rwa [List.mem_singleton.1 hm]

theorem not_declares_nil : ¬ Declares [] := by
  rintro ⟨earlier, word, marks, heq, -⟩
  simp [significant] at heq

def decideDeclares : (reversed : List Token) → Decidable (Declares reversed.reverse)
  | [] => .isFalse not_declares_nil
  | token :: rest =>
    have := decideDeclares rest
    match h : token.kind.isTrivia with
    | true => decidable_of_iff (Declares rest.reverse) (by rw [List.reverse_cons, declares_concat_trivia h])
    | false => decidable_of_iff (token.kind = .keyword .functionKw ∧ depth rest.reverse = 0 ∨
        (token.kind = .punct ∧ token.text = ['&']) ∧ Declares rest.reverse)
        (by rw [List.reverse_cons, declares_concat h])

instance (before : List Token) : Decidable (Declares before) :=
  have := decideDeclares before.reverse
  decidable_of_iff (Declares before.reverse.reverse) (by rw [List.reverse_reverse])

instance (before : List Token) (token : Token) : Decidable (NamesFunction before token) :=
  inferInstanceAs (Decidable (_ ∧ _))

end

/-- One step of the pass: its state is the depth behind the tokens so far and whether they end in a declaration. -/
theorem functionsFrom_cons (before tokens : List Token) (token : Token) :
    functionsFrom (depth before) (decide (Declares before)) (token :: tokens) =
      (if NamesFunction before token then [token.text] else []) ++
        functionsFrom (depth (before ++ [token])) (decide (Declares (before ++ [token]))) tokens := by
  cases htrivia : token.kind.isTrivia with
  | true =>
    have hname : ¬ NamesFunction before token := by
      rintro ⟨hkind, -⟩
      rw [hkind] at htrivia
      cases htrivia
    rw [if_neg hname, depth_concat, if_neg (ne_punct_of_isTrivia htrivia),
      decide_eq_decide.2 (declares_concat_trivia htrivia)]
    obtain ⟨kind, text, offset⟩ := token
    cases kind <;> first | rfl | cases htrivia
  | false =>
    have hdeclares : decide (Declares (before ++ [token])) = decide (token.kind = .keyword .functionKw ∧
        depth before = 0 ∨ (token.kind = .punct ∧ token.text = ['&']) ∧ Declares before) :=
      decide_eq_decide.2 (declares_concat htrivia)
    rw [hdeclares, depth_concat]
    obtain ⟨kind, text, offset⟩ := token
    cases kind with
    | keyword word => cases word <;> simp [functionsFrom, NamesFunction, beq_eq_decide]
    | identifier => by_cases h : Declares before <;> simp [functionsFrom, NamesFunction, h]
    | punct =>
      by_cases h : text = ['&']
      · by_cases h' : Declares before <;> simp [functionsFrom, NamesFunction, h, h', depthAfter]
      · simp [functionsFrom, NamesFunction, h]
    | _ => first | (cases htrivia; done) | simp [functionsFrom, NamesFunction]

def functionNames (tokens : List Token) : List Token :=
  (tokens.zipIdx.filter fun entry => NamesFunction (tokens.take entry.2) entry.1).map Prod.fst

theorem functionsFrom_eq (before tokens : List Token) :
    functionsFrom (depth before) (decide (Declares before)) tokens =
      (((tokens.zipIdx before.length).filter fun entry =>
        NamesFunction ((before ++ tokens).take entry.2) entry.1).map Prod.fst).map Token.text := by
  induction tokens generalizing before with
  | nil => rfl
  | cons token tokens ih =>
    have hrest := ih (before ++ [token])
    rw [List.append_assoc, List.singleton_append, List.length_append, List.length_singleton] at hrest
    rw [functionsFrom_cons, hrest, List.zipIdx_cons, List.filter_cons]
    dsimp only
    rw [List.take_left]
    by_cases h : NamesFunction before token
    · rw [if_pos h, if_pos (decide_eq_true h)]
      rfl
    · rw [if_neg h, if_neg (by simpa using h)]
      rfl

theorem functionsFrom_significant (depth : Nat) (declaring : Bool) (tokens : List Token) :
    functionsFrom depth declaring (significant tokens) = functionsFrom depth declaring tokens := by
  induction tokens generalizing depth declaring with
  | nil => rfl
  | cons token tokens ih =>
    cases htrivia : token.kind.isTrivia with
    | true =>
      rw [significant, List.filter_cons_of_neg (by simp [htrivia]), ← significant, ih]
      obtain ⟨kind, text, offset⟩ := token
      cases kind <;> first | rfl | cases htrivia
    | false =>
      rw [significant, List.filter_cons_of_pos (by simp [htrivia]), ← significant]
      exact functionsFrom_congr rfl ih

theorem functionsFrom_of_shapes {tokens others : List Token}
    (h : others.map Token.shape = tokens.map Token.shape) (depth : Nat) (declaring : Bool) :
    functionsFrom depth declaring others = functionsFrom depth declaring tokens := by
  induction tokens generalizing others depth declaring with
  | nil => rw [List.map_eq_nil_iff.1 h]
  | cons token tokens ih =>
    obtain ⟨other, others, rfl, hother, hothers⟩ := List.map_eq_cons_iff.1 h
    exact functionsFrom_congr hother fun depth declaring => ih hothers depth declaring

/-- The functions of a file are the texts of the tokens that name one, in order. A list that has the same tokens
but for trivia and for where they start has the same functions. -/
theorem functions_eq_functionNames (tokens : List Token) :
    (ofTokens tokens).functions = (functionNames tokens).map Token.text ∧
      ∀ others, (significant others).map Token.shape = (significant tokens).map Token.shape →
        (ofTokens others).functions = (ofTokens tokens).functions := by
  refine ⟨functionsFrom_eq [] tokens, fun others h => ?_⟩
  change functionsFrom 0 false others = functionsFrom 0 false tokens
  rw [← functionsFrom_significant, functionsFrom_of_shapes h, functionsFrom_significant]

/-- A comment between `function`, `&` and the name leaves the name what it is. -/
theorem functions_eq_functionNames_comment :
    let word : Token := ⟨.keyword .functionKw, "function".toList, 6⟩
    let mark : Token := ⟨.punct, ['&'], 14⟩
    let name : Token := ⟨.identifier, "idx".toList, 15⟩
    let remark : Token := ⟨.comment, "/* by reference */".toList, 14⟩
    functionNames [word, mark, name] = [name] ∧
    (ofTokens [word, mark, name]).functions = ["idx".toList] ∧
    (significant [word, remark, mark, remark, name]).map Token.shape =
      (significant [word, mark, name]).map Token.shape ∧
    (ofTokens [word, remark, mark, remark, name]).functions = ["idx".toList] := by
  intro word mark name remark
  have hnames : functionNames [word, mark, name] = [name] := by decide
  have hfunctions : (ofTokens [word, mark, name]).functions = ["idx".toList] :=
    (functions_eq_functionNames [word, mark, name]).1.trans (congrArg (List.map Token.text) hnames)
  have hshapes : (significant [word, remark, mark, remark, name]).map Token.shape =
      (significant [word, mark, name]).map Token.shape := by decide
  exact ⟨hnames, hfunctions, hshapes,
    ((functions_eq_functionNames [word, mark, name]).2 _ hshapes).trans hfunctions⟩

end Outline

end Namespacing
