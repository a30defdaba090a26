import Namespacing.Outline
import Namespacing.Proofs.Token.Expansion
set_option autoImplicit false

/-!
# What an outline does not see

An outline is read off the kinds of the tokens and the texts of a few of them. A remark may become another
remark, and a token that does no more than end a declaration may become several such tokens, without a
change of the outline.
-/

namespace Namespacing

def TokenKind.isRemark : TokenKind → Bool
  | .comment | .docComment | .attribute => true
  | _ => false

/-- A token that ends a declaration of a function and means nothing else. -/
def Shape.isInert (x : Shape) : Bool :=
  match x.kind with
  | .inlineHtml | .openTag | .closeTag | .string | .heredoc | .variable | .number => true
  | .punct => decide (x.text ≠ ['&'] ∧ x.text ≠ ['\x7b'] ∧ x.text ≠ ['\x7d'])
  | _ => false

/-- The tokens that may stand in place of a token. -/
inductive Veils : Shape → List Shape → Prop where
  | same (x : Shape) : Veils x [x]
  | remark {x y : Shape} (hx : x.kind.isRemark = true) (hy : y.kind.isRemark = true) : Veils x [y]
  | inert {x y : Shape} {ys : List Shape} (hx : x.isInert = true) (hys : ∀ z ∈ y :: ys, z.isInert = true) :
      Veils x (y :: ys)

namespace Outline

section

variable {token : Token} {depth : Nat} {declaring : Bool} {tokens : List Token}

theorem functionsFrom_remark (h : token.kind.isRemark = true) :
    functionsFrom depth declaring (token :: tokens) = functionsFrom depth declaring tokens := by
  obtain ⟨kind, text, offset⟩ := token
  cases kind <;> first | rfl | cases h

theorem functionsFrom_inert (h : token.shape.isInert = true) :
    functionsFrom depth declaring (token :: tokens) = functionsFrom depth false tokens := by
  obtain ⟨kind, text, offset⟩ := token
  cases kind with
  | punct =>
    have hne : text ≠ ['&'] ∧ text ≠ ['\x7b'] ∧ text ≠ ['\x7d'] := of_decide_eq_true h
    simp [functionsFrom, depthAfter, hne]
  | _ => first | rfl | cases h

theorem functionsFrom_congr {other : Token} (h : other.shape = token.shape) {rest : List Token}
    (hrest : ∀ depth declaring, functionsFrom depth declaring rest = functionsFrom depth declaring tokens) :
    functionsFrom depth declaring (other :: rest) = functionsFrom depth declaring (token :: tokens) := by
  obtain ⟨hkind, htext⟩ := Shape.mk.inj h
  simp only [functionsFrom, hkind, htext, hrest]

theorem classLikeAt?_of_not_keyword (h : ClassKind.ofToken? token.kind = none) :
    classLikeAt? (token :: tokens) = none := by
  match tokens with
  | [] => rfl
  | [_] => rfl
  | _ :: _ :: _ => simp [classLikeAt?, h]

theorem firstClassLike?_of_not_keyword (h : ClassKind.ofToken? token.kind = none) :
    firstClassLike? (token :: tokens) = firstClassLike? tokens := by
  rw [firstClassLike?, classLikeAt?_of_not_keyword h]

end

theorem not_keyword_of_isInert {x : Shape} (h : x.isInert = true) : ClassKind.ofToken? x.kind = none := by
  obtain ⟨kind, text⟩ := x
  cases kind <;> first | rfl | cases h

theorem not_keyword_of_isRemark {kind : TokenKind} (h : kind.isRemark = true) :
    ClassKind.ofToken? kind = none := by
  cases kind <;> first | rfl | cases h

section

variable {word space name : Token} {tokens : List Token}

theorem classLikeAt?_of_not_space (h : space.kind ≠ .whitespace) :
    classLikeAt? (word :: space :: tokens) = none := by
  match tokens with
  | [] => rfl
  | _ :: _ =>
    simp only [classLikeAt?]
    split <;> simp [h]

theorem classLikeAt?_of_not_name (h : name.kind ≠ .identifier) :
    classLikeAt? (word :: space :: name :: tokens) = none := by
  simp only [classLikeAt?]
  split <;> simp [h]

end

theorem exists_of_classLikeAt? {token : Token} {tokens : List Token} {declared : ClassLike}
    (h : classLikeAt? (token :: tokens) = some declared) :
    ∃ space name behind, tokens = space :: name :: behind := by
  match tokens, h with
  | space :: name :: behind, _ => exact ⟨space, name, behind, rfl⟩

theorem classLikeAt?_eq_some {word space name : Token} {behind : List Token} {declared : ClassLike}
    (h : classLikeAt? (word :: space :: name :: behind) = some declared) :
    ClassKind.ofToken? word.kind = some declared.kind ∧ space.kind = .whitespace ∧ name.kind = .identifier ∧
      declared.name = name.text := by
  simp only [classLikeAt?] at h
  cases hkind : ClassKind.ofToken? word.kind with
  | none =>
    rw [hkind] at h
    cases h
  | some kind =>
    rw [hkind] at h
    simp only [Option.ite_none_right_eq_some, Option.some.injEq] at h
    obtain ⟨⟨hspace, hname⟩, rfl⟩ := h
    exact ⟨rfl, hspace, hname, rfl⟩

theorem exists_head_of_veils {x : Shape} {ys : List Shape} (h : Veils x ys) :
    ys = [x] ∨ ∃ y zs, ys = y :: zs ∧
      ∀ z ∈ [x, y], ClassKind.ofToken? z.kind = none ∧ z.kind ≠ .whitespace ∧ z.kind ≠ .identifier := by
  have hremark : ∀ kind : TokenKind, kind.isRemark = true →
      ClassKind.ofToken? kind = none ∧ kind ≠ .whitespace ∧ kind ≠ .identifier := by
    intro kind hkind
    cases kind <;> first | exact ⟨rfl, by decide, by decide⟩ | cases hkind
  have hinert : ∀ z : Shape, z.isInert = true →
      ClassKind.ofToken? z.kind = none ∧ z.kind ≠ .whitespace ∧ z.kind ≠ .identifier := by
    rintro ⟨kind, text⟩ hz
    cases kind <;> first | (cases hz; done) | exact ⟨rfl, by simp, by simp⟩
  cases h with
  | same => exact Or.inl rfl
  | @remark y hx hy => exact Or.inr ⟨y, [], rfl, by simpa using ⟨hremark _ hx, hremark _ hy⟩⟩
  | @inert y ys hx hys =>
    exact Or.inr ⟨y, ys, rfl, by simpa using ⟨hinert _ hx, hinert _ (hys y List.mem_cons_self)⟩⟩

theorem classLikeAt?_congr {word word' : Token} {tokens tokens' : List Token} (hword : word'.shape = word.shape)
    (h : Expands Veils (tokens.map Token.shape) (tokens'.map Token.shape)) :
    classLikeAt? (word' :: tokens') = classLikeAt? (word :: tokens) := by
  generalize hA : tokens.map Token.shape = A at h
  generalize hB : tokens'.map Token.shape = B at h
  cases h with
  | nil =>
    rw [List.map_eq_nil_iff.1 hA, List.map_eq_nil_iff.1 hB]
    rfl
  | @cons x ys A B hx rest =>
    obtain ⟨space, tokens, rfl, rfl, rfl⟩ := List.map_eq_cons_iff.1 hA
    rcases exists_head_of_veils hx with rfl | ⟨y, zs, rfl, hkinds⟩
    · obtain ⟨space', tokens', rfl, hspace, rfl⟩ := List.map_eq_cons_iff.1 hB
      generalize hA' : tokens.map Token.shape = A' at rest
      generalize hB' : tokens'.map Token.shape = B' at rest
      cases rest with
      | nil =>
        rw [List.map_eq_nil_iff.1 hA', List.map_eq_nil_iff.1 hB']
        rfl
      | cons hz =>
        obtain ⟨name, tokens, rfl, rfl, -⟩ := List.map_eq_cons_iff.1 hA'
        rcases exists_head_of_veils hz with rfl | ⟨z, zs, rfl, hkinds⟩
        · obtain ⟨name', tokens', rfl, hname, -⟩ := List.map_eq_cons_iff.1 hB'
          simp only [classLikeAt?, (Shape.mk.inj hword).1, (Shape.mk.inj hspace).1, (Shape.mk.inj hname).1,
            (Shape.mk.inj hname).2]
        · obtain ⟨name', tokens', rfl, rfl, -⟩ := List.map_eq_cons_iff.1 hB'
          rw [classLikeAt?_of_not_name (hkinds name.shape (by simp)).2.2,
            classLikeAt?_of_not_name (hkinds name'.shape (by simp)).2.2]
    · obtain ⟨space', tokens', rfl, rfl, -⟩ := List.map_eq_cons_iff.1 hB
      rw [classLikeAt?_of_not_space (hkinds space.shape (by simp)).2.1,
        classLikeAt?_of_not_space (hkinds space'.shape (by simp)).2.1]

theorem firstClassLike?_of_not_keywords {tokens : List Token}
    (h : ∀ token ∈ tokens, ClassKind.ofToken? token.kind = none) (rest : List Token) :
    firstClassLike? (tokens ++ rest) = firstClassLike? rest := by
  induction tokens with
  | nil => rfl
  | cons token tokens ih =>
    rw [List.cons_append, firstClassLike?_of_not_keyword (h token List.mem_cons_self),
      ih fun other hother => h other (List.mem_cons_of_mem _ hother)]

theorem functionsFrom_inerts {depth : Nat} {declaring : Bool} {tokens : List Token} (hne : tokens ≠ [])
    (h : ∀ token ∈ tokens, token.shape.isInert = true) (rest : List Token) :
    functionsFrom depth declaring (tokens ++ rest) = functionsFrom depth false rest := by
  induction tokens generalizing declaring with
  | nil => exact absurd rfl hne
  | cons token tokens ih =>
    rw [List.cons_append, functionsFrom_inert (h token List.mem_cons_self)]
    cases tokens with
    | nil => rfl
    | cons other tokens => exact ih (by simp) fun z hz => h z (List.mem_cons_of_mem _ hz)

theorem firstClassLike?_eq_of_veils {tokens tokens' : List Token}
    (h : Expands Veils (tokens.map Token.shape) (tokens'.map Token.shape)) :
    firstClassLike? tokens' = firstClassLike? tokens := by
  generalize hA : tokens.map Token.shape = A at h
  generalize hB : tokens'.map Token.shape = B at h
  induction h generalizing tokens tokens' with
  | nil => rw [List.map_eq_nil_iff.1 hA, List.map_eq_nil_iff.1 hB]
  | @cons x ys A B hx rest ih =>
    obtain ⟨token, tokens, rfl, rfl, rfl⟩ := List.map_eq_cons_iff.1 hA
    obtain ⟨others, tokens', rfl, rfl, rfl⟩ := List.map_eq_append_iff.1 hB
    have hrest := ih rfl rfl
    generalize hys : others.map Token.shape = ys at hx
    cases hx with
    | same =>
      obtain ⟨other, others, rfl, hother, hnil⟩ := List.map_eq_cons_iff.1 hys
      obtain rfl := List.map_eq_nil_iff.1 hnil
      rw [List.singleton_append, firstClassLike?, firstClassLike?, classLikeAt?_congr hother rest, hrest]
    | remark hx hy =>
      obtain ⟨other, others, rfl, rfl, hnil⟩ := List.map_eq_cons_iff.1 hys
      obtain rfl := List.map_eq_nil_iff.1 hnil
      rw [List.singleton_append, firstClassLike?_of_not_keyword (not_keyword_of_isRemark hx),
        firstClassLike?_of_not_keyword (not_keyword_of_isRemark hy), hrest]
    | inert hx hys' =>
      rw [firstClassLike?_of_not_keyword (not_keyword_of_isInert hx), firstClassLike?_of_not_keywords, hrest]
      intro other hother
      refine not_keyword_of_isInert (x := other.shape) (hys' _ ?_)
      rw [← hys]
      exact List.mem_map_of_mem hother

theorem functionsFrom_eq_of_veils {tokens tokens' : List Token}
    (h : Expands Veils (tokens.map Token.shape) (tokens'.map Token.shape)) (depth : Nat) (declaring : Bool) :
    functionsFrom depth declaring tokens' = functionsFrom depth declaring tokens := by
  generalize hA : tokens.map Token.shape = A at h
  generalize hB : tokens'.map Token.shape = B at h
  induction h generalizing tokens tokens' depth declaring with
  | nil => rw [List.map_eq_nil_iff.1 hA, List.map_eq_nil_iff.1 hB]
  | @cons x ys A B hx rest ih =>
    obtain ⟨token, tokens, rfl, rfl, rfl⟩ := List.map_eq_cons_iff.1 hA
    obtain ⟨others, tokens', rfl, rfl, rfl⟩ := List.map_eq_append_iff.1 hB
    have hrest := fun depth declaring => ih depth declaring rfl rfl
    generalize hys : others.map Token.shape = ys at hx
    cases hx with
    | same =>
      obtain ⟨other, others, rfl, hother, hnil⟩ := List.map_eq_cons_iff.1 hys
      obtain rfl := List.map_eq_nil_iff.1 hnil
      exact functionsFrom_congr hother hrest
    | remark hx hy =>
      obtain ⟨other, others, rfl, rfl, hnil⟩ := List.map_eq_cons_iff.1 hys
      obtain rfl := List.map_eq_nil_iff.1 hnil
      rw [List.singleton_append, functionsFrom_remark hx, functionsFrom_remark hy, hrest]
    | inert hx hys' =>
      have hne : others ≠ [] := by
        rintro rfl
        cases hys
      rw [functionsFrom_inert hx, functionsFrom_inerts hne, hrest]
      intro other hother
      refine hys' _ ?_
      rw [← hys]
      exact List.mem_map_of_mem hother

theorem ofTokens_eq_of_veils {tokens tokens' : List Token}
    (h : Expands Veils (tokens.map Token.shape) (tokens'.map Token.shape)) :
    ofTokens tokens' = ofTokens tokens := by
  rw [ofTokens, ofTokens, firstClassLike?_eq_of_veils h, functionsFrom_eq_of_veils h]

end Outline

end Namespacing
