import Mathlib.Data.List.Basic
import Namespacing.Token.Lexeme
set_option autoImplicit false

namespace Namespacing

namespace Lexeme

section

variable {σ : Type} (step : σ → Char → Option σ)

/-- Read on from a state, up to and including the character at which there is no next state. -/
def scan (state : σ) : Text → Option Nat
  | [] => none
  | c :: s =>
    match step state c with
    | none => some 1
    | some next => (scan next s).map (· + 1)

variable {step} {state : σ} {n : Nat}

theorem scan_bounds {s : Text} (h : scan step state s = some n) : 0 < n ∧ n ≤ s.length := by
  induction s generalizing state n with
  | nil => simp [scan] at h
  | cons c s ih =>
    rw [scan] at h
    split at h
    · simp only [Option.some.injEq] at h
      subst h
      simp
    · obtain ⟨m, hm, rfl⟩ := Option.map_eq_some_iff.1 h
      have := ih hm
      simp only [List.length_cons]
      omega

theorem scan_append (a b : Text) :
    scan step state (a ++ b) =
      match a.foldlM step state with
      | none => scan step state a
      | some next => (scan step next b).map (· + a.length) := by
  induction a generalizing state with
  | nil => simp
  | cons c a ih =>
    rw [List.cons_append, scan, scan, List.foldlM_cons]
    cases hc : step state c with
    | none => rfl
    | some next =>
      simp only [Option.bind_eq_bind, Option.bind_some, ih]
      cases ha : a.foldlM step next with
      | none => rfl
      | some last => simp [Function.comp_def, Nat.add_assoc]

theorem scan_flatMap {g : Char → Text}
    (h : ∀ state c, (step state c = none → g c = [c]) ∧
      ∀ next, step state c = some next → (g c).foldlM step state = some next) (s : Text) :
    scan step state (s.flatMap g) =
      (scan step state s).map fun n => ((s.take n).flatMap g).length := by
  induction s generalizing state with
  | nil => rfl
  | cons c s ih =>
    rw [List.flatMap_cons, scan_append, scan]
    cases hc : step state c with
    | none =>
      rw [(h state c).1 hc]
      simp [scan, hc, (h state c).1 hc]
    | some next =>
      simp only [(h state c).2 next hc, ih]
      cases scan step next s with
      | none => rfl
      | some n => simp [Nat.add_comm]

end

def quotedStep (quote : Char) : Bool → Char → Option Bool
  | true, _ => some false
  | false, c => if c = '\\' then some true else if c = quote then none else some false

def quoteMark (double : Bool) : Char :=
  if double then '"' else '\''

/-- The brackets that are open, and the quote that the scan is in with the state of its scan. -/
def attributeStep : Nat × Option (Bool × Bool) → Char → Option (Nat × Option (Bool × Bool))
  | (nested, some (double, escaped)), c =>
    match quotedStep (quoteMark double) escaped c with
    | none => some (nested, none)
    | some escaped => some (nested, some (double, escaped))
  | (nested, none), c =>
    if c = '\'' then some (nested, some (false, false))
    else if c = '"' then some (nested, some (true, false))
    else if c = '[' then some (nested + 1, none)
    else if c = ']' then
      match nested with
      | 0 => none
      | nested + 1 => some (nested, none)
    else some (nested, none)

def blockStep (star : Bool) (c : Char) : Option Bool :=
  if star ∧ c = '/' then none else some (c == '*')

theorem quotedLength?_eq_scan (quote : Char) (s : Text) :
    quotedLength? quote s = scan (quotedStep quote) false s := by
  fun_induction quotedLength? quote s with
  | case1 => rfl
  | case2 => rfl
  | case3 c s ih =>
    simp only [scan, quotedStep, ih, if_true]
    cases scan (quotedStep quote) false s <;> rfl
  | case4 s hnil hcons =>
    have hne : quote ≠ '\\' := by
      intro h
      cases s with
      | nil => exact hnil h rfl
      | cons c s => exact hcons c s h rfl
    simp [scan, quotedStep, hne]
  | case5 c s hnil hcons hquote ih =>
    have hne : c ≠ '\\' := by
      intro h
      cases s with
      | nil => exact hnil h rfl
      | cons d s => exact hcons d s h rfl
    simp [scan, quotedStep, hne, hquote, ih]

theorem attributeLength?_eq_scan (nested : Nat) (double? : Option Bool) (s : Text) :
    attributeLength? nested (double?.map quoteMark) s =
      scan attributeStep (nested, double?.map fun double => (double, false)) s := by
  generalize hquote : double?.map quoteMark = quote?
  fun_induction attributeLength? nested quote? s generalizing double? with
  | case1 => rfl
  | case2 nested quote =>
    obtain ⟨double, rfl, rfl⟩ := Option.map_eq_some_iff.1 hquote
    simp [scan, attributeStep, quotedStep]
  | case3 nested quote c s ih =>
    obtain ⟨double, rfl, rfl⟩ := Option.map_eq_some_iff.1 hquote
    simp only [scan, attributeStep, quotedStep, ih (some double) rfl, Option.map_some, if_true]
    cases scan attributeStep (nested, some (double, false)) s <;> rfl
  | case4 nested c s hc ih =>
    obtain ⟨double, rfl, rfl⟩ := Option.map_eq_some_iff.1 hquote
    simp [scan, attributeStep, quotedStep, hc, ih none rfl]
  | case5 nested quote c s hc hne ih =>
    obtain ⟨double, rfl, rfl⟩ := Option.map_eq_some_iff.1 hquote
    simp [scan, attributeStep, quotedStep, hc, hne, ih (some double) rfl]
  | case6 nested c s hc ih =>
    obtain rfl := Option.map_eq_none_iff.1 hquote
    rcases hc with rfl | rfl
    · simp [scan, attributeStep, ih (some false) rfl]
    · simp [scan, attributeStep, ih (some true) rfl]
  | case7 nested s hc ih =>
    obtain rfl := Option.map_eq_none_iff.1 hquote
    simp [scan, attributeStep, ih none rfl]
  | case8 s hc hopen =>
    obtain rfl := Option.map_eq_none_iff.1 hquote
    simp [scan, attributeStep]
  | case9 s hc hopen nested ih =>
    obtain rfl := Option.map_eq_none_iff.1 hquote
    simp [scan, attributeStep, ih none rfl]
  | case10 nested c s hc hopen hclose ih =>
    obtain rfl := Option.map_eq_none_iff.1 hquote
    simp only [not_or] at hc
    simp [scan, attributeStep, hc, hopen, hclose, ih none rfl]

theorem foldlM_attributeStep_some {nested : Nat} {double escaped escaped' : Bool} {body : Text}
    (h : body.foldlM (quotedStep (quoteMark double)) escaped = some escaped') :
    body.foldlM attributeStep (nested, some (double, escaped)) = some (nested, some (double, escaped')) := by
  induction body generalizing escaped with
  | nil =>
    obtain rfl := Option.some.inj h
    rfl
  | cons c body ih =>
    rw [List.foldlM_cons] at h ⊢
    rw [attributeStep]
    cases hc : quotedStep (quoteMark double) escaped c with
    | none =>
      rw [hc] at h
      cases h
    | some next =>
      rw [hc] at h
      exact ih h

theorem scan_blockStep_true (s : Text) :
    scan blockStep true s = if s.head? = some '/' then some 1 else scan blockStep false s := by
  cases s with
  | nil => rfl
  | cons c s =>
    by_cases hc : c = '/'
    · simp [scan, blockStep, hc]
    · simp [scan, blockStep, hc]

theorem blockCommentLength?_eq_scan (s : Text) :
    blockCommentLength? s = scan blockStep false s := by
  fun_induction blockCommentLength? s with
  | case1 => rfl
  | case2 s => rfl
  | case3 c s hne ih =>
    rw [ih, scan]
    simp only [blockStep, Bool.false_eq_true, false_and, if_false]
    by_cases hc : c = '*'
    · subst hc
      rw [beq_self_eq_true, scan_blockStep_true, if_neg]
      intro hs
      cases s with
      | nil => cases hs
      | cons d s => exact hne s rfl (by simpa using hs)
    · rw [beq_false_of_ne hc]

theorem openTagLength?_eq_none {s : Text} (h : ∀ after, s ≠ '<' :: '?' :: after) :
    openTagLength? s = none := by
  unfold openTagLength?
  split
  · exact absurd rfl (h _)
  · rfl

def phpTagLength? (r : Text) : Option Nat :=
  if r = [] then some 5
  else if r.head? = some '\r' ∧ r.tail.head? = some '\n' then some 7
  else if r.head?.any isSpace then some 6
  else none

theorem openTagLength?_php {w : Text} (hw : w.map Char.toLower = "php".toList) (r : Text) :
    openTagLength? ('<' :: '?' :: (w ++ r)) = phpTagLength? r := by
  have hlen : w.length = 3 := by simpa using congrArg List.length hw
  have htake : (w ++ r).take 3 = w := by rw [← hlen, List.take_left]
  have hdrop : (w ++ r).drop 3 = r := by rw [← hlen, List.drop_left]
  have hphp : (w ++ r).length ≥ 3 ∧ ((w ++ r).take 3).map Char.toLower = "php".toList :=
    ⟨by simp [hlen], by rw [htake, hw]⟩
  simp only [openTagLength?]
  rw [if_pos hphp, hdrop]
  split
  · rfl
  · simp [phpTagLength?]
  · rename_i c r hne
    have hcrlf : ¬ ((c :: r).head? = some '\r' ∧ (c :: r).tail.head? = some '\n') := by
      rintro ⟨hc, hr⟩
      cases r with
      | nil => cases hr
      | cons d r => exact hne r (by simpa using hc) (by simpa using hr)
    simp only [phpTagLength?, List.cons_ne_nil, if_false, if_neg hcrlf]
    rfl

theorem openTagLength?_short {after : Text}
    (h : ∀ w r, after = w ++ r → w.map Char.toLower ≠ "php".toList) :
    openTagLength? ('<' :: '?' :: after) =
      if after.head? = some '=' then some 3
      else if Text.startsWith "xml".toList after then none
      else some 2 := by
  have hnot : ¬ (after.length ≥ 3 ∧ (after.take 3).map Char.toLower = "php".toList) := fun hphp =>
    h (after.take 3) (after.drop 3) (List.take_append_drop 3 after).symm hphp.2
  simp only [openTagLength?]
  rw [if_neg hnot]

end Lexeme

end Namespacing
