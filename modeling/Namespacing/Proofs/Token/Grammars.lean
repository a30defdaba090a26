import Namespacing.Proofs.Token.Lossless
import Namespacing.Proofs.Token.Terminators
set_option autoImplicit false

/-!
# The grammars of quoted strings, attributes and here-documents

What stands behind an opener up to the end of the lexeme, said without a scanner. Main statements: the scanners
of quoted strings, of attributes and of here-documents read exactly what the grammars describe, whether they go
through the characters of a text or through its octets.
-/

namespace Namespacing

open Lexeme Text

/-- A scanner reads exactly the front `w` of a text that, with what follows it, is in the grammar. It answers
the number of characters of `w` or, where it goes through the octets, the number of octets, so it stops between
two characters there too. There is at most one such front, and where there is none the scanner fails. -/
structure Reads (scanner : Text → Option Nat) (grammar : Text → Text → Prop) (s : Text) : Prop where
  chars (n : Nat) : scanner s = some n ↔ ∃ w r, s = w ++ r ∧ n = w.length ∧ grammar w r
  octets (n : Nat) : scanner s.octets = some n ↔ ∃ w r, s = w ++ r ∧ n = utf8Size w ∧ grammar w r
  unique {w r w' r' : Text} (hs : s = w ++ r) (h : grammar w r) (hs' : s = w' ++ r') (h' : grammar w' r') : w = w'
  fails : scanner s = none ↔ ∀ w r, s = w ++ r → ¬ grammar w r
  fails_octets : scanner s.octets = none ↔ ∀ w r, s = w ++ r → ¬ grammar w r

theorem Reads.of_chars {scanner : Text → Option Nat} {grammar : Text → Text → Prop} {s : Text}
    (hchars : ∀ n, scanner s = some n ↔ ∃ w r, s = w ++ r ∧ n = w.length ∧ grammar w r)
    (hspread : scanner (s.flatMap octetsOf) = (scanner s).map fun n => ((s.take n).flatMap octetsOf).length) :
    Reads scanner grammar s := by
  have hoctets : scanner s.octets = (scanner s).map fun n => utf8Size (s.take n) := by
    rw [octets_eq_flatMap, hspread]
    simp only [length_flatMap_octetsOf]
  have hfails : scanner s = none ↔ ∀ w r, s = w ++ r → ¬ grammar w r := by
    rw [Option.eq_none_iff_forall_ne_some]
    constructor
    · intro h w r hs hw
      exact h w.length ((hchars _).2 ⟨w, r, hs, rfl, hw⟩)
    · intro h n hn
      obtain ⟨w, r, hs, -, hw⟩ := (hchars n).1 hn
      exact h w r hs hw
  refine ⟨hchars, fun n => ?_, ?_, hfails, ?_⟩
  · rw [hoctets, Option.map_eq_some_iff]
    constructor
    · rintro ⟨m, hm, rfl⟩
      obtain ⟨w, r, rfl, rfl, hw⟩ := (hchars m).1 hm
      exact ⟨w, r, rfl, by rw [List.take_left], hw⟩
    · rintro ⟨w, r, rfl, rfl, hw⟩
      exact ⟨w.length, (hchars _).2 ⟨w, r, rfl, rfl, hw⟩, by rw [List.take_left]⟩
  · intro w r w' r' hs h hs' h'
    have hn := (hchars _).2 ⟨w, r, hs, rfl, h⟩
    have hn' := (hchars _).2 ⟨w', r', hs', rfl, h'⟩
    have hlength : w.length = w'.length := Option.some.inj (hn.symm.trans hn')
    exact (List.append_inj (hs.symm.trans hs') hlength).1
  · rw [hoctets, Option.map_eq_none_iff]
    exact hfails

inductive QuotedItems (quote : Char) : Text → Prop where
  | nil : QuotedItems quote []
  | plain {c : Char} {s : Text} (hc : c ≠ '\\') (hquote : c ≠ quote) (rest : QuotedItems quote s) :
      QuotedItems quote (c :: s)
  | escape (c : Char) {s : Text} (rest : QuotedItems quote s) : QuotedItems quote ('\\' :: c :: s)

def ClosedQuote (quote : Char) (w : Text) : Prop :=
  ∃ items, w = items ++ [quote] ∧ QuotedItems quote items

theorem quotedLength?_cons {quote c : Char} (hc : c ≠ '\\') (s : Text) :
    quotedLength? quote (c :: s) = if c = quote then some 1 else (quotedLength? quote s).map (· + 1) := by
  cases s with
  | nil => simp [quotedLength?, hc]
  | cons d s => simp [quotedLength?, hc]

theorem quotedLength?_of_items {quote : Char} (hquote : quote ≠ '\\') {items : Text}
    (h : QuotedItems quote items) (r : Text) :
    quotedLength? quote (items ++ quote :: r) = some (items.length + 1) := by
  induction h with
  | nil => rw [List.nil_append, quotedLength?_cons hquote, if_pos rfl, List.length_nil]
  | plain hc hne rest ih => rw [List.cons_append, quotedLength?_cons hc, if_neg hne, ih, List.length_cons]; rfl
  | escape c rest ih =>
    rw [List.cons_append, List.cons_append, quotedLength?, ih]
    rfl

theorem exists_items_of_quotedLength? {quote : Char} {s : Text} {n : Nat} (h : quotedLength? quote s = some n) :
    ∃ items r, s = items ++ quote :: r ∧ n = items.length + 1 ∧ QuotedItems quote items := by
  fun_induction quotedLength? quote s generalizing n with
  | case1 => cases h
  | case2 => cases h
  | case3 c s ih =>
    obtain ⟨m, hm, rfl⟩ := Option.map_eq_some_iff.1 h
    obtain ⟨items, r, rfl, rfl, hitems⟩ := ih hm
    exact ⟨'\\' :: c :: items, r, rfl, rfl, .escape c hitems⟩
  | case4 s => exact ⟨[], s, rfl, (Option.some.inj h).symm, .nil⟩
  | case5 c s hnil hcons hne ih =>
    obtain ⟨m, hm, rfl⟩ := Option.map_eq_some_iff.1 h
    obtain ⟨items, r, rfl, rfl, hitems⟩ := ih hm
    refine ⟨c :: items, r, rfl, rfl, .plain ?_ hne hitems⟩
    rintro rfl
    cases items with
    | nil => exact hcons quote r rfl rfl
    | cons d items => exact hcons d _ rfl rfl

/-- Behind an opening quote, the scanner of quoted strings reads exactly a sequence of items and the quote that
closes it. -/
theorem quotedLength?_reads {quote : Char} (hquote : quote ∈ ['\'', '"', '\x60']) (s : Text) :
    Reads (quotedLength? quote) (fun w _ => ClosedQuote quote w) s := by
  refine Reads.of_chars (fun n => ?_) (spreads_octetsOf.quotedLength?_eq hquote s)
  constructor
  · intro h
    obtain ⟨items, r, rfl, rfl, hitems⟩ := exists_items_of_quotedLength? h
    exact ⟨items ++ [quote], r, by simp, by simp, items, rfl, hitems⟩
  · rintro ⟨w, r, rfl, rfl, items, rfl, hitems⟩
    rw [List.append_assoc, List.singleton_append, quotedLength?_of_items (quote_ne hquote) hitems]
    simp

/-- A backslash takes an accent: of two octets a reader of octets skips one, and ends at the quote behind. -/
theorem quotedLength?_reads_accent :
    let s : Text := "ü\\é\"x".toList
    '"' ∈ ['\'', '"', '\x60'] ∧ Reads (quotedLength? '"') (fun w _ => ClosedQuote '"' w) s ∧
      quotedLength? '"' s.octets = some 6 ∧ ∃ w r, s = w ++ r ∧ 6 = utf8Size w ∧ ClosedQuote '"' w := by
  intro s
  have hquote : '"' ∈ ['\'', '"', '\x60'] := by decide
  have hreads := quotedLength?_reads hquote s
  have hlength : quotedLength? '"' s.octets = some 6 := by decide +kernel
  exact ⟨hquote, hreads, hlength, (hreads.octets 6).1 hlength⟩

section

variable {σ : Type} {step : σ → Char → Option σ} {state : σ}

theorem Lexeme.scan_append_of_some {x : Text} {n : Nat} (h : scan step state x = some n) (y : Text) :
    scan step state (x ++ y) = some n := by
  obtain ⟨u, r, rfl, rfl, hu⟩ := exists_of_scan h
  rw [List.append_assoc]
  exact scan_append_eq_length_iff.2 hu

theorem Lexeme.scan_eq_some_iff_first {ends : Text → Prop}
    (hfails : ∀ s, scan step state s = none ↔ ¬ ∃ w r, s = w ++ r ∧ ends w) {s : Text} {n : Nat} :
    scan step state s = some n ↔ ∃ w r, s = w ++ r ∧ n = w.length ∧ ends w ∧
      ∀ x y, s = x ++ y → ends x → w.length ≤ x.length := by
  have hbound : ∀ x y, ends x → ∃ m, scan step state (x ++ y) = some m ∧ m ≤ x.length := by
    intro x y hx
    have hsome : scan step state x ≠ none := fun h => (hfails x).1 h ⟨x, [], by simp, hx⟩
    obtain ⟨m, hm⟩ := Option.ne_none_iff_exists'.1 hsome
    exact ⟨m, scan_append_of_some hm y, (scan_bounds hm).2⟩
  have hfirst : ∀ {n}, scan step state s = some n → ∃ w r, s = w ++ r ∧ n = w.length ∧ ends w ∧
      ∀ x y, s = x ++ y → ends x → w.length ≤ x.length := by
    intro n h
    obtain ⟨w, r, rfl, rfl, hw⟩ := exists_of_scan h
    have hleast : ∀ x y, w ++ r = x ++ y → ends x → w.length ≤ x.length := by
      intro x y hxy hx
      obtain ⟨m, hm, hle⟩ := hbound x y hx
      rw [← hxy, h] at hm
      exact Option.some.inj hm ▸ hle
    obtain ⟨v, t, rfl, hv⟩ : ∃ v t, w = v ++ t ∧ ends v := by
      by_contra hnone
      rw [(hfails w).2 hnone] at hw
      cases hw
    have hle := hleast v (t ++ r) (List.append_assoc v t r) hv
    obtain rfl : t = [] := by
      rw [List.length_append] at hle
      exact List.eq_nil_of_length_eq_zero (by omega)
    exact ⟨v ++ [], r, rfl, rfl, by rwa [List.append_nil], hleast⟩
  refine ⟨hfirst, ?_⟩
  rintro ⟨w, r, rfl, rfl, hw, hleast⟩
  obtain ⟨m, hm, hle⟩ := hbound w r hw
  obtain ⟨v, t, hvt, rfl, hv, -⟩ := hfirst hm
  have hge := hleast v t hvt hv
  rw [hm, Nat.le_antisymm hle hge]

end

/-- A text whose last character is a bracket that closes outside of quotes, and in which one more bracket closes
than opens outside of quotes. -/
def EndsAttribute (w : Text) : Prop :=
  ∃ x outer, w = x ++ [']'] ∧ Outside x outer ∧ (outer ++ [']']).count ']' = (outer ++ [']']).count '[' + 1

def ClosedAttribute (w r : Text) : Prop :=
  EndsAttribute w ∧ ∀ x y, w ++ r = x ++ y → EndsAttribute x → w.length ≤ x.length

theorem closesAttribute_iff {s : Text} : ClosesAttribute s ↔ ∃ w r, s = w ++ r ∧ EndsAttribute w := by
  have hcount : ∀ outer : Text, (outer ++ [']']).count ']' = (outer ++ [']']).count '[' + 1 ↔
      outer.count ']' = outer.count '[' := by
    intro outer
    simp [List.count_append]
  constructor
  · rintro ⟨x, outer, y, rfl, houtside, hsame⟩
    exact ⟨x ++ [']'], y, by simp, x, outer, rfl, houtside, (hcount outer).2 hsame⟩
  · rintro ⟨w, r, rfl, x, outer, rfl, houtside, hmore⟩
    exact ⟨x, outer, r, by simp, houtside, (hcount outer).1 hmore⟩

/-- A scan that also tells the values that a counter takes. -/
structure CountedScan where
  values : List Int
  length? : Option Nat

def CountedScan.behind (scan : CountedScan) (values : List Int) (n : Nat) : CountedScan :=
  ⟨values ++ scan.values, scan.length?.map (· + n)⟩

/-- The scan of an attribute with the values of its counter at the brackets outside of quotes. The counter is an
integer and is lowered before it is looked at: no type keeps it from going below zero. -/
def countBrackets (depth : Int) (quote? : Option Char) : Text → CountedScan
  | [] => ⟨[], none⟩
  | c :: s =>
    match quote? with
    | some quote =>
      if c = '\\' then
        match s with
        | [] => ⟨[], none⟩
        | _ :: s => (countBrackets depth (some quote) s).behind [] 2
      else if c = quote then (countBrackets depth none s).behind [] 1
      else (countBrackets depth (some quote) s).behind [] 1
    | none =>
      if c = '\'' ∨ c = '"' then (countBrackets depth (some c) s).behind [] 1
      else if c = '[' then (countBrackets (depth + 1) none s).behind [depth + 1] 1
      else if c = ']' then
        if depth - 1 = 0 then ⟨[depth - 1], some 1⟩
        else (countBrackets (depth - 1) none s).behind [depth - 1] 1
      else (countBrackets depth none s).behind [] 1

structure CountedScan.Counts (scan : CountedScan) (length? : Option Nat) : Prop where
  length_eq : scan.length? = length?
  nonneg : ∀ value ∈ scan.values, 0 ≤ value

theorem CountedScan.Counts.behind {scan : CountedScan} {length? : Option Nat} (h : scan.Counts length?)
    {values : List Int} (hvalues : ∀ value ∈ values, 0 ≤ value) (n : Nat) :
    (scan.behind values n).Counts (length?.map (· + n)) where
  length_eq := by rw [CountedScan.behind, h.length_eq]
  nonneg value hmem := by
    rcases List.mem_append.1 hmem with hmem | hmem
    · exact hvalues value hmem
    · exact h.nonneg value hmem

theorem countBrackets_quoted (depth : Int) {quote c : Char} (hc : c ≠ '\\') (s : Text) :
    countBrackets depth (some quote) (c :: s) =
      (countBrackets depth (if c = quote then none else some quote) s).behind [] 1 := by
  by_cases hquote : c = quote
  · subst hquote
    cases s <;> simp [countBrackets, hc]
  · cases s <;> simp [countBrackets, hc, hquote]

theorem countBrackets_counts (nested : Nat) (quote? : Option Char) (s : Text) :
    (countBrackets (nested + 1) quote? s).Counts (attributeLength? nested quote? s) := by
  fun_induction attributeLength? nested quote? s with
  | case1 => exact ⟨rfl, by simp [countBrackets]⟩
  | case2 nested quote => exact ⟨rfl, by simp [countBrackets]⟩
  | case3 nested quote c s ih =>
    rw [countBrackets]
    exact ih.behind (by simp) 2
  | case4 nested s quote hc ih =>
    rw [countBrackets_quoted _ hc, if_pos rfl]
    exact ih.behind (by simp) 1
  | case5 nested c s quote hc hne ih =>
    rw [countBrackets_quoted _ hc, if_neg hne]
    exact ih.behind (by simp) 1
  | case6 nested c s hc ih =>
    simp only [countBrackets, if_pos hc]
    exact ih.behind (by simp) 1
  | case7 nested s hc ih =>
    simp only [countBrackets, if_neg hc, if_true]
    exact ih.behind (by simp; omega) 1
  | case8 s hc hopen =>
    simp only [countBrackets, if_neg hc, if_neg hopen]
    exact ⟨rfl, by simp⟩
  | case9 s nested hc hopen ih =>
    have hdepth : ((nested + 1 : Nat) : Int) + 1 - 1 = nested + 1 := by omega
    have hne : ¬ (nested : Int) + 1 = 0 := by omega
    simp only [countBrackets, if_neg hc, if_neg hopen, hdepth, if_neg hne, if_true]
    exact ih.behind (by simp; omega) 1
  | case10 nested c s hc hopen hclose ih =>
    simp only [countBrackets, if_neg hc, if_neg hopen, if_neg hclose]
    exact ih.behind (by simp) 1

/-- Behind `#[`, the scanner of attributes reads exactly the shortest front of the text that ends in a closing
bracket outside of quotes and closes one bracket more than it opens there. It fails exactly if there is no such
front, and its counter never goes below zero. -/
theorem attributeLength?_reads (s : Text) :
    Reads (attributeLength? 0 none) ClosedAttribute s ∧
      (attributeLength? 0 none s.octets = none ↔ ∀ w r, s = w ++ r → ¬ EndsAttribute w) ∧
      (countBrackets 1 none s.octets).length? = attributeLength? 0 none s.octets ∧
      ∀ depth ∈ (countBrackets 1 none s.octets).values, 0 ≤ depth := by
  have hfails : ∀ t, attributeLength? 0 none t = none ↔ ¬ ∃ w r, t = w ++ r ∧ EndsAttribute w :=
    fun t => attributeLength?_eq_none_iff.trans (not_congr closesAttribute_iff)
  have hreads : Reads (attributeLength? 0 none) ClosedAttribute s := by
    refine Reads.of_chars (fun n => ?_) (spreads_octetsOf.attributeLength?_eq s)
    simp only [attributeLength?_eq_scan_none] at hfails ⊢
    rw [scan_eq_some_iff_first hfails]
    constructor
    · rintro ⟨w, r, rfl, hn, hw⟩
      exact ⟨w, r, rfl, hn, hw⟩
    · rintro ⟨w, r, rfl, hn, hw⟩
      exact ⟨w, r, rfl, hn, hw⟩
  have hcounts := countBrackets_counts 0 none s.octets
  refine ⟨hreads, ?_, hcounts.length_eq, hcounts.nonneg⟩
  rw [hreads.fails_octets, ← hreads.fails, hfails s]
  simp

def StartsLine (lineStart : Bool) (lines : Text) : Prop :=
  lines = [] ∧ lineStart = true ∨ ∃ front, lines = front ++ ['\n']

theorem startsLine_nil_iff {lineStart : Bool} : StartsLine lineStart [] ↔ lineStart = true := by
  simp [StartsLine]

theorem startsLine_cons_iff {lineStart : Bool} {c : Char} {lines : Text} :
    StartsLine lineStart (c :: lines) ↔ StartsLine (c == '\n') lines := by
  cases lines with
  | nil =>
    rw [startsLine_nil_iff, beq_iff_eq]
    constructor
    · rintro (⟨h, -⟩ | ⟨front, h⟩)
      · cases h
      · cases front with
        | nil => exact (List.cons.inj h).1
        | cons d front => simp at h
    · rintro rfl
      exact Or.inr ⟨[], rfl⟩
  | cons d lines =>
    constructor
    · rintro (⟨h, -⟩ | ⟨front, h⟩)
      · cases h
      · cases front with
        | nil => cases (List.cons.inj h).2
        | cons e front => exact Or.inr ⟨front, (List.cons.inj h).2⟩
    · rintro (⟨h, -⟩ | ⟨front, h⟩)
      · cases h
      · exact Or.inr ⟨c :: front, by rw [h, List.cons_append]⟩

/-- Behind some lines, the first line that closes: it starts with blanks and the label as a whole word. -/
structure ClosesFirst (label : Text) (lineStart : Bool) (lines blanks r : Text) : Prop where
  starts : StartsLine lineStart lines
  blank : ∀ c ∈ blanks, isBlank c = true
  stop : r.head?.any isWordChar = false
  first (earlier later : Text) (hs : lines ++ (blanks ++ (label ++ r)) = earlier ++ later)
    (hstart : StartsLine lineStart earlier) (hcloses : ClosesLine label later) : lines.length ≤ earlier.length

theorem ClosesFirst.closesLine {label : Text} {lineStart : Bool} {lines blanks r : Text}
    (h : ClosesFirst label lineStart lines blanks r) : ClosesLine label (blanks ++ (label ++ r)) :=
  ⟨blanks, r, rfl, h.blank, h.stop⟩

theorem closesFirst_cons_iff {label : Text} {lineStart : Bool} {c : Char} {lines blanks r : Text}
    (hnot : ¬ (lineStart = true ∧ ClosesLine label (c :: (lines ++ (blanks ++ (label ++ r)))))) :
    ClosesFirst label lineStart (c :: lines) blanks r ↔ ClosesFirst label (c == '\n') lines blanks r := by
  constructor
  · intro h
    refine ⟨startsLine_cons_iff.1 h.starts, h.blank, h.stop, fun earlier later hs hstart hcloses => ?_⟩
    have hle := h.first (c :: earlier) later (congrArg (c :: ·) hs) (startsLine_cons_iff.2 hstart) hcloses
    exact Nat.le_of_succ_le_succ hle
  · intro h
    refine ⟨startsLine_cons_iff.2 h.starts, h.blank, h.stop, fun earlier later hs hstart hcloses => ?_⟩
    cases earlier with
    | nil =>
      obtain rfl : _ = later := hs
      exact absurd ⟨startsLine_nil_iff.1 hstart, hcloses⟩ hnot
    | cons d earlier =>
      obtain ⟨rfl, hrest⟩ := List.cons.inj hs
      exact Nat.succ_le_succ (h.first earlier later hrest (startsLine_cons_iff.1 hstart) hcloses)

section

variable {label : Text} (hlabel : label ≠ []) (hword : ∀ c ∈ label, isWordChar c = true)

include hlabel hword

theorem heredocBodyLength?_of_closesLine {s blanks r : Text} (hs : s = blanks ++ (label ++ r))
    (hblanks : ∀ c ∈ blanks, isBlank c = true) (hstop : r.head?.any isWordChar = false) :
    heredocBodyLength? label true s = some (blanks.length + label.length) := by
  have hlength := (closingLabelLength?_eq_some_iff hlabel hword).2 ⟨blanks, r, hs, hblanks, hstop, rfl⟩
  cases s with
  | nil => simp [hlabel] at hs
  | cons c s => simp [heredocBodyLength?, hlength]

theorem heredocBodyLength?_of_not_closesLine {lineStart : Bool} {c : Char} {s : Text}
    (hnot : ¬ (lineStart = true ∧ ClosesLine label (c :: s))) :
    heredocBodyLength? label lineStart (c :: s) = (heredocBodyLength? label (c == '\n') s).map (· + 1) := by
  cases lineStart with
  | false => exact heredocBodyLength?_of_not_start c s
  | true =>
    have hnone : closingLabelLength? label (c :: s) = none := by
      rw [← Option.not_isSome_iff_eq_none, isSome_closingLabelLength?_iff hlabel hword]
      exact fun h => hnot ⟨rfl, h⟩
    rw [heredocBodyLength?_of_not_closing hnone, heredocBodyLength?_of_not_start]

theorem heredocBodyLength?_eq_some_iff {lineStart : Bool} {s : Text} {n : Nat} :
    heredocBodyLength? label lineStart s = some n ↔ ∃ lines blanks r, s = lines ++ (blanks ++ (label ++ r)) ∧
      n = lines.length + blanks.length + label.length ∧ ClosesFirst label lineStart lines blanks r := by
  induction s generalizing lineStart n with
  | nil =>
    refine ⟨fun h => (by cases h), ?_⟩
    rintro ⟨lines, blanks, r, hs, -⟩
    simp [hlabel] at hs
  | cons c s ih =>
    -- A line that closes here is the first one; otherwise the lines go on with the character.
    by_cases hhere : lineStart = true ∧ ClosesLine label (c :: s)
    · obtain ⟨rfl, hcloses⟩ := hhere
      obtain ⟨blanks, r, hs, hblanks, hstop⟩ := id hcloses
      have hlength := heredocBodyLength?_of_closesLine hlabel hword hs hblanks hstop
      constructor
      · intro h
        obtain rfl : _ = n := Option.some.inj (hlength.symm.trans h)
        exact ⟨[], blanks, r, hs, by simp,
          startsLine_nil_iff.2 rfl, hblanks, hstop, fun _ _ _ _ _ => Nat.zero_le _⟩
      · rintro ⟨lines, blanks', r', hs', rfl, hfirst⟩
        have hle := hfirst.first [] (c :: s) hs'.symm (startsLine_nil_iff.2 rfl) hcloses
        obtain rfl : lines = [] := List.eq_nil_of_length_eq_zero (Nat.le_zero.1 hle)
        rw [heredocBodyLength?_of_closesLine hlabel hword hs' hfirst.blank hfirst.stop]
        simp
    · rw [heredocBodyLength?_of_not_closesLine hlabel hword hhere, Option.map_eq_some_iff]
      constructor
      · rintro ⟨m, hm, rfl⟩
        obtain ⟨lines, blanks, r, rfl, rfl, hfirst⟩ := ih.1 hm
        refine ⟨c :: lines, blanks, r, rfl, ?_, (closesFirst_cons_iff hhere).2 hfirst⟩
        rw [List.length_cons]
        omega
      · rintro ⟨lines, blanks, r, hs, rfl, hfirst⟩
        cases lines with
        | nil =>
          rw [List.nil_append] at hs
          exact absurd ⟨startsLine_nil_iff.1 hfirst.starts, hs ▸ hfirst.closesLine⟩ hhere
        | cons d lines =>
          obtain ⟨rfl, rfl⟩ := List.cons.inj hs
          refine ⟨_, ih.2 ⟨lines, blanks, r, rfl, rfl, (closesFirst_cons_iff hhere).1 hfirst⟩, ?_⟩
          rw [List.length_cons]
          omega

end

/-- A here-document behind `<<<`: blanks, a label as long as it can be, which may stand in quotes, the rest of its
line, and lines up to the label on the first line that closes. -/
inductive ClosedHeredoc : Text → Text → Prop where
  | mk {blanks quote label line lines indent r : Text} (hblanks : ∀ c ∈ blanks, isBlank c = true)
      (hquote : quote ∈ [[], ['"'], ['\'']]) (hlabel : label ≠ []) (hword : ∀ c ∈ label, isWordChar c = true)
      (hstop : (quote ++ line).head?.any isWordChar = false) (hline : '\n' ∉ line)
      (hcloses : ClosesFirst label true lines indent r) :
      ClosedHeredoc (blanks ++ (quote ++ (label ++ (quote ++ (line ++ '\n' :: (lines ++ (indent ++ label))))))) r

/-- Behind `<<<`, the scanner of here-documents reads exactly a header with a label and the lines up to and
including the label on the first line that closes. -/
theorem heredocLength?_reads (s : Text) : Reads heredocLength? ClosedHeredoc s := by
  refine Reads.of_chars (fun n => ?_) (spreads_octetsOf.heredocLength?_eq_map s)
  constructor
  · intro h
    obtain ⟨blanks, quote, label, line, body, m, hform⟩ := exists_heredocForm h
    obtain ⟨lines, indent, r, rfl, rfl, hfirst⟩ :=
      (heredocBodyLength?_eq_some_iff hform.label_ne_nil hform.word).1 hform.closes
    refine ⟨_, r, ?_, ?_, .mk hform.blank hform.quotes hform.label_ne_nil hform.word hform.stop
      hform.newline_not_mem hfirst⟩
    · simp [hform.text]
    · simp only [hform.length, List.length_append, List.length_cons]
      omega
  · rintro ⟨w, r, rfl, rfl, hw⟩
    cases hw with
    | @mk blanks quote label line lines indent _ hblanks hquote hlabel hword hstop hline hfirst =>
      have hbody := (heredocBodyLength?_eq_some_iff hlabel hword).2 ⟨lines, indent, r, rfl, rfl, hfirst⟩
      refine heredocLength?_of_form ⟨?_, hblanks, hquote, hlabel, hword, hstop, hline, hbody, ?_⟩
      · simp
      · simp only [List.length_append, List.length_cons]
        omega

example : heredocLength? "'A' é\nAB\n\tA€".toList = some 11 ∧
    heredocLength? (octets "'A' é\nAB\n\tA€".toList) = some 12 := by decide +kernel

end Namespacing
