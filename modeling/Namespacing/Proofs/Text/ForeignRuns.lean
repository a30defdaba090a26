import Namespacing.Proofs.Token.Octets
set_option autoImplicit false

namespace Namespacing

section

variable {α : Type} (p : α → Bool)

/-- The maximal runs of elements that are not in `p`, in order. -/
def runsOutside (l : List α) : List (List α) :=
  (l.splitOnP p).filter fun run => !run.isEmpty

variable {p}

theorem runsOutside_of_forall {l : List α} (h : ∀ a ∈ l, p a = false) :
    runsOutside p l = if l = [] then [] else [l] := by
  rw [runsOutside, List.splitOnP_eq_singleton h]
  cases l <;> rfl

theorem runsOutside_append_cons (x y : List α) {a : α} (ha : p a = true) :
    runsOutside p (x ++ a :: y) = runsOutside p x ++ runsOutside p y := by
  rw [runsOutside, List.splitOnP_append_cons x y ha, List.filter_append]
  rfl

theorem runsOutside_append_of_forall {x : List α} (hx : ∀ a ∈ x, p a = true) (y : List α) :
    runsOutside p (x ++ y) = runsOutside p y := by
  induction x with
  | nil => rfl
  | cons a x ih =>
    have hcut := runsOutside_append_cons [] (x ++ y) (hx a List.mem_cons_self)
    rw [List.cons_append]
    exact hcut.trans (ih fun b hb => hx b (List.mem_cons_of_mem _ hb))

theorem runsOutside_append_between {m : List α} (hm : m ≠ []) (hp : ∀ a ∈ m, p a = true) (x y : List α) :
    runsOutside p (x ++ (m ++ y)) = runsOutside p x ++ runsOutside p y := by
  obtain ⟨a, m, rfl⟩ := List.exists_cons_of_ne_nil hm
  rw [List.cons_append, runsOutside_append_cons _ _ (hp a List.mem_cons_self),
    runsOutside_append_of_forall fun b hb => hp b (List.mem_cons_of_mem _ hb)]

theorem runs_induction {motive : List α → Prop} (run : ∀ l, (∀ a ∈ l, p a = false) → motive l)
    (cut : ∀ x a y, p a = true → motive x → motive y → motive (x ++ a :: y)) (l : List α) : motive l := by
  -- The elements of the run that was gone through already stand in front.
  suffices ∀ x : List α, (∀ b ∈ x, p b = false) → motive (x ++ l) from this [] (by simp)
  induction l with
  | nil =>
    intro x hx
    rw [List.append_nil]
    exact run x hx
  | cons a l ih =>
    intro x hx
    cases ha : p a with
    | true => exact cut x a l ha (run x hx) (ih [] (by simp))
    | false =>
      have hrun := ih (x ++ [a]) (List.forall_mem_append.2 ⟨hx, by simpa using ha⟩)
      rwa [List.append_assoc] at hrun

theorem runsOutside_map {β : Type} {q : β → Bool} {f : α → β} (hq : ∀ a, q (f a) = p a) (l : List α) :
    runsOutside q (l.map f) = (runsOutside p l).map (List.map f) := by
  induction l using runs_induction (p := p) with
  | run l hl =>
    have hmap : ∀ b ∈ l.map f, q b = false := by
      intro b hb
      obtain ⟨a, ha, rfl⟩ := List.mem_map.1 hb
      rw [hq, hl a ha]
    rw [runsOutside_of_forall hl, runsOutside_of_forall hmap]
    cases l <;> rfl
  | cut x a y ha ihx ihy =>
    have hfa : q (f a) = true := by rw [hq, ha]
    rw [List.map_append, List.map_cons, runsOutside_append_cons _ _ hfa, ihx, ihy,
      runsOutside_append_cons _ _ ha, List.map_append]

end

def Bytes.foreignRuns (b : Bytes) : List Bytes :=
  runsOutside (· < 128) b

def Text.foreignRuns (s : Text) : List Text :=
  runsOutside (·.toNat < 128) s

theorem Bytes.foreignRuns_append_cons (x y : Bytes) {o : UInt8} (ho : o < 128) :
    foreignRuns (x ++ o :: y) = x.foreignRuns ++ y.foreignRuns :=
  runsOutside_append_cons x y (decide_eq_true ho)

theorem foreignRuns_latin1 (b : Bytes) : (Bytes.latin1 b).foreignRuns = b.foreignRuns.map Bytes.latin1 := by
  refine runsOutside_map (fun o => ?_) b
  rw [Text.toNat_ofNat_octet]
  exact decide_eq_decide.2 (@UInt8.lt_iff_toNat_lt o 128).symm

theorem Bytes.latin1_injective {a b : Bytes} (h : Bytes.latin1 a = Bytes.latin1 b) : a = b := by
  have ha := Text.toLatin1?_latin1 a
  rw [h, Text.toLatin1?_latin1] at ha
  exact (Option.some.inj ha).symm

/-- Bytes whose texts, octet by octet, have the same runs. -/
theorem foreignRuns_of_latin1 {a b : Bytes} (h : (Bytes.latin1 a).foreignRuns = (Bytes.latin1 b).foreignRuns) :
    a.foreignRuns = b.foreignRuns := by
  rw [foreignRuns_latin1, foreignRuns_latin1] at h
  exact List.map_injective_iff.2 (fun _ _ => Bytes.latin1_injective) h

def Bytes.IsUtf8 (b : Bytes) : Prop :=
  ∃ s : Text, s.toUtf8 = b

theorem Bytes.isUtf8_iff {b : Bytes} : b.IsUtf8 ↔ Bytes.utf8? b ≠ none := by
  constructor
  · rintro ⟨s, rfl⟩
    rw [Bytes.utf8?_toUtf8]
    exact Option.some_ne_none s
  · intro h
    obtain ⟨s, hs⟩ := Option.ne_none_iff_exists'.1 h
    exact ⟨s, Text.toUtf8_of_utf8? hs⟩

theorem Text.toUtf8_append (s t : Text) : (s ++ t).toUtf8 = s.toUtf8 ++ t.toUtf8 :=
  List.flatMap_append

theorem utf8EncodeChar_of_ascii {o : UInt8} (ho : o < 128) : String.utf8EncodeChar (Char.ofNat o.toNat) = [o] := by
  apply Bytes.latin1_injective
  exact Text.octetsOf_of_ascii (by rw [Text.toNat_ofNat_octet]; exact UInt8.lt_iff_toNat_lt.1 ho)

theorem ascii_of_mem_utf8EncodeChar {c : Char} {o : UInt8} (h : o ∈ String.utf8EncodeChar c) (ho : o < 128) :
    c = Char.ofNat o.toNat := by
  have hmem : Char.ofNat o.toNat ∈ Text.octetsOf c := List.mem_map_of_mem h
  by_cases hc : c.toNat < 128
  · rw [Text.octetsOf_of_ascii hc, List.mem_singleton] at hmem
    exact hmem.symm
  · have hwide := (Text.spreads_octetsOf.wide c (by omega)).2 _ hmem
    rw [Text.toNat_ofNat_octet] at hwide
    exact absurd (UInt8.lt_iff_toNat_lt.1 ho) (by simpa using hwide)

theorem exists_of_toUtf8 {s : Text} {x y : Bytes} {o : UInt8} (ho : o < 128) (h : s.toUtf8 = x ++ o :: y) :
    ∃ u v : Text, s = u ++ Char.ofNat o.toNat :: v ∧ u.toUtf8 = x ∧ v.toUtf8 = y := by
  induction s generalizing x with
  | nil => simp [Text.toUtf8] at h
  | cons c s ih =>
    have hsplit : String.utf8EncodeChar c ++ Text.toUtf8 s = x ++ o :: y := h
    rcases List.append_eq_append_iff.1 hsplit with ⟨z, rfl, hz⟩ | ⟨z, hz, hz'⟩
    · obtain ⟨u, v, rfl, rfl, rfl⟩ := ih hz
      exact ⟨c :: u, v, rfl, rfl, rfl⟩
    · cases z with
      | nil =>
        obtain ⟨u, v, rfl, hu, rfl⟩ := @ih [] hz'.symm
        refine ⟨c :: u, v, rfl, ?_, rfl⟩
        rw [List.append_nil] at hz
        rw [← hz, ← List.append_nil (String.utf8EncodeChar c), ← hu]
        rfl
      | cons d z =>
        obtain ⟨rfl, rfl⟩ := List.cons.inj hz'
        obtain rfl := ascii_of_mem_utf8EncodeChar (show o ∈ String.utf8EncodeChar c by simp [hz]) ho
        rw [utf8EncodeChar_of_ascii ho] at hz
        cases x with
        | nil =>
          obtain rfl : z = [] := (List.cons.inj hz).2.symm
          exact ⟨[], s, rfl, rfl, rfl⟩
        | cons e x => simp at hz

theorem Bytes.isUtf8_append_cons {x y : Bytes} {o : UInt8} (ho : o < 128) :
    IsUtf8 (x ++ o :: y) ↔ IsUtf8 x ∧ IsUtf8 y := by
  constructor
  · rintro ⟨s, hs⟩
    obtain ⟨u, v, -, rfl, rfl⟩ := exists_of_toUtf8 ho hs
    exact ⟨⟨u, rfl⟩, ⟨v, rfl⟩⟩
  · rintro ⟨⟨u, rfl⟩, ⟨v, rfl⟩⟩
    refine ⟨u ++ Char.ofNat o.toNat :: v, ?_⟩
    have hcons : Text.toUtf8 (Char.ofNat o.toNat :: v) = String.utf8EncodeChar (Char.ofNat o.toNat) ++ v.toUtf8 :=
      rfl
    rw [Text.toUtf8_append, hcons, utf8EncodeChar_of_ascii ho, List.singleton_append]

/-- Bytes are valid UTF-8 if each run outside ASCII is. -/
theorem Bytes.isUtf8_iff_foreignRuns (b : Bytes) : b.IsUtf8 ↔ ∀ run ∈ b.foreignRuns, IsUtf8 run := by
  induction b using runs_induction (p := fun o : UInt8 => decide (o < 128)) with
  | run b hb =>
    rw [foreignRuns, runsOutside_of_forall hb]
    split
    · rename_i hnil
      rw [hnil]
      exact iff_of_true ⟨[], rfl⟩ (by simp)
    · simp
  | cut x o y ho ihx ihy =>
    have ho : o < 128 := of_decide_eq_true ho
    rw [isUtf8_append_cons ho, ihx, ihy, foreignRuns_append_cons _ _ ho, List.forall_mem_append]

theorem Encoding.decode_snd_congr {a b : Bytes} (h : a.foreignRuns = b.foreignRuns) :
    (Encoding.decode a).2 = (Encoding.decode b).2 := by
  have hvalid : a.IsUtf8 ↔ b.IsUtf8 := by rw [Bytes.isUtf8_iff_foreignRuns, h, ← Bytes.isUtf8_iff_foreignRuns]
  rw [Bytes.isUtf8_iff, Bytes.isUtf8_iff] at hvalid
  unfold Encoding.decode
  cases ha : Bytes.utf8? a <;> cases hb : Bytes.utf8? b <;> simp_all

end Namespacing
