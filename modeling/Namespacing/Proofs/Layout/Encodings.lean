import Namespacing.Proofs.Layout.Edits
set_option autoImplicit false

namespace Namespacing

open Text

theorem replaceAll_append_wide {p h x : Text} (hp : p ≠ []) (hascii : IsAscii p) (hx : ∀ c ∈ x, 128 ≤ c.toNat)
    (s : Text) : replaceAll p h (x ++ s) = x ++ replaceAll p h s := by
  induction x with
  | nil => rfl
  | cons c x ih =>
    have hno : ¬ p <+: c :: (x ++ s) := by
      obtain ⟨d, q, rfl⟩ := List.exists_cons_of_ne_nil hp
      rintro ⟨t, ht⟩
      have hd := hascii d List.mem_cons_self
      rw [(List.cons.inj ht).1] at hd
      have := hx c List.mem_cons_self
      omega
    rw [List.cons_append, replaceAll_cons _ _ _ hp hno, ih fun d hd => hx d (List.mem_cons_of_mem _ hd),
      List.cons_append]

theorem octets_replaceAll {p h : Text} (hr : AsciiRename p h) (s : Text) :
    (replaceAll p h s).octets = replaceAll p h s.octets := by
  have hp := hr.ne_nil
  induction s using replaceAll_cases hp with
  | nil => rw [replaceAll_nil _ hp, octets_nil, replaceAll_nil _ hp]
  | found s ih =>
    rw [replaceAll_append_self _ _ hp, octets_append, octets_of_isAscii hr.replacement, ih, octets_append,
      octets_of_isAscii hr.literal, replaceAll_append_self _ _ hp]
  | kept c s hno ih =>
    rw [replaceAll_cons _ _ _ hp hno, octets_cons, octets_cons, ih]
    by_cases hc : c.toNat < 128
    · rw [octetsOf_of_ascii hc, List.singleton_append, List.singleton_append, replaceAll_cons _ _ _ hp]
      rintro ⟨t, ht⟩
      have hoctets : octets (c :: s) = p ++ t := by
        rw [octets_cons, octetsOf_of_ascii hc, List.singleton_append, ht]
      obtain ⟨r, hr', -⟩ := (octets_eq_append_iff hr.literal).1 hoctets
      exact hno ⟨r, hr'.symm⟩
    · rw [replaceAll_append_wide hp hr.literal (spreads_octetsOf.wide c (by omega)).2]

/-- A change within ASCII may be made in the octets. -/
theorem Edits.octets {f : Text → Text} (h : Edits AsciiRename f) (s : Text) : (f s).octets = f s.octets := by
  induction h with
  | keep => rfl
  | replace _ hr ih => rw [octets_replaceAll hr, ih]
  | close _ he ih => rw [octets_append, ih, octets_of_isAscii he]

theorem Outline.ofSource_octets (s : Text) :
    (ofSource s.octets).toOption = (ofSource s).toOption ∧ ofSourceOrEmpty s.octets = ofSourceOrEmpty s := by
  cases htokens : tokenize s with
  | ok tokens =>
    obtain ⟨B, hB, hveils⟩ := (cuts_of_tokensFrom htokens).exists_octets
    obtain ⟨tokens', htokens', rfl⟩ := hB.exists_tokens 0
    have htokens' : tokenize s.octets = .ok tokens' := htokens'
    have hsource : ofSource s.octets = ofSource s := by
      rw [ofSource, ofSource, htokens', htokens]
      exact congrArg Except.ok (ofTokens_eq_of_veils hveils)
    exact ⟨congrArg Except.toOption hsource, by rw [ofSourceOrEmpty, hsource, ofSourceOrEmpty]⟩
  | error unterminated =>
    cases htokens' : tokenize s.octets with
    | ok tokens' =>
      obtain ⟨A, hA⟩ := (cuts_of_tokensFrom htokens').exists_of_octets
      obtain ⟨tokens, hok, -⟩ := hA.exists_tokens 0
      cases htokens.symm.trans hok
    | error unterminated' =>
      rw [ofSourceOrEmpty, ofSourceOrEmpty, ofSource, ofSource, htokens, htokens']
      exact ⟨rfl, rfl⟩

theorem octets_of_utf8? {b : Bytes} {s : Text} (h : Bytes.utf8? b = some s) : s.octets = Bytes.latin1 b := by
  rw [Text.octets, Text.toUtf8_of_utf8? h]

theorem Edits.encode?_latin1 {f : Text → Text} (h : Edits AsciiRename f) (s : Text) :
    Encoding.latin1.encode? (f s.octets) = Encoding.utf8.encode? (f s) := by
  rw [← h.octets]
  exact Text.toLatin1?_latin1 _

/-- It does not matter whether valid UTF-8 is read as such or octet by octet. Both texts can be cut or
neither, they have one outline, and what a revision within ASCII makes of them is written, in the encoding
that each was read in, as the same bytes. -/
theorem latin1_transparent {b : Bytes} {text : Text} (h : Bytes.utf8? b = some text) :
    (Outline.ofSource (Bytes.latin1 b)).toOption = (Outline.ofSource text).toOption ∧
      Outline.ofSourceOrEmpty (Bytes.latin1 b) = Outline.ofSourceOrEmpty text ∧
      ∀ revision : Revision, revision.ns.IsAscii →
        (∀ rename ∈ revision.table.toList, AsciiRename rename.1 rename.2) →
        Encoding.latin1.encode? (revision.classSource (Bytes.latin1 b)) =
            Encoding.utf8.encode? (revision.classSource text) ∧
          ∀ container, Text.IsAscii container →
            Encoding.latin1.encode? (revision.functionSource container (Bytes.latin1 b)) =
              Encoding.utf8.encode? (revision.functionSource container text) := by
  have houtline := Outline.ofSource_octets text
  rw [← octets_of_utf8? h]
  refine ⟨houtline.1, houtline.2, fun revision hns hrenames => ⟨?_, fun container hcontainer => ?_⟩⟩
  · exact (Edits.classSource (fun hr _ => hr) hns hrenames).encode?_latin1 text
  · exact (Edits.functionSource (fun hr _ => hr) hns hrenames hcontainer).encode?_latin1 text

/-- An accent in a string, which is two characters when the file is read octet by octet. -/
theorem latin1_transparent_accent :
    let text := "<?php echo 'é'; class Widget".toList
    let revision : Revision := ⟨⟨"Facebook".toList, "Functions".toList⟩,
      RenameTable.empty.insert ("echo".toList, "print".toList)⟩
    let container := "Helpers".toList
    (Bytes.utf8? (Text.toUtf8 text) = some text ∧ revision.ns.IsAscii ∧
      (∀ rename ∈ revision.table.toList, AsciiRename rename.1 rename.2) ∧ Text.IsAscii container) ∧
    (Bytes.latin1 (Text.toUtf8 text)).length = text.length + 1 ∧
    (Outline.ofSource (Bytes.latin1 (Text.toUtf8 text))).toOption = (Outline.ofSource text).toOption ∧
      Outline.ofSourceOrEmpty (Bytes.latin1 (Text.toUtf8 text)) = Outline.ofSourceOrEmpty text ∧
      Encoding.latin1.encode? (revision.classSource (Bytes.latin1 (Text.toUtf8 text))) =
        Encoding.utf8.encode? (revision.classSource text) ∧
      Encoding.latin1.encode? (revision.functionSource container (Bytes.latin1 (Text.toUtf8 text))) =
        Encoding.utf8.encode? (revision.functionSource container text) := by
  intro text revision container
  have hread : Bytes.utf8? (Text.toUtf8 text) = some text := Bytes.utf8?_toUtf8 text
  have hns : revision.ns.IsAscii := ⟨by decide, by decide⟩
  have hrenames : ∀ rename ∈ revision.table.toList, AsciiRename rename.1 rename.2 := by
    intro rename hmem
    obtain rfl : rename = ("echo".toList, "print".toList) := by
      simpa [revision, upsert] using hmem
    exact ⟨by decide, by decide, by decide⟩
  have hcontainer : Text.IsAscii container := by decide
  obtain ⟨houtline, hempty, hrevised⟩ := latin1_transparent hread
  obtain ⟨hclass, hfunction⟩ := hrevised revision hns hrenames
  exact ⟨⟨hread, hns, hrenames, hcontainer⟩, by decide +kernel, houtline, hempty, hclass,
    hfunction container hcontainer⟩

end Namespacing
