import Namespacing.Text.Basic
set_option autoImplicit false

namespace Namespacing

inductive Encoding where
  | utf8
  | latin1
  deriving DecidableEq, Repr

def Text.toUtf8 (s : Text) : Bytes :=
  s.flatMap String.utf8EncodeChar

def Bytes.utf8? (b : Bytes) : Option Text :=
  (ByteArray.mk b.toArray).utf8Decode?.map Array.toList

/-- The text with one character for each octet. -/
def Bytes.latin1 (b : Bytes) : Text :=
  b.map fun octet => Char.ofNat octet.toNat

def Text.toLatin1? (s : Text) : Option Bytes :=
  s.mapM fun c => if c.toNat < 256 then some (UInt8.ofNat c.toNat) else none

theorem Text.toUtf8_eq_utf8Encode (s : Text) : s.toUtf8 = s.utf8Encode.data.toList := by
  simp [Text.toUtf8, List.utf8Encode]

theorem Bytes.utf8?_toUtf8 (s : Text) : Bytes.utf8? s.toUtf8 = some s := by
  rw [Bytes.utf8?, Text.toUtf8_eq_utf8Encode, Option.map_eq_some_iff]
  exact ⟨s.toArray, List.utf8Decode?_utf8Encode, by simp⟩

theorem Text.toUtf8_of_utf8? {b : Bytes} {s : Text} (h : Bytes.utf8? b = some s) :
    s.toUtf8 = b := by
  obtain ⟨cs, hcs, rfl⟩ := Option.map_eq_some_iff.1 h
  have hsome : (ByteArray.mk b.toArray).utf8Decode?.isSome := by simp [hcs]
  have hb := ByteArray.utf8Encode_get_utf8Decode? (b := ByteArray.mk b.toArray) (h := hsome)
  simp only [hcs, Option.get_some] at hb
  rw [Text.toUtf8_eq_utf8Encode, hb]

namespace Encoding

def decode (b : Bytes) : Text × Encoding :=
  match Bytes.utf8? b with
  | some s => (s, .utf8)
  | none => (Bytes.latin1 b, .latin1)

def encode? : Encoding → Text → Option Bytes
  | .utf8, s => some s.toUtf8
  | .latin1, s => s.toLatin1?

end Encoding

theorem Text.toLatin1?_latin1 (b : Bytes) : (Bytes.latin1 b).toLatin1? = some b := by
  induction b with
  | nil => rfl
  | cons o b ih =>
    have ho : o.toNat < 256 := o.toNat_lt
    have hv : o.toNat.isValidChar := Or.inl (by omega)
    have hc : (Char.ofNat o.toNat).toNat = o.toNat := by
      rw [Char.ofNat, dif_pos hv]
      rfl
    simp only [Bytes.latin1, Text.toLatin1?, List.map_cons, List.mapM_cons] at ih ⊢
    rw [ih]
    simp [hc, ho]

/-- Every byte string is the encoding of the text it is read as. -/
theorem Encoding.encode?_of_decode (b : Bytes) :
    (Encoding.decode b).2.encode? (Encoding.decode b).1 = some b := by
  unfold Encoding.decode
  cases h : Bytes.utf8? b with
  | none => exact Text.toLatin1?_latin1 b
  | some s => simp [Encoding.encode?, Text.toUtf8_of_utf8? h]

end Namespacing
