import Mathlib.Data.List.Lex
/-!
# The bytes of texts

A text comes before another one in the order of their characters if it does in the order of their
bytes: the longer encodings start with the greater bytes, and encodings of one length have their
bytes in the order of the digits of the character to base 64.
-/
namespace ApiDocs.Text

def bytes (s : String) : List UInt8 :=
  s.toByteArray.data.toList

theorem bytes_eq (s : String) : bytes s = s.toList.flatMap String.utf8EncodeChar := by
  rw [bytes, ← String.utf8Encode_toList, List.utf8Encode, List.toList_data_toByteArray]

private theorem encoding_lt {c d : Char} (h : c < d) (cs ds : List UInt8) :
    String.utf8EncodeChar c ++ cs < String.utf8EncodeChar d ++ ds := by
  have hlt : c.val.toNat < d.val.toNat := UInt32.lt_iff_toNat_lt.mp h
  have hlimit : d.val.toNat < 0x110000 := by
    rcases d.valid with hlow | hhigh
    · exact Nat.lt_trans hlow (by decide)
    · exact hhigh.2
  have hsquare : ∀ n, n / 4096 = n / 64 / 64 := by omega
  have hcube : ∀ n, n / 262144 = n / 64 / 64 / 64 := by omega
  unfold String.utf8EncodeChar
  simp only [hsquare, hcube]
  generalize c.val.toNat = m at hlt ⊢
  generalize d.val.toNat = n at hlt hlimit ⊢
  -- one case for each pair of lengths
  split_ifs <;>
    simp only [List.cons_append, List.nil_append, List.cons_lt_cons_iff, UInt8.lt_iff_toNat_lt,
      ← UInt8.toNat_inj, UInt8.toNat_ofNat'] <;>
    omega

theorem bytes_lt_bytes {a b : String} (h : a < b) : bytes a < bytes b := by
  rw [String.lt_iff] at h
  rw [bytes_eq, bytes_eq]
  generalize a.toList = cs at h ⊢
  generalize b.toList = ds at h ⊢
  induction h with
  | @nil c cs =>
    obtain ⟨first, rest, hfirst⟩ :=
      List.exists_cons_of_ne_nil (String.utf8EncodeChar_ne_nil (c := c))
    rw [List.flatMap_cons, hfirst]
    exact .nil
  | cons _ ih =>
    rw [List.flatMap_cons, List.flatMap_cons]
    exact List.append_left_lt ih
  | rel hchar =>
    rw [List.flatMap_cons, List.flatMap_cons]
    exact encoding_lt hchar _ _

/-- Lists of texts that are in the order of their characters are in that of their bytes. -/
theorem map_bytes_lt {a b : List String} (h : a < b) : a.map bytes < b.map bytes := by
  induction h with
  | nil => exact .nil
  | cons _ ih => exact .cons ih
  | rel hname => exact .rel (bytes_lt_bytes hname)

end ApiDocs.Text
