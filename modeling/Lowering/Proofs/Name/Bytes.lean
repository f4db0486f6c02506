import Lowering.Name
import Mathlib.Tactic.SplitIfs

/-! Names and their bytes.

Names are compared by code point. Since UTF-8 writes a greater code point with greater bytes, and
none as the beginning of another one, that is the order of their bytes (`bytes_lt_iff`). -/
namespace Lowering.Name

open String (utf8EncodeChar)

/-- The name in UTF-8. -/
def bytes (n : Name) : List UInt8 := n.text.toUTF8.data.toList

theorem bytes_eq (n : Name) : n.bytes = n.text.toList.flatMap utf8EncodeChar := by
  have hencoded : n.text.toUTF8 = n.text.toList.utf8Encode := String.utf8Encode_toList.symm
  rw [bytes, hencoded]
  exact List.toList_data_toByteArray

/-- Greater characters have greater bytes, whatever follows them. -/
theorem utf8EncodeChar_append_lt {c d : Char} (h : c < d) (r s : List UInt8) :
    utf8EncodeChar c ++ r < utf8EncodeChar d ++ s := by
  have hlt : c.val.toNat < d.val.toNat := h
  have hbound : d.val.toNat < 0x110000 := by
    obtain h | ⟨-, h⟩ := d.valid
    · exact Nat.lt_trans h (by decide)
    · exact h
  unfold utf8EncodeChar
  dsimp only
  generalize c.val.toNat = m at *
  generalize d.val.toNat = n at *
  -- Bytes after the first one are digits to the base 64.
  have hm : m / 4096 = m / 64 / 64 ∧ m / 262144 = m / 64 / 64 / 64 := by omega
  have hn : n / 4096 = n / 64 / 64 ∧ n / 262144 = n / 64 / 64 / 64 := by omega
  rw [hm.1, hm.2, hn.1, hn.2]
  split_ifs <;>
    simp (disch := omega) only [List.cons_append, List.nil_append, List.cons_lt_cons_iff,
      UInt8.lt_iff_toNat_lt, ← UInt8.toNat_inj, UInt8.toNat_ofNat', Nat.mod_eq_of_lt] <;>
    omega

theorem flatMap_utf8EncodeChar_lt {cs ds : List Char} (h : cs < ds) :
    cs.flatMap utf8EncodeChar < ds.flatMap utf8EncodeChar := by
  induction cs generalizing ds with
  | nil =>
    cases ds with
    | nil => exact absurd h (List.lt_irrefl _)
    | cons d ds =>
      obtain ⟨b, bs, hb⟩ := List.exists_cons_of_ne_nil (String.utf8EncodeChar_ne_nil (c := d))
      rw [List.flatMap_nil, List.flatMap_cons, hb]
      exact List.nil_lt_cons ..
  | cons c cs ih =>
    cases ds with
    | nil => exact absurd h (List.not_lt_nil _)
    | cons d ds =>
      rw [List.flatMap_cons, List.flatMap_cons]
      rcases List.cons_lt_cons_iff.mp h with hlt | ⟨rfl, hlt⟩
      · exact utf8EncodeChar_append_lt hlt _ _
      · exact List.append_left_lt (ih hlt)

/-- Names are ordered as their bytes are. -/
theorem bytes_lt_iff {a b : Name} : a.bytes < b.bytes ↔ a < b := by
  have hmono {a b : Name} (h : a < b) : a.bytes < b.bytes := by
    rw [bytes_eq, bytes_eq]
    exact flatMap_utf8EncodeChar_lt h
  refine ⟨fun h => ?_, hmono⟩
  rcases lt_or_eq_or_gt a b with hlt | rfl | hgt
  · exact hlt
  · exact absurd h (List.lt_irrefl _)
  · exact absurd (hmono hgt) (List.lt_asymm h)

end Lowering.Name
