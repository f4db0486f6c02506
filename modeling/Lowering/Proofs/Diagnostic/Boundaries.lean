import Lowering.Diagnostic
import Mathlib.Data.List.TakeWhile

/-! Boundaries of characters.

Bytes of a text are counted over its characters, and a byte is a boundary if the characters before
it take that many bytes. The lines of a text are its parts one after the other, so lines start and
end at boundaries (`isPart_of_mem_lines`). Passing over bytes succeeds where these end at a boundary
or past the last character (`passBytes_of_front`, `passBytes_of_le`), and nowhere else
(`of_passBytes`). -/
namespace Lowering

/-! ### Bytes -/

theorem byteLength_append (cs ds : List Char) : byteLength (cs ++ ds) = byteLength cs + byteLength ds := by
  induction cs with
  | nil => rw [List.nil_append, byteLength, Nat.zero_add]
  | cons c rest ih => rw [List.cons_append, byteLength, byteLength, ih, Nat.add_assoc]

theorem byteLength_eq (cs : List Char) : byteLength cs = (String.ofList cs).utf8ByteSize := by
  induction cs with
  | nil => rfl
  | cons c rest ih =>
    have hcons : String.ofList (c :: rest) = String.singleton c ++ String.ofList rest := by simp
    rw [byteLength, ih, hcons, String.utf8ByteSize_append, String.utf8ByteSize_singleton]

theorem eq_nil_of_byteLength {cs : List Char} (h : byteLength cs = 0) : cs = [] := by
  cases cs with
  | nil => rfl
  | cons c rest =>
    rw [byteLength] at h
    have hpos := c.utf8Size_pos
    omega

/-- Of two ways to divide a text, the front with more bytes goes on from the other one. -/
theorem exists_between {xs ys front back : List Char} (h : xs ++ ys = front ++ back)
    (hle : byteLength xs ≤ byteLength front) : ∃ between, front = xs ++ between ∧ ys = between ++ back := by
  rcases List.append_eq_append_iff.mp h with ⟨between, hfront, hys⟩ | ⟨between, hxs, hback⟩
  · exact ⟨between, hfront, hys⟩
  · rw [hxs, byteLength_append] at hle
    obtain rfl : between = [] := eq_nil_of_byteLength (by omega)
    exact ⟨[], by rw [hxs]; simp, by rw [hback]; simp⟩

namespace SourceFile

variable (f : SourceFile)

/-- How many bytes the text takes. -/
def size : Nat := f.text.utf8ByteSize

/-- Whether a byte is at the start of a character of the text or at the end of the text. -/
def IsBoundary (byte : Nat) : Prop := (String.Pos.Raw.mk byte).IsValid f.text

variable {f}

/-- A boundary comes behind some of the characters. -/
theorem isBoundary_iff {byte : Nat} :
    f.IsBoundary byte ↔ ∃ front back, f.text.toList = front ++ back ∧ byteLength front = byte := by
  rw [IsBoundary, String.Pos.Raw.isValid_iff_exists_append]
  constructor
  · intro h
    obtain ⟨front, back, htext, hbyte⟩ := h
    refine ⟨front.toList, back.toList, by rw [htext, String.toList_append], ?_⟩
    rw [byteLength_eq, String.ofList_toList]
    exact (congrArg String.Pos.Raw.byteIdx hbyte).symm
  · intro h
    obtain ⟨front, back, htext, hbyte⟩ := h
    refine ⟨String.ofList front, String.ofList back, ?_, ?_⟩
    · rw [← String.toList_inj, htext]
      simp
    · rw [← hbyte, byteLength_eq]
      rfl

theorem IsBoundary.le_size {byte : Nat} (h : f.IsBoundary byte) : byte ≤ f.size :=
  String.Pos.Raw.IsValid.le_utf8ByteSize h

end SourceFile

/-! ### Lines -/

/-- A line is the part of a text that starts at its byte. -/
def SourceLine.IsPart (l : SourceLine) (text : List Char) : Prop :=
  ∃ front back, text = front ++ l.chars ++ back ∧ l.start = byteLength front

/-- The present line, begun or not, and all lines behind it are parts of what is before them and of
what follows. -/
theorem isPart_of_mem_sourceLinesFrom (before : List Char) {present cs : List Char} {line : SourceLine}
    (h : line ∈ sourceLinesFrom (byteLength before) present cs) :
    line.IsPart (before ++ present.reverse ++ cs) := by
  induction cs generalizing before present with
  | nil =>
    obtain rfl := List.mem_singleton.mp h
    exact ⟨before, [], rfl, rfl⟩
  | cons c rest ih =>
    rw [sourceLinesFrom] at h
    have hmoved : before ++ present.reverse ++ c :: rest = before ++ (c :: present).reverse ++ rest := by simp
    rw [hmoved]
    split at h
    · rcases List.mem_cons.mp h with rfl | h
      · exact ⟨before, rest, rfl, rfl⟩
      · have hstop : SourceLine.stop ⟨byteLength before, (c :: present).reverse⟩ =
            byteLength (before ++ (c :: present).reverse) := (byteLength_append ..).symm
        rw [hstop] at h
        have hpart := ih _ h
        rwa [List.reverse_nil, List.append_nil] at hpart
    · exact ih before h

namespace SourceFile

variable {f : SourceFile} {line : SourceLine}

/-- The lines are parts of the text. -/
theorem isPart_of_mem_lines (h : line ∈ f.lines) : line.IsPart f.text.toList :=
  isPart_of_mem_sourceLinesFrom [] h

/-- A boundary within a line is one behind some of the characters of the line. -/
theorem isBoundary_line_iff (h : line ∈ f.lines) {bytes : Nat} (hle : bytes ≤ byteLength line.chars) :
    f.IsBoundary (line.start + bytes) ↔
      ∃ front back, line.chars = front ++ back ∧ byteLength front = bytes := by
  obtain ⟨before, after, htext, hstart⟩ := isPart_of_mem_lines h
  rw [isBoundary_iff, htext, hstart]
  constructor
  · intro hboundary
    obtain ⟨front, back, hdivided, hbytes⟩ := hboundary
    rw [List.append_assoc] at hdivided
    obtain ⟨inside, hfront, hrest⟩ := exists_between hdivided (by omega)
    rw [hfront, byteLength_append, Nat.add_left_cancel_iff] at hbytes
    obtain ⟨left, hchars, -⟩ := exists_between hrest.symm (hbytes.trans_le hle)
    exact ⟨inside, left, hchars, hbytes⟩
  · intro hboundary
    obtain ⟨front, back, hchars, hbytes⟩ := hboundary
    exact ⟨before ++ front, back ++ after, by simp [hchars], by rw [byteLength_append, hbytes]⟩

end SourceFile

/-! ### Passing over bytes -/

theorem passBytes_zero (cs : List Char) : passBytes 0 cs = some (0, cs) := by
  cases cs <;> rfl

/-- A character is passed over as a whole. -/
theorem passBytes_cons {bytes : Nat} {c : Char} {rest : List Char} (h : c.utf8Size ≤ bytes) :
    passBytes bytes (c :: rest) =
      (passBytes (bytes - c.utf8Size) rest).map fun (n, left) => (c.utf8Size + n, left) := by
  have hpos := c.utf8Size_pos
  obtain ⟨bytes, rfl⟩ : ∃ k, bytes = k + 1 := ⟨bytes - 1, by omega⟩
  rw [passBytes, if_pos h]

theorem passBytes_of_front (front left : List Char) :
    passBytes (byteLength front) (front ++ left) = some (byteLength front, left) := by
  induction front with
  | nil => exact passBytes_zero left
  | cons c rest ih =>
    rw [byteLength, List.cons_append, passBytes_cons (Nat.le_add_right ..), Nat.add_sub_cancel_left, ih]
    rfl

theorem passBytes_of_le {bytes : Nat} {cs : List Char} (h : byteLength cs ≤ bytes) :
    passBytes bytes cs = some (byteLength cs, []) := by
  induction cs generalizing bytes with
  | nil => rw [passBytes, byteLength]
  | cons c rest ih =>
    rw [byteLength] at h
    rw [passBytes_cons (by omega), ih (by omega), byteLength]
    rfl

/-- What is passed over are the first characters, and all of them unless they take as many bytes as
asked for. -/
theorem of_passBytes {bytes n : Nat} {cs left : List Char} (h : passBytes bytes cs = some (n, left)) :
    ∃ front, cs = front ++ left ∧ byteLength front = n ∧ (n = bytes ∨ byteLength cs ≤ bytes) := by
  induction cs generalizing bytes n left with
  | nil =>
    rw [passBytes] at h
    obtain ⟨rfl, rfl⟩ := Prod.mk.inj (Option.some.inj h)
    exact ⟨[], rfl, rfl, .inr (Nat.zero_le bytes)⟩
  | cons c rest ih =>
    by_cases hzero : bytes = 0
    · rw [hzero, passBytes_zero] at h
      obtain ⟨rfl, rfl⟩ := Prod.mk.inj (Option.some.inj h)
      exact ⟨[], rfl, rfl, .inl hzero.symm⟩
    · by_cases hfits : c.utf8Size ≤ bytes
      · rw [passBytes_cons hfits] at h
        obtain ⟨⟨k, left'⟩, hrest, heq⟩ := Option.map_eq_some_iff.mp h
        obtain ⟨rfl, rfl⟩ := Prod.mk.inj heq
        obtain ⟨front, hchars, hbytes, hall⟩ := ih hrest
        refine ⟨c :: front, by rw [hchars, List.cons_append], by rw [byteLength, hbytes], ?_⟩
        rw [byteLength]
        omega
      · obtain ⟨bytes, rfl⟩ : ∃ k, bytes = k + 1 := ⟨bytes - 1, by omega⟩
        rw [passBytes, if_neg hfits] at h
        cases h

end Lowering
