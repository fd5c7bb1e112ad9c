import Mathlib.Data.List.Basic
import Protoscript.Text.Bytes

/-! # The bytes of a text

A character below 128 is one byte, its code; any other is a run of bytes that are all 128 or more.
So a byte below 128 in the bytes of a text is a character of it, and what stands before and after
that byte are the bytes of texts again: `exists_split`. -/

set_option autoImplicit false

namespace Protoscript.Text

/-- The bytes of a run of characters. -/
def encodeAll (cs : List Char) : List UInt8 := cs.flatMap String.utf8EncodeChar

@[simp] theorem encodeAll_nil : encodeAll [] = [] := rfl

@[simp] theorem encodeAll_cons (c : Char) (cs : List Char) :
    encodeAll (c :: cs) = String.utf8EncodeChar c ++ encodeAll cs := rfl

@[simp] theorem encodeAll_append (cs ds : List Char) :
    encodeAll (cs ++ ds) = encodeAll cs ++ encodeAll ds :=
  List.flatMap_append

theorem encode_ofList (cs : List Char) : encode (String.ofList cs) = encodeAll cs := by
  simp [encode, encodeAll, List.utf8Encode]

theorem encode_eq (s : String) : encode s = encodeAll s.toList := by
  rw [← encode_ofList, String.ofList_toList]

theorem encode_append (s t : String) : encode (s ++ t) = encode s ++ encode t := by
  rw [encode_eq, encode_eq, encode_eq, String.toList_append, encodeAll_append]

theorem decode?_encodeAll (cs : List Char) : decode? (encodeAll cs) = some (String.ofList cs) := by
  rw [← encode_ofList, decode?_encode]

/-- What is decoded is well formed. -/
theorem exists_encodeAll_eq {bytes : List UInt8} {s : String} (decoded : decode? bytes = some s) :
    ∃ cs, bytes = encodeAll cs ∧ s = String.ofList cs := by
  refine ⟨s.toList, ?_, (String.ofList_toList).symm⟩
  unfold decode? String.fromUTF8? at decoded
  split at decoded
  · next valid =>
    cases decoded
    rw [← encode_eq]
    simp [encode, String.fromUTF8]
  · cases decoded

theorem toNat_toUInt8 {c : Char} (ascii : c.toNat < 128) : c.toUInt8.toNat = c.toNat := by
  have wide : c.toUInt8.toNat = c.toNat % 256 := rfl
  omega

theorem charOf_toUInt8 {c : Char} (ascii : c.toNat < 128) : charOf c.toUInt8 = c := by
  rw [charOf, toNat_toUInt8 ascii]
  exact Char.ofNat_toNat c

theorem utf8EncodeChar_of_lt {c : Char} (ascii : c.toNat < 128) :
    String.utf8EncodeChar c = [c.toUInt8] := by
  have small : c.val.toNat ≤ 127 := Nat.le_of_lt_succ ascii
  simp only [String.utf8EncodeChar, small, if_true]
  rfl

theorem le_of_mem_utf8EncodeChar {c : Char} (wide : 128 ≤ c.toNat) {b : UInt8}
    (member : b ∈ String.utf8EncodeChar c) : 128 ≤ b.toNat := by
  have large : ¬ c.val.toNat ≤ 127 := Nat.not_le_of_lt wide
  simp only [String.utf8EncodeChar, large, if_false] at member
  split at member
  · simp only [List.mem_cons, List.not_mem_nil, or_false] at member
    rcases member with rfl | rfl <;> simp only [UInt8.toNat_ofNat'] <;> omega
  split at member
  · simp only [List.mem_cons, List.not_mem_nil, or_false] at member
    rcases member with rfl | rfl | rfl <;> simp only [UInt8.toNat_ofNat'] <;> omega
  · simp only [List.mem_cons, List.not_mem_nil, or_false] at member
    rcases member with rfl | rfl | rfl | rfl <;> simp only [UInt8.toNat_ofNat'] <;> omega

/-- A byte below 128 among those of a character is the character. -/
theorem eq_of_mem_utf8EncodeChar {c d : Char} (ascii : d.toNat < 128)
    (member : d.toUInt8 ∈ String.utf8EncodeChar c) : c = d := by
  have small := toNat_toUInt8 ascii
  by_cases asciiToo : c.toNat < 128
  · rw [utf8EncodeChar_of_lt asciiToo, List.mem_singleton] at member
    rw [← charOf_toUInt8 asciiToo, ← member, charOf_toUInt8 ascii]
  · have := le_of_mem_utf8EncodeChar (Nat.le_of_not_lt asciiToo) member
    omega

theorem encodeAll_eq_map {cs : List Char} (ascii : ∀ c ∈ cs, c.toNat < 128) :
    encodeAll cs = cs.map Char.toUInt8 := by
  induction cs with
  | nil => rfl
  | cons c cs ih =>
    rw [encodeAll_cons, utf8EncodeChar_of_lt (ascii c (List.mem_cons_self ..)),
      ih fun d member => ascii d (List.mem_cons_of_mem c member)]
    rfl

theorem map_charOf_toUInt8 {cs : List Char} (ascii : ∀ c ∈ cs, c.toNat < 128) :
    (cs.map Char.toUInt8).map charOf = cs := by
  have each : ∀ c ∈ cs, (charOf ∘ Char.toUInt8) c = id c :=
    fun c member => charOf_toUInt8 (ascii c member)
  rw [List.map_map, List.map_congr_left each, List.map_id]

theorem eq_nil_of_encodeAll {cs : List Char} (empty : encodeAll cs = []) : cs = [] := by
  cases cs with
  | nil => rfl
  | cons c cs =>
    have size := congrArg List.length (List.append_eq_nil_iff.mp empty).1
    rw [String.length_utf8EncodeChar] at size
    exact absurd size (Nat.ne_of_gt c.utf8Size_pos)

/-- A byte below 128 is a character, and the bytes on either side of it are those of texts. -/
theorem exists_split {cs : List Char} {left right : List UInt8} {b : UInt8}
    (ascii : b.toNat < 128) (cut : encodeAll cs = left ++ b :: right) :
    ∃ before after, cs = before ++ charOf b :: after ∧ encodeAll before = left ∧
      encodeAll after = right := by
  induction cs generalizing left with
  | nil => simp at cut
  | cons c cs ih =>
    rw [encodeAll_cons] at cut
    have later {rest : List UInt8} (whole : encodeAll cs = rest ++ b :: right)
        (front : left = String.utf8EncodeChar c ++ rest) :
        ∃ before after, c :: cs = before ++ charOf b :: after ∧ encodeAll before = left ∧
          encodeAll after = right := by
      obtain ⟨before, after, rfl, same, tail⟩ := ih whole
      exact ⟨c :: before, after, rfl, by rw [encodeAll_cons, same, front], tail⟩
    rcases List.append_eq_append_iff.mp cut with ⟨rest, front, whole⟩ | ⟨middle, front, whole⟩
    · exact later whole front
    · cases middle with
      | nil =>
        have whole : encodeAll cs = [] ++ b :: right := whole.symm
        exact later whole (by simpa using front.symm)
      | cons d middle =>
        -- The byte stands among those of the first character, so that character is the byte.
        obtain ⟨rfl, rfl⟩ : b = d ∧ right = middle ++ encodeAll cs := by simpa using whole
        have small : c.toNat < 128 := by
          by_contra wide
          have := le_of_mem_utf8EncodeChar (Nat.le_of_not_lt wide) (b := b) (by simp [front])
          omega
        rw [utf8EncodeChar_of_lt small] at front
        obtain ⟨rfl, rfl, rfl⟩ : left = [] ∧ b = c.toUInt8 ∧ middle = [] := by
          cases left with
          | nil => simpa [eq_comm] using front
          | cons e left => simp at front
        exact ⟨[], cs, by rw [charOf_toUInt8 small]; rfl, rfl, rfl⟩

/-- Two bytes below 128 are characters, and the bytes between them are those of a text. -/
theorem exists_between {cs : List Char} {left middle right : List UInt8} {b d : UInt8}
    (ascii : b.toNat < 128) (ascii' : d.toNat < 128)
    (cut : encodeAll cs = left ++ b :: (middle ++ d :: right)) :
    ∃ before between after, cs = before ++ charOf b :: (between ++ charOf d :: after) ∧
      encodeAll before = left ∧ encodeAll between = middle ∧ encodeAll after = right := by
  obtain ⟨before, tail, rfl, front, cut⟩ := exists_split ascii cut
  obtain ⟨between, after, rfl, inside, back⟩ := exists_split ascii' cut
  exact ⟨before, between, after, rfl, front, inside, back⟩

end Protoscript.Text
