/-! # Bytes and text

A text as its UTF-8 bytes and back, and the character whose code is a given byte. -/

set_option autoImplicit false

namespace Protoscript.Text

/-- The character whose code is `byte`. -/
def charOf (byte : UInt8) : Char := Char.ofNat byte.toNat

/-- The bytes of a text in UTF-8. -/
def encode (s : String) : List UInt8 := s.toByteArray.data.toList

/-- The text that `bytes` encode, if they are well formed. -/
def decode? (bytes : List UInt8) : Option String := String.fromUTF8? bytes.toByteArray

theorem decode?_encode (s : String) : decode? (encode s) = some s := by
  have same : (encode s).toByteArray = s.toByteArray := by
    apply ByteArray.ext
    simp [encode]
  simp only [decode?, same, String.fromUTF8?, s.isValidUTF8, dif_pos]
  rfl

end Protoscript.Text
