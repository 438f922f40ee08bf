set_option autoImplicit false

/-!
# Texts: strings as sequences of bytes

Member names, path expressions and messages are plain byte sequences. Nothing
here decodes or normalises them: two texts are equal when they agree byte by
byte, and they are ordered by their first differing byte. A text may therefore
hold bytes that form no character at all, and a percent escape may produce one.

This module provides:

* `Text` and the bytes that the path notation gives a meaning to;
* `utf8`, which turns a literal into the text that spells it; and
* `Text.quoted`, the form in which a message cites a text.
-/

namespace TreePatch

/-- A string as its bytes. -/
abbrev Text := List UInt8

/-- The bytes that spell a literal. -/
def utf8 (s : String) : Text := s.toList.flatMap String.utf8EncodeChar

namespace Text

/-! ## The bytes of the path notation -/

/-- The byte `/`, which starts every segment. -/
abbrev slash : UInt8 := 0x2f

/-- The byte `~`, which opens a two-byte escape. -/
abbrev tilde : UInt8 := 0x7e

/-- The byte `%`, which opens a hexadecimal escape. -/
abbrev percent : UInt8 := 0x25

/-- The byte `$`, which opens a query. -/
abbrev dollar : UInt8 := 0x24

/-- The byte `0`. -/
abbrev zero : UInt8 := 0x30

/-- The byte `1`. -/
abbrev one : UInt8 := 0x31

/-! ## Citing a text in a message -/

/-- A text between single quotation marks. Nothing inside it is escaped. -/
def quoted (t : Text) : Text := utf8 "'" ++ t ++ utf8 "'"

end Text

end TreePatch
