/-
The order of texts: they compare as their UTF-8 forms do, byte by byte.
-/
namespace KnightLang.Text

/-- The bytes of the UTF-8 form of a text. -/
def bytes (s : String) : List UInt8 := s.toByteArray.data.toList

/-- The order of two texts by the bytes of their UTF-8 forms. -/
def byteOrder (a b : String) : Ordering := compare (bytes a) (bytes b)

end KnightLang.Text
