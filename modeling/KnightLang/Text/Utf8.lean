/-
Text from bytes that are meant as UTF-8. `decode?` wants well-formed UTF-8. `decodeLossy` takes any
bytes: each longest run that starts a character but cannot become one, and each byte that starts
no character, reads as one replacement character.
-/
namespace KnightLang.Text

/-- The text of well-formed UTF-8. -/
def decode? (bytes : List UInt8) : Option String := String.fromUTF8? ⟨bytes.toArray⟩

/-- The character that stands for bytes that are no character. -/
def replacement : Char := '\ufffd'

/-- A character of which some bytes are read. -/
structure OpenChar where
  /-- The bits read so far. -/
  value : Nat
  /-- The number of bytes still to be read. -/
  missing : Nat
  /-- The least next byte. -/
  low : UInt8 := 0x80
  /-- The greatest next byte. -/
  high : UInt8 := 0xBF

/-- The character that a first byte starts, or what it stands for on its own. -/
def firstByte (b : UInt8) : Char ⊕ OpenChar :=
  let value (bits : Nat) := b.toNat % (1 <<< bits)
  if b < 0x80 then .inl (Char.ofNat b.toNat)
  else if b < 0xC2 then .inl replacement
  else if b < 0xE0 then .inr { value := value 5, missing := 1 }
  else if b = 0xE0 then .inr { value := value 4, missing := 2, low := 0xA0 }
  else if b = 0xED then .inr { value := value 4, missing := 2, high := 0x9F }
  else if b < 0xF0 then .inr { value := value 4, missing := 2 }
  else if b = 0xF0 then .inr { value := value 3, missing := 3, low := 0x90 }
  else if b < 0xF4 then .inr { value := value 3, missing := 3 }
  else if b = 0xF4 then .inr { value := value 3, missing := 3, high := 0x8F }
  else .inl replacement

/-- The characters decided by a first byte, before the given ones, and what it leaves open. -/
def startChar (decided : List Char) (b : UInt8) : List Char × Option OpenChar :=
  match firstByte b with
  | .inl c => (c :: decided, none)
  | .inr p => (decided, some p)

/-- Reads one more byte. The characters decided so far come last first. -/
def decodeByte : List Char × Option OpenChar → UInt8 → List Char × Option OpenChar
  | (decided, none), b => startChar decided b
  | (decided, some p), b =>
    if p.low ≤ b ∧ b ≤ p.high then
      let value := 64 * p.value + b.toNat % 64
      if p.missing ≤ 1 then (Char.ofNat value :: decided, none)
      else (decided, some { value, missing := p.missing - 1 })
    else startChar (replacement :: decided) b

/-- The text of any bytes. -/
def decodeLossy (bytes : List UInt8) : String :=
  match bytes.foldl decodeByte ([], none) with
  | (decided, none) => String.ofList decided.reverse
  | (decided, some _) => String.ofList (replacement :: decided).reverse

end KnightLang.Text
