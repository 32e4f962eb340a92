/-!
# Text from bytes

Bytes are read as UTF-8. A strict reading fails on the first ill-formed byte, a lenient one leaves
ill-formed bytes out.
-/

namespace CodeAtlas.Utf8

/-- The byte goes on with a character. -/
def isTail (b : UInt8) : Bool := 0x80 ≤ b && b ≤ 0xBF

/-- What such a byte adds. -/
def tailBits (b : UInt8) : Nat := b.toNat % 64

/-- The first character, and its bytes. -/
def first? : List UInt8 → Option (Char × Nat)
  | [] => none
  | a :: rest =>
    if a < 0x80 then some (Char.ofNat a.toNat, 0)
    else match rest with
      | [] => none
      | b :: rest =>
        if 0xC2 ≤ a && a ≤ 0xDF then
          if isTail b then some (Char.ofNat (a.toNat % 32 * 64 + tailBits b), 1) else none
        else match rest with
          | [] => none
          | c :: rest =>
            if 0xE0 ≤ a && a ≤ 0xEF then
              let low := if a == 0xE0 then 0xA0 else 0x80
              let high := if a == 0xED then 0x9F else 0xBF
              if low ≤ b && b ≤ high && isTail c then
                some (Char.ofNat ((a.toNat % 16 * 64 + tailBits b) * 64 + tailBits c), 2)
              else none
            else match rest with
              | [] => none
              | d :: _ =>
                let low := if a == 0xF0 then 0x90 else 0x80
                let high := if a == 0xF4 then 0x8F else 0xBF
                if 0xF0 ≤ a && a ≤ 0xF4 && low ≤ b && b ≤ high && isTail c && isTail d then
                  some (Char.ofNat
                    (((a.toNat % 8 * 64 + tailBits b) * 64 + tailBits c) * 64 + tailBits d), 3)
                else none

/-- The characters of bytes, `skip` of them belonging to the one before. -/
def lenientFrom : Nat → List UInt8 → List Char
  | _, [] => []
  | skip + 1, _ :: rest => lenientFrom skip rest
  | 0, a :: rest =>
    match first? (a :: rest) with
    | some (c, more) => c :: lenientFrom more rest
    | none => lenientFrom 0 rest

/-- The text of any bytes. -/
def lenient (bytes : List UInt8) : String := String.ofList (lenientFrom 0 bytes)

/-- The characters of bytes, if all are well formed. -/
def strictFrom : Nat → List UInt8 → Option (List Char)
  | _, [] => some []
  | skip + 1, _ :: rest => strictFrom skip rest
  | 0, a :: rest =>
    match first? (a :: rest) with
    | some (c, more) => (strictFrom more rest).map (c :: ·)
    | none => none

/-- The text of bytes, if they are one. -/
def strict? (bytes : List UInt8) : Option String := (strictFrom 0 bytes).map String.ofList

/-- The bytes of a text. -/
def bytes (s : String) : List UInt8 := s.toUTF8.toList

end CodeAtlas.Utf8
