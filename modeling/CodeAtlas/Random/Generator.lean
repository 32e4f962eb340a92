import CodeAtlas.Number.Arith

/-!
# A repeatable source of numbers

A source of numbers that a checksum seeds.
-/

namespace CodeAtlas.Random

/-! ## Cyclic redundancy check

The polynomial is `0xEDB88320`, reflected. -/

/-- One bit shifted out. -/
def shiftOut (register : UInt32) : UInt32 :=
  if register &&& 1 == 1 then (register >>> 1) ^^^ 0xEDB88320 else register >>> 1

/-- One byte taken in. -/
def feed (register : UInt32) (byte : UInt8) : UInt32 :=
  (List.range 8).foldl (fun r _ => shiftOut r) (register ^^^ byte.toUInt32)

/-- The number that bytes are seeded by. -/
def checksum (bytes : List UInt8) : UInt32 := bytes.foldl feed 0xFFFFFFFF ^^^ 0xFFFFFFFF

/-! ## A repeatable source of numbers

A twisted feedback register with period `2 ^ 19937 - 1`. -/

/-- The register of a source of numbers. -/
structure Twister where
  words : Array UInt32
  next : Nat

namespace Twister

/-- The words of the register. -/
def size : Nat := 624

/-- The word mixed with its leading bits. -/
def fold30 (w : UInt32) : UInt32 := w ^^^ (w >>> 30)

/-- The register filled from a number. -/
def filled (seed : UInt32) : Array UInt32 :=
  (List.range (size - 1)).foldl
    (fun words i => words.push (1812433253 * fold30 (words.getD i 0) + UInt32.ofNat (i + 1)))
    #[seed]

/-- Word `i` mixed with the one before it; past the end the last is copied to the front. -/
def mixAt (mix : UInt32 → UInt32 → Nat → UInt32) (words : Array UInt32) (i : Nat) : Array UInt32 :=
  let w := mix (words.getD i 0) (fold30 (words.getD (i - 1) 0)) i
  let words := words.setIfInBounds i w
  if i + 1 = size then words.setIfInBounds 0 w else words

/-- The places of `count` steps from `i` on that never rest on the front. -/
def places (i count : Nat) : List Nat :=
  (List.range count).map fun k => (i - 1 + k) % (size - 1) + 1

/-- The source for a seed. -/
def seeded (seed : UInt32) : Twister :=
  let start := filled 19650218
  let mixed := (places 1 size).foldl (mixAt fun w p _ => (w ^^^ (p * 1664525)) + seed) start
  let mixed := (places 2 (size - 1)).foldl
    (mixAt fun w p i => (w ^^^ (p * 1566083941)) - UInt32.ofNat i) mixed
  ⟨mixed.setIfInBounds 0 0x80000000, size⟩

/-- One word of the next register. -/
def twistAt (words : Array UInt32) (i : Nat) : Array UInt32 :=
  let y := (words.getD i 0 &&& 0x80000000) ||| (words.getD ((i + 1) % size) 0 &&& 0x7FFFFFFF)
  let w := words.getD ((i + 397) % size) 0 ^^^ (y >>> 1)
  words.setIfInBounds i (if y &&& 1 == 1 then w ^^^ 0x9908B0DF else w)

/-- The word as it is drawn. -/
def temper (y : UInt32) : UInt32 :=
  let y := y ^^^ (y >>> 11)
  let y := y ^^^ ((y <<< 7) &&& 0x9D2C5680)
  let y := y ^^^ ((y <<< 15) &&& 0xEFC60000)
  y ^^^ (y >>> 18)

/-- One word drawn. -/
def draw (t : Twister) : UInt32 × Twister :=
  let t := if t.next < size then t else ⟨(List.range size).foldl twistAt t.words, 0⟩
  (temper (t.words.getD t.next 0), ⟨t.words, t.next + 1⟩)

/-- A number of 53 bits drawn. -/
def draw53 (t : Twister) : Nat × Twister :=
  let (a, t) := t.draw
  let (b, t) := t.draw
  ((a >>> 5).toNat * 67108864 + (b >>> 6).toNat, t)

/-- A count of numbers drawn. -/
def draws : Nat → Twister → List Nat
  | 0, _ => []
  | count + 1, t =>
    let (n, t) := t.draw53
    n :: draws count t

/-- A count of fractions drawn. -/
def fractions {K : Type} [Arith K] (count : Nat) (t : Twister) : List K :=
  (draws count t).map fun n : Nat => Arith.ratio n (Int.ofNat (Nat.pow 2 53))

end Twister

end CodeAtlas.Random
