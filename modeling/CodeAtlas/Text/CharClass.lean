/-!
# Classes of characters

Blanks, decimal digits, word characters and printable characters, each class as a table of ranges.
-/

namespace CodeAtlas.Text

/-! ## Sets of characters as sorted range bounds

A code point belongs to a set if an odd number of bounds lies at or below it. -/

/-- The bounds behind a number. -/
def boundsFrom (n : Nat) : List Nat → List Nat
  | [] => []
  | length :: rest => (n + length) :: boundsFrom (n + length) rest

/-- The bounds of a set, from the lengths outside and inside by turns. -/
def boundsOf (lengths : List Nat) : Array Nat := (boundsFrom 0 lengths).toArray

/-- The number of bounds at or below `n`, from `low` to `high`. -/
def boundsAtOrBelow (bounds : Array Nat) (n : Nat) : Nat → Nat → Nat → Nat
  | 0, low, _ => low
  | fuel + 1, low, high =>
    if high ≤ low then low
    else
      let middle := (low + high) / 2
      if bounds.getD middle 0 ≤ n then boundsAtOrBelow bounds n fuel (middle + 1) high
      else boundsAtOrBelow bounds n fuel low middle

/-- The character is in a range. -/
def inRanges (bounds : Array Nat) (c : Char) : Bool :=
  boundsAtOrBelow bounds c.toNat bounds.size 0 bounds.size % 2 == 1

/-! ## Blank characters

Blanks are the white space of Unicode together with the four information separators. -/

/-- The bounds of blanks. -/
def blankBounds : Array Nat :=
  #[
    9, 14, 28, 33, 133, 134, 160, 161, 5760, 5761, 8192, 8203, 8232, 8234, 8239, 8240, 8287,
    8288, 12288, 12289]

/-- The character is a blank. -/
def isBlank (c : Char) : Bool := inRanges blankBounds c

/-- The character is white space. -/
def isWhite (c : Char) : Bool := isBlank c && !(28 ≤ c.toNat && c.toNat ≤ 31)

/-- The characters without some at the ends. -/
def trimBy (p : Char → Bool) (cs : List Char) : List Char :=
  ((cs.dropWhile p).reverse.dropWhile p).reverse

/-- The text without blanks at the ends. -/
def trim (s : String) : String := String.ofList (trimBy isBlank s.toList)

/-! ## Decimal digits -/
def digitZeros : List Nat :=
  [
    48, 1632, 1776, 1984, 2406, 2534, 2662, 2790, 2918, 3046, 3174, 3302, 3430, 3558, 3664,
    3792, 3872, 4160, 4240, 6112, 6160, 6470, 6608, 6784, 6800, 6992, 7088, 7232, 7248, 42528,
    43216, 43264, 43472, 43504, 43600, 44016, 65296, 66720, 68912, 69734, 69872, 69942, 70096,
    70384, 70736, 70864, 71248, 71360, 71472, 71904, 72016, 72784, 73040, 73120, 73552, 92768,
    92864, 93008, 120782, 120792, 120802, 120812, 120822, 123200, 123632, 124144, 125264, 130032]

/-- The value of a digit of any script. -/
def digitValue? (c : Char) : Option Nat :=
  (digitZeros.find? fun start => start ≤ c.toNat && c.toNat < start + 10).map (c.toNat - ·)

/-! ## Word characters

Letters and numerals of every script, and the underscore. -/

/-- The bounds of word characters. -/
def wordBounds : Array Nat :=
  boundsOf [
    48,10,7,26,4,1,1,26,47,1,7,2,1,1,3,2,1,3,1,23,1,31,1,458,4,12,14,5,7,1,1,1,129,5,1,2,2,4,1,1,6,
    1,1,3,1,1,1,20,1,83,1,139,8,166,1,38,2,1,6,41,71,27,4,4,45,43,21,10,4,2,1,99,1,1,15,2,7,15,2,1,
    16,1,1,30,29,89,11,1,14,43,9,2,4,1,5,22,4,1,9,1,3,1,23,25,7,11,5,24,1,6,17,42,58,54,3,1,18,1,7,
    10,4,10,1,16,4,8,2,2,2,22,1,7,1,1,3,4,3,1,16,1,13,2,1,3,4,12,2,6,2,1,8,6,4,2,2,22,1,7,1,2,1,2,1,
    2,31,4,1,1,7,10,2,3,16,9,1,3,1,22,1,7,1,2,1,5,3,1,18,1,15,2,4,10,9,1,11,8,2,2,2,22,1,7,1,2,1,5,
    3,1,30,2,1,3,4,10,1,7,11,1,1,6,3,3,1,4,3,2,1,1,1,2,3,2,3,3,3,12,22,1,21,13,18,8,1,3,1,23,1,16,3,
    1,26,3,2,1,2,2,4,10,8,7,1,1,4,8,1,3,1,23,1,10,1,5,3,1,31,2,1,2,4,10,1,2,17,9,1,3,1,41,2,1,16,1,
    5,3,1,10,4,19,1,6,5,18,3,24,1,9,1,1,2,7,31,10,17,48,1,2,12,7,9,10,39,2,1,1,1,5,1,24,1,1,1,10,1,
    2,9,1,2,5,1,1,9,10,2,4,32,1,31,20,12,8,1,36,27,5,115,43,20,11,6,6,4,4,3,1,3,2,7,3,4,13,12,1,1,
    10,6,38,1,1,5,1,2,43,1,333,1,4,2,7,1,1,1,4,2,41,1,4,2,33,1,4,2,7,1,1,1,4,2,15,1,57,1,4,2,67,14,
    20,3,16,16,86,2,6,3,620,2,17,1,26,5,75,3,11,7,18,13,19,14,18,14,13,1,3,15,52,35,1,4,1,3,10,6,10,
    22,10,6,89,7,5,2,34,1,1,5,70,10,31,39,40,2,5,11,44,4,26,6,11,37,23,9,53,43,10,6,10,13,1,93,47,
    17,8,3,10,41,30,13,56,26,36,28,10,3,49,2,9,7,43,2,3,41,4,1,6,1,2,3,1,5,192,64,278,2,6,2,38,2,6,
    2,8,1,1,1,1,1,1,1,31,2,53,1,7,1,1,3,3,1,7,3,4,2,6,4,13,5,3,1,7,115,2,2,6,5,11,6,13,101,1,4,1,2,
    10,1,1,3,5,6,1,1,1,1,1,1,4,1,11,2,4,5,5,4,1,1,58,726,60,78,22,630,30,1132,229,6,4,3,2,9,1,2,38,
    1,1,5,1,2,56,7,1,16,23,9,7,1,7,1,7,1,7,1,7,1,7,1,7,1,7,80,1,469,3,25,9,7,5,2,5,4,86,6,3,1,90,1,
    4,5,43,1,94,3,4,10,32,48,16,32,10,30,8,1,15,32,10,39,15,320,6592,64,22157,67,46,2,269,3,28,20,
    47,16,31,2,80,39,9,2,103,2,64,5,2,1,1,1,5,24,16,1,3,1,4,1,23,13,6,10,52,14,50,28,10,24,6,3,1,1,
    2,1,38,10,23,25,29,7,47,28,11,6,5,1,25,1,41,23,3,1,8,4,10,6,23,3,1,3,50,1,1,3,2,2,5,2,1,1,1,24,
    3,2,11,7,3,12,6,2,6,2,6,9,7,1,7,1,43,1,14,6,115,13,10,6,11172,12,23,4,49,8452,366,2,106,38,7,12,
    5,5,1,1,10,1,13,1,5,1,1,1,2,1,2,1,108,33,363,18,64,2,54,40,12,116,5,1,135,19,10,7,26,6,26,11,89,
    3,6,2,6,2,6,2,3,35,12,1,26,1,19,1,2,1,15,2,14,34,123,12,45,12,57,17,2,244,29,3,49,16,27,4,36,9,
    30,5,38,10,30,2,36,4,8,1,5,42,158,2,10,6,36,4,36,4,40,8,52,12,11,1,15,1,7,1,2,1,11,1,15,1,7,1,2,
    67,311,9,22,10,8,24,6,1,42,1,9,69,6,2,1,1,44,1,2,3,1,2,23,2,31,2,38,8,9,48,19,1,2,5,33,4,26,70,
    56,4,20,2,47,15,4,1,3,1,29,10,9,23,31,1,32,32,8,1,28,6,5,16,54,10,22,2,27,5,26,23,7,80,73,55,51,
    13,51,7,42,12,10,294,31,1,42,6,2,78,40,8,22,11,4,27,18,46,28,20,23,12,53,26,30,1,2,2,1,13,45,32,
    25,7,10,9,36,15,10,4,1,2,1,8,35,3,1,12,48,14,4,11,11,1,1,4,20,11,18,1,25,19,2,63,7,1,1,1,4,1,15,
    1,10,7,47,17,10,11,8,2,2,2,22,1,7,1,2,1,5,3,1,18,1,12,5,158,53,18,4,5,10,5,3,30,48,20,2,1,1,8,
    10,166,47,41,4,36,48,20,1,11,10,38,43,13,1,7,10,54,27,21,12,4,7,185,44,116,83,12,8,2,1,2,8,1,2,
    1,24,15,1,1,1,14,10,70,8,2,39,16,1,1,1,28,1,10,40,7,1,21,1,11,46,19,1,18,73,263,9,1,37,17,1,15,
    29,5,30,112,7,1,2,1,38,21,1,9,10,6,6,1,2,1,32,14,1,7,10,310,19,15,1,1,13,1,34,28,10,86,1,15,21,
    43,922,102,111,17,196,2636,97,15,1072,17,6,4025,583,8633,569,7,31,1,10,6,79,1,10,6,30,18,48,16,
    4,12,10,1,7,1,21,5,19,688,87,105,75,5,1,66,13,64,2,1,1,28,6136,8,1238,42,9,8935,4,1,7,1,2,1,291,
    15,1,29,3,2,1,14,4,8,396,2308,107,5,13,3,9,7,10,5670,20,12,20,108,25,135,85,1,71,1,2,2,1,2,2,2,
    4,1,12,1,1,1,7,1,65,1,4,2,8,1,7,1,28,1,4,1,5,1,1,3,7,1,340,2,25,1,25,1,31,1,25,1,31,1,25,1,31,1,
    25,1,31,1,25,1,8,2,50,1792,31,6,6,261,62,146,45,10,7,2,10,4,1,321,30,18,44,4,10,470,28,4,10,742,
    7,1,4,1,2,1,15,1,197,2,9,48,68,7,1,4,10,791,59,1,3,1,4,76,45,1,15,194,4,1,27,1,2,1,1,2,1,1,10,1,
    4,1,1,1,1,6,1,4,1,1,1,1,1,1,3,1,2,1,1,2,1,1,1,1,1,1,1,1,1,1,2,1,1,2,4,1,7,1,4,1,4,1,1,1,10,1,17,
    5,3,1,5,1,17,580,13,2787,10,1030,42720,32,4154,6,222,2,5762,14,7473,3103,542,1506,4939,5,4192]

/-- The character may be in a word. -/
def isWord (c : Char) : Bool :=
  if c.toNat < 128 then c.isAlphanum || c == '_' else inRanges wordBounds c

/-! ## Printable characters

Assigned characters that are no controls, format marks or separators, and the plain space. -/

/-- The bounds of printable characters beyond words. -/
def printableBounds : Array Nat :=
  boundsOf [
    32,95,34,12,1,714,2,6,4,7,24,397,41,50,2,3,1,55,39,6,17,22,1,192,1,48,2,59,2,101,14,59,2,49,2,
    15,1,28,2,1,17,31,9,74,1,161,56,9,2,2,2,4,8,1,7,5,2,25,2,3,56,1,1,5,4,2,2,3,3,1,20,17,10,3,56,
    10,1,3,1,3,18,4,2,12,7,7,1,3,56,9,2,2,2,3,7,3,7,5,2,18,10,2,58,5,3,3,1,4,9,1,14,21,5,13,47,9,1,
    3,1,4,7,2,9,4,19,22,47,9,1,3,1,4,7,2,9,4,13,3,12,13,5,51,1,3,1,6,4,16,2,26,1,3,70,1,4,6,1,1,1,8,
    18,3,12,58,4,29,75,23,10,7,49,72,41,39,1,36,1,15,1,13,37,198,10,377,276,32,3,26,102,640,1,28,3,
    89,7,22,9,24,9,20,30,2,12,94,34,14,1,11,102,43,117,12,4,12,4,1,3,42,112,62,2,65,1,29,2,11,22,14,
    2,31,49,77,3,47,1,116,8,60,3,15,3,60,52,11,8,43,5,534,160,15,1,14,9,19,6,9,17,24,8,47,21,27,17,
    33,15,33,15,140,4,663,25,11,21,1812,2,32,1,349,5,45,73,2,14,24,73,126,34,26,1,89,12,214,26,12,5,
    63,89,103,144,84,12,47,1,29293,3,55,9,348,20,184,8,203,39,59,3,10,6,56,8,70,8,12,6,116,11,30,3,
    78,16,33,1,55,9,14,14,103,24,28,57,60,4,126,20271,26,15,125,16,445,63,1,32,42,6,51,1,19,1,4,149,
    190,33,7,1,7,13,2,258,3,52,88,1,13,3,1,47,46,226,28,84,43,36,37,4,14,409,12,732,72,128,27,5,1,
    146,50,1,2,5,8,36,3,4,10,7,9,7,64,32,39,4,12,66,29,67,4,349,46,387,3,79,43,8,42,22,26,118,78,4,
    36,9,62,1,5,61,53,1,18,8,39,9,96,51,47,93,11,6,59,21,4,55,10,2,2,2,3,9,1,5,7,2,7,3,5,139,92,1,5,
    30,72,184,54,2,38,34,69,27,13,19,58,99,15,4,23,185,60,220,30,1,2,2,12,99,46,2,11,27,72,8,83,93,
    10,256,45,1,14,42,32,2,22,1,14,84,44,3,1,1,2,1,9,34,37,1,2,1,6,327,25,7,17,1,41,3,28,102,50,13,
    923,214,5,2843,99,1101,22,13848,81,49,6,10,70,762,91,180,57,7,17,64,5,11,2,19626,4,4704,46,2,23,
    9,116,60,246,10,39,2,74,8,112,21,70,186,87,849,292,2,702,15,5,1,15,1360,7,1,17,2,7,1,2,1,5,100,
    1,160,14,16,2,320,31,17,58,5,1,464,42,973,16,41,76,18,2,785,68,76,61,434,2,270,44,4,100,12,15,2,
    15,1,15,1,37,10,174,56,29,13,44,4,9,7,2,14,6,154,984,4,17,3,13,3,119,4,95,6,12,4,1,15,12,4,56,8,
    10,6,40,8,30,2,2,78,340,12,14,2,13,3,9,7,46,1,7,8,14,4,9,7,9,7,147,1,55,787765,240]

/-- The character is printed as it is. -/
def isPrintable (c : Char) : Bool :=
  if c.toNat < 127 then decide (32 ≤ c.toNat) else isWord c || inRanges printableBounds c

end CodeAtlas.Text
