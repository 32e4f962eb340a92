import CodeAtlas.Text.CharClass

/-!
# Letter case

Texts in small letters, in title form and in capitals.
-/

namespace CodeAtlas.Text

/-! ## Letter case tables -/

/-- Every `step`-th character from `first` to `last`, moved by `shift`. -/
structure CaseRun where
  first : Nat
  last : Nat
  step : Nat
  shift : Int

/-- Stretches of capitals with the distance to their small forms. -/
def capitals : List (Nat × Nat × Int) :=
  [
    (65,90,32), (192,214,32), (216,222,32), (393,394,205), (433,434,217), (904,906,37),
    (910,911,63), (913,929,32), (931,939,32), (1021,1023,-130), (1024,1039,80), (1040,1071,32),
    (1329,1366,48), (4256,4293,7264), (5024,5103,38864), (5104,5109,8), (7312,7354,-3008),
    (7357,7359,-3008), (7944,7951,-8), (7960,7965,-8), (7976,7983,-8), (7992,7999,-8),
    (8008,8013,-8), (8040,8047,-8), (8072,8079,-8), (8088,8095,-8), (8104,8111,-8), (8120,8121,-8),
    (8122,8123,-74), (8136,8139,-86), (8152,8153,-8), (8154,8155,-100), (8168,8169,-8),
    (8170,8171,-112), (8184,8185,-128), (8186,8187,-126), (8544,8559,16), (9398,9423,26),
    (11264,11311,48), (11390,11391,-10815), (65313,65338,32), (66560,66599,40), (66736,66771,40),
    (66928,66938,39), (66940,66954,39), (66956,66962,39), (66964,66965,39), (68736,68786,64),
    (71840,71871,32), (93760,93791,32), (125184,125217,34)]

/-- Stretches of capitals with the small form of each next to it. -/
def pairs : List (Nat × Nat) :=
  [
    (256,302), (306,310), (313,327), (330,374), (377,381), (386,388), (391,391), (395,395),
    (401,401), (408,408), (416,420), (423,423), (428,428), (431,431), (435,437), (440,440),
    (444,444), (453,453), (456,456), (459,475), (478,494), (498,500), (504,542), (546,562),
    (571,571), (577,577), (582,590), (880,882), (886,886), (984,1006), (1015,1015), (1018,1018),
    (1120,1152), (1162,1214), (1217,1229), (1232,1326), (7680,7828), (7840,7934), (8579,8579),
    (11360,11360), (11367,11371), (11378,11378), (11381,11381), (11392,11490), (11499,11501),
    (11506,11506), (42560,42604), (42624,42650), (42786,42798), (42802,42862), (42873,42875),
    (42878,42886), (42891,42891), (42896,42898), (42902,42920), (42932,42946), (42951,42953),
    (42960,42960), (42966,42968), (42997,42997)]

/-- Other capitals with their small forms. -/
def loneCapitals : List (Nat × Nat) :=
  [
    (376,255), (385,595), (390,596), (398,477), (399,601), (400,603), (403,608), (404,611),
    (406,617), (407,616), (412,623), (413,626), (415,629), (422,640), (425,643), (430,648),
    (439,658), (452,454), (455,457), (458,460), (497,499), (502,405), (503,447), (544,414),
    (570,11365), (573,410), (574,11366), (579,384), (580,649), (581,652), (895,1011), (902,940),
    (908,972), (975,983), (1012,952), (1017,1010), (1216,1231), (4295,11559), (4301,11565),
    (7838,223), (8025,8017), (8027,8019), (8029,8021), (8031,8023), (8124,8115), (8140,8131),
    (8172,8165), (8188,8179), (8486,969), (8490,107), (8491,229), (8498,8526), (11362,619),
    (11363,7549), (11364,637), (11373,593), (11374,625), (11375,592), (11376,594), (42877,7545),
    (42893,613), (42922,614), (42923,604), (42924,609), (42925,620), (42926,618), (42928,670),
    (42929,647), (42930,669), (42931,43859), (42948,42900), (42949,642), (42950,7566)]

/-- The title forms that no letter gets as the capital of its small form. -/
def loneTitles : List (Nat × Nat) :=
  [
    (181,924), (305,73), (383,83), (452,453), (455,456), (458,459), (497,498), (837,921), (962,931),
    (976,914), (977,920), (981,934), (982,928), (1008,922), (1009,929), (1013,917), (7296,1042),
    (7297,1044), (7298,1054), (7299,1057), (7300,1058), (7301,1058), (7302,1066), (7303,1122),
    (7304,42570), (7835,7776), (8126,921)]

/-- The run of a single character. -/
def CaseRun.lone (x : Nat × Nat) : CaseRun := ⟨x.1, x.1, 1, (x.2 : Int) - x.1⟩

/-- The forms of a run changed back. -/
def CaseRun.turned (r : CaseRun) : CaseRun where
  first := (r.first + r.shift).toNat
  last := (r.last + r.shift).toNat
  step := r.step
  shift := -r.shift

/-- The characters whose small form is another single character. -/
def lowerRuns : List CaseRun :=
  capitals.map (fun x => ⟨x.1, x.2.1, 1, x.2.2⟩) ++ pairs.map (fun x => ⟨x.1, x.2, 2, 1⟩) ++
    loneCapitals.map .lone

/-- The characters with another title form; two stretches have capitals only. -/
def titleRuns : List CaseRun :=
  [⟨4304, 4346, 1, 0⟩, ⟨4349, 4351, 1, 0⟩] ++ loneTitles.map .lone ++ lowerRuns.map .turned

/-- The characters whose title form is a sequence of characters. -/
def titleSequences : List (Nat × List Nat) :=
  [
    (223,[83,115]), (329,[700,78]), (496,[74,780]), (912,[921,776,769]), (944,[933,776,769]),
    (1415,[1333,1410]), (7830,[72,817]), (7831,[84,776]), (7832,[87,778]), (7833,[89,778]),
    (7834,[65,702]), (8016,[933,787]), (8018,[933,787,768]), (8020,[933,787,769]),
    (8022,[933,787,834]), (8114,[8122,837]), (8116,[902,837]), (8118,[913,834]),
    (8119,[913,834,837]), (8130,[8138,837]), (8132,[905,837]), (8134,[919,834]),
    (8135,[919,834,837]), (8146,[921,776,768]), (8147,[921,776,769]), (8150,[921,834]),
    (8151,[921,776,834]), (8162,[933,776,768]), (8163,[933,776,769]), (8164,[929,787]),
    (8166,[933,834]), (8167,[933,776,834]), (8178,[8186,837]), (8180,[911,837]), (8182,[937,834]),
    (8183,[937,834,837]), (64256,[70,102]), (64257,[70,105]), (64258,[70,108]),
    (64259,[70,102,105]), (64260,[70,102,108]), (64261,[83,116]), (64262,[83,116]),
    (64275,[1348,1398]), (64276,[1348,1381]), (64277,[1348,1387]), (64278,[1358,1398]),
    (64279,[1348,1389])]

/-- The bounds of letters with case. -/
def casedBounds : Array Nat :=
  boundsOf [
    65,26,6,26,47,1,10,1,4,1,5,23,1,31,1,195,1,4,4,208,1,36,7,2,30,5,96,1,42,4,2,2,2,4,1,1,6,1,1,3,
    1,1,1,20,1,83,1,139,8,166,1,38,9,41,2839,38,1,1,5,1,2,43,1,4,672,86,2,6,2178,9,7,43,2,3,64,192,
    64,278,2,6,2,38,2,6,2,8,1,1,1,1,1,1,1,31,2,53,1,7,1,1,3,3,1,7,3,4,2,6,4,13,5,3,1,7,116,1,13,1,
    16,13,101,1,4,1,2,10,1,1,3,5,6,1,1,1,1,1,1,4,1,6,4,1,2,4,5,5,4,1,17,32,3,2,817,52,1814,229,6,4,
    3,2,12,38,1,1,5,1,30994,46,18,30,132,102,3,4,1,59,5,2,1,1,1,5,24,5,1,3,821,43,1,14,6,80,20288,7,
    12,5,1033,26,6,26,1189,80,96,36,4,36,116,11,1,15,1,7,1,2,1,11,1,15,1,7,1,2,451,1,2,3,1,42,1,9,
    1221,51,13,51,2989,64,21856,64,25984,85,1,71,1,2,2,1,2,2,2,4,1,12,1,1,1,7,1,65,1,4,2,8,1,7,1,28,
    1,4,1,5,1,1,3,7,1,340,2,25,1,25,1,31,1,25,1,31,1,25,1,31,1,25,1,31,1,25,1,8,1844,10,1,20,6,6,
    261,62,2194,68,2028,26,6,26,6,26]

/-- The bounds of characters passed over. -/
def ignorableBounds : Array Nat :=
  boundsOf [
    39,1,6,1,11,1,35,1,1,1,71,1,4,1,1,1,4,1,2,2,503,192,4,2,4,1,9,2,1,1,251,7,207,1,5,1,49,45,1,1,1,
    2,1,2,1,1,44,1,11,6,10,11,1,1,35,1,10,21,16,1,101,8,1,10,1,4,33,1,1,1,30,27,91,11,58,11,4,1,2,1,
    24,24,43,3,44,1,7,2,6,8,41,58,55,1,1,1,4,8,4,1,3,7,10,2,13,1,15,1,58,1,4,4,8,1,20,2,26,1,2,2,57,
    1,4,2,4,2,2,3,3,1,30,2,3,1,11,2,57,1,4,5,1,2,4,1,20,2,22,6,1,1,58,1,2,1,1,4,8,1,7,2,11,2,30,1,
    61,1,12,1,50,1,3,1,55,1,1,3,5,3,1,4,7,2,11,2,29,1,58,1,2,1,6,1,5,2,20,2,28,2,57,2,4,4,8,1,20,2,
    29,1,72,1,7,3,1,1,90,1,2,7,11,9,98,1,2,9,9,1,1,7,73,2,27,1,1,1,1,1,55,14,1,5,1,2,5,11,1,36,9,1,
    102,4,1,6,1,2,2,2,25,2,4,3,16,4,13,1,2,2,6,1,15,1,94,1,608,3,946,3,29,2,30,2,30,2,64,2,1,7,8,1,
    2,11,3,1,5,1,45,5,51,1,65,2,34,1,118,3,4,2,9,1,6,3,219,2,2,1,58,1,1,7,1,1,1,1,2,8,6,10,2,1,39,1,
    8,31,49,4,48,1,1,5,1,1,5,1,40,9,12,2,32,4,2,2,1,3,56,1,1,2,3,1,1,3,58,8,2,2,64,6,82,3,1,13,1,7,
    4,1,6,1,3,2,50,63,13,1,34,101,445,1,1,3,11,3,13,3,13,3,13,2,12,5,8,2,10,1,2,1,2,5,49,5,1,10,1,1,
    13,1,16,13,51,33,2955,2,113,3,125,1,15,1,96,32,47,1,469,1,36,4,3,5,5,1,93,6,93,3,28438,1,1250,6,
    270,1,98,4,1,10,1,1,28,4,80,2,14,34,78,1,23,3,103,3,3,2,8,1,3,1,4,1,25,2,5,1,151,2,26,18,13,1,
    38,8,25,11,46,3,48,1,2,4,2,2,17,1,21,2,66,6,2,2,2,2,12,1,8,1,35,1,11,1,51,1,1,3,2,2,5,2,1,1,27,
    1,14,2,5,2,1,1,100,5,9,3,121,1,2,1,4,1,20272,1,147,17,573,16,3,1,12,16,34,1,2,1,169,1,7,1,6,1,
    11,1,35,1,1,1,47,1,45,2,67,1,21,3,513,1,226,1,149,5,1029,6,1,42,1,9,582,3,1,2,5,4,40,3,4,1,165,
    2,573,4,387,2,80,3,70,11,49,4,123,1,54,15,41,1,2,2,10,3,49,4,2,2,2,1,4,1,10,1,50,3,36,5,1,8,62,
    1,12,2,52,9,10,4,2,1,95,3,2,1,1,2,6,1,2,1,157,1,3,8,21,2,57,2,3,1,37,7,3,5,195,8,2,3,1,1,23,1,
    84,6,1,1,4,2,1,2,238,4,6,2,1,2,27,2,85,8,2,1,1,2,106,1,1,1,2,6,1,1,101,3,2,4,1,5,259,9,1,2,256,
    2,1,1,4,1,144,4,2,2,4,1,32,10,40,6,2,4,8,1,9,6,2,3,46,13,1,2,406,7,1,6,1,1,82,22,2,7,1,2,1,2,
    122,6,3,1,1,2,1,7,1,1,72,2,3,1,1,1,347,2,11,2,52,5,5,1,1,1,5357,17,6,15,13978,5,59,7,9,4,1035,1,
    63,17,64,2,1,2,16395,4,1,7,1,2,3230,2,1,4,4700,46,2,23,544,3,9,16,2,7,30,4,148,3,1979,55,4,50,8,
    1,14,1,22,5,1,15,1360,7,1,17,2,7,1,2,1,5,5,62,33,1,160,14,368,1,61,4,507,5,992,7,109,8,2735,5,
    789505,1,30,96,128,240]

/-! ## Letter case -/

/-- The character moved by its run. -/
def shiftBy (runs : List CaseRun) (c : Char) : Char :=
  let n := c.toNat
  match runs.find? fun r => r.first ≤ n && n ≤ r.last && (n - r.first) % r.step == 0 with
  | some r => Char.ofNat (n + r.shift).toNat
  | none => c

/-- The character has case. -/
def isCased (c : Char) : Bool := inRanges casedBounds c

/-- The character is passed over. -/
def isIgnorable (c : Char) : Bool := inRanges ignorableBounds c

/-- A letter with case follows. -/
def casedNext (cs : List Char) : Bool :=
  match cs.dropWhile isIgnorable with
  | c :: _ => isCased c
  | [] => false

/-- The small form of a character, given what is before, nearest first, and behind. -/
def lowerChar (before : List Char) (c : Char) (after : List Char) : List Char :=
  if c == 'Σ' then
    if casedNext before && !casedNext after then ['ς'] else ['σ']
  else if c.toNat == 0x130 then ['i', Char.ofNat 0x307]
  else [shiftBy lowerRuns c]

/-- The title form of a character. -/
def titleChar (c : Char) : List Char :=
  match titleSequences.find? (·.1 == c.toNat) with
  | some (_, cs) => cs.map Char.ofNat
  | none => [shiftBy titleRuns c]

/-- Small forms of all characters, `before` holding those already passed. -/
def lowerFrom (before : List Char) : List Char → List Char
  | [] => []
  | c :: cs => lowerChar before c cs ++ lowerFrom (c :: before) cs

/-- The text in small letters. -/
def lower (s : String) : String := String.ofList (lowerFrom [] s.toList)

/-- Title forms, `before` holding the characters already passed. -/
def titleFrom (before : List Char) : List Char → List Char
  | [] => []
  | c :: cs =>
    let form := match before with
      | p :: _ => if isCased p then lowerChar before c cs else titleChar c
      | [] => titleChar c
    form ++ titleFrom (c :: before) cs

/-- Letters behind no letter in their title form, all others small. -/
def title (s : String) : String := String.ofList (titleFrom [] s.toList)

/-- The basic capital of a letter, also of the dotless i and the long s. -/
def capital (c : Char) : Char :=
  if c.toNat == 0x131 then 'I' else if c.toNat == 0x17F then 'S' else c.toUpper

end CodeAtlas.Text
