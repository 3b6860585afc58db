import ScopeLowering.Text.Ranges

/-!
# Letter case

Whole texts in upper and in lower case, by the full mappings of version 14 of the character
database: one letter may become several, and a capital sigma becomes a final sigma at the end of a
word.
-/

namespace ScopeLowering.Text

/-- Runs of capital letters whose small letters are all at the same distance: each run from some
letter on, so many of them, every `step`-th one. -/
structure CaseRuns where
  step : Nat
  shift : Int
  runs : List (Nat × Nat)

/-- The pairs of a capital letter and a small letter that are each other's other case. -/
def casePairs : List CaseRuns := [
  ⟨2,1,[(256,24),(306,3),(313,8),(330,23),(377,3),(386,2),(391,1),(395,1),(401,1),(408,1),(416,3),
  (423,1),(428,1),(431,1),(435,2),(440,1),(444,1),(461,8),(478,9),(500,1),(504,20),(546,9),(571,1),
  (577,1),(582,5),(880,2),(886,1),(984,12),(1015,1),(1018,1),(1120,17),(1162,27),(1217,7),(1232,48),
  (7680,75),(7840,48),(8579,1),(11360,1),(11367,3),(11378,1),(11381,1),(11392,50),(11499,2),
  (11506,1),(42560,23),(42624,14),(42786,7),(42802,31),(42873,2),(42878,5),(42891,1),(42896,2),
  (42902,10),(42932,8),(42951,2),(42960,1),(42966,2),(42997,1)]⟩,⟨1,-8,[(7944,8),(7960,6),(7976,8),
  (7992,8),(8008,6),(8040,8),(8120,2),(8152,2),(8168,2)]⟩,⟨1,32,[(65,26),(192,23),(216,7),(913,17),
  (931,9),(1040,32),(65313,26),(71840,32),(93760,32)]⟩,⟨2,39,[(66928,19),(66929,5),(66941,7),
  (66957,3),(66965,1)]⟩,⟨1,2,[(452,1),(455,1),(458,1),(497,1)]⟩,⟨1,218,[(422,1),(425,1),(430,1)]⟩,
  ⟨1,7264,[(4256,38),(4295,1),(4301,1)]⟩,⟨1,-42308,[(42922,1),(42926,1)]⟩,⟨1,-3008,[(7312,43),
  (7357,3)]⟩,⟨1,-130,[(544,1),(1021,3)]⟩,⟨1,-7,[(1017,1),(8172,1)]⟩,⟨1,8,[(975,1),(5104,6)]⟩,
  ⟨1,40,[(66560,40),(66736,36)]⟩,⟨1,48,[(1329,38),(11264,48)]⟩,⟨1,64,[(908,1),(68736,51)]⟩,
  ⟨1,205,[(393,2),(403,1)]⟩,⟨1,211,[(406,1),(412,1)]⟩,⟨1,-42319,[(42923,1)]⟩,⟨1,-42315,[(42924,1)]⟩,
  ⟨1,-42307,[(42949,1)]⟩,⟨1,-42305,[(42925,1)]⟩,⟨1,-42282,[(42929,1)]⟩,⟨1,-42280,[(42893,1)]⟩,
  ⟨1,-42261,[(42930,1)]⟩,⟨1,-42258,[(42928,1)]⟩,⟨1,-35384,[(42950,1)]⟩,⟨1,-35332,[(42877,1)]⟩,
  ⟨1,-10815,[(11390,2)]⟩,⟨1,-10783,[(11375,1)]⟩,⟨1,-10782,[(11376,1)]⟩,⟨1,-10780,[(11373,1)]⟩,
  ⟨1,-10749,[(11374,1)]⟩,⟨1,-10743,[(11362,1)]⟩,⟨1,-10727,[(11364,1)]⟩,⟨1,-3814,[(11363,1)]⟩,
  ⟨1,-195,[(579,1)]⟩,⟨1,-163,[(573,1)]⟩,⟨1,-128,[(8184,2)]⟩,⟨1,-126,[(8186,2)]⟩,⟨1,-121,[(376,1)]⟩,
  ⟨1,-112,[(8170,2)]⟩,⟨1,-100,[(8154,2)]⟩,⟨1,-97,[(502,1)]⟩,⟨1,-86,[(8136,4)]⟩,⟨1,-74,[(8122,2)]⟩,
  ⟨1,-56,[(503,1)]⟩,⟨1,-48,[(42948,1)]⟩,⟨1,15,[(1216,1)]⟩,⟨1,16,[(8544,16)]⟩,⟨1,26,[(9398,26)]⟩,
  ⟨1,28,[(8498,1)]⟩,⟨1,34,[(125184,34)]⟩,⟨1,37,[(904,3)]⟩,⟨1,38,[(902,1)]⟩,⟨1,63,[(910,2)]⟩,
  ⟨1,69,[(580,1)]⟩,⟨1,71,[(581,1)]⟩,⟨1,79,[(398,1)]⟩,⟨1,80,[(1024,16)]⟩,⟨1,116,[(895,1)]⟩,
  ⟨1,202,[(399,1)]⟩,⟨1,203,[(400,1)]⟩,⟨1,206,[(390,1)]⟩,⟨1,207,[(404,1)]⟩,⟨1,209,[(407,1)]⟩,
  ⟨1,210,[(385,1)]⟩,⟨1,213,[(413,1)]⟩,⟨1,214,[(415,1)]⟩,⟨1,217,[(433,2)]⟩,⟨1,219,[(439,1)]⟩,
  ⟨1,928,[(42931,1)]⟩,⟨1,10792,[(574,1)]⟩,⟨1,10795,[(570,1)]⟩,⟨1,38864,[(5024,80)]⟩,
  ⟨2,-8,[(8025,4)]⟩]

/-- Capital letters whose small letter has another capital letter. -/
def otherCapitals : List CaseRuns := [
  ⟨1,1,[(453,1),(456,1),(459,1),(498,1)]⟩,⟨1,-9,[(8124,1),(8140,1),(8188,1)]⟩,⟨1,-8,[(8072,8),
  (8088,8),(8104,8)]⟩,⟨1,-8383,[(8490,1)]⟩,⟨1,-8262,[(8491,1)]⟩,⟨1,-7615,[(7838,1)]⟩,
  ⟨1,-7517,[(8486,1)]⟩,⟨1,-60,[(1012,1)]⟩]

/-- Letters whose upper case is several letters, or one letter with another lower case, but for the
Greek ones of `upperSpecial?`. -/
def upperSpecial : List (Nat × List Nat) := [
  (181,[924]),(223,[83,83]),(305,[73]),(329,[700,78]),(383,[83]),(453,[452]),(456,[455]),
  (459,[458]),(496,[74,780]),(498,[497]),(837,[921]),(912,[921,776,769]),(944,[933,776,769]),
  (962,[931]),(976,[914]),(977,[920]),(981,[934]),(982,[928]),(1008,[922]),(1009,[929]),
  (1013,[917]),(1415,[1333,1362]),(7296,[1042]),(7297,[1044]),(7298,[1054]),(7299,[1057]),
  (7300,[1058]),(7301,[1058]),(7302,[1066]),(7303,[1122]),(7304,[42570]),(7830,[72,817]),
  (7831,[84,776]),(7832,[87,778]),(7833,[89,778]),(7834,[65,702]),(7835,[7776]),(8016,[933,787]),
  (8018,[933,787,768]),(8020,[933,787,769]),(8022,[933,787,834]),(8114,[8122,921]),(8115,[913,921]),
  (8116,[902,921]),(8118,[913,834]),(8119,[913,834,921]),(8124,[913,921]),(8126,[921]),
  (8130,[8138,921]),(8131,[919,921]),(8132,[905,921]),(8134,[919,834]),(8135,[919,834,921]),
  (8140,[919,921]),(8146,[921,776,768]),(8147,[921,776,769]),(8150,[921,834]),(8151,[921,776,834]),
  (8162,[933,776,768]),(8163,[933,776,769]),(8164,[929,787]),(8166,[933,834]),(8167,[933,776,834]),
  (8178,[8186,921]),(8179,[937,921]),(8180,[911,921]),(8182,[937,834]),(8183,[937,834,921]),
  (8188,[937,921]),(64256,[70,70]),(64257,[70,73]),(64258,[70,76]),(64259,[70,70,73]),
  (64260,[70,70,76]),(64261,[83,84]),(64262,[83,84]),(64275,[1348,1350]),(64276,[1348,1333]),
  (64277,[1348,1339]),(64278,[1358,1350]),(64279,[1348,1341])]

/-- Letters that have case, for telling where a word ends. -/
def casedLetters : List Nat := [
  65,26,6,26,47,1,10,1,4,1,5,23,1,31,1,195,1,4,4,208,1,27,192,4,2,2,3,3,1,1,6,1,1,3,1,1,1,20,1,83,1,
  139,8,166,1,38,9,41,2839,38,1,1,5,1,2,43,2,3,672,86,2,6,2178,9,7,43,2,3,64,44,63,13,1,34,101,278,
  2,6,2,38,2,6,2,8,1,1,1,1,1,1,1,31,2,53,1,7,1,1,3,3,1,7,3,4,2,6,4,13,5,3,1,7,261,1,4,1,2,10,1,1,3,
  5,6,1,1,1,1,1,1,4,1,6,4,1,2,4,5,5,4,1,17,32,3,2,817,52,1814,124,2,103,6,4,3,2,12,38,1,1,5,1,30994,
  46,18,28,134,78,1,23,3,4,1,59,5,2,1,1,1,5,27,2,3,1,821,43,5,9,7,80,20288,7,12,5,1033,26,6,26,1189,
  80,96,36,4,36,116,11,1,15,1,7,1,2,1,11,1,15,1,7,1,2,1731,51,13,51,2989,64,21856,64,25984,85,1,71,
  1,2,2,1,2,2,2,4,1,12,1,1,1,7,1,65,1,4,2,8,1,7,1,28,1,4,1,5,1,1,3,7,1,340,2,25,1,25,1,31,1,25,1,31,
  1,25,1,31,1,25,1,31,1,25,1,8,1844,10,1,20,2529,68,2028,26,6,26,6,26]

/-- Characters that are passed over when looking for the end of a word. -/
def caseIgnorable : List Nat := [
  39,1,6,1,11,1,35,1,1,1,71,1,4,1,1,1,4,1,2,2,503,192,4,2,4,1,9,2,1,1,251,7,207,1,5,1,49,45,1,1,1,2,
  1,2,1,1,44,1,11,6,10,11,1,1,35,1,10,21,16,1,101,8,1,10,1,4,33,1,1,1,30,27,91,11,58,11,4,1,2,1,24,
  24,43,3,44,1,7,2,6,8,41,58,55,1,1,1,4,8,4,1,3,7,10,2,13,1,15,1,58,1,4,4,8,1,20,2,26,1,2,2,57,1,4,
  2,4,2,2,3,3,1,30,2,3,1,11,2,57,1,4,5,1,2,4,1,20,2,22,6,1,1,58,1,2,1,1,4,8,1,7,2,11,2,30,1,61,1,12,
  1,50,1,3,1,55,1,1,3,5,3,1,4,7,2,11,2,29,1,58,1,2,1,6,1,5,2,20,2,28,2,57,2,4,4,8,1,20,2,29,1,72,1,
  7,3,1,1,90,1,2,7,11,9,98,1,2,9,9,1,1,6,74,2,27,1,1,1,1,1,55,14,1,5,1,2,5,11,1,36,9,1,102,4,1,6,1,
  2,2,2,25,2,4,3,16,4,13,1,2,2,6,1,15,1,94,1,608,3,946,3,29,2,30,2,30,2,64,2,1,7,8,1,2,11,3,1,5,1,
  45,5,51,1,65,2,34,1,118,3,4,2,9,1,6,3,219,2,2,1,58,1,1,7,1,1,1,1,2,8,6,10,2,1,39,1,8,31,49,4,48,1,
  1,5,1,1,5,1,40,9,12,2,32,4,2,2,1,3,56,1,1,2,3,1,1,3,58,8,2,2,64,6,82,3,1,13,1,7,4,1,6,1,3,2,50,63,
  13,1,34,101,445,1,1,3,11,3,13,3,13,3,13,2,12,5,8,2,10,1,2,1,2,5,49,5,1,10,1,1,13,1,16,13,51,33,
  2955,2,113,3,125,1,15,1,96,32,47,1,469,1,36,4,3,5,5,1,93,6,93,3,28438,1,1250,6,270,1,98,4,1,10,1,
  1,28,4,80,2,14,34,78,1,23,3,103,3,3,2,8,1,3,1,4,1,25,2,5,1,151,2,26,18,13,1,38,8,25,11,46,3,48,1,
  2,4,2,2,17,1,21,2,66,6,2,2,2,2,12,1,8,1,35,1,11,1,51,1,1,3,2,2,5,2,1,1,27,1,14,2,5,2,1,1,100,5,9,
  3,121,1,2,1,4,1,20272,1,147,17,573,16,3,1,12,16,34,1,2,1,169,1,7,1,6,1,11,1,35,1,1,1,47,1,45,2,67,
  1,21,3,513,1,226,1,149,5,1029,6,1,42,1,9,582,3,1,2,5,4,40,3,4,1,165,2,573,4,387,2,153,11,49,4,123,
  1,54,15,41,1,2,2,10,3,49,4,2,2,2,1,4,1,10,1,50,3,36,5,1,8,62,1,12,2,52,9,10,4,2,1,95,3,2,1,1,2,6,
  1,160,1,3,8,21,2,57,2,3,1,37,7,3,5,195,8,2,3,1,1,23,1,84,6,1,1,4,2,1,2,238,4,6,2,1,2,27,2,85,8,2,
  1,1,2,106,1,1,1,2,6,1,1,101,3,2,4,1,5,259,9,1,2,256,2,1,1,4,1,144,4,2,2,4,1,32,10,40,6,2,4,8,1,9,
  6,2,3,46,13,1,2,406,7,1,6,1,1,82,22,2,7,1,2,1,2,122,6,3,1,1,2,1,7,1,1,72,2,3,1,1,1,347,2,5435,9,
  14007,5,59,7,9,4,1035,1,63,17,64,2,1,2,16395,4,1,7,1,2,3230,2,1,4,4700,46,2,23,544,3,9,16,2,7,30,
  4,148,3,1979,55,4,50,8,1,14,1,22,5,1,15,1360,7,1,17,2,7,1,2,1,5,261,14,368,1,61,4,1504,7,109,8,
  2735,5,789505,1,30,96,128,240]

/-- Is this one of the capital letters of the runs? -/
def CaseRuns.has (r : CaseRuns) (n : Int) : Bool :=
  r.runs.any fun run =>
    let steps := n - run.1
    0 ≤ steps && steps % r.step == 0 && steps / r.step < run.2

/-- The capital letter of a pair for its small one. -/
def toCapital (c : Char) : Char :=
  match casePairs.find? fun r => r.has (c.toNat - r.shift) with
  | some r => Char.ofNat (c.toNat - r.shift).toNat
  | none => c

/-- The small letter for a capital one. -/
def toSmall (c : Char) : Char :=
  match (casePairs ++ otherCapitals).find? fun r => r.has c.toNat with
  | some r => Char.ofNat (c.toNat + r.shift).toNat
  | none => c

/-- The upper case of a letter that is no small letter of a pair. Greek letters with an iota beneath
have it after them. -/
def upperSpecial? (n : Nat) : Option (List Nat) :=
  match n / 16 with
  | 0x1f8 => some [0x1f08 + n % 8, 0x399]
  | 0x1f9 => some [0x1f28 + n % 8, 0x399]
  | 0x1fa => some [0x1f68 + n % 8, 0x399]
  | _ => (upperSpecial.find? (·.1 == n)).map (·.2)

/-- One letter in upper case. -/
def upperOf (c : Char) : List Char :=
  match upperSpecial? c.toNat with
  | some letters => letters.map Char.ofNat
  | none => [toCapital c]

/-- The text in upper case. -/
def upper (s : String) : String := String.ofList (s.toList.flatMap upperOf)

/-- Does the nearest character that is not passed over have case? -/
def nextIsCased (cs : List Char) : Bool :=
  match cs.dropWhile (inClass caseIgnorable) with
  | c :: _ => inClass casedLetters c
  | [] => false

/-- Lower case, given the characters before this point, nearest first. -/
def lowerFrom (before : List Char) : List Char → List Char
  | [] => []
  | c :: rest =>
    let here :=
      if c == 'Σ' then
        if nextIsCased before && !nextIsCased rest then ['ς'] else ['σ']
      else if c == 'İ' then ['i', '\u0307']
      else [toSmall c]
    here ++ lowerFrom (c :: before) rest

/-- The text in lower case. -/
def lower (s : String) : String :=
  String.ofList (lowerFrom [] s.toList)

end ScopeLowering.Text
