import PadicLift.Number.Binary64

/-!
# Logarithms from a table

A positive integer is `2 ^ k * z` with `11/16 ≤ z < 11/8`. The range of `z` is cut into 64 parts,
and the table holds for each part the reciprocal and the logarithm of a point `c` near its middle.
With `r = z / c - 1`, which is small, the logarithm is `k + log₂ c + log₂ (1 + r)`, and the last
term is a polynomial in `r`. Every operation is rounded once to a double.

The result is one of the two doubles around the logarithm: an estimate from outside of them gives
way to the nearer one. So `log2` is exact on powers of two, and off by less than one unit in the
last place everywhere, whatever the table holds.
-/

-- Powers take their instance from the core library, whatever else is in scope.
attribute [local instance (high)] instPowNat

namespace PadicLift
namespace Binary64

/-- For each part of `[11/16, 11/8)` the double nearest to `1 / c` times `2 ^ 53`, and `log₂ c`,
rounded to 42 places, times `2 ^ 42`. -/
def logTable : List (Int × Int) :=
  [(13027360976886256, -2341495232950),
   (12881804371794242, -2270202146522),
   (12739466181585172, -2199702068511),
   (12600233160661258, -2129973698740),
   (12464017274778096, -2061006646142),
   (12330710607987928, -1992778894457),
   (12200226995740528, -1925277884378),
   (12072474970479676, -1858486870958),
   (11947373644738666, -1792393192155),
   (11824834615139258, -1726978830214),
   (11704787088242592, -1662233806617),
   (11587149206298588, -1598140947102),
   (11471856563366610, -1534691332505),
   (11358833935479462, -1471868971441),
   (11248013116420428, -1409660548602),
   (11139338831704172, -1348058972010),
   (11032742698285716, -1287048739030),
   (10928166759641962, -1226619227300),
   (10825555333599076, -1166760190990),
   (10724852022082402, -1107460042355),
   (10626004999791534, -1048708978643),
   (10528964655684356, -990497675756),
   (10433679645578912, -932814938277),
   (10340102746708938, -875651234431),
   (10248189169642338, -818997754880),
   (10157897337888368, -762846957615),
   (10069181384574906, -707187919544),
   (9982005166371424, -652015118085),
   (9896322060403712, -597315737582),
   (9812099776360056, -543085418230),
   (9729297332816260, -489313628135),
   (9647876741335970, -435991101394),
   (9567813260166222, -383116713688),
   (9489064245884190, -330677012485),
   (9411603387842994, -278668798219),
   (9335394834743578, -227081982314),
   (9260411560556294, -175911902958),
   (9186624870692536, -125152314636),
   (9114004391796036, -74795329912),
   (9042522330823746, -24834356794),
   (8937375867250539, 49378089128),
   (8800928416592260, 146995266079),
   (8668582414389375, 243134961943),
   (8540158497872616, 337839159645),
   (8415485649305062, 431149498926),
   (8294400073349299, 523107788817),
   (8176747770931523, 613753717755),
   (8062387450967395, 703122120437),
   (7951182372195153, 791248879377),
   (7843002450054220, 878169054538),
   (7737727187424714, 963914192535),
   (7635242520032143, 1048514494071),
   (7535434861727801, 1132003542648),
   (7438203613557213, 1214407671836),
   (7343448046694795, 1295756644334),
   (7251078553271981, 1376073870424),
   (7161003074427138, 1455387874223),
   (7073137791515890, 1533722887437),
   (6987402970618353, 1611102215855),
   (6903721501521517, 1687549401049),
   (6822021738051988, 1763085475350),
   (6742231067529250, 1837734751549),
   (6664286408807882, 1911514917390),
   (6588123242758028, 1984447110132)]

/-- A whole number divided by a power of two. -/
def dyadic (m : Int) (places : Nat) : Rat := mkRat m (2 ^ places)

/-- The leading bits of `1 / ln 2`. -/
def invLn2High : Rat := dyadic 3098164009 31

/-- What the leading bits leave of `1 / ln 2`. -/
def invLn2Low : Rat := dyadic 12657236604881 76

/-- The coefficients of the polynomial `(log₂ (1 + r) - r / ln 2) / r ^ 2`, from the lowest up. -/
def logCoefficients : List Rat :=
  [dyadic (-6497320848556857) 53, dyadic 4331547232371295 53, dyadic (-6497320836280315) 54,
   dyadic 649732082919817 51, dyadic (-2165955400213679) 53, dyadic 3713132112116887 54]

/-- Product and sum, rounded together. -/
def mulAdd (x y z : Rat) : Rat := round (x * y + z)

/-- The polynomial `(log₂ (1 + r) - r / ln 2) / r ^ 2`, its terms taken in pairs. -/
def logPolynomial (r : Rat) : Rat :=
  let c (i : Nat) : Rat := logCoefficients.getD i 0
  let pair (i : Nat) : Rat := mulAdd r (c (i + 1)) (c i)
  let square := mul r r
  mulAdd (mul square square) (pair 4) (mulAdd square (pair 2) (pair 0))

/-- `log₂ (2 ^ k * c) + log₂ (1 + r)`, the logarithm of `c` given. -/
def logNear (k : Int) (logC r : Rat) : Rat :=
  let whole := add k logC
  let linear := mul r invLn2High
  let rest := mulAdd r invLn2Low (mulAdd r invLn2High (-linear))
  let high := add whole linear
  let low := add (add (sub whole high) linear) rest
  add (mulAdd (mul r r) (logPolynomial r) low) high

/-- The estimate of `log₂ x` for a positive `x` that is a double. -/
def logEstimate (x : Nat) : Rat :=
  let e := Nat.log2 x
  let part := 64 * x / 2 ^ e
  let upper := decide (88 ≤ part)
  let (inverse, log) := logTable.getD (if upper then part - 88 else part - 24) (0, 0)
  let k : Nat := if upper then e + 1 else e
  let r := mulAdd (mkRat x (2 ^ k)) (dyadic inverse 53) (-1)
  logNear k (dyadic log 42) r

/-- The number of the range from `low` to `high` that is nearest to `x`. -/
def between (low high x : Rat) : Rat := if x < low then low else if high < x then high else x

/-- `log₂ x` for a positive `x` below `2 ^ (2 ^ 53)` that is a double. -/
def log2 (x : Nat) : Rat :=
  let e := Nat.log2 x
  if x = 2 ^ e then (e : Rat)
  else
    let places := 52 - Nat.log2 e
    let floor := floorLog2 x places
    between (dyadic floor places) (dyadic (floor + 1) places) (logEstimate x)

/-- The logarithm of a number past the range of doubles: with `x = m * 2 ^ e`, where `m` has 53
bits and `1/2 ≤ m < 1`, the sum of the double nearest to `log₂ m` and `e`. -/
def log2Scaled (x : Nat) : Rat :=
  let e := Nat.log2 x + 1
  let m := x / 2 ^ (e - 53)
  if m = 2 ^ (52 : Nat) then (e : Rat) - 1
  else
    let t : Int := floorLog2 m 120
    let below := round (mkRat (2 * (53 * 2 ^ (120 : Nat) - t) - 1) (2 ^ (121 : Nat)))
    sub e below

/-- Logarithm of a positive integer of any size: the integer becomes a double first. -/
def log2Nat (n : Nat) : Rat :=
  let x := roundNat n
  if x < 2 ^ (1024 : Nat) then log2 x else log2Scaled x

/-- Number of bits of a product: the sum of the logarithms of its factors. -/
def log2Sum (factors : List Nat) : Rat := sum (factors.map log2Nat)

end Binary64
end PadicLift
