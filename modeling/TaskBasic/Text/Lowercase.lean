import TaskBasic.Text.Ranges

/-
Lower-casing of whole texts.

Each character has a lower-case form of its own (`lowerChar`); only U+0130 is
written with two characters.  A capital sigma is the one character whose form
depends on its place: at the end of a word it becomes a final sigma.
-/

namespace TaskBasic.Text

/-- Ranges of the cased letters above U+007F (Cased). -/
def casedRanges : Array (Nat × Nat) := rangesOf "
  A61a1415n1v1Ef144Es2z72u5Bo1A642224116113111k1Bb1Cv8Dm1A29A5BZvA211512A714RoBe26BHib5A723AsEcAsG
  q262A226281111111v2Ah1711331734264d5317C81d1gdBt1412a1135611111141641245541hw32VpAgAXeFd6432cA21
  151AGByAaiuCoBu341B5k613VtA71e6B8UQk7c5ABpq6qAG1B8BoA04A0C8b1f17121b1f1712Lj1231A619AGxAfdAfBlma
  mBZyAsWI4Aswp2pAAQgBd1Az122122241c11171At1428171s141511371Ig2p1p1v1p1v1p1v1p1v1p18AY8a1k66G9AqBH
  yAwBDcq6q6q"

/-- Ranges of the characters above U+007F that a search for a cased letter passes over
(Case_Ignorable). -/
def caseIgnorableRanges : Array (Nat × Nat) := rangesOf "
  A4141114122MzEc42419211Fz7Er151AdA911121211A81b6ab11z1alg1Bt81a14x111urBjbAmb4121ooA73A817259A5A
  mAj111484137a2d1f1Am14481k2q122Al142422331u231b2Al1451241k2m611Am121148172b2u1Ap1c1Ae131Aj113531
  472b2t1Am1216152k2s2Al24481k2t1B017311Bi127b9Bq1299117B12r11111Aje15125b1A091Bu4161222p243g4d122
  61f1Bm1Pw3Za3t2u2u2As217812b3151A95Af1At2y1Ca3429163F3221Am1171111286a21A318Aa2ck4Ac1151151A49c2
  w42213Ak1123113Am822As6Ba31d17416132AeArd1yBtLd113b3d3d3d2c582a12125Ad51a11d1gdAfxCD32C53Ch1f1Bo
  wAb1M11A043551Bl6Bl3ADIy1AHq6Gi1Bq41a11s4B82eyB61n3Bu432813141p251D72qid1A28pbAa3Ac12422h1l2Au62
  222c181z1b1Af113225211r1e25211Bs593Cd12141UQ41D3hOxg31cgy121Dp17161b1z111Ab1A92Av1l3N91Fa1D55ABl
  61A619P631254A4341Dl2Ox4A21q511Hr2o1Ag6AybAd4Cf1AifA5122a3Ad4222141a1Ae3A0518Aq1c2Ag9a421Bn32112
  6121Dd138l2Al231A1735Ay6d11111e2Bd82311n1Bc6114212Fm46212r2Bd82112By1112611Bt1112415G7912G421141
  D042241waA4624819623Aad12Ei11311El71611Bam271212Ce631121711B023111At1Gt2b2Ag55111n1ER5h6fLFgc33B
  Qc5An794N43A42Me1ArhAs212d2QM041712CKq214DZkAa2nO439g27u4D43BBzAj4Ae81e1m51fAKs71h2712155Aqx1Dge
  J81Ap4N35G22Fr121725191Lw7C18BWz5AFKLp1uBoCkFo"

/-- The runs of characters behind the code point `n`.  Each is given by the distance of its first
character from the last one of the run before, the number of its characters, the step from one to
the next, and how far up or down their lower-case forms are. -/
def runsFrom (n : Nat) : List Nat → List (Nat × Nat × Nat × Int)
  | gap :: count :: step :: up :: down :: rest =>
    let last := n + gap + (count - 1) * step
    (n + gap, last, step, up - down) :: runsFrom last rest
  | _ => []

/-- Runs of upper-case characters above U+007F: first, last, the step from one to the
next, and the distance to the lower-case form. -/
def lowerRuns : Array (Nat × Nat × Nat × Int) := List.toArray <| runsFrom 128 <| numbersOf "
  Asn1w0271w0yo21043210382103n2102110Cd13210411Eu012210211Eq011110221Ep011110311B70111Em0111En0111
  10211Ep0111Er0211Ev0111Et011110411Ev0111Ex0211Ey013210211F2011110211F2031110211F2011110221F10122
  10211F3011110411108112011110211201111021120192103921031120122102110Bp1110Ak1k2102110Cm29210811KM
  v0111102110Dj111KMs0311102110Ef111Ax0111Az015210H2221041110911C80711A20231A10211As0221Ar02h1w029
  1w0A011809c2106110Ao3111021107111103310Cm1g1B801w1w0Adh210ar210211f0172103Ac2103A21Ac0CBaA21GSs0
  211GSs0611GSs0T3B81AOMk016180BI011107A710CEk3310CEkHxB3210a110HCj2Ac210a810896108b81089810896108
  c420898108p81089810898108921081210B211109c410Be11109c21081210Bsd21081210C411107c210Ck1210Ci11109
  Ha110GZt4110HXv1110HUi711s0Aag1g0k1110Vrq1q0AY5Ac1Ac0Ad11102110KLf1110DAy1110KKz332102110KMg1110
  KLl1110KMj1110KMi21110311109210KNf1Ae2109221051110AGDmn210ke210Cs72104v210b22102110AKSg152105111
  02110ASDg322104a2102110ASE81110ASEj1110ASEf1110ASE51110ASE82110ASCu1110ASDi1110ASCx111Ys01821021
  10Ac1110ASE71110AKTw122102110ASF7182102110ASL9p1110WUwq1w0AGyA41A40CtA01A40Ddb1A302f1A30271A3022
  1A30AW7Af1As0Dem1w0CAvw1w0WJ1w1w0Atp1r0AGKky1y0"

def isCased (c : Char) : Bool :=
  if isAscii c then c.isAlpha else inRanges casedRanges c

def isCaseIgnorable (c : Char) : Bool :=
  if isAscii c then c == '\'' || c == '.' || c == ':' || c == '^' || c == '\x60'
  else inRanges caseIgnorableRanges c

/-- The lower-case form of one character, wherever it stands. -/
def lowerChar (c : Char) : List Char :=
  if isAscii c then [c.toLower]
  else if c.toNat == 0x130 then ['i', Char.ofNat 0x307]
  else
    match lowerRuns.find? fun (first, last, step, _) =>
        decide (first ≤ c.toNat) && decide (c.toNat ≤ last) && (c.toNat - first) % step == 0 with
    | some (_, _, _, distance) => [Char.ofNat (c.toNat + distance).toNat]
    | none => [c]

/-- True if the first character that is not passed over is a cased letter. -/
def meetsCased (cs : List Char) : Bool :=
  ((cs.dropWhile isCaseIgnorable).head?.map isCased).getD false

/-- The form of a capital sigma between `before` (nearest character first) and `after`:
final exactly at the end of a word. -/
def lowerSigma (before after : List Char) : Char :=
  if meetsCased before && !meetsCased after then Char.ofNat 0x3c2 else Char.ofNat 0x3c3

/-- Lower-cases the characters that follow `before`; `done` is the result so far, last
character first. -/
def lowercaseFrom (before done : List Char) : List Char → List Char
  | [] => done.reverse
  | c :: rest =>
    if c.toNat == 0x3a3 then lowercaseFrom (c :: before) (lowerSigma before rest :: done) rest
    else lowercaseFrom (c :: before) ((lowerChar c).reverse ++ done) rest

def lowercase (s : String) : String :=
  String.ofList (lowercaseFrom [] [] s.toList)

end TaskBasic.Text
