import TaskBasic.Text.Ranges

/-
The characters that words are made of.

A word begins with `_` or a character with the property XID_Start and goes on
with characters with the property XID_Continue.
-/

namespace TaskBasic.Text

/-- Ranges of the characters above U+007F that may begin a word (XID_Start). -/
def wordStartRanges : Array (Nat × Nat) := rangesOf "
  A61a1415n1v1Lq4ce57111Cl51233116113111k1Bb1Cv8Dm1A2216A5Azr44A9A7z21Br11f272a321g11utBhb1ox92415
  m419131np7b5o16hA6AmAi31i17afg48222m17113431g1d213e2a186422m17121212v411j3g9131m17121531i1f2n1b8
  222m17121531u213f1h116331432111232333cm1Ag8131n1g31q32122u148131n1a1531v212f2h9131A521g15383o65i
  3o191127AmAc11d7Am211151o111a11a12511l4w1Ar81A0r5C7A7k1g6443132734dc1hA211512A71I9142711142A5142
  x142711142f1Al142AvA1ggBe263Q82h1q5B33b7idjeied13fAgz141AvBh7A5115AyavAdu25bA84qAin9AhBa1BlAbh8A
  iud2aA8qA0A53aA02b5A723A541612315EcAsGq262A226281111111v2Ah1711331734264d5317C81d1gdBt1412a11266
  111111g245541hA5BVfFd6432cA211512Ak71gn9717171717171717Oa3p975254Be631Bi145A71BmhwAcgN8GA4AsWQhA
  vAa2Gh3ga2kAbgv2B8A392Bv2Av221118lg13141ntAgeAeAq63112bsanpt7Abs1g51aa51A5n318kn313Ae1132252111o
  32b73c6262697171A71e6C7tKXccn4AdHZsJ62ByA27c5511a1d151112121C0xCv6F2iAs2AiA4aCb111311111111CiA0q
  6qbAk2v36262623zc1q1j121f2eyCfAxAhGft3AdAbwdu5A2au2A04815A6DeiA04A04A48Agcb1f17121b1f17123AgcHn9
  ma8o61A619Ax6211A812312nan9vAtj12amaqAyAk62As1f4131tA6t3tz81srAiamajdiC2B1AjAfdAfdA0A2s9nFyA662g
  3Anta18mA6iAalrncAhAl221dA9wpqA0t1218z31cAce4l111zi1pj2Ar711141f1a7AbA28222m17121531i1c5ua11211A
  211p111A8Ahi4k3uAck211E4AbA54A0Ack1AnA7d1AzrA17E5A8C8Asv82128121of111Bm82A3g111s1aA471l1bAaj1iB1
  Ejxv91A1h1AduC47121A2l1p6121we1I3jf11d1yCg1B7YmBuC3hEgBU8BpfACsh6pDFz5P7GH1uAVyOt7vhB7huiAcg4vl5
  jL0A9EvAsCkB351AudAs211sFNg8AHeA5aIN7417121H3f1t321e48K0BL4Bz5d397aFJeBd1Az122122241c11171At1428
  171s141511371Ig2p1p1v1p1v1p1v1p1v1p18AY8v66G9AqD2A9a7g1HxuiA8MgsFcu21Mr714121f1EhAnAw71AGg41r121
  1211a141111614111111312112111111111121124171414111a1h53151hDRsASPowDKe6F62FD2eGYlfQaBPiO2AOuEG75
  DLg"

/-- Ranges of the characters above U+007F that may only continue a word (XID_Continue, not
XID_Start). -/
def wordInnerRanges : Array (Nat × Nat) := rangesOf "
  Aj1P8C4n1Fz5GdA911121211B0bAcv61Bt72622142an1urBjbfax991o4191315A73An9A6o1xAi31i17a22ah3Ak117222
  391a22ae123Ak115422331kc31b3Ak1181313k22aa613Ak117222373a22ai1An5331491eag5Aj117131472b22ah3Ak11
  7131472b22a31c4Aj217131491a22ah3Ay14611186a22Ap118c81aBf11ab71aAq26ab1111142Adk125b1A091Bsk1ac44
  3132734dc1fSj399Ys4s3t2u2Asw912ax31bCz1Cac4caaCkbAo5Ala1t2b6ame1gAd5Abhbah9c3ud2aA8eAck8a6aCa31l
  416123EiAsNk2Ad2j1Cfd413cCGa3Cx1BowOe6Bx2Bo1AFA0aAx14aw2B82Gk13141n541Bb2Aeiaa6idbs8pdA84Abefab1
  aaAbec1822ax3Ae113225211A5552Fk8122aUPs1Thggg32o3EcaA11A11Ak2Pt1Fa1D55H5aAKz31254A4341Dl2Ox48a6a
  v5Ht2B74AybAd4Ce3Ahfvb22a4A9b71A9a63A0e1a52A81c3Ace841cBac6121Ddc5a64Aj217222391a22735Av91121141
  511e2Bai9a41B9kcaEx729r2BahfaB9d8a6kAlf4aFqfDlaAy612241112caCb72731saA4714819bAagIiaAh818gaAkm1e
  Ce6311217118aAc512158aI549211Ac735dbERl16fLFgsBM2aBeaA25An7paNuaM111Aj74B91b2TY72DL1aNeAa2nO2536
  8827u4D43AMdAeN8Aj4Ae81e1m51fAKs71h271215Bs1Dg79aIw1ApeMueFs21aT57C175aEB6aAFIO2Fo"

def isWordStart (c : Char) : Bool :=
  if isAscii c then c.isAlpha || c == '_' else inRanges wordStartRanges c

def isWordPart (c : Char) : Bool :=
  isWordStart c || if isAscii c then c.isDigit else inRanges wordInnerRanges c

end TaskBasic.Text
