import TaskBasic.Text.Ranges

/-
The characters that are written as they are in a quoted text.

Controls, format characters, separators other than the space, private and
unassigned characters are not printable, nor are characters that are shown as
nothing; and a character that extends the one before it would merge with the
quote.  All these are written by their code.
-/

namespace TaskBasic.Text

/-- Ranges of the characters above U+007F that are controls, format characters, separators,
surrogates, private or unassigned. -/
def unprintableRanges : Array (Nat × Nat) := rangesOf "
  0xc1Su2647111k1K11A22Ae231Aj8r46hm1Ec1Ac2An2BteAn2Ad2f1s211b5w7B31Dh18222m1711342922248142152p23
  16422m17121212211542233174117ha319131m1712152a131321f42c771318222m1712152922237342152ia216331432
  111232333c4533142161el5d131n1g291314721312242a7m131n1a152913147253142a13cd131Af13164g2q131i3o191
  127314611186a23cAm4tA1211151o111n2511171a24wB01A04A31A01f1dA1Ei11512Jh142711142A5142x142711142f1
  Al142Av2w3q6Be262Qs1s3Bh7m9o9kcd1312cBm2a6a6e1b6Bh7A75Ayav1c4c413A625bA84q6b3Aq2At1t2b6a6e2Aa2ck
  B51Dm8Ao3f3Aq5A72b8A75Nu262A226281111111v2Ah1f1e261j2319ho8Abh22r1d3yexfCw4RimblAXc2Jm5A911512Ak
  72eo97171717171717171Ciyq1BhcEyqg1Ar1Be2Bv5A71Bm1Be9Ac1AEGp3Aj9IokE48F5kAo3a6Ak8Ay8c6C8bu3B61b4x
  1Aj9e2a2Bvosa6262697171Ao4Ci2a6KXccn4AdHZsJ62ByA27c55q151112121R2wA66Af1j14451Cr4Ea362626233717d
  22c1q1j121f2eyCf534A93Bg1d31AbAaCmt3Adfs4A09u5A75u1A14eA6De2a6A04A04A48Agbc1f17121b1f17123AgcHn9
  ma8o61A619Ax6211A812312n1B089Acj125x3r5rA2Ak4k2Ae1258131t234a797AswA34c9Ai3t2r5q74c7B8B1AjAfdAf7
  Aa8a6A23t82Esv1A61322g689xAa8A6mqA2skn9B64A09Aq15dp7a6Ah1i8A39Bo1kbi1AbAq711141f1b6An5a6418222m1
  712151a22232161572735ba11211A21a1121141a1282tBk15uB08aDmAi2A2yAxba6djAm6a6ksr2f4nE5AoBsBbc821281
  21u122c9aAy82Aa2brB08BbdB17aBe8Bgyea691A91eat3w2m1eB17121A83112198a66121A112167a6A84aFup7h1A53tB
  d1fAedYnBuC315bEgBU8BrdACsgmaDFz5P7GH1AmAV6Ot7v1a4B91a6u26aAyaa171l5jL0AmEiBj5p2pA8B34Al7hAs5b79
  GW2A5wBpC7IGp417121H3f1t321e48K0BL4Bz5d397a24DEcG13L46nfhfAa2n9C8AoFuaA32B28C4lAyCekckcBf9pCrBd1
  Az122122241c11171At1428171s141511371Ig2H42Sif51fADov66Ex71h2712155Aqx1C4A93e2a42HwvhAm51LwA6EyA7
  41Ecv1m82F8714121f1Eh2gA5B44a42UtAwB4ApEe41r1211211a14111161411111131211211111111112112417141411
  1a1h53151hAg2GiA84Bscf2f1f1A1aDuAktdA84972e6DaAAd3h3d3F26c41fc4Ak8a6A48u2c42e9A3Ik8e2d3b3Al114g2
  c4a7D31BvABlASPowDQq2FDe2GYlfQaBPiO2AOuEG75IAuACBBuFoHAMk"

/-- Ranges of the characters that extend the character before them (Grapheme_Extend), letters
apart. -/
def graphemeExtendRanges : Array (Nat × Nat) := rangesOf "
  QsC4Gn7GbA911121211B0bAclg1Bt7262214z1urBjbAm991o4191315A73An9A6o1wAj111484137a2t1Am111248191a2q
  122Al142422331u231b2Al1451241k2m611Am112148173a2u1An111c191A4131Aj113531472b2t1Am12211331472b2s2
  Al211248191a2t1B0141231181B9127c8Bq129b7B12r11111Aje15125b1A091Bu4161222p243g4d12261f1Sj3Za4s3t2
  u2As217812b91A9311C92y1Ca3429163F3221Am1171111286a21AcAa2ck4Aca43A29c2w426Ak1123115Ak822D831d174
  16132EiAsNk1EfxCGa3Cx1BowOe6Bx2AFEw41aw2B82Gk13141p251D72qid1A28pb11A83Ac1242221A01Av62222c181Ab
  1Af113225211A6281Fm12141UQ41ThgggAA11Fa1D55ATe31254A4341Dl2Ox4At5Ht2B56AybAd4Cf1AifA5122a3Ad4227
  1Ap3A0518Aq1c2Ag9118421Bn3246121Dd138l2Al21111c191e735Av1261121134311e2Bd82311n1B912611211212Fj1
  246212r2Bd82112By11128Bt1112415G7912Ft1a441D042241waA4624819623Aad12Ei11311El71611Bam271212Ce631
  121711B023111In2b2Ag553n1ERl16fLFgc33BQc5An7AC41Ar4B91b2TY72DZpAa2nO25368827u4D43BBzAj4Ae81e1m51
  fAKs71h271215Bs1Dg7Jf1Ap4N44G22Fr1217251M67C17AFNKpBoCkFo"

/-- Ranges of the characters that are shown as nothing (Default_Ignorable_Code_Point). -/
def ignorableRanges : Array (Nat × Nat) := rangesOf "
  A91Rp1Sw1CB22ARz2Bd5BDr5q5AdgDPk1BCXzgFn1Dg1B79AYOj4EQz8AFTX5DIs"

/-- True for the characters that can stand for themselves in a quoted text. -/
def isPrintable (c : Char) : Bool :=
  if isAscii c then decide (0x20 ≤ c.toNat) && decide (c.toNat < 0x7f)
  else
    !inRanges unprintableRanges c && !inRanges graphemeExtendRanges c &&
      !inRanges ignorableRanges c

end TaskBasic.Text
