import TaskBasic.Text.Ranges

/-
Letters and numbers of every script.
-/

namespace TaskBasic.Text

/-- Ranges of the letters and numbers above U+007F (Alphabetic, or general category N). -/
def alphanumericRanges : Array (Nat × Nat) := rangesOf "
  A61721132131n1v1Lq4ce57111Be1ti1224116113111k1Bb1Cv8Dm1A2216A5A3e111212118r44tb5Ak1h4Bu18484g21g
  AcdBteA792415o2jjp7b5o17718A6ac376B41g134f2a1j18222m171134382222118142152c26214316422m1712121245
  42224174117gb319131m17121539131231f42a944318222m1712153822229242152a17a216331432111232333c453313
  3161eddd131n1g381313821312242a871418131n1a153813138253142a13cd131A5281313115g2j16131i3o191127861
  1186a22dAm57612aA3211151o111j132511612a24w1vkc81A04j4g1A0AvAj112f6B62A211512A71I9142711142A5142x
  142711142f1Al142Avek3ggBe263Q82h1q5B33b7kblckcd1312cAg2je1413a6ama6Bh7A75Ayav1c49dA425bA84q6bA1s
  4Ar2kba6ad1n2b3AdAg1f183aA2A62Am1beAj9a3Ad2b5A723A541612315EcjybGq262A226281111111v2Ah1711331734
  264d5317C72265b6dBt1412a1135611111141b2455411AmT6AoqB2QiuAEgFd6432912A211512Ak71gn97171717171717
  171wAb1M13p975254Be631Bi145A71Bm34awAcgwau81fwaA3fHwGA4AsWQhAvAa2Gh3skAb583C5A392Bv2Bakl1x86aAgc
  Aw11aao6311Aa5zdt3Af1cfb6v1Aj9e2a6n3Ax1111o32g24b6262697171A71e6Cf5a6KXccn4AdHZsJ62ByA27c55c1d15
  1112121C0xJ3iAs2AiA4cC851Crja7q6qbBh36262623zc1q1j121f2eyCfcA9cAlh2Fst3Adgr4A09u5A75u2A04815A6De
  2a6A04A04A48Agcb1f17121b1f17123AgcHn9ma8o61A619Ax6211A812312n2v2A289Acj125x4q6qA2Ak4k2Ae1258131t
  a9nv1ww81s65gAiam2r5qn7B8B1AjAfdAf7Aa8a6A2315nF2v1A61232g6Ae33A48mb4riAaskn9Aycu15aAl91dp7a6Af3a
  448z319As149d114kbi1y2164Aq711141f1a7Al7a6418222m171215382222316157sa11211A21a112114123111A8Au13
  145a53uAu22118aDmAi27p6yAr1131baA2Ai217a6ksr2e5c47E5AlBvBbc82128121u122224daAy82Aa261112rAf2ahB0
  51iB1Bv8Bgxfa691A91711ft5u2m1eB17121A831121311228a66121A11214117a6A84aFun9h1A533faBe1flA7YmBuC3h
  EgBU8BpfACsh6pDFz5P7GH1Ab1aAV6Ot7v1a6B71a6uiAcg4ca171l5jL0A93aEiBf9p2pA8B34Al7hAs211c79GW2A5wBpC
  7IGp417121H3f1t321e48K0BL4Bz5d397a41DL1aAO2kckC0pCrBd1Az122122241c11171At1428171s141511371Ig2p1p
  1v1p1v1p1v1p1v1p182AeAWsv66Ex71h2712155Aqx1C4A9a72a41HxuiA84aM2s4aEyu2bEhv1m82F8714121f1Eh29AcAw
  31314aUzAn1314B4A91fEe41r1211211a141111614111111312112111111111121124171414111a1h53151hP4dzq6q6q
  BUyaABmASPowDQq2FDe2GYlfQaBPiO2AOuEG75IAu"

def isAlphanumeric (c : Char) : Bool :=
  if isAscii c then c.isAlpha || c.isDigit else inRanges alphanumericRanges c

end TaskBasic.Text
