/-!
# Characters without a picture of their own

Quoted text shows some characters by number: controls, formats, private use, blanks other than the
space, fillers, and marks that join the character before them. Code points that stand for no
character count among them.
-/
namespace Hyperslab.Text

/-- The numbers that a text lists in base 26: the letters are the digits, and the last digit of a
number is a small letter. -/
def readRuns : List Char → Nat → List Nat
  | [], _ => []
  | c :: cs, n =>
      if c.isUpper then readRuns cs (26 * (n + (c.toNat - 'A'.toNat)))
      else (n + (c.toNat - 'a'.toNat)) :: readRuns cs 0

/-- How many characters in a row are shown as they are and how many by number, in turn. -/
def hiddenRuns : List Nat :=
  let runs :=
    "aBgDrBimbWwEiicgehbbbubIqhGkbBmcBycdBubbbcbcbjBbegrklbbBuvqbDxibgccbeBgcbbBeBdDllboBrjhdye" ++
    "bjbdbhpbzfbblfBgqBqCfCdbbbeiebdhkcBdbcbicccwbhbbdedbbcgcccbbncbdeyfbbgeccwbhbcbcbcedyebbhk" ++
    "cdbbmbbjbdbwbhbcbfdeibbcdbpcemhbicbicccwbhbcbfdbcbgcccpcbdeslbbgddbedcbbbcdcdddmfbbcddbddb" ++
    "vvgdbibdbxbqdbdetdbcccekhkblbdbxbkbfdccbbcxdbcekbdolbdbBpcbbcfdbdbcedbkeBaccbsdybjbbchjcgh" ++
    "hkcdmBwbcliinBlcbbbfbybbbkbcjbcfbbjkceBgycBbbbbbbobBksbfbcfBxibgbnBlBtebgbccczcedqenbccgbp" ++
    "bBobbfbcFncIybechbbbecBpbecBhbechbbbecpbCfbecCpfBddBagDicgcYqbBcdDlhsntdcjsonbdpCacbhibclj" ++
    "dkgkglfkgDlhfcBibbfCskBfeecdecbghbdBqcflBseBagldCfccdCebbjbbcignkgkgoDiBwkedibBdjmcBgecgCe" ++
    "bbcdbbnBwicfpdCkfBrcllbnbhebgbdcbfHkCmKscgcBmcgcibbbbbbbBfcCbbpbocgbtcdbjryiBvrccBbbndBiCk" ++
    "FkeZqwlvCRscOndcfBtbbfbcCehcpxjhbhbhbhbhbhbhbhBhDqBiBabDlmIgBaqbBpgqbDieDxfBrbBzbBqbDijBwb" ++
    "BRIrdCdjNkuBvebkBgcDccgiInurbdbebzcfekgCeiCqkmynbBmizlbmBegBwbcecccbnblehbzbBpgcccldbibbck" ++
    "cBgbBzbbdccfcbbbyrcilgcgcgjhbhbCieEnbcbedkgQNsmxeBxMNcOccEcBmhmffbbybfbbbcbcbZaBgqqkwBjbtb" ++
    "eefbFfeGdbBedgcgcgcddhbhnccmbBabtbcbpcoBiEtfdeBtdDkbndbBvBtFbBddBxqBbeBkjBefBmkBebBleoBqGc" ++
    "ckgBkeBkeBoiCalmbpbhbcblbpbhbcdCamLzjwkiygbBqbjCrgcbbBsbcdbcxbCuijBwtbcfBhdBbfBbBmCeeucBvp" ++
    "ebdbBdkjhjhCmBgBlgmjCcdBdcBbfBahemhDcCvCdBznBzhBqmkgBmiyicIaBfbBqdbccqgijBnBoiwljwseeBmBcu" ++
    "xjbbCcpheBebccbmBxecccbeozhkjBkfbjsiBjbdlCajbbiecbqbulsbBcdcegbcClhbbbebpblgBvbdnkicbicccw" ++
    "bhbcbfdbbbbeccccdbmhBckbbcbbBmbbbcpbbcdbbdbcBnCeicdbbvbbbdBeBwbcgbbcbbcbceikGkBvbcgecbcBbB" ++
    "kBzicbbcelkgntBrbbbcicgkguBcBbdbbcebjxHdBvjbcbDwDfmicbcibcbybfbcgebdjkCsicBqiebeBbbkBogcei" ++
    "jbgcdBunbcjnCvhkDjbdbbbDkBiokgjbBmobbgkBddBgzbhbcbCxhbcbBmvbjkggbcbBlecbbbbhkgBsekJmtcejpb" ++
    "BkicdxDibpBynBJnDyEhbflHoDXkDvnBPgrgzFXrfWlKDdBemddkCOsVxhBfbkeDdbkgBehbkBwhpkkbhbvftQqCgH" ++
    "qDnfzczBsCxfCelnCmeofjKXyBpBgDtElMWrebhbcbLfpbBddcboeiPgDKuEdfndjhkcbcbFVkJtdQugxprDrEmCiJ" ++
    "mkBncCifdwchBeeCjvCodbEsumumDjjzFfDhbCtbccbcccebmbbbhbCnbecibhbBcbebfbbdhbNccLgcVqCdeByibo" ++
    "bhBRwBfggKbCkFqBtkhckecMiBesBsekfbRwBcekIgBeclebHkBfbdbcbhcfjcIqhbebcbpbHpcjBwCqhbekecBEfC" ++
    "qCyCjHmebBbbcbbcbbkbebbbbgbebbbbbbdbcbbcbbbbbbbbbbcbbcebhbebebbbkbrfdbfbrCacKkBseDwmpcpbpb" ++
    "BlkGsCeBdnBsejhcogFyBLxdrdndIkgmebpmeCeikgBoiBecmecojBnNgiocndldCfbbeqcmekhFrbDzBNpCLFcBgG" ++
    "MocIOccLBlpXyDQwUwCFyHHzfMOoBZLJy"
  readRuns runs.toList 0

/-- The character with the number is one of those that are shown by number. -/
def isHiddenIn (n : Nat) : List Nat → Bool
  | shown :: hidden :: runs =>
      shown ≤ n && (n < shown + hidden || isHiddenIn (n - (shown + hidden)) runs)
  | _ => false

/-- The character has no picture of its own. -/
def isHidden (c : Char) : Bool := isHiddenIn c.toNat hiddenRuns

end Hyperslab.Text
