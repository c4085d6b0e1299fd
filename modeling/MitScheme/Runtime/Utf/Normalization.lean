import MitScheme.Runtime.NfdOrderer

/-!
`string->nfc`, over the generated tables of the character database: the quick checks, and the decomposer, the orderer and
the composer, each read to the end of its source.
-/

namespace MitScheme.Runtime.Utf

open NfdOrderer (maybeTwiddle)

inductive QuickCheck where
  | yes
  | maybe
  | no
deriving DecidableEq, Repr

/-- A decomposition is one character, or two of which only the first may be decomposed further. -/
inductive Decomposition where
  | char (dm : ℕ)
  | pair (first second : ℕ)
deriving DecidableEq, Repr

/-- The tables; decomposing ends in characters that stand for themselves. -/
structure Ucd where
  cccValue : ℕ → Int
  nfcQcValue : ℕ → QuickCheck
  nfdQuickCheck : ℕ → Bool
  canonicalDmValue : ℕ → Decomposition
  canonicalCmValue : ℕ → Option ℕ
  /-- What combines with a first character, by its index: the keys in order, with the values. -/
  canonicalCmSecond : ℕ → List (ℕ × ℕ)
  depth : ℕ → ℕ
  depth_char : ∀ {char dm}, canonicalDmValue char = .char dm → dm = char ∨ depth dm < depth char
  depth_pair : ∀ {char first second}, canonicalDmValue char = .pair first second → depth first < depth char

def jamoLeading (char : ℕ) : Bool := 0x1100 ≤ char ∧ char < 0x1113

def jamoVowel (char : ℕ) : Bool := 0x1161 ≤ char ∧ char < 0x1176

def jamoTrailing (char : ℕ) : Bool := 0x11A8 ≤ char ∧ char < 0x11C3

def jamoPrecomposed (char : ℕ) : Bool := 0xAC00 ≤ char ∧ char < 0xD7A4

def jamoTcount : ℕ := 0x11C3 - 0x11A8 + 1

def jamoNcount : ℕ := (0x1176 - 0x1161) * jamoTcount

def jamoDecompose (precomposed : ℕ) (tail : List ℕ) : List ℕ :=
  let pi := precomposed - 0xAC00
  let ti := pi % jamoTcount
  (0x1100 + pi / jamoNcount) :: (0x1161 + pi % jamoNcount / jamoTcount) :: if 0 < ti then (0x11A7 + ti) :: tail else tail

def jamoCompose (leading vowel : ℕ) (trailing : Option ℕ) : ℕ :=
  0xAC00 + ((leading - 0x1100) * jamoNcount + (vowel - 0x1161) * jamoTcount + (trailing.map (· - 0x11A7)).getD 0)

/-- The loop of `match-second`. -/
def matchSecondLoop (entries : List (ℕ × ℕ)) (c2 start stop : ℕ) : Option ℕ :=
  if start < stop then do
    let (key, value) ← entries[(start + stop) / 2]?
    if c2 < key then matchSecondLoop entries c2 start ((start + stop) / 2)
    else if key < c2 then matchSecondLoop entries c2 ((start + stop) / 2 + 1) stop
    else some value
  else none
termination_by stop - start

def Ucd.matchSecond (ucd : Ucd) (c1Index c2 : ℕ) : Option ℕ :=
  matchSecondLoop (ucd.canonicalCmSecond c1Index) c2 0 (ucd.canonicalCmSecond c1Index).length

section
variable (ucd : Ucd)

/-- `ustring-nfc-qc` -/
def nfcQcLoop (lastCcc : Int) (result : QuickCheck) : List ℕ → QuickCheck
  | [] => result
  | char :: rest =>
    if char < 0x300 then nfcQcLoop 0 result rest
    else if ucd.cccValue char = 0 ∨ lastCcc ≤ ucd.cccValue char then
      match ucd.nfcQcValue char with
      | .yes => nfcQcLoop (ucd.cccValue char) result rest
      | .maybe => nfcQcLoop (ucd.cccValue char) .maybe rest
      | .no => .no
    else .no

/-- `ustring-nfd-qc?` -/
def nfdQcLoop (lastCcc : Int) : List ℕ → Bool
  | [] => true
  | char :: rest =>
    if char < 0xC0 then nfdQcLoop 0 rest
    else (ucd.cccValue char = 0 ∨ lastCcc ≤ ucd.cccValue char) && ucd.nfdQuickCheck char &&
      nfdQcLoop (ucd.cccValue char) rest

/-- The loop of `nfd-decomposer`, for one character of the source. -/
def nfdDecompose (char : ℕ) (tail : List ℕ) : List ℕ :=
  if jamoPrecomposed char then jamoDecompose char tail
  else match maps : ucd.canonicalDmValue char with
    | .char dm =>
      if same : dm = char then char :: tail
      else
        have := (ucd.depth_char maps).resolve_left same
        nfdDecompose dm tail
    | .pair first second =>
      have := ucd.depth_pair maps
      nfdDecompose first (second :: tail)
termination_by ucd.depth char

/-- `nfd-orderer`, with the characters that wait for the next starter. -/
def nfdOrder : (pending : List (Int × ℕ)) → List ℕ → List ℕ
  | pending, [] => pending.reverse.map Prod.snd
  | pending, char :: source =>
    if ucd.cccValue char = 0 then pending.reverse.map Prod.snd ++ char :: nfdOrder [] source
    else nfdOrder (maybeTwiddle (ucd.cccValue char) char pending) source

/-- The loop of `scan-combiners`: what the first match makes, and the combiners without it. -/
def firstMatch (c1Index : ℕ) (lastCcc : Int) : List ℕ → Option (ℕ × List ℕ)
  | [] => none
  | c :: cs =>
    match if lastCcc < ucd.cccValue c then ucd.matchSecond c1Index c else none with
    | some c1 => some (c1, cs)
    | none => (firstMatch c1Index (ucd.cccValue c) cs).map fun (c1, rest) => (c1, c :: rest)

/-- `scan-combiners`, which starts again after a match, so at most as often as there are combiners. -/
def scanCombiners : (left c1 c1Index : ℕ) → List ℕ → List ℕ
  | 0, c1, _, combiners => c1 :: combiners
  | left + 1, c1, c1Index, combiners =>
    match firstMatch ucd c1Index 0 combiners with
    | none => c1 :: combiners
    | some (c1, combiners) =>
      match ucd.canonicalCmValue c1 with
      | some c1Index => scanCombiners left c1 c1Index combiners
      | none => c1 :: combiners

/-- What is delivered for a first character, and the rest of the source. -/
def testFirstChar (c1 : ℕ) : List ℕ → List ℕ × List ℕ
  | [] => ([c1], [])
  | c2 :: source =>
    match ucd.canonicalCmValue c1 with
    | none => ([c1], c2 :: source)
    | some c1Index =>
      let combiners := (c2 :: source).takeWhile (ucd.cccValue · ≠ 0)
      if combiners = [] then
        match ucd.matchSecond c1Index c2 with
        | some c1 => testFirstChar c1 source
        | none => ([c1], c2 :: source)
      else (scanCombiners ucd combiners.length c1 c1Index combiners, (c2 :: source).dropWhile (ucd.cccValue · ≠ 0))

def scanForFirstChar (c1 : ℕ) : List ℕ → List ℕ × List ℕ
  | [] => testFirstChar ucd c1 []
  | c2 :: source =>
    if jamoLeading c1 && jamoVowel c2 then
      match source with
      | [] => ([jamoCompose c1 c2 none], [])
      | c3 :: rest =>
        if jamoTrailing c3 then ([jamoCompose c1 c2 (some c3)], rest) else ([jamoCompose c1 c2 none], c3 :: rest)
    else testFirstChar ucd c1 (c2 :: source)

theorem testFirstChar_rest (c1 : ℕ) (source : List ℕ) : (testFirstChar ucd c1 source).2.length ≤ source.length := by
  induction source generalizing c1 with
  | nil => exact le_rfl
  | cons c2 source ih =>
    rw [testFirstChar]
    split
    · exact le_rfl
    · dsimp only
      split
      · split
        · exact (ih _).trans (Nat.le_succ _)
        · exact le_rfl
      · exact (List.dropWhile_sublist _).length_le

theorem scanForFirstChar_rest (c1 : ℕ) (source : List ℕ) : (scanForFirstChar ucd c1 source).2.length ≤ source.length := by
  unfold scanForFirstChar
  split
  · exact le_rfl
  · split
    · split
      · exact Nat.zero_le _
      · split <;> grind
    · exact testFirstChar_rest ucd c1 _

def nfcComposer : List ℕ → List ℕ
  | [] => []
  | c1 :: source => (scanForFirstChar ucd c1 source).1 ++ nfcComposer (scanForFirstChar ucd c1 source).2
termination_by source => source.length
decreasing_by exact Nat.lt_succ_of_le (scanForFirstChar_rest ucd c1 source)

/-- `%string->nfc` -/
def stringToNfcFully (string : List ℕ) : List ℕ :=
  nfcComposer ucd (if nfdQcLoop ucd 0 string then string else nfdOrder ucd [] (string.flatMap (nfdDecompose ucd · [])))

def stringToNfc (string : List ℕ) : List ℕ :=
  if nfcQcLoop ucd 0 .yes string = .yes then string else stringToNfcFully ucd string

end

end MitScheme.Runtime.Utf
