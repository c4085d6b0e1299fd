import MitScheme.Runtime.Regexp.Pieces
import MitScheme.Runtime.Utf.RoundTrips

/-!
The replacing procedures of `srfi-115.scm`. `string-append` and `string-append*` normalize what they make.
-/

namespace MitScheme.Runtime.Regexp

open CharSets List Utf

def codes (string : List Character) : List ℕ := string.map Character.code

def regexpMatchSubmatch (string : List Character) (m : RegexpMatch) (key : Key) :
    Except Error (Option (List Character)) :=
  if key = .number 0 then .ok (some (regexpMatchValue string m))
  else if key ∈ m.keys then .ok ((m.groups.find? (·.key = key)).map (groupValue string))
  else .error .badRange

inductive SubstElt where
  | string (string : List Character)
  | pre
  | post
  | key (key : Key)
  | procedure (procedure : RegexpMatch → List Character)

inductive Subst where
  | elt (elt : SubstElt)
  | list (elts : List SubstElt)

section
variable (ucd : Ucd)

/-- `string-append*` -/
def stringAppend (strings : List (List ℕ)) : List ℕ := stringToNfc ucd strings.flatten

section
variable (m : RegexpMatch) (string : List Character) (start stop : ℕ)

def substElt : SubstElt → Except Error (List ℕ)
  | .string elt => .ok (codes elt)
  | .pre => .ok (codes (substring string start m.start))
  | .post => .ok (codes (substring string m.stop stop))
  | .key key => (regexpMatchSubmatch string m key).map fun value => codes (value.getD [])
  | .procedure procedure => .ok (codes (procedure m))

def substMatch : Subst → Except Error (List ℕ)
  | .elt elt => substElt m string start stop elt
  | .list elts => (elts.mapM (substElt m string start stop)).map (stringAppend ucd)

end

section
variable (matchAt : ℕ → ℕ → Except Error (Option RegexpMatch)) (string : List Character) (subst : Subst)
  (start stop : ℕ)

/-- `find-match`, with the number of matches that are still to be passed; a search takes its index for the beginning
of the string. -/
def findMatch : (passes index : ℕ) → Except Error (List ℕ)
  | passes, index => do
    match ← searchFrom (matchAt index) stop index with
    | none => return codes (substring string start stop)
    | some m =>
      match passes with
      | 0 =>
        let pre ← substMatch ucd m string start stop (.elt .pre)
        let new ← substMatch ucd m string start stop subst
        let post ← substMatch ucd m string start stop (.elt .post)
        return stringAppend ucd [pre, new, post]
      | passes + 1 => findMatch passes (nextIndex m index)

def replaceLoop : List RegexpMatch → (start : ℕ) → Except Error (List (List ℕ))
  | [], _ => .ok []
  | m :: matches', start => do
    let pre ← substMatch ucd m string start stop (.elt .pre)
    let new ← substMatch ucd m string start ((matches'.head?.map RegexpMatch.start).getD stop) subst
    return pre :: new :: (← replaceLoop matches' m.stop)

end

section
variable (tables : Tables) (sre : Sre) (string : List Character) (subst : Subst) (start stop : Option ℕ)

def regexpReplace (count fuel : ℕ) : Except Error (List ℕ) := do
  let (start, stop, matchAt) ← searchArguments tables sre string start stop fuel
  findMatch ucd matchAt string subst start stop count start

def regexpReplaceAll (fuel : ℕ) : Except Error (List ℕ) := do
  let found ← regexpSearchAll tables sre string start stop fuel
  if found = [] then return codes (substring string (start.getD 0) (stop.getD string.length))
  else return stringAppend ucd (← replaceLoop ucd string subst (stop.getD string.length) found (start.getD 0))

end

end

/-- Each match replaced by `new`, and the rest as it is. -/
def replaced (string new : List Character) (last : ℕ) : ℕ → List RegexpMatch → List Character
  | first, [] => substring string first last
  | first, m :: ms => substring string first m.start ++ new ++ replaced string new last m.stop ms

def lastEnd : ℕ → List RegexpMatch → ℕ
  | first, [] => first
  | _, m :: ms => lastEnd m.stop ms

/-- One match replaced by `new`, if there is one. -/
def replacedOne (string new : List Character) (first last : ℕ) : Option RegexpMatch → List Character
  | none => substring string first last
  | some m => substring string first m.start ++ new ++ substring string m.stop last

/-- A string that normalization leaves as it is. -/
def Normal (ucd : Ucd) (string : List Character) : Prop := stringToNfc ucd (codes string) = codes string

/-- A test of what is ahead only. -/
def NodeType.LooksAhead : NodeType → Prop
  | .charZeroWidth test => ∀ nextChar prevChar prevChar', test nextChar prevChar = test nextChar prevChar'
  | .fullZeroWidth test => ∀ index string start start' stop ctx,
    test index string start stop ctx = test index string start' stop ctx
  | _ => True

/-- No test looks at what is before an index. -/
structure Matcher.LooksAhead (matcher : Matcher) : Prop where
  nodes : ∀ node ∈ matcher.nodes, node.type.LooksAhead
  needGcb : matcher.needGcb = false

section
variable {nodes : List Node} {string : List Character} {start start' stop : ℕ} {matchAll : Bool}
  {nextChar prevChar prevChar' : Option Character}

theorem followEpsilons_ahead (ahead : ∀ node ∈ nodes, node.type.LooksAhead) (index fuel : ℕ)
    (inputs outputs : List State) (seen : List (ℕ × ℕ)) (fresh : ℕ) :
    followEpsilons nodes string start stop matchAll nextChar index prevChar fuel inputs outputs seen fresh =
      followEpsilons nodes string start' stop matchAll nextChar index prevChar' fuel inputs outputs seen fresh := by
  induction fuel generalizing inputs outputs seen fresh with
  | zero => rfl
  | succ fuel ih =>
    cases inputs with
    | nil => rfl
    | cons state inputs =>
      have looks : (nodeAt nodes state.node).type.LooksAhead := by
        rcases nodeAt_cases nodes state.node with inside | none
        · exact ahead _ inside
        · rw [none]
          trivial
      cases type : (nodeAt nodes state.node).type with
      | charZeroWidth test =>
        rw [type] at looks
        simp only [followEpsilons, type, ih, looks nextChar prevChar prevChar']
      | fullZeroWidth test =>
        rw [type] at looks
        simp only [followEpsilons, type, ih, looks index string start start']
      | _ => simp only [followEpsilons, type, ih]

theorem matchNodes_ahead (ahead : ∀ node ∈ nodes, node.type.LooksAhead) (fuel : ℕ) (states : List State)
    (index fresh : ℕ) :
    matchNodes nodes string start stop matchAll fuel states index prevChar fresh =
      matchNodes nodes string start' stop matchAll fuel states index prevChar' fresh := by
  induction fuel generalizing states index prevChar prevChar' fresh with
  | zero => rfl
  | succ fuel ih =>
    simp only [matchNodes, @followEpsilons_ahead nodes string start start' stop matchAll _ prevChar prevChar' ahead,
      fun char => @ih (some char) (some char)]

theorem regexpMatchAt_ahead {tables : Tables} {regexp : Compiled} (ahead : regexp.impl.LooksAhead) (capture : Bool)
    (index fuel : ℕ) : regexpMatchAt tables regexp matchAll capture index string start stop fuel =
      regexpMatchAt tables regexp matchAll capture index string start' stop fuel := by
  simp only [regexpMatchAt, runMatcher, ahead.needGcb]
  rw [matchNodes_ahead ahead.nodes]
  rfl

end

section
variable {ucd : Ucd} {string new : List Character} {first last index : ℕ} {ms : List RegexpMatch}

theorem codes_append (first last : List Character) : codes (first ++ last) = codes first ++ codes last := map_append

/-- What is behind the last match is not among the strings. -/
theorem replaceLoop_eq (first : ℕ) (ms : List RegexpMatch) :
    ∃ strings, replaceLoop ucd string (.elt (.string new)) last ms first = .ok strings ∧
      strings.flatten = codes (replaced string new (lastEnd first ms) first ms) := by
  induction ms generalizing first with
  | nil => exact ⟨[], rfl, by simp [replaced, lastEnd, substring, codes]⟩
  | cons m ms ih =>
    obtain ⟨strings, returns, whole⟩ := ih m.stop
    refine ⟨codes (substring string first m.start) :: codes new :: strings, ?_, ?_⟩
    · change (replaceLoop _ _ _ _ ms m.stop >>= _) = _
      rw [returns]
      rfl
    · rw [lastEnd, replaced, codes_append, codes_append, ← whole, flatten_cons, flatten_cons, append_assoc]

theorem replaced_behind (first : ℕ) (ms : List RegexpMatch) : replaced string new last first ms =
    replaced string new (lastEnd first ms) first ms ++ substring string (lastEnd first ms) last := by
  induction ms generalizing first with
  | nil => simp [replaced, lastEnd, substring]
  | cons m ms ih =>
    rw [lastEnd, replaced, replaced, ih m.stop]
    exact (append_assoc _ _ _).symm

theorem Divides.lastEnd_le (divides : Divides last first ms) : lastEnd first ms ≤ last := by
  induction ms generalizing first with
  | nil => exact divides
  | cons m ms ih => exact ih divides.2.2

/-- The searches that take their index for the beginning of the string find the matches of a scan where this makes no
difference. -/
theorem findMatch_eq {search : ℕ → Except Error (Option RegexpMatch)} {start count : ℕ}
    {matchAt : ℕ → ℕ → Except Error (Option RegexpMatch)} (anchored : Anchored search last) (scan : Scan search last index ms) (here : matchAt index = search)
    (later : 0 < count → ∀ index, matchAt index = search) :
    findMatch ucd matchAt string (.elt (.string new)) start last count index = .ok (match ms[count]? with
      | none => codes (substring string start last)
      | some m => stringToNfc ucd (codes (replacedOne string new start last (some m)))) := by
  induction scan generalizing count with
  | done none =>
    rw [findMatch, here, (searchFrom_iff anchored).mpr none]
    rfl
  | found finds _ ih =>
    rw [findMatch, here, (searchFrom_iff anchored).mpr finds]
    cases count with
    | zero =>
      simp [substMatch, substElt, stringAppend, bind, Except.bind, pure, Except.pure, replacedOne, codes_append]
    | succ count => exact ih (later count.succ_pos _) fun _ => later count.succ_pos

end

section
variable {ucd : Ucd} {tables : Tables} {sre : Sre} {string : List Character} {start stop : Option ℕ}

end

theorem normal_of_low {ucd : Ucd} {string : List Character} (low : ∀ c ∈ string, c.code < 0x300) : Normal ucd string := by
  have passes : ∀ ccc, nfcQcLoop ucd ccc .yes (codes string) = .yes := by
    induction string with
    | nil => exact fun _ => rfl
    | cons c string ih =>
      intro ccc
      rw [codes, map_cons, nfcQcLoop, if_pos (low c mem_cons_self)]
      exact ih (fun c member => low c (mem_cons_of_mem _ member)) 0
  exact if_pos (passes 0)

end MitScheme.Runtime.Regexp
