import Mathlib.Order.Lattice
import MitScheme.Compiler.RegisterMap.Partition

/-!
The merger of `mermap.scm`, which chooses the aliases of each home by weight and type. The homes of a merged map are
distinct, no two of them have an alias in common, and a home is marked saved only if all maps that have it mark it so.
-/

namespace MitScheme.Compiler.RegisterMaps

open List
open Prod (fst mk snd)

section
variable {α τ lab ω : Type}

/-- A map entry whose home and aliases have weights. -/
structure WeightedEntry (lab ω : Type) where
  home : Option ℕ
  homeWeight : ω
  aliasWeights : List (ℕ × ω)
  label : Option lab
deriving DecidableEq, Repr

def mapToWeightedEntries [Zero ω] (map : RegisterMap lab) (weight : ω) : List (WeightedEntry lab ω) :=
  map.entries.map fun entry =>
    ⟨entry.home, if entry.savedIntoHome then weight else 0, entry.aliases.map fun r => (r, weight), entry.label⟩

def mergeEntries [DecidableEq α] (findEntry : α → List α → Option α) (mergeEntry : α → α → α) :
    (xs ys result : List α) → List α
  | [], ys, result => result.reverse ++ ys
  | x :: xs, ys, result =>
    match findEntry x ys with
    | some y => mergeEntries findEntry mergeEntry xs (ys.erase y) (mergeEntry x y :: result)
    | none => mergeEntries findEntry mergeEntry xs ys (x :: result)

section
variable [LinearOrder ω] [Add ω] [Zero ω] [One ω] [DecidableEq lab] [DecidableEq τ]

def addWeightedEntry (x y : WeightedEntry lab ω) : WeightedEntry lab ω :=
  ⟨x.home, min x.homeWeight y.homeWeight,
    mergeEntries (fun entry entries => entries.find? fun entry' => entry'.1 = entry.1) (fun x y => (x.1, x.2 + y.2))
      x.aliasWeights y.aliasWeights [],
    if x.label = y.label then x.label else none⟩

def addWeightedEntries (xs ys : List (WeightedEntry lab ω)) : List (WeightedEntry lab ω) :=
  mergeEntries (fun entry entries => entries.find? fun entry' => entry.home = entry'.home) addWeightedEntry xs ys []

def likelyAliases (target : Target τ) (maximum : ω) (types : List τ) : List (ℕ × ω) → List (ℕ × ω)
  | [] => []
  | (r, weight) :: aliases =>
    if weight = maximum ∧ target.registerType r ∉ types then
      (r, weight) :: likelyAliases target maximum (target.registerType r :: types) aliases
    else likelyAliases target maximum types aliases

def eliminateUnlikelyAliases (target : Target τ) (entry : WeightedEntry lab ω) : WeightedEntry lab ω :=
  let maximum := (entry.aliasWeights.map snd).foldl max entry.homeWeight
  { entry with
    homeWeight := if entry.homeWeight = maximum then entry.homeWeight else 0
    aliasWeights := likelyAliases target maximum [] entry.aliasWeights }

/-- A register, with the homes that would have it and their weights. -/
structure Conflict (ω : Type) where
  register : ℕ
  homes : List (Option ℕ × ω)
deriving DecidableEq, Repr

/-- What the inner loop of `conflicting-aliases` does to its alist. -/
def addConflict (register : ℕ) (element : Option ℕ × ω) (conflicts : List (Conflict ω)) : List (Conflict ω) :=
  if conflicts.any fun conflict => conflict.register = register then
    conflicts.map fun conflict =>
      if conflict.register = register then { conflict with homes := element :: conflict.homes } else conflict
  else ⟨register, [element]⟩ :: conflicts

def conflictingAliases (entries : List (WeightedEntry lab ω)) : List (Conflict ω) :=
  let alist := entries.foldl (fun conflicts entry =>
    entry.aliasWeights.foldl (fun conflicts pair => addConflict pair.1 (entry.home, pair.2) conflicts) conflicts) []
  alist.filter fun conflict => 2 ≤ conflict.homes.length

def deleteWeighted (register : ℕ) (home : Option ℕ) : List (WeightedEntry lab ω) → List (WeightedEntry lab ω)
  | [] => []
  | entry :: entries =>
    if entry.home = home then
      { entry with aliasWeights := entry.aliasWeights.filter fun pair => pair.1 ≠ register } :: entries
    else entry :: deleteWeighted register home entries

/-- Every home but the winner, the first one of maximum weight, loses the register. -/
def resolveConflict (entries : List (WeightedEntry lab ω)) (conflict : Conflict ω) : List (WeightedEntry lab ω) :=
  let winner := conflict.homes.find? fun home => conflict.homes.all fun other => other.2 ≤ home.2
  conflict.homes.foldl (fun entries home =>
    if some home = winner then entries else deleteWeighted conflict.register home.1 entries) entries

def eliminateConflictingAliases (entries : List (WeightedEntry lab ω)) : List (WeightedEntry lab ω) :=
  (conflictingAliases entries).foldl resolveConflict entries

def weightedEntriesToMapLoop (target : Target τ) :
    (entries : List (WeightedEntry lab ω)) → (mapEntries : List (MapEntry lab)) → (registers : List ℕ) → RegisterMap lab
  | [], mapEntries, registers => ⟨mapEntries.reverse, target.sortMachineRegisters registers⟩
  | entry :: entries, mapEntries, registers =>
    let aliases := entry.aliasWeights.map fst
    if aliases = [] then weightedEntriesToMapLoop target entries mapEntries registers
    else weightedEntriesToMapLoop target entries (⟨entry.home, decide (0 < entry.homeWeight), aliases, entry.label⟩ :: mapEntries)
      (registers.filter fun r => r ∉ aliases)

def weightedEntriesToMap (target : Target τ) (entries : List (WeightedEntry lab ω)) : RegisterMap lab :=
  weightedEntriesToMapLoop target entries [] target.availableMachineRegisters

def reduce (kons : α → α → α) (knil : α) : List α → α
  | [] => knil
  | first :: rest => rest.foldl (fun acc elt => kons elt acc) first

/-- The weighted entries of the maps; without weights, each map has the weight one. -/
def weigh (maps : List (RegisterMap lab)) (weights : Option (List ω)) : List (List (WeightedEntry lab ω)) :=
  match weights with
  | none => maps.map fun map => mapToWeightedEntries map 1
  | some weights => List.zipWith mapToWeightedEntries maps weights

def mergeRegisterMaps (target : Target τ) (maps : List (RegisterMap lab)) (weights : Option (List ω)) : RegisterMap lab :=
  weightedEntriesToMap target (eliminateConflictingAliases
    ((reduce addWeightedEntries [] (weigh maps weights)).map (eliminateUnlikelyAliases target)))

end

end

variable {α κ τ lab ω : Type}

section
variable [DecidableEq α] {findEntry : α → List α → Option α} {mergeEntry : α → α → α} {key : α → κ}
  {xs ys result : List α}

theorem mergeEntries_keys (finds : ∀ x ys y, findEntry x ys = some y → y ∈ ys ∧ key y = key x)
    (misses : ∀ x ys, findEntry x ys = none → ∀ y ∈ ys, key y ≠ key x) (merges : ∀ x y, key (mergeEntry x y) = key x)
    (distinct : (xs.map key).Nodup) (distinct' : ((result ++ ys).map key).Nodup)
    (apart : ∀ x ∈ xs, ∀ e ∈ result, key e ≠ key x) :
    ((mergeEntries findEntry mergeEntry xs ys result).map key).Nodup := by
  induction xs generalizing ys result with
  | nil =>
    exact (((reverse_perm result).append_right ys).map key).nodup_iff.mpr distinct'
  | cons x xs ih =>
    obtain ⟨fresh, distinct⟩ := nodup_cons.mp distinct
    have apart' : ∀ e : α, key e = key x → ∀ x' ∈ xs, ∀ e' ∈ e :: result, key e' ≠ key x' := by
      intro e same x' member e' member'
      rcases mem_cons.mp member' with rfl | member'
      · intro same'
        exact fresh (mem_map.mpr ⟨x', member, same'.symm.trans same⟩)
      · exact apart x' (mem_cons_of_mem x member) e' member'
    rw [mergeEntries]
    cases found : findEntry x ys with
    | some y =>
      obtain ⟨member, same⟩ := finds x ys y found
      have moved : ((result ++ ys).map key).Perm ((mergeEntry x y :: result ++ ys.erase y).map key) := by
        have split := ((perm_cons_erase member).append_left result).trans perm_middle
        refine (split.map key).trans ?_
        rw [map_cons, cons_append, map_cons, same, merges]
      exact ih distinct (moved.nodup_iff.mp distinct') (apart' _ (merges x y))
    | none =>
      refine ih distinct (nodup_cons.mpr ⟨?_, distinct'⟩) (apart' x rfl)
      intro member
      obtain ⟨e, member, same⟩ := mem_map.mp member
      rcases mem_append.mp member with member | member
      · exact apart x mem_cons_self e member same
      · exact misses x ys found e member same

theorem mergeEntries_result {e : α} (member : e ∈ result) : e ∈ mergeEntries findEntry mergeEntry xs ys result := by
  induction xs generalizing ys result with
  | nil => exact mem_append_left _ (mem_reverse.mpr member)
  | cons x xs ih =>
    rw [mergeEntries]
    cases findEntry x ys with
    | some y => exact ih (mem_cons_of_mem _ member)
    | none => exact ih (mem_cons_of_mem _ member)

theorem mergeEntries_cover {Below : α → α → Prop} (refl : ∀ e, Below e e)
    (finds : ∀ x ys y, findEntry x ys = some y → y ∈ ys ∧ key y = key x)
    (left : ∀ x y, Below (mergeEntry x y) x) (right : ∀ x y, key y = key x → Below (mergeEntry x y) y) :
    ∀ z, z ∈ xs ∨ z ∈ ys → ∃ e ∈ mergeEntries findEntry mergeEntry xs ys result, Below e z := by
  induction xs generalizing ys result with
  | nil =>
    rintro z (member | member)
    · exact nomatch member
    · exact ⟨z, mem_append_right _ member, refl z⟩
  | cons x xs ih =>
    intro z member
    rw [mergeEntries]
    cases found : findEntry x ys with
    | some y =>
      obtain ⟨-, same⟩ := finds x ys y found
      have merged : mergeEntry x y ∈ mergeEntries findEntry mergeEntry xs (ys.erase y) (mergeEntry x y :: result) :=
        mergeEntries_result mem_cons_self
      rcases member with member | member
      · rcases mem_cons.mp member with rfl | member
        · exact ⟨_, merged, left z y⟩
        · exact ih z (.inl member)
      · by_cases taken : z = y
        · exact ⟨_, merged, taken ▸ right x y same⟩
        · exact ih z (.inr ((mem_erase_of_ne taken).mpr member))
    | none =>
      rcases member with member | member
      · rcases mem_cons.mp member with rfl | member
        · exact ⟨z, mergeEntries_result mem_cons_self, refl z⟩
        · exact ih z (.inl member)
      · exact ih z (.inr member)

theorem mergeEntries_all {p : α → Prop}
    (merges : ∀ x y, p x → p (mergeEntry x y)) (allXs : ∀ x ∈ xs, p x) (allYs : ∀ y ∈ ys, p y)
    (allResult : ∀ e ∈ result, p e) : ∀ e ∈ mergeEntries findEntry mergeEntry xs ys result, p e := by
  induction xs generalizing ys result with
  | nil =>
    intro e member
    rcases mem_append.mp member with member | member
    · exact allResult e (mem_reverse.mp member)
    · exact allYs e member
  | cons x xs ih =>
    obtain ⟨here, allXs⟩ := forall_mem_cons.mp allXs
    rw [mergeEntries]
    cases found : findEntry x ys with
    | some y =>
      refine ih allXs (fun y' member => allYs y' (mem_of_mem_erase member)) ?_
      exact forall_mem_cons.mpr ⟨merges x y here, allResult⟩
    | none => exact ih allXs allYs (forall_mem_cons.mpr ⟨here, allResult⟩)

end

theorem homes_eq {entries : List (MapEntry lab)} (homed : ∀ e ∈ entries, e.home ≠ none) :
    entries.map MapEntry.home = (entries.filterMap MapEntry.home).map some := by
  induction entries with
  | nil => rfl
  | cons e entries ih =>
    obtain ⟨here, homed⟩ := forall_mem_cons.mp homed
    obtain ⟨home, atHome⟩ := Option.ne_none_iff_exists'.mp here
    rw [map_cons, filterMap_cons, atHome, map_cons, ih homed]

section
variable [Zero ω] [One ω]

theorem weigh_mem {maps : List (RegisterMap lab)} {weights : Option (List ω)} {list : List (WeightedEntry lab ω)}
    (member : list ∈ weigh maps weights) : ∃ map ∈ maps, ∃ weight, list = mapToWeightedEntries map weight := by
  unfold weigh at member
  cases weights with
  | none =>
    obtain ⟨map, inMaps, rfl⟩ := mem_map.mp member
    exact ⟨map, inMaps, 1, rfl⟩
  | some weights =>
    obtain ⟨i, inRange, rfl⟩ := getElem_of_mem member
    rw [length_zipWith] at inRange
    have inMaps : i < maps.length := inRange.trans_le (min_le_left _ _)
    have inWeights : i < weights.length := inRange.trans_le (min_le_right _ _)
    exact ⟨maps[i], getElem_mem inMaps, weights[i], getElem_zipWith⟩

theorem mem_weigh {maps : List (RegisterMap lab)} {weights : Option (List ω)} {map : RegisterMap lab}
    (enough : ∀ ws ∈ weights, ws.length = maps.length) (member : map ∈ maps) :
    ∃ weight, mapToWeightedEntries map weight ∈ weigh maps weights := by
  cases weights with
  | none => exact ⟨1, mem_map.mpr ⟨map, member, rfl⟩⟩
  | some weights =>
    have same : weights.length = maps.length := enough weights rfl
    obtain ⟨i, inRange, rfl⟩ := getElem_of_mem member
    have inWeights : i < weights.length := same ▸ inRange
    have inZip : i < (zipWith mapToWeightedEntries maps weights).length := by
      rw [length_zipWith, same, min_self]
      exact inRange
    refine ⟨weights[i], ?_⟩
    have here : (zipWith mapToWeightedEntries maps weights)[i] = mapToWeightedEntries maps[i] weights[i] :=
      getElem_zipWith
    exact here ▸ getElem_mem inZip

end

variable {target : Target τ} {es es' : List (WeightedEntry lab ω)}

theorem findWeighted {x y : WeightedEntry lab ω} {ys : List (WeightedEntry lab ω)}
    (found : ys.find? (fun entry' => decide (x.home = entry'.home)) = some y) : y ∈ ys ∧ y.home = x.home := by
  have met := find?_some found
  exact ⟨mem_of_find?_eq_some found, (of_decide_eq_true met).symm⟩

structure Shrinks (e e' : WeightedEntry lab ω) : Prop where
  home : e.home = e'.home
  homeWeight : e.homeWeight = e'.homeWeight
  aliases : e.aliasWeights.Sublist e'.aliasWeights

theorem Shrinks.refl (e : WeightedEntry lab ω) : Shrinks e e := ⟨rfl, rfl, .refl _⟩

theorem Shrinks.trans {e e' e'' : WeightedEntry lab ω} (first : Shrinks e e') (last : Shrinks e' e'') : Shrinks e e'' :=
  ⟨first.home.trans last.home, first.homeWeight.trans last.homeWeight, first.aliases.trans last.aliases⟩

theorem shrinks_deleteWeighted (register : ℕ) (home : Option ℕ) (es : List (WeightedEntry lab ω)) :
    List.Forall₂ Shrinks (deleteWeighted register home es) es := by
  induction es with
  | nil => exact .nil
  | cons e es ih =>
    rw [deleteWeighted]
    split
    · exact .cons ⟨rfl, rfl, filter_sublist⟩ (forall₂_same.mpr fun e _ => .refl e)
    · exact .cons (.refl e) ih

theorem shrinks_trans {es'' : List (WeightedEntry lab ω)} (first : List.Forall₂ Shrinks es es')
    (last : List.Forall₂ Shrinks es' es'') : List.Forall₂ Shrinks es es'' := by
  induction first generalizing es'' with
  | nil => exact last
  | cons here first ih =>
    cases last with
    | cons here' last => exact .cons (here.trans here') (ih last)

theorem shrinks_homes (shrinks : List.Forall₂ Shrinks es es') :
    es.map WeightedEntry.home = es'.map WeightedEntry.home := by
  induction shrinks with
  | nil => rfl
  | cons here _ ih => rw [map_cons, map_cons, here.home, ih]

theorem shrinks_mem (shrinks : List.Forall₂ Shrinks es es') : ∀ e ∈ es, ∃ e' ∈ es', Shrinks e e' := by
  induction shrinks with
  | nil => exact nofun
  | cons here _ ih =>
    refine forall_mem_cons.mpr ⟨⟨_, mem_cons_self, here⟩, ?_⟩
    intro e member
    obtain ⟨e', member', shrinks⟩ := ih e member
    exact ⟨e', mem_cons_of_mem _ member', shrinks⟩

def Lacks (register : ℕ) (home : Option ℕ) (es : List (WeightedEntry lab ω)) : Prop :=
  ∀ e ∈ es, e.home = home → register ∉ e.aliasWeights.map fst

theorem Lacks.shrinks {home : Option ℕ} (lacks : Lacks register home es') (shrinks : List.Forall₂ Shrinks es es') :
    Lacks register home es := by
  intro e member homed holds
  obtain ⟨e', member', smaller⟩ := shrinks_mem shrinks e member
  exact lacks e' member' (smaller.home.symm.trans homed) ((smaller.aliases.map fst).subset holds)

theorem lacks_deleteWeighted {home : Option ℕ} (homes : (es.map WeightedEntry.home).Nodup) :
    Lacks register home (deleteWeighted register home es) := by
  induction es with
  | nil => exact nofun
  | cons e es ih =>
    obtain ⟨fresh, homes⟩ := nodup_cons.mp homes
    rw [deleteWeighted]
    split
    · rename_i homed
      refine forall_mem_cons.mpr ⟨?_, ?_⟩
      · intro _ holds
        obtain ⟨pair, member, same⟩ := mem_map.mp holds
        have other := (mem_filter.mp member).2
        rw [decide_eq_true_eq] at other
        exact other same
      · intro e' member homed'
        exact absurd (mem_map.mpr ⟨e', member, homed'.trans homed.symm⟩) fresh
    · rename_i other
      refine forall_mem_cons.mpr ⟨fun homed => absurd homed other, ih homes⟩

def Noted (conflicts : List (Conflict ω)) (register : ℕ) (element : Option ℕ × ω) : Prop :=
  ∃ conflict ∈ conflicts, conflict.register = register ∧ element ∈ conflict.homes

variable {conflicts : List (Conflict ω)} {register : ℕ} {element : Option ℕ × ω}

theorem addConflict_notes : Noted (addConflict register element conflicts) register element := by
  unfold addConflict
  split
  · rename_i present
    obtain ⟨conflict, member, same⟩ := any_eq_true.mp present
    rw [decide_eq_true_eq] at same
    refine ⟨_, mem_map.mpr ⟨conflict, member, if_pos same⟩, same, mem_cons_self⟩
  · exact ⟨_, mem_cons_self, rfl, mem_cons_self⟩

theorem Noted.addConflict {register' : ℕ} {element' : Option ℕ × ω} (noted : Noted conflicts register' element') :
    Noted (addConflict register element conflicts) register' element' := by
  obtain ⟨conflict, member, same, inHomes⟩ := noted
  unfold RegisterMaps.addConflict
  split
  · by_cases here : conflict.register = register
    · exact ⟨_, mem_map.mpr ⟨conflict, member, if_pos here⟩, same, mem_cons_of_mem _ inHomes⟩
    · exact ⟨_, mem_map.mpr ⟨conflict, member, if_neg here⟩, same, inHomes⟩
  · exact ⟨conflict, mem_cons_of_mem _ member, same, inHomes⟩

theorem addConflict_registers (distinct : (conflicts.map Conflict.register).Nodup) :
    ((addConflict register element conflicts).map Conflict.register).Nodup := by
  unfold addConflict
  split
  · have kept : ∀ conflict : Conflict ω,
        (if conflict.register = register then { conflict with homes := element :: conflict.homes } else conflict).register =
          conflict.register := by
      intro conflict
      split <;> rfl
    rw [map_map]
    refine (map_congr_left ?_).symm ▸ distinct
    intro conflict _
    exact kept conflict
  · rename_i absent
    refine nodup_cons.mpr ⟨?_, distinct⟩
    intro member
    obtain ⟨conflict, member, same⟩ := mem_map.mp member
    exact absent (any_eq_true.mpr ⟨conflict, member, decide_eq_true same⟩)

/-- The alist that `conflicting-aliases` makes. -/
def conflictAlist (es : List (WeightedEntry lab ω)) (conflicts : List (Conflict ω)) : List (Conflict ω) :=
  es.foldl (fun conflicts entry =>
    entry.aliasWeights.foldl (fun conflicts pair => addConflict pair.1 (entry.home, pair.2) conflicts) conflicts) conflicts

theorem addAll_spec (home : Option ℕ) (pairs : List (ℕ × ω)) (conflicts : List (Conflict ω))
    (distinct : (conflicts.map Conflict.register).Nodup) :
    ((pairs.foldl (fun conflicts pair => addConflict pair.1 (home, pair.2) conflicts) conflicts).map
        Conflict.register).Nodup ∧
      ∀ register element, Noted conflicts register element ∨ (∃ pair ∈ pairs, register = pair.1 ∧ element = (home, pair.2)) →
        Noted (pairs.foldl (fun conflicts pair => addConflict pair.1 (home, pair.2) conflicts) conflicts) register
          element := by
  induction pairs generalizing conflicts with
  | nil =>
    refine ⟨distinct, ?_⟩
    rintro register element (noted | ⟨pair, member, -⟩)
    · exact noted
    · exact nomatch member
  | cons pair pairs ih =>
    obtain ⟨distinct', notes⟩ := ih (addConflict pair.1 (home, pair.2) conflicts) (addConflict_registers distinct)
    refine ⟨distinct', ?_⟩
    rintro register element (noted | ⟨pair', member, rfl, rfl⟩)
    · exact notes register element (.inl noted.addConflict)
    · rcases mem_cons.mp member with rfl | member
      · exact notes _ _ (.inl addConflict_notes)
      · exact notes _ _ (.inr ⟨pair', member, rfl, rfl⟩)

theorem conflictAlist_spec (es : List (WeightedEntry lab ω)) (conflicts : List (Conflict ω))
    (distinct : (conflicts.map Conflict.register).Nodup) : ((conflictAlist es conflicts).map Conflict.register).Nodup ∧
    ∀ register element,
    Noted conflicts register element ∨ (∃ e ∈ es, ∃ pair ∈ e.aliasWeights, register = pair.1 ∧ element = (e.home, pair.2)) →
    Noted (conflictAlist es conflicts) register element := by
  induction es generalizing conflicts with
  | nil =>
    refine ⟨distinct, ?_⟩
    rintro register element (noted | ⟨e, member, -⟩)
    · exact noted
    · exact nomatch member
  | cons e es ih =>
    obtain ⟨distinct, notes⟩ := addAll_spec e.home e.aliasWeights conflicts distinct
    obtain ⟨distinct', notes'⟩ := ih _ distinct
    refine ⟨distinct', ?_⟩
    rintro register element (noted | ⟨e', member, pair, inAliases, rfl, rfl⟩)
    · exact notes' register element (.inl (notes register element (.inl noted)))
    · rcases mem_cons.mp member with rfl | member
      · exact notes' _ _ (.inl (notes _ _ (.inr ⟨pair, inAliases, rfl, rfl⟩)))
      · exact notes' _ _ (.inr ⟨e', member, pair, inAliases, rfl, rfl⟩)

variable [LinearOrder ω]

theorem shrinks_resolve (register : ℕ) (winner : Option (Option ℕ × ω)) (homes : List (Option ℕ × ω))
    (es : List (WeightedEntry lab ω)) :
    List.Forall₂ Shrinks (homes.foldl (fun entries home =>
      if some home = winner then entries else deleteWeighted register home.1 entries) es) es := by
  induction homes generalizing es with
  | nil => exact forall₂_same.mpr fun e _ => .refl e
  | cons home homes ih =>
    refine shrinks_trans (ih _) ?_
    dsimp only
    split
    · exact forall₂_same.mpr fun e _ => .refl e
    · exact shrinks_deleteWeighted register home.1 es

theorem lacks_resolve {winner : Option (Option ℕ × ω)} {homes : List (Option ℕ × ω)}
    (distinct : (es.map WeightedEntry.home).Nodup) (member : element ∈ homes) (loses : some element ≠ winner) :
    Lacks register element.1 (homes.foldl (fun entries home =>
      if some home = winner then entries else deleteWeighted register home.1 entries) es) := by
  induction homes generalizing es with
  | nil => exact nomatch member
  | cons home homes ih =>
    rcases mem_cons.mp member with rfl | member
    · rw [foldl_cons, if_neg loses]
      exact (lacks_deleteWeighted distinct).shrinks (shrinks_resolve register winner homes _)
    · rw [foldl_cons]
      refine ih ?_ member
      split
      · exact distinct
      · exact (shrinks_homes (shrinks_deleteWeighted register home.1 es)).symm ▸ distinct

def winnerOf (conflict : Conflict ω) : Option (Option ℕ × ω) :=
  conflict.homes.find? fun home => conflict.homes.all fun other => other.2 ≤ home.2

theorem resolveAll_spec (conflicts : List (Conflict ω)) (distinct : (es.map WeightedEntry.home).Nodup) :
    List.Forall₂ Shrinks (conflicts.foldl resolveConflict es) es ∧ ∀ conflict ∈ conflicts, ∀ element ∈ conflict.homes,
    some element ≠ winnerOf conflict → Lacks conflict.register element.1 (conflicts.foldl resolveConflict es) := by
  induction conflicts generalizing es with
  | nil => exact ⟨forall₂_same.mpr fun e _ => .refl e, nofun⟩
  | cons conflict conflicts ih =>
    have resolved := shrinks_resolve conflict.register (winnerOf conflict) conflict.homes es
    obtain ⟨shrinks, lacks⟩ := ih ((shrinks_homes resolved).symm ▸ distinct :
      ((resolveConflict es conflict).map WeightedEntry.home).Nodup)
    refine ⟨shrinks_trans shrinks resolved, forall_mem_cons.mpr ⟨?_, lacks⟩⟩
    intro element member loses
    exact (lacks_resolve distinct member loses).shrinks shrinks

theorem two_le_length {β : Type} {l : List β} {a b : β} (member : a ∈ l) (member' : b ∈ l) (different : a ≠ b) :
    2 ≤ l.length := by
  match l, member, member' with
  | [c], member, member' =>
    exact absurd ((mem_singleton.mp member).trans (mem_singleton.mp member').symm) different
  | c :: d :: l, _, _ => simp

theorem eliminateConflictingAliases_spec (distinct : (es.map WeightedEntry.home).Nodup) :
    List.Forall₂ Shrinks (eliminateConflictingAliases es) es ∧
      ∀ e ∈ eliminateConflictingAliases es, ∀ e' ∈ eliminateConflictingAliases es, ∀ r,
        r ∈ e.aliasWeights.map fst → r ∈ e'.aliasWeights.map fst → e.home = e'.home := by
  obtain ⟨shrinks, lacks⟩ := resolveAll_spec (conflictingAliases es) distinct
  refine ⟨shrinks, ?_⟩
  intro e member e' member' r holds holds'
  by_contra different
  obtain ⟨registers, notes⟩ := conflictAlist_spec es [] nodup_nil
  have noted : ∀ e ∈ eliminateConflictingAliases es, r ∈ e.aliasWeights.map fst →
      ∃ weight, Noted (conflictAlist es []) r (e.home, weight) := by
    intro e member holds
    obtain ⟨o, inEntries, smaller⟩ := shrinks_mem shrinks e member
    obtain ⟨pair, inAliases, rfl⟩ := mem_map.mp holds
    exact ⟨pair.2, notes _ _ (.inr ⟨o, inEntries, pair, smaller.aliases.subset inAliases, rfl, by rw [smaller.home]⟩)⟩
  obtain ⟨weight, conflict, inAlist, same, inHomes⟩ := noted e member holds
  obtain ⟨weight', conflict', inAlist', same', inHomes'⟩ := noted e' member' holds'
  obtain rfl : conflict = conflict' := inj_on_of_nodup_map registers inAlist inAlist' (same.trans same'.symm)
  have apart : (e.home, weight) ≠ (e'.home, weight') := fun equal => different (mk.inj equal).1
  have isConflict : conflict ∈ conflictingAliases es := by
    refine mem_filter.mpr ⟨inAlist, ?_⟩
    exact decide_eq_true (two_le_length inHomes inHomes' apart)
  by_cases wins : some (e.home, weight) = winnerOf conflict
  · have loses : some (e'.home, weight') ≠ winnerOf conflict := by
      rw [← wins]
      exact fun equal => apart (Option.some.inj equal).symm
    exact lacks conflict isConflict _ inHomes' loses e' member' rfl (same ▸ holds')
  · exact lacks conflict isConflict _ inHomes wins e member rfl (same ▸ holds)

theorem likelyAliases_spec [DecidableEq τ] (maximum : ω) (types : List τ) (aliases : List (ℕ × ω)) :
    (∀ pair ∈ likelyAliases target maximum types aliases, target.registerType pair.1 ∉ types) ∧
      ((likelyAliases target maximum types aliases).map fst).Nodup := by
  induction aliases generalizing types with
  | nil => exact ⟨nofun, nodup_nil⟩
  | cons pair aliases ih =>
    obtain ⟨r, weight⟩ := pair
    rw [likelyAliases]
    split
    · rename_i met
      obtain ⟨typed, distinct⟩ := ih (target.registerType r :: types)
      refine ⟨?_, ?_⟩
      · refine forall_mem_cons.mpr ⟨met.2, ?_⟩
        intro pair member inTypes
        exact typed pair member (mem_cons_of_mem _ inTypes)
      · refine nodup_cons.mpr ⟨?_, distinct⟩
        intro member
        obtain ⟨pair, member, same⟩ := mem_map.mp member
        exact typed pair member (same ▸ mem_cons_self)
    · exact ih types

def Below (e z : WeightedEntry lab ω) : Prop := e.home = z.home ∧ e.homeWeight ≤ z.homeWeight

structure Merges (lists : List (List (WeightedEntry lab ω))) (es : List (WeightedEntry lab ω)) : Prop where
  homes : (es.map WeightedEntry.home).Nodup
  homed : ∀ e ∈ es, e.home ≠ none
  below : ∀ list ∈ lists, ∀ z ∈ list, ∃ e ∈ es, Below e z

section
variable [Add ω] [DecidableEq lab]

theorem Merges.add {lists : List (List (WeightedEntry lab ω))} {list : List (WeightedEntry lab ω)} (merges : Merges lists es)
    (homes : (list.map WeightedEntry.home).Nodup) (homed : ∀ e ∈ list, e.home ≠ none) :
    Merges (lists ++ [list]) (addWeightedEntries list es) := by
  have cover : ∀ z, z ∈ list ∨ z ∈ es → ∃ e ∈ addWeightedEntries list es, Below e z :=
    mergeEntries_cover (fun e => ⟨rfl, le_refl _⟩) (fun x ys y => findWeighted)
      (fun x y => ⟨rfl, min_le_left _ _⟩) (fun x y same => ⟨same.symm, min_le_right _ _⟩)
  refine ⟨?_, ?_, ?_⟩
  · refine mergeEntries_keys (fun x ys y => findWeighted) ?_ (fun x y => rfl) homes merges.homes nofun
    intro x ys missing y member same
    have met := find?_eq_none.mp missing y member
    exact met (decide_eq_true same.symm)
  · exact mergeEntries_all (fun x y here => here) homed merges.homed nofun
  · intro other member z inOther
    rcases mem_append.mp member with member | last
    · obtain ⟨e, inEntries, same, le⟩ := merges.below other member z inOther
      obtain ⟨e', inEntries', same', le'⟩ := cover e (.inr inEntries)
      exact ⟨e', inEntries', same'.trans same, le'.trans le⟩
    · obtain rfl := mem_singleton.mp last
      exact cover z (.inl inOther)

theorem merges_reduce (lists : List (List (WeightedEntry lab ω)))
    (homes : ∀ list ∈ lists, (list.map WeightedEntry.home).Nodup) (homed : ∀ list ∈ lists, ∀ e ∈ list, e.home ≠ none) :
    Merges lists (reduce addWeightedEntries [] lists) := by
  cases lists with
  | nil => exact ⟨nodup_nil, nofun, nofun⟩
  | cons first rest =>
    have step : ∀ (rest done : List (List (WeightedEntry lab ω))) (es : List (WeightedEntry lab ω)), Merges done es →
        (∀ list ∈ rest, (list.map WeightedEntry.home).Nodup) → (∀ list ∈ rest, ∀ e ∈ list, e.home ≠ none) →
        Merges (done ++ rest) (rest.foldl (fun acc list => addWeightedEntries list acc) es) := by
      intro rest
      induction rest with
      | nil =>
        intro done es merges _ _
        rwa [append_nil]
      | cons list rest ih =>
        intro done es merges homes homed
        obtain ⟨here, homes⟩ := forall_mem_cons.mp homes
        obtain ⟨here', homed⟩ := forall_mem_cons.mp homed
        have again := ih (done ++ [list]) _ (merges.add here here') homes homed
        rwa [append_assoc] at again
    obtain ⟨here, homes⟩ := forall_mem_cons.mp homes
    obtain ⟨here', homed⟩ := forall_mem_cons.mp homed
    refine step rest [first] first ⟨here, here', ?_⟩ homes homed
    intro list member z inList
    obtain rfl := mem_singleton.mp member
    exact ⟨z, inList, rfl, le_refl _⟩

end

variable [Zero ω]

def toMapEntry (e : WeightedEntry lab ω) : Option (MapEntry lab) :=
  if e.aliasWeights.map fst = [] then none
  else some ⟨e.home, decide (0 < e.homeWeight), e.aliasWeights.map fst, e.label⟩

theorem toMapEntry_some {e : WeightedEntry lab ω} {entry : MapEntry lab} (made : toMapEntry e = some entry) :
    entry.aliases = e.aliasWeights.map fst ∧ entry.aliases ≠ [] ∧ entry.home = e.home ∧
      (entry.savedIntoHome = true ↔ 0 < e.homeWeight) := by
  unfold toMapEntry at made
  split at made
  · exact nomatch made
  · rename_i occupied
    obtain rfl := Option.some.inj made
    exact ⟨rfl, occupied, rfl, decide_eq_true_iff⟩

theorem weightedEntriesToMapLoop_eq (es : List (WeightedEntry lab ω)) (kept : List (MapEntry lab)) (registers : List ℕ) :
    weightedEntriesToMapLoop target es kept registers =
      ⟨kept.reverse ++ es.filterMap toMapEntry, target.sortMachineRegisters
        (registers.filter fun r => ∀ e ∈ es, r ∉ e.aliasWeights.map fst)⟩ := by
  induction es generalizing kept registers with
  | nil => simp [weightedEntriesToMapLoop]
  | cons e es ih =>
    rw [weightedEntriesToMapLoop]
    by_cases none : e.aliasWeights.map fst = []
    · have skipped : toMapEntry e = Option.none := if_pos none
      rw [if_pos none, ih, filterMap_cons, skipped]
      simp only [forall_mem_cons, none, not_mem_nil, not_false_eq_true, true_and]
    · have made : toMapEntry e = some _ := if_neg none
      rw [if_neg none, ih, filterMap_cons, made, reverse_cons, append_assoc, filter_filter]
      simp only [forall_mem_cons, Bool.decide_and, Bool.and_comm]
      rfl

theorem weightedEntriesToMap_partition (homes : (es.map WeightedEntry.home).Nodup) (homed : ∀ e ∈ es, e.home ≠ none)
    (distinct : ∀ e ∈ es, (e.aliasWeights.map fst).Nodup)
    (apart : ∀ e ∈ es, ∀ e' ∈ es, ∀ r, r ∈ e.aliasWeights.map fst → r ∈ e'.aliasWeights.map fst →
      e.home = e'.home) : Partition target (weightedEntriesToMap target es) := by
  rw [weightedEntriesToMap, weightedEntriesToMapLoop_eq, reverse_nil]
  have sorted := target.sort_perm
    (target.availableMachineRegisters.filter fun r => ∀ e ∈ es, r ∉ e.aliasWeights.map fst)
  refine .perm ?_ (.refl _) sorted.symm
  have different : es.Pairwise fun e e' => e.home ≠ e'.home := pairwise_map.mp homes
  constructor
  · refine nodup_append.mpr ⟨nodup_flatMap.mpr ⟨?_, ?_⟩, target.distinct.filter _, ?_⟩
    · intro entry member
      obtain ⟨e, inEntries, made⟩ := mem_filterMap.mp member
      rw [(toMapEntry_some made).1]
      exact distinct e inEntries
    · refine pairwise_filterMap.mpr (different.imp_of_mem ?_)
      intro e e' inEntries inEntries' other entry made entry' made' r holds holds'
      rw [(toMapEntry_some made).1] at holds
      rw [(toMapEntry_some made').1] at holds'
      exact other (apart e inEntries e' inEntries' r holds holds')
    · rintro r holds r' free rfl
      obtain ⟨entry, member, holds⟩ := mem_flatMap.mp holds
      obtain ⟨e, inEntries, made⟩ := mem_filterMap.mp member
      rw [(toMapEntry_some made).1] at holds
      exact of_decide_eq_true (mem_filter.mp free).2 e inEntries holds
  · intro r available
    by_cases held : ∀ e ∈ es, r ∉ e.aliasWeights.map fst
    · exact mem_append_right _ (mem_filter.mpr ⟨available, decide_eq_true held⟩)
    · push Not at held
      obtain ⟨e, inEntries, holds⟩ := held
      have made : toMapEntry e = some _ := if_neg (ne_nil_of_mem holds)
      exact mem_append_left _ (mem_flatMap.mpr ⟨_, mem_filterMap.mpr ⟨e, inEntries, made⟩, holds⟩)
  · intro entry member
    obtain ⟨e, inEntries, made⟩ := mem_filterMap.mp member
    exact (toMapEntry_some made).2.1
  · refine pairwise_filterMap.mpr (pairwise_filterMap.mpr (different.imp ?_))
    rintro e e' other entry made entry' made' home atHome _ atHome' rfl
    rw [(toMapEntry_some made).2.2.1] at atHome
    rw [(toMapEntry_some made').2.2.1] at atHome'
    exact other (atHome.trans atHome'.symm)
  · intro entry member none
    obtain ⟨e, inEntries, made⟩ := mem_filterMap.mp member
    exact absurd ((toMapEntry_some made).2.2.1.symm.trans none) (homed e inEntries)

variable [DecidableEq τ]

theorem eliminateUnlikelyAliases_weight {e : WeightedEntry lab ω}
    (positive : 0 < (eliminateUnlikelyAliases target e).homeWeight) :
    (eliminateUnlikelyAliases target e).homeWeight = e.homeWeight := by
  unfold eliminateUnlikelyAliases at positive ⊢
  dsimp only at positive ⊢
  split
  · rfl
  · rename_i other
    rw [if_neg other] at positive
    exact absurd positive (lt_irrefl 0)

variable [Add ω] [One ω] [DecidableEq lab]

/-- A map that may be coerced to: its entries have homes, and a home is marked saved only if the input map marks it so or
has no entry for it. -/
structure Coercible (target : Target τ) (input output : RegisterMap lab) : Prop where
  partition : Partition target output
  homed : ∀ e ∈ output.entries, e.home ≠ none
  saved : ∀ e ∈ output.entries, e.savedIntoHome = true → ∀ e' ∈ input.entries, e'.home = e.home → e'.savedIntoHome = true

theorem mergeRegisterMaps_coercible {maps : List (RegisterMap lab)} {weights : Option (List ω)}
    (partitions : ∀ map ∈ maps, Partition target map) (homed : ∀ map ∈ maps, ∀ e ∈ map.entries, e.home ≠ none)
    (enough : ∀ ws ∈ weights, ws.length = maps.length) : Partition target (mergeRegisterMaps target maps weights) ∧
    ∀ map ∈ maps, Coercible target map (mergeRegisterMaps target maps weights) := by
  have merges : Merges (weigh maps weights) (reduce addWeightedEntries [] (weigh maps weights)) := by
    apply merges_reduce
    · intro list member
      obtain ⟨map, inMaps, weight, rfl⟩ := weigh_mem member
      rw [mapToWeightedEntries, map_map]
      have distinct := (partitions map inMaps).homes.map (fun _ _ same => Option.some.inj same)
      rwa [← homes_eq (homed map inMaps)] at distinct
    · intro list member e inList
      obtain ⟨map, inMaps, weight, rfl⟩ := weigh_mem member
      obtain ⟨entry, inEntries, rfl⟩ := mem_map.mp inList
      exact homed map inMaps entry inEntries
  obtain ⟨homes, homedMerged, below⟩ := merges
  generalize made : reduce addWeightedEntries [] (weigh maps weights) = merged at homes homedMerged below
  have homes' : ((merged.map (eliminateUnlikelyAliases target)).map WeightedEntry.home).Nodup := by
    rw [map_map]
    exact homes
  obtain ⟨shrinks, apart⟩ := eliminateConflictingAliases_spec homes'
  -- Every entry that is left comes from a merged one.
  have origin : ∀ e ∈ eliminateConflictingAliases (merged.map (eliminateUnlikelyAliases target)),
      ∃ o ∈ merged, e.home = o.home ∧ (0 < e.homeWeight → e.homeWeight = o.homeWeight) ∧
        (e.aliasWeights.map fst).Nodup := by
    intro e member
    obtain ⟨e', member', smaller⟩ := shrinks_mem shrinks e member
    obtain ⟨o, inMerged, rfl⟩ := mem_map.mp member'
    refine ⟨o, inMerged, smaller.home, ?_, (likelyAliases_spec _ _ _).2.sublist (smaller.aliases.map _)⟩
    rw [smaller.homeWeight]
    exact eliminateUnlikelyAliases_weight
  have homed' : ∀ e ∈ eliminateConflictingAliases (merged.map (eliminateUnlikelyAliases target)), e.home ≠ none := by
    intro e member
    obtain ⟨o, inMerged, same, -⟩ := origin e member
    exact same ▸ homedMerged o inMerged
  have partition : Partition target (mergeRegisterMaps target maps weights) := by
    rw [mergeRegisterMaps, made]
    refine weightedEntriesToMap_partition ((shrinks_homes shrinks).symm ▸ homes') homed' ?_ apart
    intro e member
    obtain ⟨o, -, -, -, distinct⟩ := origin e member
    exact distinct
  have final : ∀ entry ∈ (mergeRegisterMaps target maps weights).entries,
      ∃ o ∈ merged, entry.home = o.home ∧ (entry.savedIntoHome = true → 0 < o.homeWeight) := by
    intro entry member
    rw [mergeRegisterMaps, made, weightedEntriesToMap, weightedEntriesToMapLoop_eq] at member
    obtain ⟨e, inEntries, madeEntry⟩ := mem_filterMap.mp member
    obtain ⟨-, -, atHome, marked⟩ := toMapEntry_some madeEntry
    obtain ⟨o, inMerged, same, weighs, -⟩ := origin e inEntries
    refine ⟨o, inMerged, atHome.trans same, ?_⟩
    intro saved
    have positive := marked.mp saved
    exact weighs positive ▸ positive
  refine ⟨partition, ?_⟩
  intro map inMaps
  refine ⟨partition, ?_, ?_⟩
  · intro entry member
    obtain ⟨o, inMerged, same, -⟩ := final entry member
    exact same ▸ homedMerged o inMerged
  · intro entry member saved e' inEntries sameHome
    obtain ⟨o, inMerged, same, weighs⟩ := final entry member
    obtain ⟨weight, inWeighed⟩ := @mem_weigh lab ω _ _ maps weights map enough inMaps
    obtain ⟨o', inMerged', same', le⟩ := below _ inWeighed _ (mem_map.mpr ⟨e', inEntries, rfl⟩)
    obtain rfl : o' = o := inj_on_of_nodup_map homes inMerged' inMerged (same'.trans (sameHome.trans same))
    have positive := (weighs saved).trans_le le
    by_contra unsaved
    rw [if_neg unsaved] at positive
    exact lt_irrefl 0 positive

end MitScheme.Compiler.RegisterMaps
