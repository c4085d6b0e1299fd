import MitScheme.Microcode.Lookup.Scanning

namespace MitScheme.Microcode.Lookup

open List

variable {h h' : Heap} {P : Program} {symbol : Symbol}

theorem frameBindings_congr (extension : h'.extension = h.extension) (frame : Env) :
    frameBindings h' frame = frameBindings h frame := by
  rw [frameBindings, extension, frameBindings]

theorem Tidy.congr (tidy : Tidy P h)
    (same : ∀ frame, frameBindings h' frame = frameBindings h frame) (free : h.free ≤ h'.free) : Tidy P h' where
  parameters := tidy.parameters
  names frame := by rw [same]; exact tidy.names frame
  apart {frame name} bound := tidy.apart (same frame ▸ bound)
  pairs {frame frame'} _ _ _ member member' := tidy.pairs (same frame ▸ member) (same frame' ▸ member')
  allocated {frame _ _} member := Nat.lt_of_lt_of_le (tidy.allocated (same frame ▸ member)) free

theorem scanFrame_of_extension (extension : h'.extension = h.extension) (frame : Env)
    (symbol : Symbol) : scanFrame P h' frame symbol true = scanFrame P h frame symbol true :=
  scanFrame_congr (by rw [frameBindings_congr extension])

theorem frameBindings_setExtension (h : Heap) (frame : Env) (extension : Extension) (other : Env) :
    frameBindings (h.setExtension frame extension) other =
      if other = frame then extension.bindings else frameBindings h other := by
  by_cases here : other = frame <;> simp [frameBindings, Heap.setExtension, here]

theorem scanFrame_setValue (P : Program) (h : Heap) (cell : Cell) (value : Obj) (frame : Env) (symbol : Symbol) :
    scanFrame P (h.setValue cell value) frame symbol true = scanFrame P h frame symbol true :=
  scanFrame_congr rfl

theorem Tidy.setValue {h : Heap} (tidy : Tidy P h) (cell : Cell) (value : Obj) : Tidy P (h.setValue cell value) :=
  tidy.congr (fun _ => rfl) (Nat.le_refl _)

theorem scanFrame_false_congr (tidy : Tidy P h) (tidy' : Tidy P h')
    {frame : Env} (same : scanFrame P h' frame symbol true = scanFrame P h frame symbol true)
    (shown : ∀ cell, scanFrame P h frame symbol true = some cell → visible h' cell = visible h cell) :
    scanFrame P h' frame symbol false = scanFrame P h frame symbol false := by
  rw [scanFrame_visible tidy', scanFrame_visible tidy, same]
  cases found : scanFrame P h frame symbol true with
  | none => rfl
  | some cell => simp [Option.filter, shown cell found]

theorem scanExtension_congr {bindings bindings' : List (Symbol × Nat)} (nodup' : (bindings'.map Prod.fst).Nodup)
    (same : ∀ pair, (symbol, pair) ∈ bindings' ↔ (symbol, pair) ∈ bindings) : scanExtension bindings' symbol =
    scanExtension bindings symbol := by
  cases found : scanExtension bindings symbol with
  | some cell =>
    obtain ⟨pair, member, rfl⟩ := scanExtension_eq_some found
    exact scanExtension_of_mem nodup' ((same pair).mpr member)
  | none =>
    rw [scanExtension_eq_none] at found ⊢
    intro member
    obtain ⟨⟨_, pair⟩, there, rfl⟩ := mem_map.mp member
    exact found (mem_map_of_mem ((same pair).mp there))

theorem guaranteeExtensionSpace_bindings (extension : Option Extension) :
    (guaranteeExtensionSpace extension).bindings = (extension.map Extension.bindings).getD [] := by
  unfold guaranteeExtensionSpace
  split
  · split <;> rfl
  · rfl

theorem Extension.remove_perm (extension : Extension) {index : Nat} (bound : index < extension.bindings.length) :
    (extension.remove index).bindings.Perm (extension.bindings.eraseIdx index) := by
  rcases eq_nil_or_concat extension.bindings with empty | ⟨init, last, split⟩
  · rw [empty] at bound
    exact absurd bound (Nat.not_lt_zero _)
  · rw [concat_eq_append] at split
    have removed : (extension.remove index).bindings = ((init ++ [last]).set index last).dropLast := by
      simp [Extension.remove, split]
    rw [split, length_append, length_singleton] at bound
    rw [removed, split]
    by_cases inside : index < init.length
    · rw [set_append_left _ _ inside, dropLast_concat, eraseIdx_append_of_lt_length inside,
        set_eq_take_append_cons_drop, if_pos inside, eraseIdx_eq_take_drop_succ]
      exact perm_middle.trans (perm_append_singleton last _).symm
    · obtain rfl : index = init.length := by omega
      rw [set_append_right _ _ (Nat.le_refl _), eraseIdx_append_of_length_le (Nat.le_refl _),
        Nat.sub_self, set_cons_zero, dropLast_concat, eraseIdx_cons_zero, append_nil]

theorem Extension.mem_remove (extension : Extension) (nodup : (extension.bindings.map Prod.fst).Nodup)
    {index : Nat}
    (found : extension.bindings.findIdx? (fun binding => binding.1 = symbol) = some index) :
    (((extension.remove index).bindings).map Prod.fst).Nodup ∧ ∀ name pair,
      (name, pair) ∈ (extension.remove index).bindings ↔ (name, pair) ∈ extension.bindings ∧ name ≠ symbol := by
  obtain ⟨bound, here, _⟩ := findIdx?_eq_some_iff_getElem.mp found
  have here : extension.bindings[index].1 = symbol := of_decide_eq_true here
  have removed := extension.remove_perm bound
  have whole : (extension.bindings[index] :: extension.bindings.eraseIdx index).Perm extension.bindings :=
    getElem_cons_eraseIdx_perm bound
  have names := (whole.map Prod.fst).nodup_iff.mpr nodup
  rw [map_cons, nodup_cons, here] at names
  refine ⟨(removed.map Prod.fst).nodup_iff.mpr names.2, fun name pair => ?_⟩
  rw [removed.mem_iff, ← whole.mem_iff, mem_cons]
  constructor
  · intro member
    refine ⟨.inr member, ?_⟩
    rintro rfl
    exact names.1 (mem_map_of_mem member)
  · rintro ⟨same | member, other⟩
    · exact absurd (by rw [← here, ← same]) other
    · exact member

section
variable {P : Program} {h : Heap}

/-- The heap in which `define_variable` has made a binding, before references move. -/
def withBinding (h : Heap) (frame : Env) (symbol : Symbol) (value : Obj) : Heap :=
  let extension := guaranteeExtensionSpace (h.extension frame)
  (extendEnvironment (h.setExtension frame extension.toExtension) frame extension symbol value).2

variable {frame : Env} {symbol : Symbol} (value : Obj)

theorem withBinding_value : (withBinding h frame symbol value).value =
    Function.update h.value (.binding h.free) (mapToUnassigned value) := rfl

theorem frameBindings_withBinding (other : Env) : frameBindings (withBinding h frame symbol value) other = if other =
    frame then frameBindings h frame ++ [(symbol, h.free)] else frameBindings h other := by
  unfold frameBindings withBinding extendEnvironment
  by_cases here : other = frame
  · subst here
    simp [Heap.setExtension, SpaciousExtension.push, guaranteeExtensionSpace_bindings]
  · simp [Heap.setExtension, Heap.setValue, here]

theorem bindingCache_grown (h : Heap) (frame environment : Env) (symbol : Symbol) :
    bindingCache P (h.setExtension frame (guaranteeExtensionSpace (h.extension frame)).toExtension) environment
      symbol = bindingCache P h environment symbol := by
  have bindings : ∀ other, frameBindings
      (h.setExtension frame (guaranteeExtensionSpace (h.extension frame)).toExtension) other =
        frameBindings h other := by
    intro other
    rw [frameBindings_setExtension]
    split
    · rename_i here
      rw [here, guaranteeExtensionSpace_bindings, frameBindings]
    · rfl
  unfold bindingCache
  rw [findBindingCell_unchanged fun other => scanFrame_same (bindings other) rfl symbol false]
  rfl

theorem defineVariable_of_cell {environment : Env} {cell : Cell}
    (found : scanFrame P h environment symbol true = some cell) : defineVariable P h environment symbol value =
    some { assignVariableEnd h cell value true with value := none } := by
  unfold defineVariable
  rw [found]

variable {id : Nat} {parent : Env}

theorem defineVariable_of_none
    (missing : scanFrame P h (.procedure id parent) symbol true = none) :
    defineVariable P h (.procedure id parent) symbol value =
      match bindingCache P h parent symbol with
      | none => some (succeed (withBinding h (.procedure id parent) symbol value) none)
      | some cache =>
        (updateCacheReferences P (withBinding h (.procedure id parent) symbol value) cache
          (some (.binding h.free)) (.procedure id parent) symbol).map fun h' => succeed h' none := by
  unfold defineVariable
  rw [missing]
  simp only [bindingCache_grown]
  cases bindingCache P h parent symbol with
  | none => rfl
  | some cache =>
    dsimp only
    rw [Option.map_eq_bind]
    rfl

theorem scanExtension_append (bindings : List (Symbol × Nat)) (symbol name : Symbol) (pair : Nat) :
    scanExtension (bindings ++ [(symbol, pair)]) name =
      (scanExtension bindings name).or (if symbol = name then some (.binding pair) else none) := by
  induction bindings with
  | nil => rfl
  | cons binding rest ih =>
    simp only [cons_append, scanExtension, ih]
    split <;> rfl

theorem scanFrame_withBinding_ne {other : Env} {name : Symbol} (different : ¬(other = frame ∧ name = symbol)) :
    scanFrame P (withBinding h frame symbol value) other name true = scanFrame P h other name true := by
  refine scanFrame_congr ?_
  rw [frameBindings_withBinding]
  split
  · rename_i here
    subst here
    rw [scanExtension_append, if_neg fun same => different ⟨rfl, same.symm⟩, Option.or_none]
  · rfl

theorem not_bound_of_scanFrame (missing : scanFrame P h (.procedure id parent) symbol true = none) :
    symbol ∉ (frameBindings h (.procedure id parent)).map Prod.fst ∧ symbol ∉ P.parameters (.procedure id parent) := by
  rw [scanFrame_procedure, Option.or_eq_none_iff] at missing
  exact ⟨scanExtension_eq_none.mp missing.1, scanParameters_eq_none.mp missing.2⟩

theorem scanFrame_withBinding (missing : scanFrame P h (.procedure id parent) symbol true = none) :
    scanFrame P (withBinding h (.procedure id parent) symbol value) (.procedure id parent) symbol true =
    some (.binding h.free) := by
  rw [scanFrame_procedure, frameBindings_withBinding, if_pos rfl, scanExtension_append, if_pos rfl,
    scanExtension_eq_none.mpr (not_bound_of_scanFrame missing).1]
  rfl

theorem Tidy.fresh (tidy : Tidy P h) {other : Env} {name : Symbol} {cell : Cell}
    (found : scanFrame P h other name true = some cell) : cell ≠ .binding h.free := by
  rintro rfl
  cases other with
  | null => cases found
  | global => cases found
  | procedure id parent =>
    rw [scanFrame_procedure, Option.or_eq_some_iff] at found
    rcases found with listed | ⟨_, parameter⟩
    · obtain ⟨pair, member, same⟩ := scanExtension_eq_some listed
      cases same
      exact Nat.lt_irrefl _ (tidy.allocated member)
    · obtain ⟨_, _, same⟩ := scanParameters_eq_some parameter
      cases same

theorem Tidy.withBinding (tidy : Tidy P h) (missing : scanFrame P h (.procedure id parent) symbol true = none) :
    Tidy P (withBinding h (.procedure id parent) symbol value) := by
  obtain ⟨absent, unlisted⟩ := not_bound_of_scanFrame missing
  have members : ∀ {frame name pair},
      (name, pair) ∈ frameBindings (Lookup.withBinding h (.procedure id parent) symbol value) frame →
        (name, pair) ∈ frameBindings h frame ∨
          frame = .procedure id parent ∧ name = symbol ∧ pair = h.free := by
    intro frame name pair member
    rw [frameBindings_withBinding] at member
    split at member
    · rename_i here
      subst here
      rcases mem_append.mp member with member | member
      · exact .inl member
      · cases mem_singleton.mp member
        exact .inr ⟨rfl, rfl, rfl⟩
    · exact .inl member
  constructor
  · exact tidy.parameters
  · intro frame
    rw [frameBindings_withBinding]
    split
    · rw [map_append, nodup_append]
      refine ⟨tidy.names _, nodup_singleton _, ?_⟩
      rintro name old _ new rfl
      obtain rfl : name = symbol := mem_singleton.mp new
      exact absent old
    · exact tidy.names frame
  · intro frame name bound
    obtain ⟨⟨_, pair⟩, member, rfl⟩ := mem_map.mp bound
    rcases members member with member | ⟨rfl, rfl, _⟩
    · exact tidy.apart (mem_map_of_mem member)
    · exact unlisted
  · intro frame frame' name name' pair member member'
    rcases members member with old | ⟨rfl, rfl, rfl⟩
    · rcases members member' with old' | ⟨_, _, rfl⟩
      · exact tidy.pairs old old'
      · exact absurd (tidy.allocated old) (Nat.lt_irrefl _)
    · rcases members member' with old' | ⟨rfl, rfl, _⟩
      · exact absurd (tidy.allocated old') (Nat.lt_irrefl _)
      · exact ⟨rfl, rfl⟩
  · intro frame name pair member
    rcases members member with old | ⟨_, _, rfl⟩
    · exact Nat.lt_succ_of_lt (tidy.allocated old)
    · exact Nat.lt_succ_self _

variable {cell : Cell}

theorem findIdx?_eq_none {bindings : List (Symbol × Nat)} :
    (bindings.findIdx? fun binding => binding.1 = symbol) = none ↔ symbol ∉ bindings.map Prod.fst := by
  rw [findIdx?_eq_none_iff, mem_map]
  simp only [decide_eq_false_iff_not, not_exists, not_and]

/-- What `unbind_variable_1` does to a frame: its search for the symbol finds nothing, and no
other search sees a difference. -/
structure Unbound (P : Program) (h h' : Heap) (frame : Env) (symbol : Symbol) (cell : Cell) : Prop where
  tidy : Tidy P h'
  gone : scanFrame P h' frame symbol false = none
  others : ∀ {other name}, ¬(other = frame ∧ name = symbol) →
    scanFrame P h' other name true = scanFrame P h other name true
  fewer : ∀ {other name pair}, (name, pair) ∈ frameBindings h' other → (name, pair) ∈ frameBindings h other
  value : h'.value = h.value ∨
    (∃ index, cell = .argument frame index) ∧ h'.value = Function.update h.value cell .unbound
  trapCache : h'.trapCache = h.trapCache
  cache : h'.cache = h.cache
  references : h'.references = h.references

theorem setValue_unbound (tidy : Tidy P h) (found : scanFrame P h (.procedure id parent) symbol true = some cell)
    (unlisted : symbol ∉ (frameBindings h (.procedure id parent)).map Prod.fst) :
    Unbound P h (h.setValue cell .unbound) (.procedure id parent) symbol cell where
  tidy := tidy.setValue cell .unbound
  gone := by
    rw [scanFrame_visible (tidy.setValue cell .unbound), scanFrame_setValue, found]
    rw [scanFrame_procedure, scanExtension_eq_none.mpr unlisted] at found
    obtain ⟨k, _, rfl⟩ := scanParameters_eq_some found
    simp [visible]
  others _ := scanFrame_setValue P h cell .unbound _ _
  fewer member := member
  value := by
    rw [scanFrame_procedure, scanExtension_eq_none.mpr unlisted] at found
    obtain ⟨k, _, rfl⟩ := scanParameters_eq_some found
    exact .inr ⟨⟨_, rfl⟩, rfl⟩
  trapCache := rfl
  cache := rfl
  references := rfl

theorem setExtension_unbound (tidy : Tidy P h) {extension : Extension}
    (present : h.extension (.procedure id parent) = some extension) {index : Nat}
    (found : extension.bindings.findIdx? (fun binding => binding.1 = symbol) = some index) (cell : Cell) :
    Unbound P h (h.setExtension (.procedure id parent) (extension.remove index)) (.procedure id parent) symbol cell := by
  have before : frameBindings h (.procedure id parent) = extension.bindings := by
    rw [frameBindings, present]
    rfl
  have nodup := tidy.names (.procedure id parent)
  rw [before] at nodup
  obtain ⟨names, members⟩ := extension.mem_remove nodup found
  have listed : symbol ∈ (frameBindings h (.procedure id parent)).map Prod.fst := by
    rw [before]
    by_contra unlisted
    rw [findIdx?_eq_none.mpr unlisted] at found
    cases found
  generalize after : h.setExtension (.procedure id parent) (extension.remove index) = h'
  have here : frameBindings h' (.procedure id parent) = (extension.remove index).bindings := by
    rw [← after, frameBindings_setExtension, if_pos rfl]
  have elsewhere : ∀ {other}, other ≠ .procedure id parent → frameBindings h' other = frameBindings h other := by
    intro other away
    rw [← after, frameBindings_setExtension, if_neg away]
  have fewer : ∀ {frame name pair}, (name, pair) ∈ frameBindings h' frame →
      (name, pair) ∈ frameBindings h frame := by
    intro frame name pair member
    by_cases same : frame = .procedure id parent
    · subst same
      rw [here, members] at member
      rw [before]
      exact member.1
    · rwa [elsewhere same] at member
  have tidy' : Tidy P h' := by
    constructor
    · exact tidy.parameters
    · intro frame
      by_cases same : frame = .procedure id parent
      · rw [same, here]
        exact names
      · rw [elsewhere same]
        exact tidy.names frame
    · intro frame name bound
      obtain ⟨⟨_, pair⟩, member, rfl⟩ := mem_map.mp bound
      exact tidy.apart (mem_map_of_mem (fewer member))
    · exact fun member member' => tidy.pairs (fewer member) (fewer member')
    · intro frame name pair member
      rw [← after]
      exact tidy.allocated (fewer member)
  have gone : scanFrame P h' (.procedure id parent) symbol true = none := by
    rw [scanFrame_procedure, Option.or_eq_none_iff, here]
    refine ⟨scanExtension_eq_none.mpr fun member => ?_, scanParameters_eq_none.mpr (tidy.apart listed)⟩
    obtain ⟨⟨_, pair⟩, there, rfl⟩ := mem_map.mp member
    exact ((members _ _).mp there).2 rfl
  refine {
    tidy := tidy'
    gone := by rw [scanFrame_visible tidy', gone]; rfl
    others := fun {other name} different => scanFrame_congr ?_
    fewer := fewer
    value := .inl (by rw [← after]; rfl)
    trapCache := by rw [← after]; rfl
    cache := by rw [← after]; rfl
    references := by rw [← after]; rfl }
  by_cases same : other = .procedure id parent
  · subst same
    rw [here, before]
    refine scanExtension_congr names fun pair => ?_
    rw [members]
    exact ⟨fun member => member.1, fun member => ⟨member, fun same => different ⟨rfl, same⟩⟩⟩
  · rw [elsewhere same]

theorem unbindVariable1_unbound (tidy : Tidy P h)
    (found : scanFrame P h (.procedure id parent) symbol true = some cell) :
    Unbound P h (unbindVariable1 h cell (.procedure id parent) symbol) (.procedure id parent) symbol cell := by
  unfold unbindVariable1
  split
  · rename_i extension frame present
    cases frame
    split
    · rename_i index located
      exact setExtension_unbound tidy present located cell
    · rename_i missing
      refine setValue_unbound tidy found ?_
      rw [frameBindings, present]
      exact findIdx?_eq_none.mp missing
  · rename_i absent
    refine setValue_unbound tidy found ?_
    cases present : h.extension (.procedure id parent) with
    | none => simp [frameBindings, present]
    | some extension => exact absurd present (absent _ _ _ rfl)

end

end MitScheme.Microcode.Lookup
