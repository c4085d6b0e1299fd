import MitScheme.Library.Scope
import MitScheme.Microcode.Lookup.Rebinding
import MitScheme.Microcode.Lookup.CompiledLinks

/-!
Without links and compiled references a heap stands for one partial map per frame, and the
operations are those of a chain of partial maps.
-/

namespace MitScheme.Microcode.Lookup

open Library Option Scope

def Env.chain : Env → List Env
  | .null => []
  | .global => [.global]
  | .procedure id parent => .procedure id parent :: parent.chain

/-- What a cell says about its variable: not bound, bound but unassigned, or a value. -/
def contentOf : Obj → Option (Option Obj)
  | .unbound => none
  | .unassigned => some none
  | value => some (some value)

/-- The partial map of every frame; `none` as the content of a binding is "unassigned". -/
def frameMap (P : Program) (h : Heap) : Scope.Maps Env Symbol (Option Obj) :=
  fun frame symbol => (scanFrame P h frame symbol true).bind fun cell => contentOf (h.value cell)

/-- The binding that a value makes: the external form of "unassigned" unassigns. -/
def bindingOf (value : Obj) : Option Obj :=
  if value = .externalUnassigned then none else some value

/-- The reply of `lookup_variable` to what the chain says. -/
def reply : Option (Option Obj) → Code × Option Obj
  | none => (.unboundVariable, none)
  | some none => (.unassignedVariable, none)
  | some (some value) => (.primDone, some value)

def Obj.ordinary : Obj → Bool
  | .datum _ => true
  | .externalUnassigned => true
  | .unassigned => true
  | .unbound => true
  | _ => false

/-- A heap of the interpreter alone. An extension binding is never unbound: it is removed. -/
structure Plain (P : Program) (h : Heap) : Prop extends Tidy P h where
  ordinary : ∀ cell, (h.value cell).ordinary
  bound : ∀ {frame name pair}, (name, pair) ∈ frameBindings h frame → h.value (.binding pair) ≠ .unbound

theorem contentOf_isSome {value : Obj} : (contentOf value).isSome ↔ value ≠ .unbound := by
  cases value <;> simp [contentOf]

theorem contentOf_mapToUnassigned {value : Obj} (plain : getTrapKind value = .nonTrap) :
    contentOf (mapToUnassigned value) = some (bindingOf value) := by
  cases value <;> simp_all [getTrapKind, mapToUnassigned, bindingOf, contentOf]

theorem ordinary_mapToUnassigned {value : Obj} (plain : getTrapKind value = .nonTrap) :
    (mapToUnassigned value).ordinary ∧ mapToUnassigned value ≠ .unbound := by
  cases value <;> simp_all [getTrapKind, mapToUnassigned, Obj.ordinary]

theorem lookupValue_of_ordinary {value : Obj} (ordinary : value.ordinary) :
    lookupValue value = reply (contentOf value) := by
  cases value <;> first | rfl | cases ordinary

section
variable {P : Program} {h : Heap}

theorem Plain.cellCache (plain : Plain P h) (cell : Cell) : cellCache h cell = none := by
  have ordinary := plain.ordinary cell
  unfold Lookup.cellCache
  split
  · rename_i cached
    rw [cached] at ordinary
    cases ordinary
  · rfl

variable {symbol : Symbol} {cell : Cell} {frame environment : Env} {value : Obj}

section
variable (plain : Plain P h)
include plain

theorem Plain.bound_of_visible {id : Nat} {parent : Env}
    (found : scanFrame P h (.procedure id parent) symbol false = some cell) :
    scanFrame P h (.procedure id parent) symbol true = some cell ∧ h.value cell ≠ .unbound := by
  rw [scanFrame_visible plain.toTidy, filter_eq_some_iff] at found
  refine ⟨found.1, ?_⟩
  have shown := found.1
  rw [scanFrame_procedure, or_eq_some_iff] at shown
  rcases shown with listed | ⟨_, parameter⟩
  · obtain ⟨pair, member, rfl⟩ := scanExtension_eq_some listed
    exact plain.bound member
  · obtain ⟨k, _, rfl⟩ := scanParameters_eq_some parameter
    simpa [visible] using found.2

theorem Plain.frameMap_of_invisible
    (missing : scanFrame P h frame symbol false = none) : frameMap P h frame symbol = none := by
  rw [scanFrame_visible plain.toTidy] at missing
  unfold frameMap
  cases found : scanFrame P h frame symbol true with
  | none => rfl
  | some cell =>
    cases cell <;> simp_all [Option.filter, visible, contentOf]

/-- `find_binding_cell` arrives at the nearest frame that binds the symbol, and at the unbound
global cell when there is none. -/
theorem Plain.findBindingCell (rooted : environment.rooted) (symbol : Symbol) : ∃ cell frame,
    findBindingCell P h environment symbol = (some cell, frame) ∧ scanFrame P h frame symbol true =
    some cell ∧ (h.value cell = .unbound → frame = .global) ∧ nearest (frameMap P h) environment.chain symbol =
    if h.value cell = .unbound then none else some frame := by
  induction environment with
  | null => cases rooted
  | global =>
    refine ⟨.global symbol, .global, rfl, rfl, fun _ => rfl, ?_⟩
    have content : frameMap P h .global symbol = contentOf (h.value (.global symbol)) := rfl
    split
    · rename_i unbound
      rw [Env.chain, nearest_cons_of_unbound (by rw [content, unbound]; rfl)]
      rfl
    · rename_i bound
      exact nearest_cons_of_bound (by exact contentOf_isSome.mpr bound)
  | procedure id parent ih =>
    cases found : scanFrame P h (.procedure id parent) symbol false with
    | some cell =>
      obtain ⟨own, bound⟩ := plain.bound_of_visible found
      refine ⟨cell, _, findBindingCell_of_scanFrame found, own, fun unbound => absurd unbound bound, ?_⟩
      rw [if_neg bound]
      refine nearest_cons_of_bound ?_
      rw [frameMap, own]
      exact contentOf_isSome.mpr bound
    | none =>
      have proper : parent.environmentP := by cases parent <;> first | rfl | cases rooted
      rw [findBindingCell_of_scanFrame_none found proper, Env.chain,
        nearest_cons_of_unbound (plain.frameMap_of_invisible found)]
      exact ih rooted

theorem Plain.lookupVariable (rooted : environment.rooted) (symbol : Symbol) :
    lookupVariable P h environment symbol = reply (lookup (frameMap P h) environment.chain symbol) := by
  obtain ⟨cell, frame, found, own, _, nearest⟩ := plain.findBindingCell rooted symbol
  have proper : environment.environmentP := by cases environment <;> first | rfl | cases rooted
  have content : lookup (frameMap P h) environment.chain symbol = contentOf (h.value cell) := by
    rw [Scope.lookup, nearest]
    split
    · rename_i unbound
      rw [unbound]
      rfl
    · rw [bind_some, frameMap, own]
      rfl
  rw [content, ← lookupValue_of_ordinary (plain.ordinary cell), ← effectiveValue_of_not_cached (plain.cellCache cell)]
  exact lookupVariable_of_cell proper (by rw [found])

theorem Plain.setValue (own : scanFrame P h frame symbol true = some cell)
    (ordinary : value.ordinary) (bound : ∀ pair, cell = .binding pair → value ≠ .unbound) :
    Plain P (h.setValue cell value) ∧ frameMap P (h.setValue cell value) =
    set (frameMap P h) frame symbol (contentOf value) := by
  refine ⟨{ plain.toTidy.setValue cell value with ordinary := ?_, bound := ?_ }, eq_set ?_ ?_⟩
  · intro other
    simp only [Heap.setValue, Function.update_apply]
    split
    · exact ordinary
    · exact plain.ordinary other
  · intro frame name pair member
    simp only [Heap.setValue, Function.update_apply]
    split
    · rename_i same
      exact bound pair same.symm
    · exact plain.bound member
  · rw [frameMap, scanFrame_setValue, own]
    simp
  · intro frame' symbol' different
    rw [frameMap, scanFrame_setValue, frameMap]
    cases found : scanFrame P h frame' symbol' true with
    | none => rfl
    | some other =>
      have distinct : other ≠ cell := by
        rintro rfl
        exact different (plain.toTidy.scanFrame_injective found own)
      simp [Heap.setValue, distinct]

theorem Plain.withBinding {id : Nat} {parent : Env}
    (missing : scanFrame P h (.procedure id parent) symbol true = none) (nonTrap : getTrapKind value = .nonTrap) :
    Plain P (withBinding h (.procedure id parent) symbol value) ∧
    frameMap P (withBinding h (.procedure id parent) symbol value) =
    define (frameMap P h) (.procedure id parent) symbol (bindingOf value) := by
  obtain ⟨ordinary, bound⟩ := ordinary_mapToUnassigned nonTrap
  refine ⟨{ plain.toTidy.withBinding value missing with ordinary := ?_, bound := ?_ }, eq_set ?_ ?_⟩
  · intro cell
    rw [withBinding_value, Function.update_apply]
    split
    · exact ordinary
    · exact plain.ordinary cell
  · intro frame name pair member
    rw [withBinding_value, Function.update_apply]
    split
    · exact bound
    · rename_i other
      rw [frameBindings_withBinding] at member
      split at member
      · rcases List.mem_append.mp member with member | member
        · exact plain.bound member
        · cases List.mem_singleton.mp member
          exact absurd rfl other
      · exact plain.bound member
  · rw [frameMap, scanFrame_withBinding value missing, bind_some, withBinding_value,
      Function.update_self, contentOf_mapToUnassigned nonTrap]
  · intro frame' symbol' different
    rw [frameMap, scanFrame_withBinding_ne value different, frameMap]
    cases found : scanFrame P h frame' symbol' true with
    | none => rfl
    | some cell =>
      rw [bind_some, bind_some, withBinding_value, Function.update_apply, if_neg]
      rintro rfl
      exact plain.toTidy.fresh found rfl

theorem Plain.unbindVariable1 (own : scanFrame P h frame symbol true = some cell) :
    Plain P (unbindVariable1 h cell frame symbol) ∧ frameMap P (unbindVariable1 h cell frame symbol) =
    set (frameMap P h) frame symbol none := by
  cases frame with
  | null => cases own
  | global =>
    cases own
    exact plain.setValue rfl rfl nofun
  | procedure id parent =>
    have unbound := unbindVariable1_unbound plain.toTidy own
    generalize Lookup.unbindVariable1 h cell (.procedure id parent) symbol = h' at unbound ⊢
    have plain' : Plain P h' := by
      refine { unbound.tidy with ordinary := fun other => ?_, bound := fun {frame name pair} member => ?_ }
      · rcases unbound.value with same | ⟨_, changed⟩
        · rw [same]
          exact plain.ordinary other
        · rw [changed, Function.update_apply]
          split
          · rfl
          · exact plain.ordinary other
      · rcases unbound.value with same | ⟨⟨index, argument⟩, changed⟩
        · rw [same]
          exact plain.bound (unbound.fewer member)
        · rw [changed, Function.update_of_ne (by rw [argument]; nofun)]
          exact plain.bound (unbound.fewer member)
    refine ⟨plain', eq_set (plain'.frameMap_of_invisible unbound.gone) fun frame' symbol' different => ?_⟩
    rw [frameMap, unbound.others different, frameMap]
    cases found : scanFrame P h frame' symbol' true with
    | none => rfl
    | some other =>
      have distinct : other ≠ cell := by
        rintro rfl
        exact different (plain.toTidy.scanFrame_injective found own)
      rcases unbound.value with same | ⟨_, changed⟩
      · rw [same]
      · rw [bind_some, bind_some, changed, Function.update_of_ne distinct]

end

theorem assignVariableEnd_of_ordinary {force : Bool} (ordinary : (h.value cell).ordinary)
    (settable : force ∨ h.value cell ≠ .unbound) : assignVariableEnd h cell value force =
    succeed (h.setValue cell (mapToUnassigned value)) (mapFromUnassigned (h.value cell)) := by
  unfold assignVariableEnd
  cases old : h.value cell with
  | unbound =>
    have forced : force = true := settable.resolve_right fun bound => bound old
    rw [forced]
    rfl
  | datum | externalUnassigned | unassigned => rfl
  | _ =>
    rw [old] at ordinary
    cases ordinary

theorem Plain.defineVariable (plain : Plain P h) (rooted : environment.rooted)
    (symbol : Symbol) (nonTrap : getTrapKind value = .nonTrap) :
    ∃ h', defineVariable P h environment symbol value = some (succeed h' none) ∧ Plain P h' ∧
      frameMap P h' = define (frameMap P h) environment symbol (bindingOf value) := by
  obtain ⟨ordinary, bound⟩ := ordinary_mapToUnassigned nonTrap
  cases own : scanFrame P h environment symbol true with
  | some cell =>
    obtain ⟨plain', map⟩ := plain.setValue own ordinary fun _ _ => bound
    rw [contentOf_mapToUnassigned nonTrap] at map
    refine ⟨_, ?_, plain', map⟩
    rw [defineVariable_of_cell value own, assignVariableEnd_of_ordinary (plain.ordinary cell) (.inl rfl)]
    rfl
  | none =>
    cases environment with
    | null => cases rooted
    | global => cases own
    | procedure id parent =>
      obtain ⟨plain', map⟩ := plain.withBinding own nonTrap
      refine ⟨_, ?_, plain', map⟩
      have uncached : bindingCache P h parent symbol = none := by
        unfold bindingCache
        split
        · exact plain.cellCache _
        · rfl
      rw [defineVariable_of_none value own, uncached]

theorem Plain.assignVariable (plain : Plain P h) (rooted : environment.rooted)
    (symbol : Symbol) (nonTrap : getTrapKind value = .nonTrap) :
    Plain P (assignVariable P h environment symbol value).heap ∧
      frameMap P (assignVariable P h environment symbol value).heap =
        assign (frameMap P h) environment.chain symbol (bindingOf value) ∧
      ((assignVariable P h environment symbol value).code =
        if (lookup (frameMap P h) environment.chain symbol).isSome then .primDone else .unboundVariable) := by
  obtain ⟨ordinary, bound⟩ := ordinary_mapToUnassigned nonTrap
  obtain ⟨cell, frame, found, own, _, nearest⟩ := plain.findBindingCell rooted symbol
  rw [Lookup.assignVariable, found, assign, Scope.lookup, nearest]
  by_cases unbound : h.value cell = .unbound
  · simp only [unbound, if_true]
    have failed : assignVariableEnd h cell value false = fail h .unboundVariable := by
      unfold assignVariableEnd
      rw [unbound]
      rfl
    rw [failed]
    exact ⟨plain, rfl, rfl⟩
  · rw [if_neg unbound]
    dsimp only
    rw [assignVariableEnd_of_ordinary (plain.ordinary cell) (.inr unbound)]
    obtain ⟨plain', map⟩ := plain.setValue own ordinary fun _ _ => bound
    rw [contentOf_mapToUnassigned nonTrap] at map
    refine ⟨plain', map, ?_⟩
    have content : frameMap P h frame symbol = contentOf (h.value cell) := by rw [frameMap, own]; rfl
    rw [bind_some, content, contentOf_isSome.mpr unbound]
    rfl

theorem Plain.unbindVariable (plain : Plain P h) (rooted : environment.rooted) (symbol : Symbol) : ∃ h',
    unbindVariable P h environment symbol =
    some (succeed h' (if (lookup (frameMap P h) environment.chain symbol).isSome then sharpT else sharpF)) ∧
    Plain P h' ∧ frameMap P h' = unbind (frameMap P h) environment.chain symbol := by
  obtain ⟨cell, frame, found, own, _, nearest⟩ := plain.findBindingCell rooted symbol
  have content : frameMap P h frame symbol = contentOf (h.value cell) := by rw [frameMap, own]; rfl
  have ordinary := plain.ordinary cell
  rw [Lookup.unbindVariable, found, unbind, Scope.lookup, nearest]
  by_cases unbound : h.value cell = .unbound
  · simp only [unbound, if_true]
    exact ⟨h, rfl, plain, rfl⟩
  · obtain ⟨plain', map⟩ := plain.unbindVariable1 own
    rw [if_neg unbound, bind_some, content]
    refine ⟨_, ?_, plain', map⟩
    dsimp only
    cases value : h.value cell with
    | unbound => exact absurd value unbound
    | datum | externalUnassigned | unassigned => rfl
    | _ =>
      rw [value] at ordinary
      cases ordinary

end

/-- A call of the interpreter on an environment whose chain ends in the global frame, with a
value that is not a reference trap. -/
def interpreted : Call → Prop
  | .assign environment _ value => environment.rooted ∧ getTrapKind value = .nonTrap
  | .define environment _ value => environment.rooted ∧ getTrapKind value = .nonTrap
  | .unbind environment _ => environment.rooted
  | _ => False

instance : (call : Call) → Decidable (interpreted call)
  | .assign .. => inferInstanceAs (Decidable (_ ∧ _))
  | .define .. => inferInstanceAs (Decidable (_ ∧ _))
  | .unbind .. => inferInstanceAs (Decidable (_ = true))
  | .link .. => inferInstanceAs (Decidable False)
  | .cache .. => inferInstanceAs (Decidable False)
  | .globalOperator .. => inferInstanceAs (Decidable False)
  | .reclaim _ => inferInstanceAs (Decidable False)

def scopeStep (m : Scope.Maps Env Symbol (Option Obj)) : Call → Scope.Maps Env Symbol (Option Obj)
  | .assign environment symbol value => assign m environment.chain symbol (bindingOf value)
  | .define environment symbol value => define m environment symbol (bindingOf value)
  | .unbind environment symbol => unbind m environment.chain symbol
  | _ => m

section
variable (P : Program)

theorem step_scopeStep {h : Heap} {call : Call} (plain : Plain P h) (met : interpreted call) :
    ∃ h', step P h call = some h' ∧ Plain P h' ∧ frameMap P h' = scopeStep (frameMap P h) call := by
  cases call with
  | assign environment symbol value =>
    obtain ⟨plain', map, _⟩ := plain.assignVariable met.1 symbol met.2
    exact ⟨_, rfl, plain', map⟩
  | define environment symbol value =>
    obtain ⟨h', returned, plain', map⟩ := plain.defineVariable met.1 symbol met.2
    exact ⟨h', by rw [step, returned]; rfl, plain', map⟩
  | unbind environment symbol =>
    obtain ⟨h', returned, plain', map⟩ := plain.unbindVariable met symbol
    exact ⟨h', by rw [step, returned]; rfl, plain', map⟩
  | _ => exact met.elim

theorem Plain.mem_names {P : Program} {h : Heap} (plain : Plain P h) (id : Nat) (parent : Env) (symbol : Symbol) :
    symbol ∈ (frameBindings h (.procedure id parent)).map Prod.fst ↔
    symbol ∉ P.parameters (.procedure id parent) ∧ (frameMap P h (.procedure id parent) symbol).isSome := by
  constructor
  · intro listed
    refine ⟨plain.apart listed, ?_⟩
    obtain ⟨⟨_, pair⟩, member, rfl⟩ := List.mem_map.mp listed
    rw [frameMap, scanFrame_procedure, scanExtension_of_mem (plain.names _) member]
    exact contentOf_isSome.mpr (plain.bound member)
  · rintro ⟨unlisted, bound⟩
    by_contra absent
    rw [frameMap, scanFrame_procedure, scanExtension_eq_none.mpr absent, scanProcedureBindings,
      scanParameters_eq_none.mpr unlisted] at bound
    cases bound

/-- Every run of the interpreter's operations does to the heap what the same operations do to the chain of partial maps,
and leaves extensions that hold each binding of their frame once. -/
theorem environments_refine_scoping {h₀ : Heap} (start : Plain P h₀) (calls : List Call)
    (met : ∀ call ∈ calls, interpreted call) :
    ∃ h, run (step P) (fun _ call => interpreted call) h₀ calls = some h ∧
      frameMap P h = calls.foldl scopeStep (frameMap P h₀) ∧
      (∀ environment symbol, environment.rooted → lookupVariable P h environment symbol =
        reply (lookup (calls.foldl scopeStep (frameMap P h₀)) environment.chain symbol)) ∧
      ∀ id parent, ((frameBindings h (.procedure id parent)).map Prod.fst).Nodup ∧
        ∀ symbol, symbol ∈ (frameBindings h (.procedure id parent)).map Prod.fst ↔
          symbol ∉ P.parameters (.procedure id parent) ∧
            (calls.foldl scopeStep (frameMap P h₀) (.procedure id parent) symbol).isSome := by
  obtain ⟨h, ran, plain, map⟩ : ∃ h, run (step P) (fun _ call => interpreted call) h₀ calls = some h ∧
      Plain P h ∧ frameMap P h = calls.foldl scopeStep (frameMap P h₀) := by
    induction calls generalizing h₀ with
    | nil => exact ⟨h₀, rfl, start, rfl⟩
    | cons call rest ih =>
      have first := met call List.mem_cons_self
      obtain ⟨m, stepped, plain, map⟩ := step_scopeStep P start first
      obtain ⟨h, ran, plain', map'⟩ := ih plain fun other member => met other (List.mem_cons_of_mem _ member)
      exact ⟨h, run_cons.mpr ⟨first, m, stepped, ran⟩, plain', by rw [map', map]; rfl⟩
  refine ⟨h, ran, map, fun environment symbol rooted => ?_, fun id parent => ⟨plain.names _, fun symbol => ?_⟩⟩
  · rw [← map]
    exact plain.lookupVariable rooted symbol
  · rw [← map]
    exact plain.mem_names id parent symbol

end

def procedureProgram : Program where
  parameters := fun _ => [0]
  blockEnvironment := fun _ => .global

theorem globalHeap_plain : Plain procedureProgram globalHeap where
  parameters _ := List.nodup_singleton 0
  names _ := List.nodup_nil
  apart member := by cases member
  pairs member := by cases member
  allocated member := by cases member
  ordinary _ := rfl
  bound member := by cases member

theorem environments_refine_scoping_frame :
    let frame := Env.procedure 0 .global
    ∃ h, run (step procedureProgram) (fun _ call => interpreted call) globalHeap
        [.define frame 1 (.datum 7), .assign frame 1 (.datum 8), .unbind frame 0] = some h ∧
      lookupVariable procedureProgram h frame 1 = (.primDone, some (.datum 8)) ∧
      lookupVariable procedureProgram h frame 0 = (.primDone, some (.datum 5)) := by
  intro frame
  obtain ⟨h, ran, _, lookups, _⟩ := environments_refine_scoping procedureProgram globalHeap_plain
    [.define frame 1 (.datum 7), .assign frame 1 (.datum 8), .unbind frame 0] (by decide)
  exact ⟨h, ran, (lookups frame 1 rfl).trans (by decide), (lookups frame 0 rfl).trans (by decide)⟩

end MitScheme.Microcode.Lookup
