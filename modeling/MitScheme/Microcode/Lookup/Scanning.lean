import MitScheme.Microcode.Lookup.Cache
import Mathlib.Data.List.Nodup

namespace MitScheme.Microcode.Lookup

open Option

def frameBindings (h : Heap) (frame : Env) : List (Symbol × Nat) :=
  ((h.extension frame).map Extension.bindings).getD []

/-- Every frame binds a name once, and no pair belongs to two bindings. -/
structure Tidy (P : Program) (h : Heap) : Prop where
  parameters : ∀ frame, (P.parameters frame).Nodup
  names : ∀ frame, ((frameBindings h frame).map Prod.fst).Nodup
  apart : ∀ {frame name}, name ∈ (frameBindings h frame).map Prod.fst → name ∉ P.parameters frame
  pairs : ∀ {frame frame' name name' pair}, (name, pair) ∈ frameBindings h frame →
    (name', pair) ∈ frameBindings h frame' → frame = frame' ∧ name = name'
  allocated : ∀ {frame name pair}, (name, pair) ∈ frameBindings h frame → pair < h.free

/-- The cell shows a binding to a search that ignores unbound parameters. -/
def visible (h : Heap) : Cell → Bool
  | .argument frame index => h.value (.argument frame index) ≠ .unbound
  | _ => true

variable {bindings : List (Symbol × Nat)} {symbol : Symbol} {frame : Env} {index : Nat} {parameters : List Symbol}
  {h : Heap}

theorem scanExtension_eq_some {cell : Cell} (found : scanExtension bindings symbol = some cell) :
    ∃ pair, (symbol, pair) ∈ bindings ∧ cell = .binding pair := by
  induction bindings with
  | nil => cases found
  | cons binding rest ih =>
    obtain ⟨name, pair⟩ := binding
    simp only [scanExtension] at found
    split at found
    · rename_i same
      subst same
      exact ⟨pair, List.mem_cons_self, (some.inj found).symm⟩
    · obtain ⟨pair, member, rfl⟩ := ih found
      exact ⟨pair, List.mem_cons_of_mem _ member, rfl⟩

theorem scanExtension_eq_none : scanExtension bindings symbol = none ↔ symbol ∉ bindings.map Prod.fst := by
  induction bindings with
  | nil => simp [scanExtension]
  | cons binding rest ih =>
    simp only [scanExtension, List.map_cons, List.mem_cons, not_or]
    split
    · rename_i same
      simp [same]
    · rename_i other
      rw [ih]
      exact ⟨fun absent => ⟨fun same => other same.symm, absent⟩, fun absent => absent.2⟩

theorem scanExtension_of_mem {pair : Nat} (nodup : (bindings.map Prod.fst).Nodup) (member : (symbol, pair) ∈ bindings) :
    scanExtension bindings symbol = some (.binding pair) := by
  cases found : scanExtension bindings symbol with
  | none => exact absurd (List.mem_map_of_mem member) (scanExtension_eq_none.mp found)
  | some cell =>
    obtain ⟨other, there, rfl⟩ := scanExtension_eq_some found
    cases List.inj_on_of_nodup_map nodup there member rfl
    rfl

theorem scanParameters_congr {h h' : Heap} : scanParameters h' frame symbol true index parameters =
    scanParameters h frame symbol true index parameters := by
  induction parameters generalizing index with
  | nil => rfl
  | cons name rest ih => simp [scanParameters, ih]

theorem scanParameters_value {h h' : Heap} (value : h'.value = h.value) {findUnbound : Bool} :
    scanParameters h' frame symbol findUnbound index parameters =
    scanParameters h frame symbol findUnbound index parameters := by
  induction parameters generalizing index with
  | nil => rfl
  | cons name rest ih => simp [scanParameters, value, ih]

theorem scanParameters_eq_none : scanParameters h frame symbol true index parameters = none ↔ symbol ∉ parameters := by
  induction parameters generalizing index with
  | nil => simp [scanParameters]
  | cons name rest ih =>
    simp only [scanParameters, true_or, and_true, List.mem_cons, not_or]
    split
    · rename_i same
      simp [same]
    · rename_i other
      rw [ih]
      exact ⟨fun absent => ⟨fun same => other same.symm, absent⟩, fun absent => absent.2⟩

theorem scanParameters_eq_some {findUnbound : Bool} {cell : Cell}
    (found : scanParameters h frame symbol findUnbound index parameters = some cell) : ∃ k, parameters[k]? =
    some symbol ∧ cell = .argument frame (index + k) := by
  induction parameters generalizing index with
  | nil => cases found
  | cons name rest ih =>
    simp only [scanParameters] at found
    split at found
    · rename_i here
      exact ⟨0, by simp [here.1], (some.inj found).symm⟩
    · obtain ⟨k, at_k, rfl⟩ := ih found
      exact ⟨k + 1, at_k, by rw [Nat.add_assoc, Nat.add_comm 1 k]⟩

theorem scanParameters_visible
    (nodup : parameters.Nodup) :
    scanParameters h frame symbol false index parameters =
      (scanParameters h frame symbol true index parameters).filter (visible h) := by
  induction parameters generalizing index with
  | nil => rfl
  | cons name rest ih =>
    obtain ⟨absent, nodup⟩ := List.nodup_cons.mp nodup
    simp only [scanParameters, Bool.false_eq_true, false_or, true_or, and_true]
    by_cases same : name = symbol
    · subst same
      by_cases unbound : h.value (.argument frame index) = .unbound
      · rw [ih nodup, scanParameters_eq_none.mpr absent]
        simp [Option.filter, visible]
      · simp [Option.filter, visible, unbound]
    · simp only [same, false_and, if_false]
      exact ih nodup

section
variable {P : Program} {h : Heap}

theorem scanFrame_procedure (h : Heap) (id : Nat) (parent : Env) (symbol : Symbol) (findUnbound : Bool) :
    scanFrame P h (.procedure id parent) symbol findUnbound =
      (scanExtension (frameBindings h (.procedure id parent)) symbol).or
        (scanProcedureBindings P h (.procedure id parent) symbol findUnbound) := by
  unfold scanFrame frameBindings
  cases h.extension (.procedure id parent) with
  | none => rfl
  | some extension =>
    simp only [map_some, getD_some]
    cases scanExtension extension.bindings symbol <;> rfl

theorem scanFrame_congr {h' : Heap} {frame : Env} {symbol : Symbol}
    (same : scanExtension (frameBindings h' frame) symbol = scanExtension (frameBindings h frame) symbol) :
    scanFrame P h' frame symbol true = scanFrame P h frame symbol true := by
  cases frame with
  | procedure id parent =>
    rw [scanFrame_procedure, scanFrame_procedure, same, scanProcedureBindings, scanProcedureBindings,
      scanParameters_congr]
  | _ => rfl

theorem scanFrame_same {h' : Heap} {frame : Env} (bindings : frameBindings h' frame = frameBindings h frame)
    (value : h'.value = h.value) (symbol : Symbol) (findUnbound : Bool) :
    scanFrame P h' frame symbol findUnbound = scanFrame P h frame symbol findUnbound := by
  cases frame with
  | procedure id parent =>
    rw [scanFrame_procedure, scanFrame_procedure, bindings, scanProcedureBindings, scanProcedureBindings,
      scanParameters_value value]
  | _ => rfl

theorem scanFrame_visible (tidy : Tidy P h) (frame : Env) (symbol : Symbol) :
    scanFrame P h frame symbol false = (scanFrame P h frame symbol true).filter (visible h) := by
  cases frame with
  | null => rfl
  | global => rfl
  | procedure id parent =>
    rw [scanFrame_procedure, scanFrame_procedure]
    cases found : scanExtension (frameBindings h (.procedure id parent)) symbol with
    | none => exact scanParameters_visible (tidy.parameters _)
    | some cell =>
      obtain ⟨pair, _, rfl⟩ := scanExtension_eq_some found
      rfl

theorem Tidy.scanFrame_injective (tidy : Tidy P h) {frame frame' : Env} {symbol symbol' : Symbol} {cell : Cell}
    (found : scanFrame P h frame symbol true = some cell)
    (found' : scanFrame P h frame' symbol' true = some cell) : frame = frame' ∧ symbol = symbol' := by
  have shape : ∀ {frame symbol}, scanFrame P h frame symbol true = some cell →
      cell = .global symbol ∧ frame = .global ∨
      (∃ pair, (symbol, pair) ∈ frameBindings h frame ∧ cell = .binding pair) ∨
      ∃ index, (P.parameters frame)[index]? = some symbol ∧ cell = .argument frame index := by
    intro frame symbol found
    cases frame with
    | null => cases found
    | global => exact .inl ⟨(some.inj found).symm, rfl⟩
    | procedure id parent =>
      rw [scanFrame_procedure, or_eq_some_iff] at found
      rcases found with found | ⟨_, found⟩
      · obtain ⟨pair, member, rfl⟩ := scanExtension_eq_some found
        exact .inr (.inl ⟨pair, member, rfl⟩)
      · obtain ⟨k, at_k, rfl⟩ := scanParameters_eq_some found
        exact .inr (.inr ⟨k, at_k, by rw [Nat.zero_add]⟩)
  rcases shape found with ⟨rfl, rfl⟩ | ⟨pair, member, rfl⟩ | ⟨index, at_index, rfl⟩
  · rcases shape found' with ⟨same, rfl⟩ | ⟨_, _, same⟩ | ⟨_, _, same⟩ <;> cases same
    exact ⟨rfl, rfl⟩
  · rcases shape found' with ⟨same, rfl⟩ | ⟨_, member', same⟩ | ⟨_, _, same⟩ <;> cases same
    exact tidy.pairs member member'
  · rcases shape found' with ⟨same, rfl⟩ | ⟨_, _, same⟩ | ⟨_, at_index', same⟩ <;> cases same
    exact ⟨rfl, some.inj (at_index.symm.trans at_index')⟩

end

section
variable (P : Program)

/-- The search for `symbol` from `environment` arrives at `frame`. -/
def reaches (h : Heap) (environment frame : Env) (symbol : Symbol) : Bool :=
  match environment with
  | .procedure id parent =>
    decide (Env.procedure id parent = frame) ||
      (scanFrame P h (.procedure id parent) symbol false).isNone && reaches h parent frame symbol
  | environment => decide (environment = frame)

variable {P} {h h' : Heap}

variable {symbol : Symbol}

theorem findBindingCell_of_scanFrame {frame : Env} {cell : Cell}
    (found : scanFrame P h frame symbol false = some cell) : findBindingCell P h frame symbol = (some cell, frame) := by
  cases frame with
  | null => cases found
  | global => cases found; rfl
  | procedure id parent => simp [findBindingCell, found]

theorem findBindingCell_of_scanFrame_none {id : Nat} {parent : Env}
    (missing : scanFrame P h (.procedure id parent) symbol false = none) (environment : parent.environmentP) :
    findBindingCell P h (.procedure id parent) symbol = findBindingCell P h parent symbol := by
  simp [findBindingCell, missing, environment]

theorem findBindingCell_changed {frame : Env} (proper : frame ≠ .null)
    (elsewhere : ∀ other, other ≠ frame →
      scanFrame P h' other symbol false = scanFrame P h other symbol false) (environment : Env) :
    findBindingCell P h' environment symbol =
      if reaches P h environment frame symbol then findBindingCell P h' frame symbol
      else findBindingCell P h environment symbol := by
  induction environment with
  | null => simp [reaches, findBindingCell, proper.symm]
  | global =>
    by_cases here : .global = frame
    · simp [reaches, here]
    · simp [reaches, here, findBindingCell]
  | procedure id parent ih =>
    by_cases here : .procedure id parent = frame
    · simp [reaches, here]
    · have same := elsewhere _ here
      cases scanned : scanFrame P h (.procedure id parent) symbol false with
      | some cell =>
        rw [findBindingCell_of_scanFrame (same.trans scanned), findBindingCell_of_scanFrame scanned]
        simp [reaches, here, scanned]
      | none =>
        have arrives : reaches P h (.procedure id parent) frame symbol = reaches P h parent frame symbol := by
          simp [reaches, here, scanned]
        by_cases proper' : parent.environmentP
        · rw [findBindingCell_of_scanFrame_none (same.trans scanned) proper',
            findBindingCell_of_scanFrame_none scanned proper', arrives]
          exact ih
        · cases parent <;> simp_all [Env.environmentP, findBindingCell, reaches, proper.symm]

theorem findBindingCell_unchanged (same : ∀ frame, scanFrame P h' frame symbol false = scanFrame P h frame symbol false)
    (environment : Env) : findBindingCell P h' environment symbol = findBindingCell P h environment symbol := by
  induction environment with
  | procedure id parent ih => simp [findBindingCell, same, ih]
  | _ => rfl

theorem findBindingCell_of_reaches {environment frame : Env} (proper : frame ≠ .null)
    (arrives : reaches P h environment frame symbol) :
    findBindingCell P h environment symbol = findBindingCell P h frame symbol := by
  have same : findBindingCell P h environment symbol = _ :=
    findBindingCell_changed proper (fun _ _ => rfl) environment
  rwa [if_pos arrives] at same

end

end MitScheme.Microcode.Lookup
