import MitScheme.Microcode.Lookup.Rebinding
import MitScheme.Microcode.Lookup.Linking

/-!
A reference is coherent when the search for its name, from the environment of its block, ends at
a cell of the cache that records it. The lemmas say what a change of one binding in one frame
does to such searches.
-/

namespace MitScheme.Microcode.Lookup

/-- What holds of the heap between any two operations. -/
structure WellFormed (P : Program) (h : Heap) : Prop where
  consistent : Consistent (.links fun _ => True) h
  clean : Clean h
  tidy : Tidy P h

/-- Every recorded reference is in the cache of the binding that its search finds. -/
def Coherent (P : Program) (h : Heap) : Prop :=
  ∀ {c kind name slot}, Real h c → Recorded h c kind name slot →
    bindingCache P h (P.blockEnvironment slot.1) name = some c

def Retains (h h' : Heap) : Prop :=
  ∀ {c kind name slot}, Real h c → Recorded h c kind name slot →
    ∃ c', Real h' c' ∧ Recorded h' c' kind name slot

section
variable {P : Program} {h h' : Heap}

variable {environment frame parent : Env} {symbol : Symbol} {cell : Cell} {id : Nat}

theorem findBindingCell_arrives (found : findBindingCell P h environment symbol = (some cell, frame)) :
    reaches P h environment frame symbol ∧ scanFrame P h frame symbol false = some cell := by
  induction environment with
  | null => cases found
  | global =>
    cases found
    exact ⟨rfl, rfl⟩
  | procedure id parent ih =>
    cases scanned : scanFrame P h (.procedure id parent) symbol false with
    | some cell' =>
      rw [findBindingCell_of_scanFrame scanned] at found
      cases found
      exact ⟨by simp [reaches], scanned⟩
    | none =>
      by_cases proper : parent.environmentP
      · rw [findBindingCell_of_scanFrame_none scanned proper] at found
        obtain ⟨arrives, own⟩ := ih found
        exact ⟨by simp [reaches, scanned, arrives], own⟩
      · simp [findBindingCell, scanned, proper] at found

def Env.depth : Env → Nat
  | .procedure _ parent => parent.depth + 1
  | _ => 0

theorem depth_of_reaches (arrives : reaches P h environment frame symbol) : frame.depth ≤ environment.depth := by
  induction environment with
  | procedure id parent ih =>
    rw [reaches, Bool.or_eq_true, Bool.and_eq_true] at arrives
    rcases arrives with same | ⟨_, further⟩
    · exact Nat.le_of_eq (by rw [of_decide_eq_true same])
    · exact Nat.le_succ_of_le (ih further)
  | _ => exact Nat.le_of_eq (by rw [of_decide_eq_true arrives])

theorem not_reaches_child (id : Nat) (parent : Env) (symbol : Symbol) :
    reaches P h parent (.procedure id parent) symbol = false := by
  by_contra arrives
  have bound := depth_of_reaches (eq_true_of_ne_false arrives)
  exact Nat.not_succ_le_self _ bound

theorem scanFrame_true_of_false (tidy : Tidy P h) {frame : Env} (found : scanFrame P h frame symbol false = some cell) :
    scanFrame P h frame symbol true = some cell ∧ visible h cell := by
  rw [scanFrame_visible tidy, Option.filter_eq_some_iff] at found
  exact found

theorem bindingCache_of_scanFrame {frame : Env} (found : scanFrame P h frame symbol false = some cell) :
    bindingCache P h frame symbol = cellCache h cell := by
  rw [bindingCache, findBindingCell_of_scanFrame found]

theorem bindingCache_of_scanFrame_none
    (missing : scanFrame P h (.procedure id parent) symbol false = none) (proper : parent.environmentP) :
    bindingCache P h (.procedure id parent) symbol = bindingCache P h parent symbol := by
  rw [bindingCache, findBindingCell_of_scanFrame_none missing proper, bindingCache]

theorem bindingCache_of_reaches (proper : frame ≠ .null) (arrives : reaches P h environment frame symbol) :
    bindingCache P h environment symbol = bindingCache P h frame symbol := by
  rw [bindingCache, findBindingCell_of_reaches proper arrives, bindingCache]

theorem bindingCache_kept {environment : Env} {c : CacheId}
    (same : findBindingCell P h' environment symbol = findBindingCell P h environment symbol)
    (caches : ∀ cell c, cellCache h cell = some c → cellCache h' cell = some c)
    (bound : bindingCache P h environment symbol = some c) : bindingCache P h' environment symbol = some c := by
  obtain ⟨cell, found, cached⟩ := (bindingCache_eq_some P).mp bound
  exact (bindingCache_eq_some P).mpr ⟨cell, by rw [same, found], caches cell c cached⟩

/-- The heaps differ for searches in the binding of one symbol in one frame. -/
structure Rebound (P : Program) (h h' : Heap) (frame : Env) (symbol : Symbol) : Prop where
  proper : frame ≠ .null
  scans : ∀ {other name}, ¬(other = frame ∧ name = symbol) →
    scanFrame P h' other name false = scanFrame P h other name false
  caches : ∀ {other name cell c}, ¬(other = frame ∧ name = symbol) → scanFrame P h other name true = some cell →
    cellCache h cell = some c → cellCache h' cell = some c

theorem Rebound.elsewhere (change : Rebound P h h' frame symbol) (tidy : Tidy P h) {environment : Env}
    {name : Symbol} {c : CacheId} (away : ¬(name = symbol ∧ reaches P h environment frame symbol))
    (bound : bindingCache P h environment name = some c) : bindingCache P h' environment name = some c := by
  obtain ⟨cell, found, cached⟩ := (bindingCache_eq_some P).mp bound
  have same : findBindingCell P h' environment name = findBindingCell P h environment name := by
    by_cases here : name = symbol
    · subst here
      rw [findBindingCell_changed change.proper (fun other apart => change.scans fun both => apart both.1),
        if_neg fun arrives => away ⟨rfl, arrives⟩]
    · exact findBindingCell_unchanged (fun other => change.scans fun both => here both.2) environment
  obtain ⟨arrives, own⟩ := findBindingCell_arrives (Prod.ext found rfl : _ = (some cell, _))
  refine (bindingCache_eq_some P).mpr ⟨cell, by rw [same, found],
    change.caches (fun here => away ⟨here.2, ?_⟩) (scanFrame_true_of_false tidy own).1 cached⟩
  rw [← here.1, ← here.2]
  exact arrives

theorem Rebound.here (change : Rebound P h h' frame symbol) {environment : Env}
    (arrives : reaches P h environment frame symbol) :
    bindingCache P h' environment symbol = bindingCache P h' frame symbol := by
  rw [bindingCache, findBindingCell_changed change.proper (fun other apart => change.scans fun both => apart both.1),
    if_pos arrives, bindingCache]

theorem rebound_setValue (tidy : Tidy P h) {frame : Env} (own : scanFrame P h frame symbol true = some cell)
    (value : Obj) : Rebound P h (h.setValue cell value) frame symbol where
  proper := by rintro rfl; cases own
  scans {other name} different := by
    refine scanFrame_false_congr tidy (tidy.setValue cell value) (scanFrame_setValue P h cell value other name)
      fun cell' own' => ?_
    have apart : cell' ≠ cell := by
      rintro rfl
      exact different (tidy.scanFrame_injective own' own)
    cases cell' <;> simp [visible, Heap.setValue_value_ne h value apart]
  caches {other name cell' c} different own' cached := by
    have apart : cell' ≠ cell := by
      rintro rfl
      exact different (tidy.scanFrame_injective own' own)
    rwa [cellCache, Heap.setValue_value_ne h value apart]

theorem rebound_withBinding (tidy : Tidy P h) (missing : scanFrame P h (.procedure id parent) symbol true = none)
    (value : Obj) : Rebound P h (withBinding h (.procedure id parent) symbol value) (.procedure id parent) symbol where
  proper := nofun
  scans {other name} different := by
    refine scanFrame_false_congr tidy (tidy.withBinding value missing)
      (scanFrame_withBinding_ne value different) fun cell own => ?_
    simp [visible, withBinding_value]
  caches {other name cell c} _ own cached := by
    rwa [cellCache, withBinding_value, Function.update_of_ne (tidy.fresh own)]

theorem Unbound.rebound (tidy : Tidy P h) (unbound : Unbound P h h' (.procedure id parent) symbol cell)
    (own : scanFrame P h (.procedure id parent) symbol true = some cell) :
    Rebound P h h' (.procedure id parent) symbol where
  proper := nofun
  scans {other name} different := by
    refine scanFrame_false_congr tidy unbound.tidy (unbound.others different) fun cell' own' => ?_
    have apart : cell' ≠ cell := by
      rintro rfl
      exact different (tidy.scanFrame_injective own' own)
    rcases unbound.value with same | ⟨_, changed⟩
    · simp [visible, same]
    · cases cell' <;> simp [visible, changed, Function.update_of_ne apart]
  caches {other name cell' c} different own' cached := by
    have apart : cell' ≠ cell := by
      rintro rfl
      exact different (tidy.scanFrame_injective own' own)
    unfold cellCache at cached ⊢
    rw [unbound.trapCache]
    rcases unbound.value with same | ⟨_, changed⟩
    · rwa [same]
    · rwa [changed, Function.update_of_ne apart]

end

end MitScheme.Microcode.Lookup
