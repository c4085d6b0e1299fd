import MitScheme.Microcode.Lookup.Resolution
import MitScheme.Microcode.Lookup.CompiledLinks

/-!
Every operation keeps recorded references in the cache that their search finds, provided that `move_ref_pairs` takes
exactly the references whose search changes, and that a merge redirects every trap through which references resolve.
-/

namespace MitScheme.Microcode.Lookup

open Library

section
variable (P : Program)

/-- The references of one name in a cache that `move_ref_pairs` takes for a frame are those whose
search arrives at the frame. -/
def movesExactly (h : Heap) (c : CacheId) (frame : Env) (symbol : Symbol) : Prop :=
  ∀ kind ∈ ReferenceKind.all, ∀ entry ∈ entries (h.cacheReferences c kind), entry.1 = symbol →
    (entry.2 ∈ firstNamed (h.cacheReferences c kind) symbol ∧ movable P frame entry.2.1 ↔
      reaches P h (P.blockEnvironment entry.2.1) frame symbol)

def noneArrives (h : Heap) (c : CacheId) (frame : Env) (symbol : Symbol) : Prop :=
  ∀ kind ∈ ReferenceKind.all, ∀ entry ∈ entries (h.cacheReferences c kind), entry.1 = symbol →
    reaches P h (P.blockEnvironment entry.2.1) frame symbol = false

variable {P} {h h' : Heap}

variable {c : CacheId} {frame : Env} {symbol : Symbol} {cell : Cell}

theorem movesExactly.passing (exact : movesExactly P h c frame symbol) {kind : ReferenceKind} {slot : SlotId}
    (recorded : Recorded h c kind symbol slot) : Passing P h c kind frame symbol symbol slot ↔
    reaches P h (P.blockEnvironment slot.1) frame symbol := by
  rw [← exact kind kind.mem_all _ recorded rfl, Passing]
  simp

theorem Coherent.of_revalued (coherent : Coherent P h) (same : Revalued h h') : Coherent P h' := by
  intro c kind name slot real recorded
  have real := (same.real c).mp real
  have before := coherent real ((same.recorded real ..).mp recorded)
  refine bindingCache_kept (findBindingCell_unchanged (fun frame => ?_) _) (fun cell c cached => ?_) before
  · exact scanFrame_same (frameBindings_congr same.extension frame) same.value name false
  · rwa [cellCache, same.value, same.trapCache]

theorem Coherent.of_rebound (coherent : Coherent P h) (tidy : Tidy P h)
    (change : Rebound P h h' frame symbol) (cache : h'.cache = h.cache) (references : h'.references = h.references)
    (settled : ∀ c, bindingCache P h frame symbol = some c →
      bindingCache P h' frame symbol = some c ∨ noneArrives P h c frame symbol) : Coherent P h' := by
  intro c kind name slot real recorded
  have real : Real h c := by rwa [Real, cache] at real
  have recorded : Recorded h c kind name slot := by
    rwa [Recorded, Heap.cacheReferences, cache, references] at recorded
  have before := coherent real recorded
  by_cases arrives : name = symbol ∧ reaches P h (P.blockEnvironment slot.1) frame symbol
  · obtain ⟨rfl, arrives⟩ := arrives
    rw [bindingCache_of_reaches change.proper arrives] at before
    rw [change.here arrives]
    rcases settled c before with after | absent
    · exact after
    · rw [absent kind kind.mem_all _ recorded rfl] at arrives
      cases arrives
  · exact change.elsewhere tidy arrives before

section
variable (guaranteed : Guaranteed h h' cell c)
include guaranteed

theorem Guaranteed.scans (tidy : Tidy P h) (shown : visible h cell) (frame : Env)
    (symbol : Symbol) : scanFrame P h' frame symbol false = scanFrame P h frame symbol false := by
  have tidy' := tidy.congr (frameBindings_congr guaranteed.extension) guaranteed.free
  refine scanFrame_false_congr tidy tidy' (scanFrame_of_extension guaranteed.extension _ _) fun other _ => ?_
  by_cases here : other = cell
  · obtain ⟨t, read, _⟩ := cellCache_eq_some.mp guaranteed.cached
    rw [here, shown]
    cases cell <;> simp [visible, read]
  · cases other <;> simp [visible, guaranteed.elsewhere here]

theorem Guaranteed.bindingCache (tidy : Tidy P h) (shown : visible h cell) {environment : Env} {c' : CacheId}
    (bound : bindingCache P h environment symbol = some c') : bindingCache P h' environment symbol = some c' :=
  bindingCache_kept (findBindingCell_unchanged (fun frame => guaranteed.scans tidy shown frame symbol) _)
    (fun _ _ cached => guaranteed.caches cached) bound

theorem Guaranteed.recorded {c' : CacheId} {kind : ReferenceKind} {name : Symbol} {slot : SlotId} (real : Real h' c')
    (recorded : Recorded h' c' kind name slot) : Real h c' ∧ Recorded h c' kind name slot := by
  rcases guaranteed.origin real with real | ⟨rfl, empty⟩
  · rw [Recorded, (guaranteed.kept real).2] at recorded
    exact ⟨real, recorded⟩
  · rw [Recorded, empty] at recorded
    cases recorded

theorem Guaranteed.retains : Retains h h' := by
  intro c' kind name slot real recorded
  refine ⟨c', ?_, ?_⟩
  · rw [Real, (guaranteed.kept real).1]
    exact real
  · rw [Recorded, (guaranteed.kept real).2]
    exact recorded

end

theorem Coherent.of_guaranteed (coherent : Coherent P h) (tidy : Tidy P h)
    (guaranteed : Guaranteed h h' cell c) (shown : visible h cell) : Coherent P h' := by
  intro c' kind name slot real recorded
  obtain ⟨real, recorded⟩ := guaranteed.recorded real recorded
  exact guaranteed.bindingCache tidy shown (coherent real recorded)

theorem Coherent.of_move (coherent : Coherent P h) (tidy : Tidy P h) {h₁ h₂ h₃ : Heap} {c target : CacheId}
    (real : Real h c) (change : Rebound P h h₁ frame symbol) (tidy₁ : Tidy P h₁) (cache : h₁.cache = h.cache)
    (references : h₁.references = h.references) (guaranteed : Guaranteed h₁ h₂ cell target) (shown : visible h₁ cell)
    (realTarget : Real h₂ target) (moves : Transferred h₂ h₃ c target (Passing P h₂ c · frame symbol))
    (before : bindingCache P h frame symbol = some c) (after : bindingCache P h₂ frame symbol = some target)
    (settled : target = c ∨ movesExactly P h c frame symbol) : Coherent P h₃ ∧ Retains h h₃ := by
  have real₁ : Real h₁ c := by rwa [Real, cache]
  have back : ∀ {c'}, Real h₂ c' → ∀ {k name slot}, Recorded h₂ c' k name slot →
      Real h c' ∧ Recorded h c' k name slot := by
    intro c' r k name slot recorded
    obtain ⟨r, recorded⟩ := guaranteed.recorded r recorded
    rw [Real, cache] at r
    rw [Recorded, Heap.cacheReferences, cache, references] at recorded
    exact ⟨r, recorded⟩
  have forth : ∀ {c'}, Real h c' → Real h₂ c' ∧
      ∀ k name slot, Recorded h₂ c' k name slot ↔ Recorded h c' k name slot := by
    intro c' r
    have r₁ : Real h₁ c' := by rwa [Real, cache]
    refine ⟨by rw [Real, (guaranteed.kept r₁).1]; exact r₁, fun k name slot => ?_⟩
    rw [Recorded, (guaranteed.kept r₁).2, Heap.cacheReferences, cache, references]
    rfl
  have passing : ∀ k, Passing P h₂ c k frame symbol = Passing P h c k frame symbol := fun k =>
    Passing.congr P (by rw [(guaranteed.kept real₁).2, Heap.cacheReferences, cache, references]; rfl) frame symbol
  have lookups : ∀ environment name, bindingCache P h₃ environment name = bindingCache P h₂ environment name := by
    intro environment name
    rw [bindingCache, findBindingCell_unchanged fun other =>
      scanFrame_same (frameBindings_congr moves.extension other) moves.value name false]
    simp [bindingCache, cellCache, moves.value, moves.trapCache]
  have arrive : ∀ {environment}, reaches P h environment frame symbol →
      bindingCache P h₂ environment symbol = some target := by
    intro environment arrives
    have same : ∀ environment, findBindingCell P h₂ environment symbol = findBindingCell P h₁ environment symbol :=
      findBindingCell_unchanged fun other => guaranteed.scans tidy₁ shown other symbol
    rw [← after, bindingCache, bindingCache, same, same,
      findBindingCell_changed change.proper (fun other apart => change.scans fun both => apart both.1), if_pos arrives]
  constructor
  · intro c' kind name slot r recorded
    have r₂ := (moves.real c').mp r
    rw [lookups]
    rcases (moves.recorded r₂ kind name slot).mp recorded with ⟨stays, unmoved⟩ | ⟨rfl, moved⟩
    · obtain ⟨r, recorded⟩ := back r₂ stays
      have bound := coherent r recorded
      by_cases arrives : name = symbol ∧ reaches P h (P.blockEnvironment slot.1) frame symbol
      · obtain ⟨rfl, arrives⟩ := arrives
        rw [bindingCache_of_reaches change.proper arrives, before] at bound
        obtain rfl := Option.some.inj bound
        rcases settled with rfl | exact
        · exact arrive arrives
        · exact absurd ⟨rfl, passing kind ▸ (exact.passing recorded).mpr arrives⟩ unmoved
      · exact guaranteed.bindingCache tidy₁ shown (change.elsewhere tidy arrives bound)
    · rw [passing] at moved
      have recorded := moved.recorded
      obtain rfl : name = symbol := moved.1
      by_cases arrives : reaches P h (P.blockEnvironment slot.1) frame name
      · exact arrive arrives
      · rcases settled with rfl | exact
        · exact guaranteed.bindingCache tidy₁ shown
            (change.elsewhere tidy (fun both => arrives both.2) (coherent real recorded))
        · exact absurd ((exact.passing recorded).mp moved) arrives
  · intro c' kind name slot r recorded
    obtain ⟨r₂, same⟩ := forth r
    have recorded₂ := (same kind name slot).mpr recorded
    by_cases moved : c' = c ∧ Passing P h₂ c kind frame symbol name slot
    · obtain ⟨rfl, moved⟩ := moved
      exact ⟨target, (moves.real target).mpr realTarget, (moves.recorded realTarget ..).mpr (.inr ⟨rfl, moved⟩)⟩
    · exact ⟨c', (moves.real c').mpr r₂, (moves.recorded r₂ ..).mpr (.inl ⟨recorded₂, moved⟩)⟩

end

end MitScheme.Microcode.Lookup
