import MitScheme.Microcode.Lookup.Coherence

/-!
The calls go wrong where `move_ref_pairs` does not take exactly the references whose search changes, where an unbound
parameter is bound again, and where a merge leaves behind a trap through which references still resolve.
-/

namespace MitScheme.Microcode.Lookup

open Library Option

section
variable (P : Program)

/-- No reference may arrive at an unbound parameter that a new binding binds, and the right references must move to a
binding that is added. `shared` is the cache of a value that is itself a trap. -/
def defines (h : Heap) (environment : Env) (symbol : Symbol) (shared : Option CacheId) : Prop :=
  ∀ c ∈ bindingCache P h environment symbol, shared = some c ∨
    (∀ cell ∈ scanFrame P h environment symbol true, visible h cell ∨ noneArrives P h c environment symbol) ∧
      (scanFrame P h environment symbol true = none → movesExactly P h c environment symbol)

/-- Every reference of the source's cache resolves to a cell that holds the source's trap. -/
def redirects (h : Heap) (source : Cell) (c : CacheId) : Prop :=
  ∀ kind ∈ ReferenceKind.all, ∀ entry ∈ entries (h.cacheReferences c kind),
    ∀ cell ∈ (findBindingCell P h (P.blockEnvironment entry.2.1) entry.1).1, h.value cell = h.value source

def unbinds (h : Heap) (c : CacheId) (symbol : Symbol) : Env → Prop
  | .procedure id parent => (h.cache c).value = .unbound ∨ bindingCache P h parent symbol = some c ∨
      movesExactly P h c (.procedure id parent) symbol
  | _ => True

def orderly (h : Heap) : Call → Prop
  | .define environment symbol value => value = .unbound ∧ (scanFrame P h environment symbol true).isSome ∨
      defines P h environment symbol none
  | .link targetEnvironment targetSymbol sourceEnvironment sourceSymbol =>
    ∀ source ∈ (findBindingCell P h sourceEnvironment sourceSymbol).1,
      h.value source = .unbound ∨ scanFrame P h targetEnvironment targetSymbol true = some source ∨
        (∀ c ∈ (scanFrame P h targetEnvironment targetSymbol true).bind (cellCache h),
          ∀ c' ∈ cellCache h source, c' = c ∨ redirects P h source c') ∧
        ((scanFrame P h targetEnvironment targetSymbol true).bind (cellCache h) = none →
          defines P h targetEnvironment targetSymbol (cellCache h source))
  | .unbind environment symbol =>
    ∀ cell ∈ (findBindingCell P h environment symbol).1, ∀ c ∈ cellCache h cell,
      unbinds P h c symbol (findBindingCell P h environment symbol).2
  | _ => True

/-- The environments of the call end in the global frame, and one of them may be looked up from the block. -/
def chained : Call → Prop
  | .assign environment _ _ => environment.rooted
  | .define environment _ _ => environment.rooted
  | .link targetEnvironment _ sourceEnvironment _ => targetEnvironment.rooted ∧ sourceEnvironment.rooted
  | .unbind environment _ => environment.rooted
  | .cache _ _ slot => (P.blockEnvironment slot.1).rooted
  | .globalOperator _ _ => False
  | .reclaim _ => True

instance (h : Heap) (c : CacheId) (frame : Env) (symbol : Symbol) : Decidable (movesExactly P h c frame symbol) := by
  unfold movesExactly
  infer_instance

instance (h : Heap) (c : CacheId) (frame : Env) (symbol : Symbol) : Decidable (noneArrives P h c frame symbol) := by
  unfold noneArrives
  infer_instance

instance (h : Heap) (environment : Env) (symbol : Symbol) (shared : Option CacheId) :
    Decidable (defines P h environment symbol shared) := by
  unfold defines
  infer_instance

instance (h : Heap) (source : Cell) (c : CacheId) : Decidable (redirects P h source c) := by
  unfold redirects
  infer_instance

instance (h : Heap) (c : CacheId) (symbol : Symbol) : (frame : Env) → Decidable (unbinds P h c symbol frame)
  | .procedure .. => inferInstanceAs (Decidable (_ ∨ _ ∨ _))
  | .global => inferInstanceAs (Decidable True)
  | .null => inferInstanceAs (Decidable True)

instance (h : Heap) : (call : Call) → Decidable (orderly P h call)
  | .define .. => inferInstanceAs (Decidable (_ ∨ _))
  | .link .. => by unfold orderly; infer_instance
  | .unbind .. => by unfold orderly; infer_instance
  | .assign .. => inferInstanceAs (Decidable True)
  | .cache .. => inferInstanceAs (Decidable True)
  | .globalOperator .. => inferInstanceAs (Decidable True)
  | .reclaim _ => inferInstanceAs (Decidable True)

instance : (call : Call) → Decidable (chained P call)
  | .assign .. => inferInstanceAs (Decidable (_ = true))
  | .define .. => inferInstanceAs (Decidable (_ = true))
  | .link .. => inferInstanceAs (Decidable (_ ∧ _))
  | .unbind .. => inferInstanceAs (Decidable (_ = true))
  | .cache .. => inferInstanceAs (Decidable (_ = true))
  | .globalOperator .. => inferInstanceAs (Decidable False)
  | .reclaim _ => inferInstanceAs (Decidable True)

end

structure Kept (P : Program) (h h' : Heap) : Prop where
  tidy : Tidy P h'
  coherent : Coherent P h'
  retains : Retains h h'

section
variable {P : Program} {h h' : Heap}

theorem retains_of_same (cache : h'.cache = h.cache) (references : h'.references = h.references) : Retains h h' := by
  intro c kind name slot real recorded
  refine ⟨c, by rwa [Real, cache], ?_⟩
  rwa [Recorded, Heap.cacheReferences, cache, references]

theorem Kept.refl (tidy : Tidy P h) (coherent : Coherent P h) : Kept P h h :=
  ⟨tidy, coherent, retains_of_same rfl rfl⟩

theorem Kept.trans {h₁ h₂ : Heap} (first : Kept P h h₁) (second : Kept P h₁ h₂) : Kept P h h₂ where
  tidy := second.tidy
  coherent := second.coherent
  retains real recorded := by
    obtain ⟨c', real', recorded'⟩ := first.retains real recorded
    exact second.retains real' recorded'

theorem kept_of_revalued (tidy : Tidy P h) (coherent : Coherent P h) (same : Revalued h h') : Kept P h h' where
  tidy := tidy.congr (frameBindings_congr same.extension) same.free
  coherent := coherent.of_revalued same
  retains {c kind name slot} real recorded :=
    ⟨c, (same.real c).mpr real, (same.recorded real kind name slot).mpr recorded⟩

variable {cell : Cell} {frame environment : Env} {symbol : Symbol} {value : Obj} {result : Result} {c : CacheId}
  {slot : SlotId}

theorem visible_of_bound (bound : h.value cell ≠ .unbound) : visible h cell := by
  cases cell <;> simp [visible, bound]

theorem visible_of_read {t : TrapId} (read : h.value cell = .compilerCached t) : visible h cell := by
  refine visible_of_bound ?_
  rw [read]
  intro same
  cases same

theorem bindingCache_of_visible (tidy : Tidy P h) (own : scanFrame P h frame symbol true = some cell)
    (shown : visible h cell) : bindingCache P h frame symbol = cellCache h cell := by
  refine bindingCache_of_scanFrame ?_
  rw [scanFrame_visible tidy, own]
  exact filter_eq_some_iff.mpr ⟨rfl, shown⟩

theorem kept_setValue (tidy : Tidy P h) (coherent : Coherent P h)
    (own : scanFrame P h frame symbol true = some cell) (uncached : cellCache h cell = none)
    (settled : visible h cell ∨ ∀ c, bindingCache P h frame symbol = some c →
      bindingCache P (h.setValue cell value) frame symbol = some c ∨ noneArrives P h c frame symbol) :
    Kept P h (h.setValue cell value) where
  tidy := tidy.setValue cell value
  coherent := coherent.of_rebound tidy (rebound_setValue tidy own value) rfl rfl fun c bound => by
    rcases settled with shown | settled
    · rw [bindingCache_of_visible tidy own shown, uncached] at bound
      cases bound
    · exact settled c bound
  retains := retains_of_same rfl rfl

theorem assignVariableEnd_heap (uncached : cellCache h cell = none) (value : Obj) (force : Bool) :
    (assignVariableEnd h cell value force).heap = h ∨
      (assignVariableEnd h cell value force).heap = h.setValue cell (mapToUnassigned value) := by
  unfold assignVariableEnd
  dsimp only
  split
  · rename_i t read
    simp [cellCache, read] at uncached
  · split <;> (try split) <;> simp [succeed, fail]

theorem environmentP_of_rooted (rooted : environment.rooted) : environment.environmentP := by
  cases environment <;> first | rfl | cases rooted

theorem defines_guaranteed (tidy : Tidy P h) {source : Cell} {cs : CacheId} (inv : Consistent (.links fun _ => True) h)
    (guaranteed : Guaranteed h h' source cs) (shown : visible h source)
    (met : defines P h environment symbol (cellCache h source)) : defines P h' environment symbol (some cs) := by
  have scans := guaranteed.scans tidy shown
  have true_scans : ∀ environment symbol, scanFrame P h' environment symbol true = scanFrame P h environment symbol true :=
    scanFrame_of_extension guaranteed.extension
  have arrives : ∀ environment frame symbol, reaches P h' environment frame symbol = reaches P h environment frame symbol := by
    intro environment frame symbol
    induction environment with
    | procedure id parent ih => simp [reaches, scans, ih]
    | _ => rfl
  intro c bound
  obtain ⟨cell, found, cached⟩ := (bindingCache_eq_some P).mp bound
  rw [findBindingCell_unchanged fun frame => scans frame symbol] at found
  cases before : cellCache h cell with
  | none =>
    by_cases here : cell = source
    · subst here
      exact .inl (guaranteed.cached.symm.trans cached)
    · obtain ⟨t, read, _⟩ := cellCache_eq_some.mp cached
      rw [guaranteed.elsewhere here] at read
      simp [cellCache, read] at before
  | some c' =>
    cases (guaranteed.caches before).symm.trans cached
    have real := inv.toStore.real_of_cellCache before
    have lists := (guaranteed.kept real).2
    refine (met c ((bindingCache_eq_some P).mpr ⟨cell, found, before⟩)).imp (fun same => ?_) fun both => ?_
    · exact guaranteed.cached.symm.trans (guaranteed.caches same)
    · obtain ⟨present, moved⟩ := both
      refine ⟨fun cell' own => ?_, fun missing => ?_⟩
      · rw [true_scans] at own
        refine (present cell' own).imp (fun seen => ?_) fun absent kind all entry member name => ?_
        · by_cases here : cell' = source
          · obtain ⟨t, read, _⟩ := cellCache_eq_some.mp guaranteed.cached
            exact visible_of_read (here ▸ read)
          · cases cell' <;> simp_all [visible, guaranteed.elsewhere here]
        · rw [lists] at member
          rw [arrives]
          exact absent kind all entry member name
      · rw [true_scans] at missing
        intro kind all entry member name
        rw [lists] at member ⊢
        rw [arrives]
        exact moved missing kind all entry member name

theorem rooted_of_reaches {environment frame : Env} (rooted : environment.rooted)
    (arrives : reaches P h environment frame symbol) : frame.rooted := by
  induction environment with
  | null => cases rooted
  | global => rwa [← of_decide_eq_true arrives]
  | procedure id parent ih =>
    rw [reaches, Bool.or_eq_true, Bool.and_eq_true] at arrives
    rcases arrives with same | ⟨_, further⟩
    · rwa [← of_decide_eq_true same]
    · exact ih rooted further

theorem findBindingCell_of_rooted (rooted : environment.rooted) (symbol : Symbol) :
    ∃ cell frame, findBindingCell P h environment symbol = (some cell, frame) := by
  induction environment with
  | null => cases rooted
  | global => exact ⟨_, _, rfl⟩
  | procedure id parent ih =>
    cases scanned : scanFrame P h (.procedure id parent) symbol false with
    | some cell => exact ⟨_, _, findBindingCell_of_scanFrame scanned⟩
    | none =>
      rw [findBindingCell_of_scanFrame_none scanned (environmentP_of_rooted rooted)]
      exact ih rooted

section
variable (wf : WellFormed P h) (coherent : Coherent P h)
include wf coherent

theorem assignVariableEnd_kept (own : scanFrame P h frame symbol true = some cell) (cheap : value ≠ .expensive)
    (force : Bool)
    (settled : cellCache h cell = none → visible h cell ∨ ∀ c, bindingCache P h frame symbol = some c →
      bindingCache P (h.setValue cell (mapToUnassigned value)) frame symbol = some c ∨
        noneArrives P h c frame symbol) :
    Kept P h (assignVariableEnd h cell value force).heap := by
  cases cached : cellCache h cell with
  | none =>
    rcases assignVariableEnd_heap cached value force with same | stored
    · rw [same]
      exact .refl wf.tidy coherent
    · rw [stored]
      exact kept_setValue wf.tidy coherent own cached (settled cached)
  | some c =>
    obtain ⟨t, read, rfl⟩ := cellCache_eq_some.mp cached
    have same := revalued_assignVariableCache wf.consistent (wf.consistent.trap read).2 cheap force
    have branch : assignVariableEnd h cell value force = assignVariableCache h (h.trapCache t) value force := by
      simp [assignVariableEnd, read]
    rw [branch]
    exact kept_of_revalued wf.tidy coherent same

theorem assignVariable_kept (environment : Env) (symbol : Symbol)
    (cheap : value ≠ .expensive) : Kept P h (assignVariable P h environment symbol value).heap := by
  unfold assignVariable
  split
  · exact .refl wf.tidy coherent
  · rename_i cell found
    obtain ⟨_, own⟩ := findBindingCell_arrives (Prod.ext found rfl : _ = (some cell, _))
    obtain ⟨own, shown⟩ := scanFrame_true_of_false wf.tidy own
    exact assignVariableEnd_kept wf coherent own cheap false fun _ => .inl shown

theorem defineVariable_of_cell_kept
    (own : scanFrame P h environment symbol true = some cell) (cheap : value ≠ .expensive) {shared : Option CacheId}
    (link : ∀ c, shared = some c → ∃ t, mapToUnassigned value = .compilerCached t ∧ h.trapCache t = c)
    (met : value = .unbound ∨ defines P h environment symbol shared) :
    Kept P h (assignVariableEnd h cell value true).heap := by
  refine assignVariableEnd_kept wf coherent own cheap true fun _ => ?_
  by_cases shown : visible h cell
  · exact .inl shown
  · refine .inr fun c bound => ?_
    rcases met with rfl | met
    · have hidden : h.value cell = .unbound := by
        cases cell <;> simp_all [visible]
      have same : h.setValue cell (mapToUnassigned .unbound) = h := by
        change { h with value := Function.update h.value cell .unbound } = h
        rw [← hidden, Function.update_eq_self]
      exact .inl (by rw [same, bound])
    · rcases met c bound with same | ⟨present, _⟩
      · obtain ⟨t, stored, rfl⟩ := link c same
        refine .inl ?_
        have read : (h.setValue cell (mapToUnassigned value)).value cell = .compilerCached t := by
          rw [Heap.setValue_value_self, stored]
        rw [bindingCache_of_visible (wf.tidy.setValue cell _) ((scanFrame_setValue P h cell _ _ _).trans own)
          (visible_of_read read)]
        exact cellCache_eq_some.mpr ⟨t, read, rfl⟩
      · exact .inr ((present cell own).resolve_left shown)

theorem defineVariable_of_none_kept {id : Nat} {parent : Env}
    (missing : scanFrame P h (.procedure id parent) symbol true = none) (rooted : parent.rooted)
    (cheap : value ≠ .expensive)
    (cached : ∀ t, mapToUnassigned value = .compilerCached t → t < h.free ∧ Real h (h.trapCache t))
    {shared : Option CacheId}
    (link : ∀ c, shared = some c → ∃ t, mapToUnassigned value = .compilerCached t ∧ h.trapCache t = c)
    (met : defines P h (.procedure id parent) symbol shared)
    (ran : defineVariable P h (.procedure id parent) symbol value = some result) : Kept P h result.heap := by
  have change := rebound_withBinding wf.tidy missing value
  have tidy₁ := wf.tidy.withBinding value missing
  have outside : bindingCache P h (.procedure id parent) symbol = bindingCache P h parent symbol := by
    refine bindingCache_of_scanFrame_none ?_ (environmentP_of_rooted rooted)
    rw [scanFrame_visible wf.tidy, missing]
    rfl
  have own := scanFrame_withBinding value missing
  have read : (withBinding h (.procedure id parent) symbol value).value (.binding h.free) = mapToUnassigned value :=
    Function.update_self _ _ _
  rw [defineVariable_of_none value missing] at ran
  cases bound : bindingCache P h parent symbol with
  | none =>
    simp only [bound, some.injEq] at ran
    subst ran
    refine ⟨tidy₁, coherent.of_rebound wf.tidy change rfl rfl fun c before => ?_, retains_of_same rfl rfl⟩
    rw [outside, bound] at before
    cases before
  | some c =>
    simp only [bound, map_eq_some_iff] at ran
    obtain ⟨h', moved, rfl⟩ := ran
    obtain ⟨extended, cleaned⟩ := extendEnvironment_consistent
      (wf.consistent.setExtension (.procedure id parent)
        (guaranteeExtensionSpace (h.extension (.procedure id parent))).toExtension)
      wf.clean (.procedure id parent) (guaranteeExtensionSpace (h.extension (.procedure id parent))) symbol cheap cached
    have real := wf.consistent.toStore.real_of_bindingCache P bound
    obtain ⟨_, target, h₂, guaranteed, realTarget, moves⟩ :=
      updateCacheReferences_some_consistent P extended real (cleaned _) moved
    have tidy₂ := tidy₁.congr (frameBindings_congr guaranteed.extension) guaranteed.free
    have after : bindingCache P h₂ (.procedure id parent) symbol = some target := by
      rw [bindingCache_of_visible tidy₂ ((scanFrame_of_extension guaranteed.extension _ _).trans own) rfl]
      exact guaranteed.cached
    obtain ⟨coherent', retains'⟩ := coherent.of_move wf.tidy real change tidy₁ rfl rfl guaranteed rfl realTarget moves
      (outside.trans bound) after (by
        rcases met c (outside.trans bound) with same | ⟨_, exact⟩
        · obtain ⟨t, stored, same⟩ := link c same
          have own : cellCache (withBinding h (.procedure id parent) symbol value) (.binding h.free) = some c :=
            cellCache_eq_some.mpr ⟨t, read.trans stored, same⟩
          exact .inl (some.inj (guaranteed.cached.symm.trans (guaranteed.caches own)))
        · exact .inr (exact missing))
    exact ⟨tidy₂.congr (frameBindings_congr moves.extension) moves.free, coherent', retains'⟩

theorem defineVariable_kept (rooted : environment.rooted)
    (cheap : value ≠ .expensive)
    (cached : ∀ t, mapToUnassigned value = .compilerCached t → t < h.free ∧ Real h (h.trapCache t))
    (shared : Option CacheId)
    (link : ∀ c, shared = some c → ∃ t, mapToUnassigned value = .compilerCached t ∧ h.trapCache t = c)
    (met : value = .unbound ∧ (scanFrame P h environment symbol true).isSome ∨ defines P h environment symbol shared)
    (ran : defineVariable P h environment symbol value = some result) : Kept P h result.heap := by
  cases own : scanFrame P h environment symbol true with
  | some cell =>
    rw [defineVariable_of_cell value own] at ran
    obtain rfl := some.inj ran
    exact defineVariable_of_cell_kept wf coherent own cheap link (met.imp_left And.left)
  | none =>
    rw [own] at met
    have met := met.resolve_left (by simp)
    cases environment with
    | null => cases rooted
    | global => cases own
    | procedure id parent => exact defineVariable_of_none_kept wf coherent own rooted cheap cached link met ran

/-- Two caches become one, and every reference of the source's cache resolves through the trap
that is redirected. -/
theorem merged_kept {target source : Cell} {trap : TrapId}
    (merged : Merged h h' source target trap c) (cached : cellCache h target = some c)
    (readSource : h.value source = .compilerCached trap) (other : h.trapCache trap ≠ c)
    (whole : redirects P h source (h.trapCache trap)) : Kept P h h' := by
  have real := wf.consistent.toStore.real_of_cellCache cached
  have realSource := (wf.consistent.trap readSource).2
  have tidy' := wf.tidy.congr (frameBindings_congr merged.extension) merged.free
  have searches : ∀ environment symbol,
      findBindingCell P h' environment symbol = findBindingCell P h environment symbol := by
    intro environment symbol
    refine findBindingCell_unchanged (fun frame => scanFrame_false_congr wf.tidy tidy'
      (scanFrame_of_extension merged.extension frame symbol) fun cell _ => ?_) environment
    by_cases here : cell = source
    · obtain ⟨t, read, _⟩ := cellCache_eq_some.mp (merged.redirected readSource cached other rfl)
      rw [here, visible_of_read read, visible_of_read readSource]
    · cases cell <;> simp [visible, merged.value, Function.update_of_ne here]
  refine ⟨tidy', fun {c' kind name slot} r recorded => ?_, fun {c' kind name slot} r recorded => ?_⟩
  · rcases (merged.recorded ((merged.real c').mp r) kind name slot).mp recorded with ⟨before, away⟩ | ⟨rfl, before⟩
    · obtain ⟨cell, found, cached'⟩ := (bindingCache_eq_some P).mp (coherent ((merged.real c').mp r) before)
      exact (bindingCache_eq_some P).mpr ⟨cell, by rw [searches, found], merged.caches readSource away cached'⟩
    · obtain ⟨cell, found, _⟩ := (bindingCache_eq_some P).mp (coherent realSource before)
      exact (bindingCache_eq_some P).mpr ⟨cell, by rw [searches, found],
        merged.redirected readSource cached other (whole kind kind.mem_all _ before cell found)⟩
  · by_cases gone : c' = h.trapCache trap
    · subst gone
      exact ⟨c, (merged.real _).mpr real, (merged.recorded real ..).mpr (.inr ⟨rfl, recorded⟩)⟩
    · exact ⟨c', (merged.real _).mpr r, (merged.recorded r ..).mpr (.inl ⟨recorded, gone⟩)⟩

theorem linkToCache_kept {target source : Cell}
    (cached : cellCache h target = some c) (own : scanFrame P h environment symbol false = some source)
    (whole : ∀ c' ∈ cellCache h source, c' = c ∨ redirects P h source c') :
    Kept P h (linkToCache h target source c) := by
  obtain ⟨own, shown⟩ := scanFrame_true_of_false wf.tidy own
  cases cachedSource : cellCache h source with
  | none =>
    rw [linkToCache_of_not_cached cachedSource]
    have same := revalued_setCacheValue (wf.consistent.toStore.real_of_cellCache cached) (wf.clean source)
    have first := kept_of_revalued wf.tidy coherent same
    have second : Kept P (h.setCacheValue c (h.value source))
        ((h.setCacheValue c (h.value source)).setValue source (h.value target)) :=
      kept_setValue first.tidy first.coherent
        ((scanFrame_of_extension same.extension _ _).trans own) cachedSource (.inl shown)
    exact first.trans second
  | some c' =>
    by_cases same : c' = c
    · rw [linkToCache_of_same (same ▸ cachedSource)]
      exact .refl wf.tidy coherent
    · obtain ⟨trap, read, rfl⟩ := cellCache_eq_some.mp cachedSource
      obtain ⟨_, _, merged⟩ := linkToCache_merged wf.consistent wf.clean cached read same
        (fun _ _ _ fresh => absurd trivial fresh)
      exact merged_kept wf coherent merged cached read same ((whole _ cachedSource).resolve_left same)

theorem linkVariables_kept {targetEnvironment sourceEnvironment : Env}
    {targetSymbol sourceSymbol : Symbol} (rooted : targetEnvironment.rooted)
    (met : orderly P h (.link targetEnvironment targetSymbol sourceEnvironment sourceSymbol))
    (ran : linkVariables P h targetEnvironment targetSymbol sourceEnvironment sourceSymbol = some result) :
    Kept P h result.heap := by
  have idle : ∀ {code}, some (fail h code) = some result → Kept P h result.heap := by
    intro code same
    obtain rfl := some.inj same
    exact .refl wf.tidy coherent
  unfold linkVariables at ran
  split at ran
  · split at ran
    · exact idle ran
    · rename_i source found
      obtain ⟨_, own⟩ := findBindingCell_arrives (Prod.ext found rfl : _ = (some source, _))
      split at ran
      · exact idle ran
      · rename_i bound
        dsimp only at ran
        split at ran
        · obtain rfl := some.inj ran
          exact .refl wf.tidy coherent
        · rename_i apart
          obtain ⟨whole, fresh⟩ :=
            ((met source found).resolve_left fun unbound => bound (by rw [unbound]; rfl)).resolve_left apart
          split at ran
          · rename_i target c scanned cached
            rw [scanned] at cached whole
            obtain rfl := some.inj ran
            exact linkToCache_kept wf coherent cached own (whole c cached)
          · rename_i uncached
            have uncached : (scanFrame P h targetEnvironment targetSymbol true).bind (cellCache h) = none := by
              cases scanned : scanFrame P h targetEnvironment targetSymbol true with
              | none => rfl
              | some target =>
                cases cached : cellCache h target with
                | none => exact cached
                | some c => exact absurd (by rw [scanned]; exact cached) (uncached target c scanned)
            obtain ⟨_, shown⟩ := scanFrame_true_of_false wf.tidy own
            obtain ⟨inv', c, guaranteed⟩ := guaranteeCache_consistent wf.consistent (wf.clean source)
            obtain ⟨t, read, cached⟩ := cellCache_eq_some.mp guaranteed.cached
            have wf' : WellFormed P (guaranteeCache h source) :=
              ⟨inv', guaranteed.clean wf.clean, wf.tidy.congr (frameBindings_congr guaranteed.extension) guaranteed.free⟩
            have stored : mapToUnassigned ((guaranteeCache h source).value source) = .compilerCached t := by
              rw [read]
              rfl
            have kept := defineVariable_kept wf' (coherent.of_guaranteed wf.tidy guaranteed shown) rooted
              (by rw [read]; nofun) (fun t' same => inv'.trap (read.trans (stored.symm.trans same))) (some c)
              (fun c' same => ⟨t, stored, cached.trans (some.inj same)⟩)
              (.inr (defines_guaranteed wf.tidy wf.consistent guaranteed shown (fresh uncached))) ran
            exact .trans ⟨wf'.tidy, coherent.of_guaranteed wf.tidy guaranteed shown, guaranteed.retains⟩ kept
  · exact idle ran

theorem unbindCachedVariable_kept {id : Nat} {parent : Env}
    (own : scanFrame P h (.procedure id parent) symbol false = some cell)
    (cached : cellCache h cell = some c) (rooted : parent.rooted)
    (met : bindingCache P h parent symbol = some c ∨ movesExactly P h c (.procedure id parent) symbol)
    (ran : unbindCachedVariable P h cell c id parent symbol = some h') : Kept P h h' := by
  have before := (bindingCache_of_scanFrame own).trans cached
  obtain ⟨own, _⟩ := scanFrame_true_of_false wf.tidy own
  have unbound := unbindVariable1_unbound wf.tidy own
  have change := unbound.rebound wf.tidy own
  obtain ⟨inv₁, clean₁⟩ := unbindVariable1_consistent wf.consistent wf.clean cell (.procedure id parent) symbol
  have real := wf.consistent.toStore.real_of_cellCache cached
  have real₁ : Real (unbindVariable1 h cell (.procedure id parent) symbol) c := by rwa [Real, unbound.cache]
  obtain ⟨cell', frame', shadowed⟩ := findBindingCell_of_rooted (P := P) (h := h) rooted symbol
  unfold unbindCachedVariable at ran
  simp only [shadowed] at ran
  obtain ⟨_, target, h₂, guaranteed, realTarget, moves⟩ :=
    updateCacheReferences_some_consistent P inv₁ real₁ (clean₁ _) ran
  -- the search from the parent does not see the frame
  have below : findBindingCell P (unbindVariable1 h cell (.procedure id parent) symbol) parent symbol =
      (some cell', frame') := by
    rw [findBindingCell_changed change.proper
      (fun other apart => change.scans fun both => apart both.1), not_reaches_child, if_neg Bool.false_ne_true, shadowed]
  obtain ⟨_, own'⟩ := findBindingCell_arrives below
  obtain ⟨_, shown⟩ := scanFrame_true_of_false unbound.tidy own'
  have after : bindingCache P h₂ (.procedure id parent) symbol = some target := by
    rw [bindingCache_of_scanFrame_none ((guaranteed.scans unbound.tidy shown _ _).trans unbound.gone)
      (environmentP_of_rooted rooted), bindingCache,
      findBindingCell_unchanged fun frame => guaranteed.scans unbound.tidy shown frame symbol, below]
    exact guaranteed.cached
  obtain ⟨coherent', retains'⟩ := coherent.of_move wf.tidy real change unbound.tidy unbound.cache unbound.references
    guaranteed shown realTarget moves before after (met.imp_left fun outside => by
      have inside := change.elsewhere wf.tidy (fun both => by simp [not_reaches_child] at both) outside
      rw [bindingCache, below] at inside
      exact some.inj (guaranteed.cached.symm.trans (guaranteed.caches inside)))
  exact ⟨(unbound.tidy.congr (frameBindings_congr guaranteed.extension) guaranteed.free).congr
    (frameBindings_congr moves.extension) moves.free, coherent', retains'⟩

theorem unbindVariable1_kept (own : scanFrame P h frame symbol false = some cell) (uncached : cellCache h cell = none) :
    Kept P h (unbindVariable1 h cell frame symbol) := by
  have nowhere := (bindingCache_of_scanFrame own).trans uncached
  obtain ⟨own, shown⟩ := scanFrame_true_of_false wf.tidy own
  cases frame with
  | null => cases own
  | global => exact kept_setValue wf.tidy coherent own uncached (.inl shown)
  | procedure id parent =>
    have unbound := unbindVariable1_unbound wf.tidy own
    refine ⟨unbound.tidy, coherent.of_rebound wf.tidy (unbound.rebound wf.tidy own) unbound.cache unbound.references
      fun c bound => ?_, retains_of_same unbound.cache unbound.references⟩
    rw [nowhere] at bound
    cases bound

theorem unbindVariable_kept (rooted : environment.rooted) (met : orderly P h (.unbind environment symbol))
    (ran : unbindVariable P h environment symbol = some result) : Kept P h result.heap := by
  have idle : ∀ {r}, some r = some result → r.heap = h → Kept P h result.heap := by
    intro r same unchanged
    obtain rfl := some.inj same
    rw [unchanged]
    exact .refl wf.tidy coherent
  unfold unbindVariable at ran
  split at ran
  · exact idle ran rfl
  · rename_i cell frame found
    obtain ⟨arrives, own⟩ := findBindingCell_arrives found
    have rooted := rooted_of_reaches rooted arrives
    simp only [orderly, found] at met
    split at ran
    · rename_i t read
      have cached : cellCache h cell = some (h.trapCache t) := cellCache_eq_some.mpr ⟨t, read, rfl⟩
      have met := met cell rfl _ cached
      dsimp only at ran
      split at ran
      · exact idle ran rfl
      all_goals first
        | exact idle ran rfl
        | (rename_i kind
           split at ran
           · simp only [bind_eq_bind, bind_eq_some_iff, some.injEq] at ran
             obtain ⟨h', moved, rfl⟩ := ran
             exact unbindCachedVariable_kept wf coherent own cached rooted
               (met.resolve_left fun unbound => by rw [unbound] at kind; cases kind) moved
           · obtain rfl := some.inj ran
             exact kept_of_revalued wf.tidy coherent (revalued_setCacheValue (wf.consistent.trap read).2 nofun))
    · rename_i uncached
      have uncached : cellCache h cell = none := by
        unfold cellCache
        split
        · rename_i t read
          exact absurd read (uncached t)
        · rfl
      split at ran
      · exact idle ran rfl
      all_goals first
        | exact idle ran rfl
        | (obtain rfl := some.inj ran
           exact unbindVariable1_kept wf coherent own uncached)

theorem addCacheReference_kept (kind : ReferenceKind)
    (name : Symbol) (rooted : (P.blockEnvironment slot.1).rooted) (read : h.slot slot = .symbol symbol) :
    let h' := (addCacheReference P h (P.blockEnvironment slot.1) name slot kind).heap
    Kept P h h' ∧ ∃ c, Real h' c ∧ Recorded h' c kind name slot := by
  intro h'
  obtain ⟨cell, frame, found⟩ := findBindingCell_of_rooted (P := P) (h := h) rooted name
  have here : bindingCellOrNew P h (P.blockEnvironment slot.1) name = (cell, h) := by
    rw [bindingCellOrNew, found]
  obtain ⟨inv', _, c, h₀, guaranteed, value, extension, trapCache, free, reals, _, recorded⟩ :=
    addCacheReference_spec P wf.consistent wf.clean (P.blockEnvironment slot.1) name kind read
  rw [here] at guaranteed
  obtain ⟨_, own⟩ := findBindingCell_arrives found
  obtain ⟨_, shown⟩ := scanFrame_true_of_false wf.tidy own
  have tidy₀ := wf.tidy.congr (frameBindings_congr guaranteed.extension) guaranteed.free
  have coherent₀ : Coherent P h₀ := coherent.of_guaranteed wf.tidy guaranteed shown
  have lookups : ∀ environment symbol, bindingCache P h' environment symbol = bindingCache P h₀ environment symbol := by
    intro environment symbol
    rw [bindingCache, findBindingCell_unchanged fun other =>
      scanFrame_same (frameBindings_congr extension other) value symbol false]
    simp [h', bindingCache, cellCache, value, trapCache]
  have bound : bindingCache P h₀ (P.blockEnvironment slot.1) name = some c := by
    refine (bindingCache_eq_some P).mpr ⟨cell, ?_, guaranteed.cached⟩
    rw [findBindingCell_unchanged fun other => guaranteed.scans wf.tidy shown other name, found]
  have real : Real h' c := inv'.toStore.real_of_bindingCache P ((lookups _ _).trans bound)
  refine ⟨⟨tidy₀.congr (frameBindings_congr extension) free, ?_, ?_⟩,
    c, real, (recorded ((reals c).mp real) ..).mpr (.inr ⟨rfl, rfl, rfl, rfl⟩)⟩
  · intro c' k name' x r known
    rw [lookups]
    rcases (recorded ((reals c').mp r) k name' x).mp known with before | ⟨rfl, _, rfl, rfl⟩
    · exact coherent₀ ((reals c').mp r) before
    · exact bound
  · intro c' k name' x r known
    obtain ⟨c'', r₀, known₀⟩ := guaranteed.retains r known
    exact ⟨c'', (reals c'').mpr r₀, (recorded r₀ ..).mpr (.inl known₀)⟩

/-- A step keeps the heap well-formed, the references coherent, and all of them but those of a
reclaimed block. -/
theorem step_kept {call : Call}
    (met : legal P h call ∧ chained P call ∧ orderly P h call) (stepped : step P h call = some h') :
    (WellFormed P h' ∧ Coherent P h') ∧ ∀ {c kind name slot}, Real h c → Recorded h c kind name slot →
      call ≠ .reclaim slot.1 → ∃ c', Real h' c' ∧ Recorded h' c' kind name slot := by
  obtain ⟨inv', clean'⟩ := step_consistent P wf.consistent wf.clean met.1
    (harmless_of_stale P (fun _ => trivial) h call) stepped
  have finish : Kept P h h' → (WellFormed P h' ∧ Coherent P h') ∧ ∀ {c kind name slot}, Real h c →
      Recorded h c kind name slot → call ≠ .reclaim slot.1 → ∃ c', Real h' c' ∧ Recorded h' c' kind name slot :=
    fun kept => ⟨⟨⟨inv', clean', kept.tidy⟩, kept.coherent⟩, fun real recorded _ => kept.retains real recorded⟩
  cases call with
  | assign environment symbol value =>
    obtain rfl := some.inj stepped
    exact finish (assignVariable_kept wf coherent environment symbol (ne_expensive_of_storable met.1.2))
  | define environment symbol value =>
    obtain ⟨result, ran, rfl⟩ := map_eq_some_iff.mp stepped
    exact finish (defineVariable_kept wf coherent met.2.1 (ne_expensive_of_storable met.1.2)
      (storable_uncached met.1.2) none nofun met.2.2 ran)
  | link targetEnvironment targetSymbol sourceEnvironment sourceSymbol =>
    obtain ⟨result, ran, rfl⟩ := map_eq_some_iff.mp stepped
    exact finish (linkVariables_kept wf coherent met.2.1.1 met.2.2 ran)
  | unbind environment symbol =>
    obtain ⟨result, ran, rfl⟩ := map_eq_some_iff.mp stepped
    exact finish (unbindVariable_kept wf coherent met.2.1 met.2.2 ran)
  | cache kind name slot =>
    have kept := (addCacheReference_kept wf coherent kind name met.2.1 met.1.2).1
    cases kind <;> obtain rfl := some.inj stepped <;> exact finish kept
  | globalOperator name slot => exact met.2.1.elim
  | reclaim block =>
    obtain rfl := some.inj stepped
    have recorded := (reclaimBlock_consistent wf.consistent block).2
    refine ⟨⟨⟨inv', clean', wf.tidy.congr (fun _ => rfl) (Nat.le_refl _)⟩, ?_⟩, ?_⟩
    · intro c kind name slot real known
      have searches : ∀ environment,
          findBindingCell P (reclaimBlock h block) environment name = findBindingCell P h environment name :=
        findBindingCell_unchanged fun frame => by apply scanFrame_same <;> rfl
      exact bindingCache_kept (searches _) (fun _ _ cached => cached) (coherent real ((recorded ..).mp known).1)
    · intro c kind name slot real known other
      exact ⟨c, real, (recorded ..).mpr ⟨known, fun same => other (by rw [same])⟩⟩

end

/-- The slot of a reference holds the cache, for an assignment its clone, for an operator a link made from it. -/
def LeadsTo (h : Heap) (cache : CacheId) (slot : SlotId) : ReferenceKind → Prop
  | .lookup => h.slot slot = .cache cache
  | .assignment => h.slot slot = .cache (assignmentCache h cache)
  | .operator => ∃ value, h.slot slot = .uuoLink value cache

/-- The invariant of a run that starts with a compiled reference: as long as its block is alive it
is recorded. -/
structure Tracked (P : Program) (kind : ReferenceKind) (name : Symbol) (slot : SlotId) (past : List Call)
    (h : Heap) : Prop where
  wellFormed : WellFormed P h
  coherent : Coherent P h
  known : .reclaim slot.1 ∉ past → ∃ c, Real h c ∧ Recorded h c kind name slot

theorem Tracked.step {kind : ReferenceKind} {name : Symbol} {past : List Call} {call : Call}
    (tracked : Tracked P kind name slot past h) (met : legal P h call ∧ chained P call ∧ orderly P h call)
    (stepped : step P h call = some h') : Tracked P kind name slot (past ++ [call]) h' := by
  obtain ⟨⟨wf', coherent'⟩, retains⟩ := step_kept tracked.wellFormed tracked.coherent met stepped
  refine ⟨wf', coherent', fun alive => ?_⟩
  rw [List.mem_append, List.mem_singleton, not_or] at alive
  obtain ⟨c, real, recorded⟩ := tracked.known alive.1
  exact retains real recorded (.symm alive.2)

theorem tracked_of_compiled (wf : WellFormed P h) (coherent : Coherent P h) {kind : ReferenceKind} {name : Symbol}
    (met : legal P h (.cache kind name slot) ∧ chained P (.cache kind name slot) ∧ orderly P h (.cache kind name slot))
    (stepped : step P h (.cache kind name slot) = some h') : Tracked P kind name slot [] h' := by
  obtain ⟨wf', coherent'⟩ := (step_kept wf coherent met stepped).1
  refine ⟨wf', coherent', fun _ => ?_⟩
  have known := (addCacheReference_kept wf coherent kind name met.2.1 met.1.2).2
  cases kind <;> obtain rfl := some.inj stepped <;> exact known

theorem Initial.coherent (initial : Initial h) : Coherent P h := by
  intro c _ _ _ real
  exact absurd (initial.unallocated c) real

variable (P)

/-- In a run whose calls are all orderly, a reference leads to the cache of the binding that the
search for its name finds, from its compilation until its block is reclaimed. -/
theorem references_coherent {h₀ h : Heap} {before after : List Call} {kind : ReferenceKind} {name : Symbol}
    {slot : SlotId} (initial : Initial h₀) (tidy : Tidy P h₀)
    (ran : run (step P) (fun h call => legal P h call ∧ chained P call ∧ orderly P h call) h₀
      (before ++ .cache kind name slot :: after) = some h)
    (alive : .reclaim slot.1 ∉ after) :
    ∃ cell frame c, findBindingCell P h (P.blockEnvironment slot.1) name = (some cell, frame) ∧
      cellCache h cell = some c ∧ LeadsTo h c slot kind := by
  obtain ⟨m, ran, rest⟩ := run_append.mp ran
  obtain ⟨met, m', compiled, rest⟩ := run_cons.mp rest
  obtain ⟨wf, coherent⟩ : WellFormed P m ∧ Coherent P m :=
    run_invariant (fun h => WellFormed P h ∧ Coherent P h)
      (fun inv met stepped => (step_kept inv.1 inv.2 met stepped).1)
      ⟨⟨initial.consistent _, initial.clean, tidy⟩, initial.coherent⟩ ran
  have tracked : Tracked P kind name slot ([] ++ after) h :=
    run_history (Tracked P kind name slot) .step (tracked_of_compiled wf coherent met compiled) rest
  obtain ⟨c, real, recorded⟩ := tracked.known alive
  obtain ⟨cell, found, cached⟩ := (bindingCache_eq_some P).mp (tracked.coherent real recorded)
  refine ⟨cell, _, c, Prod.ext found rfl, cached, ?_⟩
  have held := tracked.wellFormed.consistent.holds real recorded id
  cases kind with
  | operator => exact held.imp fun _ => And.left
  | _ => exact held

end

/-- Block 0 is compiled in a child of the global frame, every other block in a child of a procedure
frame whose parameter is the variable 0. -/
def nestedProgram : Program where
  parameters := fun frame => if frame = .procedure 1 .global then [0] else []
  blockEnvironment := fun block => if block = 0 then .procedure 2 .global else .procedure 3 (.procedure 1 .global)

theorem globalHeap_tidy : Tidy nestedProgram globalHeap where
  parameters frame := by
    change (if frame = .procedure 1 .global then [0] else []).Nodup
    split <;> simp
  names _ := List.nodup_nil
  apart := nofun
  pairs := nofun
  allocated := nofun

theorem references_coherent_shadowed :
    ∃ h, run (step nestedProgram)
        (fun h call => legal nestedProgram h call ∧ chained nestedProgram call ∧ orderly nestedProgram h call)
        globalHeap [.cache .lookup 0 (0, 0), .define (.procedure 2 .global) 0 (.datum 7)] = some h ∧
      ∃ cell frame c, findBindingCell nestedProgram h (.procedure 2 .global) 0 = (some cell, frame) ∧
        cellCache h cell = some c ∧ h.slot (0, 0) = .cache c := by
  obtain ⟨h, ran⟩ : ∃ h, run (step nestedProgram)
      (fun h call => legal nestedProgram h call ∧ chained nestedProgram call ∧ orderly nestedProgram h call)
      globalHeap [.cache .lookup 0 (0, 0), .define (.procedure 2 .global) 0 (.datum 7)] = some h :=
    isSome_iff_exists.mp (by decide +kernel)
  have split : [.cache .lookup 0 (0, 0), .define (.procedure 2 .global) 0 (.datum 7)] =
      ([] : List Call) ++ .cache .lookup 0 (0, 0) :: [.define (.procedure 2 .global) 0 (.datum 7)] := rfl
  exact ⟨h, ran, references_coherent nestedProgram globalHeap_initial globalHeap_tidy (split ▸ ran) (by decide)⟩

/-- The global variable and the parameter are referenced and linked, so that the cache has two entries of one name. The
definition in the frame of block 0 does not move the reference that the second entry holds. -/
theorem reference_left_behind :
    ¬∀ (P : Program) (h₀ h : Heap) (before after : List Call) (kind : ReferenceKind) (name : Symbol) (slot : SlotId),
      Initial h₀ → Tidy P h₀ →
        run (step P) (fun h call => legal P h call ∧ chained P call) h₀ (before ++ .cache kind name slot :: after) =
          some h → .reclaim slot.1 ∉ after →
            ∃ cell frame c, findBindingCell P h (P.blockEnvironment slot.1) name = (some cell, frame) ∧
              cellCache h cell = some c ∧ LeadsTo h c slot kind := by
  intro coherent
  obtain ⟨h, ran, stale⟩ : ∃ h ∈ run (step nestedProgram)
      (fun h call => legal nestedProgram h call ∧ chained nestedProgram call) globalHeap
      [.cache .lookup 0 (0, 0), .cache .lookup 0 (1, 0), .link (.procedure 1 .global) 0 .global 0,
        .define (.procedure 2 .global) 0 (.datum 7)],
      ∀ c ∈ bindingCache nestedProgram h (.procedure 2 .global) 0, h.slot (0, 0) ≠ .cache c := by
    decide +kernel
  obtain ⟨cell, _, c, found, cached, held⟩ := coherent nestedProgram globalHeap h [] _ .lookup 0 (0, 0)
    globalHeap_initial globalHeap_tidy ran (by decide)
  exact stale c ((bindingCache_eq_some _).mpr ⟨cell, congrArg Prod.fst found, cached⟩) held

end MitScheme.Microcode.Lookup
