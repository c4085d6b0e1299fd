import Mathlib.Data.Finset.Insert
import Mathlib.Data.Finset.Lattice.Basic
import Mathlib.Data.List.GetD

/-!
Expressions and statements of the compiler's register transfer language, the graph of basic blocks, and what a
path through it does to the machine.
-/

namespace MitScheme.Compiler.RtlOpt

inductive Register where
  | machine (number : ℕ)
  | pseudo (number : ℕ)
  deriving DecidableEq

/-- The arguments of an operator that are not expressions, such as the value of a constant, belong to it. -/
inductive Expression (op : Type) where
  | register (register : Register)
  | increment (pre : Bool) (address : Expression op) (number : ℤ)
  | compound (operator : op) (operands : List (Expression op))

/-- An assignment, or a statement or predicate of another type. -/
inductive Rtl (op : Type) where
  | assign (address expression : Expression op)
  | other (type : op) (operands : List (Expression op))

variable {op V M : Type}

mutual
def Expression.registers : Expression op → Finset ℕ
  | .register (.machine _) => ∅
  | .register (.pseudo n) => {n}
  | .increment _ address _ => address.registers
  | .compound _ operands => registersOf operands

def registersOf : List (Expression op) → Finset ℕ
  | [] => ∅
  | operand :: rest => operand.registers ∪ registersOf rest
end

mutual
def Expression.volatile : Expression op → Bool
  | .register _ => false
  | .increment .. => true
  | .compound _ operands => volatileOf operands

def volatileOf : List (Expression op) → Bool
  | [] => false
  | operand :: rest => operand.volatile || volatileOf rest
end

def Rtl.target : Rtl op → Option ℕ
  | .assign (.register (.pseudo n)) _ => some n
  | _ => none

/-- The pseudo-registers whose values a statement needs to be executed. -/
def Rtl.reads : Rtl op → Finset ℕ
  | .assign (.register _) expression => expression.registers
  | .assign address expression => address.registers ∪ expression.registers
  | .other _ operands => registersOf operands

/-- Whether a statement assigns a register a value whose computation has an effect. -/
def Rtl.volatile : Rtl op → Bool
  | .assign _ expression => expression.volatile
  | .other .. => false

/-- A predicate is the last instruction of a block that has two successors. -/
structure Bblock (op : Type) where
  instructions : List (Rtl op)
  next : List ℕ

structure Rgraph (op : Type) where
  bblocks : List (Bblock op)
  connected : ∀ bblock ∈ bblocks, ∀ b ∈ bblock.next, b < bblocks.length
  branches : ∀ bblock ∈ bblocks, 1 < bblock.next.length →
    ∃ before type operands, bblock.instructions = before ++ [.other type operands]

namespace Rgraph

variable (g : Rgraph op) (b : ℕ)

def bblock : Bblock op := g.bblocks.getD b ⟨[], []⟩

def nodes : List ℕ := List.range g.bblocks.length

def previous : List ℕ := g.nodes.filter fun p => b ∈ (g.bblock p).next

def Path : List ℕ → Prop := List.IsChain fun b b' => b' ∈ (g.bblock b).next

end Rgraph

theorem Rgraph.mem_nodes {g : Rgraph op} {b : ℕ} : b ∈ g.nodes ↔ b < g.bblocks.length := List.mem_range

theorem Rgraph.mem_previous {g : Rgraph op} {b p : ℕ} : p ∈ g.previous b ↔ p ∈ g.nodes ∧ b ∈ (g.bblock p).next := by
  simp [previous]

theorem Rgraph.bblock_outside {g : Rgraph op} {b : ℕ} (outside : b ∉ g.nodes) : g.bblock b = ⟨[], []⟩ := by
  apply List.getD_eq_default
  exact not_lt.mp fun inside => outside (mem_nodes.mpr inside)

theorem Rgraph.next_mem {g : Rgraph op} {b b' : ℕ} (next : b' ∈ (g.bblock b).next) : b ∈ g.nodes ∧ b' ∈ g.nodes := by
  have inside : b ∈ g.nodes := by
    by_contra outside
    rw [bblock_outside outside] at next
    exact nomatch next
  have bound := mem_nodes.mp inside
  refine ⟨inside, mem_nodes.mpr (g.connected (g.bblock b) ?_ b' next)⟩
  rw [bblock, List.getD_eq_getElem _ _ bound]
  exact List.getElem_mem bound

/-- Computing a value has no effect unless it increments a register. An increment is given the expression of the
register. -/
structure Machine (op V M : Type) where
  read : ℕ → M → V
  write : ℕ → V → M → M
  apply : op → List V → M → V
  increment : Bool → Expression op → ℤ → V → M → V × M
  store : Expression op → List V → V → M → M
  perform : op → List V → M → M

/-- The machine registers and memory, and the pseudo-registers. -/
structure State (V M : Type) where
  machine : M
  pseudo : ℕ → V

def State.setPseudo (s : State V M) (n : ℕ) (value : V) : State V M :=
  { s with pseudo := fun n' => if n' = n then value else s.pseudo n' }

section
variable (target : Machine op V M)

mutual
def evaluate (pseudo : ℕ → V) : Expression op → M → V × M
  | .register (.machine n), m => (target.read n m, m)
  | .register (.pseudo n), m => (pseudo n, m)
  | .increment pre address number, m =>
    let (value, m) := evaluate pseudo address m
    target.increment pre address number value m
  | .compound operator operands, m =>
    let (values, m) := evaluateAll pseudo operands m
    (target.apply operator values m, m)

def evaluateAll (pseudo : ℕ → V) : List (Expression op) → M → List V × M
  | [], m => ([], m)
  | operand :: rest, m =>
    let (value, m) := evaluate pseudo operand m
    let (values, m) := evaluateAll pseudo rest m
    (value :: values, m)
end

def Expression.operands : Expression op → List (Expression op)
  | .register _ => []
  | .increment _ address _ => [address]
  | .compound _ parts => parts

def execute (s : State V M) : Rtl op → State V M
  | .assign (.register (.machine n)) expression =>
    let (value, m) := evaluate target s.pseudo expression s.machine
    { s with machine := target.write n value m }
  | .assign (.register (.pseudo n)) expression =>
    let (value, m) := evaluate target s.pseudo expression s.machine
    State.setPseudo { s with machine := m } n value
  | .assign address expression =>
    let (value, m) := evaluate target s.pseudo expression s.machine
    let (values, m) := evaluateAll target s.pseudo address.operands m
    { s with machine := target.store address values value m }
  | .other type operands =>
    let (values, m) := evaluateAll target s.pseudo operands s.machine
    { s with machine := target.perform type values m }

def executeAll (s : State V M) (instructions : List (Rtl op)) : State V M := instructions.foldl (execute target) s

def follow (instructions : ℕ → List (Rtl op)) (s : State V M) (path : List ℕ) : State V M :=
  path.foldl (fun s b => executeAll target s (instructions b)) s

end

variable (target : Machine op V M) {pseudo pseudo' : ℕ → V} {s s' : State V M} {rtl : Rtl op}

def Agree (live : ℕ → Prop) (pseudo pseudo' : ℕ → V) : Prop := ∀ n, live n → pseudo n = pseudo' n

theorem Agree.mono {live live' : ℕ → Prop} (agree : Agree live pseudo pseudo') (part : ∀ n, live' n → live n) :
    Agree live' pseudo pseudo' := fun n member => agree n (part n member)

mutual
theorem evaluate_agree (e : Expression op) (m : M) (agree : Agree (· ∈ e.registers) pseudo pseudo') :
    evaluate target pseudo e m = evaluate target pseudo' e m := by
  cases e with
  | register register =>
    cases register with
    | machine n => rfl
    | pseudo n =>
      have same := agree n (Finset.mem_singleton_self n)
      simp only [evaluate, same]
  | increment pre address number =>
    have same := evaluate_agree address m agree
    simp only [evaluate, same]
  | compound operator operands =>
    have same := evaluateAll_agree operands m agree
    simp only [evaluate, same]

theorem evaluateAll_agree (operands : List (Expression op)) (m : M) (agree : Agree (· ∈ registersOf operands) pseudo pseudo') :
    evaluateAll target pseudo operands m = evaluateAll target pseudo' operands m := by
  cases operands with
  | nil => rfl
  | cons operand rest =>
    have first := fun m => evaluate_agree operand m (agree.mono fun n => Finset.mem_union_left _)
    have others := fun m => evaluateAll_agree rest m (agree.mono fun n => Finset.mem_union_right _)
    simp only [evaluateAll, first, others]
end

mutual
theorem evaluate_pure (e : Expression op) (m : M) (pure : e.volatile = false) : (evaluate target pseudo e m).2 = m := by
  cases e with
  | register register => cases register <;> rfl
  | increment pre address number => exact nomatch pure
  | compound operator operands => exact evaluateAll_pure operands m pure

theorem evaluateAll_pure (operands : List (Expression op)) (m : M) (pure : volatileOf operands = false) :
    (evaluateAll target pseudo operands m).2 = m := by
  cases operands with
  | nil => rfl
  | cons operand rest =>
    obtain ⟨first, others⟩ := Bool.or_eq_false_iff.mp pure
    have kept := evaluate_pure operand m first
    have keptRest := evaluateAll_pure rest m others
    simp only [evaluateAll, kept, keptRest]
end

theorem registersOf_operands (e : Expression op) : registersOf e.operands ⊆ e.registers := by
  cases e with
  | register register => exact Finset.empty_subset _
  | increment pre address number =>
    apply Finset.union_subset (Finset.Subset.refl _)
    exact Finset.empty_subset _
  | compound operator operands => exact Finset.Subset.refl _

theorem execute_agree (agree : Agree (· ∈ rtl.reads) s.pseudo s'.pseudo) (machine : s.machine = s'.machine) :
    (execute target s rtl).machine = (execute target s' rtl).machine ∧
      ∀ n, rtl.target = some n → (execute target s rtl).pseudo n = (execute target s' rtl).pseudo n := by
  obtain ⟨m, pseudo⟩ := s
  obtain ⟨m', pseudo'⟩ := s'
  obtain rfl : m = m' := machine
  cases rtl with
  | assign address expression =>
    cases address with
    | register register =>
      have same := fun m => evaluate_agree target expression m agree
      cases register with
      | machine n => exact ⟨by simp [execute, same], nofun⟩
      | pseudo n =>
        refine ⟨by simp [execute, State.setPseudo, same], ?_⟩
        intro n' isTarget
        obtain rfl := Option.some.inj isTarget
        simp only [execute, State.setPseudo, same]
        rfl
    | increment pre address number =>
      have same := fun m => evaluate_agree target expression m (agree.mono fun n => Finset.mem_union_right _)
      have sames := fun m => evaluateAll_agree target _ m
        (agree.mono fun n member => Finset.mem_union_left _ (registersOf_operands (.increment pre address number) member))
      exact ⟨by simp [execute, same, sames], nofun⟩
    | compound operator operands =>
      have same := fun m => evaluate_agree target expression m (agree.mono fun n => Finset.mem_union_right _)
      have sames := fun m => evaluateAll_agree target _ m
        (agree.mono fun n member => Finset.mem_union_left _ (registersOf_operands (.compound operator operands) member))
      exact ⟨by simp [execute, same, sames], nofun⟩
  | other type operands =>
    have sames := fun m => evaluateAll_agree target operands m agree
    exact ⟨by simp [execute, sames], nofun⟩

theorem execute_frame {n : ℕ} (other : rtl.target ≠ some n) : (execute target s rtl).pseudo n = s.pseudo n := by
  cases rtl with
  | assign address expression =>
    cases address with
    | register register =>
      cases register with
      | machine n' => rfl
      | pseudo n' =>
        have different : n ≠ n' := fun same => other (congrArg some same.symm)
        exact if_neg different
    | increment pre address number => rfl
    | compound operator operands => rfl
  | other type operands => rfl

theorem execute_pure {n : ℕ} (isTarget : rtl.target = some n) (pure : rtl.volatile = false) :
    (execute target s rtl).machine = s.machine := by
  cases rtl with
  | assign address expression =>
    cases address with
    | register register =>
      cases register with
      | machine n' => exact nomatch isTarget
      | pseudo n' => exact evaluate_pure target expression s.machine pure
    | increment pre address number => exact nomatch isTarget
    | compound operator operands => exact nomatch isTarget
  | other type operands => exact nomatch isTarget

end MitScheme.Compiler.RtlOpt
