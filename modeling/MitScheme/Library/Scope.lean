import Mathlib.Logic.Function.Basic

/-!
Lexical scoping over any frames: a partial map for each frame, and a chain of frames, nearest
first, in which a name denotes its binding in the first frame that binds it.
-/

namespace MitScheme.Library

namespace Scope

variable {φ κ ν : Type}

abbrev Maps (φ κ ν : Type) : Type := φ → κ → Option ν

def nearest (m : Maps φ κ ν) (chain : List φ) (name : κ) : Option φ :=
  chain.find? fun frame => (m frame name).isSome

def lookup (m : Maps φ κ ν) (chain : List φ) (name : κ) : Option ν :=
  (nearest m chain name).bind fun frame => m frame name

section
variable [DecidableEq φ] [DecidableEq κ]

def set (m : Maps φ κ ν) (frame : φ) (name : κ) (binding : Option ν) : Maps φ κ ν :=
  fun frame' name' => if frame' = frame ∧ name' = name then binding else m frame' name'

def define (m : Maps φ κ ν) (frame : φ) (name : κ) (value : ν) : Maps φ κ ν :=
  set m frame name (some value)

def assign (m : Maps φ κ ν) (chain : List φ) (name : κ) (value : ν) : Maps φ κ ν :=
  match nearest m chain name with
  | some frame => set m frame name (some value)
  | none => m

def unbind (m : Maps φ κ ν) (chain : List φ) (name : κ) : Maps φ κ ν :=
  match nearest m chain name with
  | some frame => set m frame name none
  | none => m

theorem eq_set {m m' : Maps φ κ ν} {frame : φ} {name : κ} {binding : Option ν} (here : m' frame name = binding)
    (others : ∀ frame' name', ¬(frame' = frame ∧ name' = name) → m' frame' name' = m frame' name') :
    m' = set m frame name binding := by
  funext frame' name'
  unfold set
  split
  · rename_i same
    rw [same.1, same.2, here]
  · rename_i different
    exact others frame' name' different

end

variable {m : Maps φ κ ν} {frame : φ} {chain : List φ} {name : κ}

theorem nearest_cons_of_bound (bound : (m frame name).isSome) : nearest m (frame :: chain) name = some frame :=
  List.find?_cons_of_pos bound

theorem nearest_cons_of_unbound (unbound : m frame name = none) :
    nearest m (frame :: chain) name = nearest m chain name :=
  List.find?_cons_of_neg (by simp [unbound])

theorem lookup_eq (found : nearest m chain name = some frame) : lookup m chain name = m frame name := by
  rw [lookup, found]
  rfl

theorem nearest_singleton : nearest m [frame] name = if (m frame name).isSome then some frame else none := by
  rw [nearest, List.find?_cons]
  cases (m frame name).isSome <;> rfl

end Scope

end MitScheme.Library
