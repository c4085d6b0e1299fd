import Mathlib.Data.List.Basic

/-!
A conduit holds items between two ends. Nothing is lost, repeated or reordered when what it held followed by what was
given is what was taken followed by what it holds.
-/

namespace MitScheme.Library

section
variable {α : Type} {held given taken held' held'' given' taken' : List α}

def Conveys (held given taken held' : List α) : Prop := held ++ given = taken ++ held'

theorem Conveys.refl : Conveys held [] [] held := List.append_nil held

theorem Conveys.bypass : Conveys [] given given [] := (List.append_nil given).symm

theorem Conveys.trans (first : Conveys held given taken held') (second : Conveys held' given' taken' held'') :
    Conveys held (given ++ given') (taken ++ taken') held'' := by
  calc held ++ (given ++ given') = held ++ given ++ given' := (List.append_assoc _ _ _).symm
    _ = taken ++ (held' ++ given') := by rw [first, List.append_assoc]
    _ = taken ++ taken' ++ held'' := by rw [second, List.append_assoc]

theorem Conveys.from_empty (conveys : Conveys [] given taken held') : taken ++ held' = given :=
  conveys.symm

end

end MitScheme.Library
