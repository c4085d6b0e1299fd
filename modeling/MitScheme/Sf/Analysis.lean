import MitScheme.Sf.Expressions

/-!
Each analysis errs on the side of silence: it holds of an expression only where the text shows it.
-/

namespace MitScheme.Sf

namespace Expression

mutual

/-- The expression can be shown to return only `#f`. It is not shown to be free of side effects. -/
def alwaysFalse : Expression → Bool
  | access .. | assignment .. | delay _ | procedure .. | quotation _ | reference _ | theEnvironment => false
  | combination operator operands =>
    match operator, operands with
    | constant (.primitive .not), [operand] => neverFalse operand
    | procedure _ _ _ _ body, _ => alwaysFalse body
    | _, _ => false
  | conditional predicate consequent alternative =>
    (alwaysFalse predicate || alwaysFalse consequent) && (neverFalse predicate || alwaysFalse alternative)
  | constant value => value = .boolean false
  | declaration _ expression => alwaysFalse expression
  | disjunction predicate alternative => alwaysFalse predicate && alwaysFalse alternative
  | openBlock actions => alwaysFalseLastAction actions
  | sequence actions => alwaysFalseLast actions
termination_by structural e => e

/-- The expression can be shown never to return `#f`. -/
def neverFalse : Expression → Bool
  | access .. | assignment .. | quotation _ | reference _ => false
  | delay _ | procedure .. | theEnvironment => true
  | combination operator operands =>
    match operator, operands with
    | constant (.primitive .not), [operand] => alwaysFalse operand
    | procedure _ _ _ _ body, _ => neverFalse body
    | _, _ => false
  | conditional predicate consequent alternative =>
    (alwaysFalse predicate || neverFalse consequent) && (neverFalse predicate || neverFalse alternative)
  | constant value => value ≠ .boolean false
  | declaration _ expression => neverFalse expression
  | disjunction predicate alternative => neverFalse predicate || neverFalse alternative
  | openBlock actions => neverFalseLastAction actions
  | sequence actions => neverFalseLast actions
termination_by structural e => e

def alwaysFalseLast : List Expression → Bool
  | [] => false
  | [e] => alwaysFalse e
  | _ :: es => alwaysFalseLast es
termination_by structural es => es

def neverFalseLast : List Expression → Bool
  | [] => false
  | [e] => neverFalse e
  | _ :: es => neverFalseLast es
termination_by structural es => es

def alwaysFalseLastAction : List (Option Variable × Expression) → Bool
  | [] => false
  | [(none, e)] => alwaysFalse e
  | _ :: actions => alwaysFalseLastAction actions
termination_by structural actions => actions

def neverFalseLastAction : List (Option Variable × Expression) → Bool
  | [] => false
  | [(none, e)] => neverFalse e
  | _ :: actions => neverFalseLastAction actions
termination_by structural actions => actions

end

mutual

/-- The expression can be shown to return only `#t` or `#f`. The body of a known operator is never one of these objects.
-/
def boolean : Expression → Bool
  | combination operator operands => callToBooleanPredicate (combination operator operands)
  | conditional predicate consequent alternative =>
    (alwaysFalse predicate || boolean consequent) && (neverFalse predicate || boolean alternative)
  | constant value => value = .boolean false || value = .boolean true
  | declaration _ expression => boolean expression
  | disjunction predicate alternative => boolean predicate && (neverFalse predicate || boolean alternative)
  | openBlock actions => booleanLastAction actions
  | sequence actions => booleanLast actions
  | _ => false
termination_by structural e => e

def booleanLast : List Expression → Bool
  | [] => false
  | [e] => boolean e
  | _ :: es => booleanLast es
termination_by structural es => es

def booleanLastAction : List (Option Variable × Expression) → Bool
  | [] => false
  | [(none, e)] => boolean e
  | _ :: actions => booleanLastAction actions
termination_by structural actions => actions

end

mutual

/-- The evaluation of the expression has no side effects. Consing a promise or a closure is not one. -/
def effectFree : Expression → Bool
  | access environment _ => effectFree environment
  | combination operator operands =>
    effectFreeAll operands &&
      (callToEffectFreePrimitive (combination operator operands) ||
        match operator with
        | procedure _ _ _ _ body => effectFree body
        | _ => false)
  | conditional predicate consequent alternative =>
    effectFree predicate && (alwaysFalse predicate || effectFree consequent) &&
      (neverFalse predicate || effectFree alternative)
  | declaration _ expression => effectFree expression
  | disjunction predicate alternative => effectFree predicate && (neverFalse predicate || effectFree alternative)
  | sequence actions => effectFreeAll actions
  | constant _ | delay _ | procedure .. | reference _ | theEnvironment => true
  | assignment .. | openBlock _ | quotation _ => false
termination_by structural e => e

def effectFreeAll : List Expression → Bool
  | [] => true
  | e :: es => effectFree e && effectFreeAll es
termination_by structural es => es

end

mutual

/-- Every path through the expression returns `#f`, and none has side effects. -/
def pureFalse : Expression → Bool
  | combination operator operands =>
    match operator, operands with
    | constant (.primitive .not), [operand] => pureTrue operand
    | procedure _ _ _ _ body, operands => effectFreeAll operands && pureFalse body
    | _, _ => false
  | conditional predicate consequent alternative =>
    effectFree predicate && (alwaysFalse predicate || pureFalse consequent) &&
      (neverFalse predicate || pureFalse alternative)
  | constant value => value = .boolean false
  | declaration _ expression => pureFalse expression
  | disjunction predicate alternative => pureFalse predicate && pureFalse alternative
  | sequence actions => pureFalseLast actions
  | _ => false
termination_by structural e => e

/-- Every path through the expression returns `#t`, and none has side effects. -/
def pureTrue : Expression → Bool
  | combination operator operands =>
    match operator, operands with
    | constant (.primitive .not), [operand] => pureFalse operand
    | procedure _ _ _ _ body, operands => effectFreeAll operands && pureTrue body
    | _, _ => false
  | conditional predicate consequent alternative =>
    effectFree predicate && (alwaysFalse predicate || pureTrue consequent) &&
      (neverFalse predicate || pureTrue alternative)
  | constant value => value = .boolean true
  | declaration _ expression => pureTrue expression
  | disjunction predicate alternative => effectFree predicate && boolean predicate && pureTrue alternative
  | sequence actions => pureTrueLast actions
  | _ => false
termination_by structural e => e

def pureFalseLast : List Expression → Bool
  | [] => false
  | [e] => pureFalse e
  | e :: es => effectFree e && pureFalseLast es
termination_by structural es => es

def pureTrueLast : List Expression → Bool
  | [] => false
  | [e] => pureTrue e
  | e :: es => effectFree e && pureTrueLast es
termination_by structural es => es

end

theorem last_eq {α : Type} {last : List α → Bool} {test : α → Bool} (nil : last [] = false) (one : ∀ a, last [a] = test a)
    (more : ∀ first a rest, last (first :: a :: rest) = last (a :: rest)) : ∀ as, last as = as.getLast?.any test
  | [] => nil
  | [a] => one a
  | first :: a :: rest => by rw [more, last_eq nil one more (a :: rest), List.getLast?_cons_cons]

theorem alwaysFalseLast_eq : ∀ es, alwaysFalseLast es = es.getLast?.any alwaysFalse :=
  last_eq rfl (fun _ => rfl) fun _ _ _ => rfl

theorem alwaysFalseLastAction_eq : ∀ actions,
    alwaysFalseLastAction actions = actions.getLast?.any fun action => action.1.isNone && alwaysFalse action.2 :=
  last_eq rfl (by rintro ⟨_ | _, _⟩ <;> rfl) (by rintro ⟨_ | _, _⟩ _ _ <;> rfl)

theorem neverFalseLast_eq : ∀ es, neverFalseLast es = es.getLast?.any neverFalse :=
  last_eq rfl (fun _ => rfl) fun _ _ _ => rfl

theorem neverFalseLastAction_eq : ∀ actions,
    neverFalseLastAction actions = actions.getLast?.any fun action => action.1.isNone && neverFalse action.2 :=
  last_eq rfl (by rintro ⟨_ | _, _⟩ <;> rfl) (by rintro ⟨_ | _, _⟩ _ _ <;> rfl)

theorem booleanLast_eq : ∀ es, booleanLast es = es.getLast?.any boolean :=
  last_eq rfl (fun _ => rfl) fun _ _ _ => rfl

theorem booleanLastAction_eq : ∀ actions,
    booleanLastAction actions = actions.getLast?.any fun action => action.1.isNone && boolean action.2 :=
  last_eq rfl (by rintro ⟨_ | _, _⟩ <;> rfl) (by rintro ⟨_ | _, _⟩ _ _ <;> rfl)

theorem effectFreeAll_eq : ∀ es, effectFreeAll es = es.all effectFree
  | [] => rfl
  | e :: es => by rw [effectFreeAll, effectFreeAll_eq es, List.all_cons]

theorem pureFalseLast_eq : ∀ es, pureFalseLast es = (effectFreeAll es.dropLast && es.getLast?.any pureFalse)
  | [] => rfl
  | [_] => rfl
  | e :: e' :: es => by
    rw [pureFalseLast, pureFalseLast_eq (e' :: es), ← Bool.and_assoc]
    · rfl
    · simp

theorem pureTrueLast_eq : ∀ es, pureTrueLast es = (effectFreeAll es.dropLast && es.getLast?.any pureTrue)
  | [] => rfl
  | [_] => rfl
  | e :: e' :: es => by
    rw [pureTrueLast, pureTrueLast_eq (e' :: es), ← Bool.and_assoc]
    · rfl
    · simp

section
variable (declarations : ℕ) (e : Expression)

@[simp] theorem alwaysFalse_declaration : alwaysFalse (.declaration declarations e) = alwaysFalse e := by rw [alwaysFalse]

@[simp] theorem neverFalse_declaration : neverFalse (.declaration declarations e) = neverFalse e := by rw [neverFalse]

@[simp] theorem boolean_declaration : boolean (.declaration declarations e) = boolean e := by rw [boolean]

@[simp] theorem effectFree_declaration : effectFree (.declaration declarations e) = effectFree e := by rw [effectFree]

@[simp] theorem pureFalse_declaration : pureFalse (.declaration declarations e) = pureFalse e := by rw [pureFalse]

@[simp] theorem pureTrue_declaration : pureTrue (.declaration declarations e) = pureTrue e := by rw [pureTrue]

end

end Expression

end MitScheme.Sf
