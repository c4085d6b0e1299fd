import MitScheme.Sf.Analysis
import MitScheme.Sf.Evaluation
import Mathlib.Data.List.Basic

namespace MitScheme.Sf

open Library (Outcome Evaluation)
open Bool (and_eq_true or_eq_true)
open Library.Evaluation (Returns Quiet ofOption inSomeOrder inSomeOrder_returns inSomeOrder_quiet)
open Expression List

namespace World

variable {w : World}

/-- The history says what an evaluation has done, so that `Quiet` means that it has done nothing, and has ended. -/
structure Sound (w : World) (e : Expression) : Prop where
  alwaysFalse : e.alwaysFalse → ∀ env, Returns (w.evaluate e env) (· = .boolean false)
  neverFalse : e.neverFalse → ∀ env, Returns (w.evaluate e env) (· ≠ .boolean false)
  boolean : e.boolean → ∀ env, Returns (w.evaluate e env) (fun v => ∃ b, v = .boolean b)
  effectFree : e.effectFree → ∀ env, Quiet (w.evaluate e env)
  pureFalse : e.pureFalse → ∀ env, Quiet (w.evaluate e env) ∧ Returns (w.evaluate e env) (· = .boolean false)
  pureTrue : e.pureTrue → ∀ env, Quiet (w.evaluate e env) ∧ Returns (w.evaluate e env) (· = .boolean true)

theorem Sound.judged {e : Expression} (sound : Sound w e) (env : Env) :
    Returns (w.evaluate e env) fun v => (e.alwaysFalse → v = .boolean false) ∧ (e.neverFalse → v ≠ .boolean false) := by
  intro h v h' value
  constructor
  · intro holds
    exact sound.alwaysFalse holds env h v h' value
  · intro holds
    exact sound.neverFalse holds env h v h' value

theorem now_quiet : Quiet now := fun h => .inl ⟨h, rfl⟩

theorem evaluations_eq (es : List Expression) (env : Env) : w.evaluations es env = es.map fun e => w.evaluate e env := by
  induction es with
  | nil => rfl
  | cons e es ih => simp [evaluations, ih]

theorem evaluations_length (es : List Expression) (env : Env) : (w.evaluations es env).length = es.length := by
  simp [evaluations_eq]

theorem operands_quiet {operands : List Expression} {env : Env} (quiet : ∀ e ∈ operands, Quiet (w.evaluate e env)) :
    Quiet (inSomeOrder w.pick operands.length (w.evaluations operands env)) := by
  apply inSomeOrder_quiet w.pick (evaluations_length operands env)
  rw [evaluations_eq]
  intro m among
  obtain ⟨e, member, rfl⟩ := mem_map.mp among
  exact quiet e member

section Branches

variable {predicate consequent alternative : Expression} {P : Value → Prop} {env : Env}

theorem conditional_returns (sound : Sound w predicate)
    (consequent_returns : predicate.alwaysFalse ∨ Returns (w.evaluate consequent env) P)
    (alternative_returns : predicate.neverFalse ∨ Returns (w.evaluate alternative env) P) :
    Returns (w.evaluate (.conditional predicate consequent alternative) env) P := by
  refine .bind (sound.judged env) fun v possible => ?_
  by_cases isFalse : v = .boolean false
  · rw [if_pos isFalse]
    exact alternative_returns.resolve_left fun holds => possible.2 holds isFalse
  · rw [if_neg isFalse]
    exact consequent_returns.resolve_left fun holds => isFalse (possible.1 holds)

theorem conditional_quiet (sound : Sound w predicate) (first : Quiet (w.evaluate predicate env))
    (consequent_quiet : predicate.alwaysFalse ∨ Quiet (w.evaluate consequent env))
    (alternative_quiet : predicate.neverFalse ∨ Quiet (w.evaluate alternative env)) :
    Quiet (w.evaluate (.conditional predicate consequent alternative) env) := by
  refine .bind (sound.judged env) first fun v possible => ?_
  by_cases isFalse : v = .boolean false
  · rw [if_pos isFalse]
    exact alternative_quiet.resolve_left fun holds => possible.2 holds isFalse
  · rw [if_neg isFalse]
    exact consequent_quiet.resolve_left fun holds => isFalse (possible.1 holds)

theorem disjunction_returns {Q : Value → Prop} (first : Returns (w.evaluate predicate env) Q)
    (kept : ∀ v, Q v → v ≠ .boolean false → P v)
    (second : (∀ v, Q v → v ≠ .boolean false) ∨ Returns (w.evaluate alternative env) P) :
    Returns (w.evaluate (.disjunction predicate alternative) env) P := by
  refine .bind first fun v holds => ?_
  by_cases isFalse : v = .boolean false
  · rw [if_pos isFalse]
    exact second.resolve_left fun never => never v holds isFalse
  · rw [if_neg isFalse]
    exact .pure (kept v holds isFalse)

theorem disjunction_quiet (sound : Sound w predicate) (first : Quiet (w.evaluate predicate env))
    (second : predicate.neverFalse ∨ Quiet (w.evaluate alternative env)) :
    Quiet (w.evaluate (.disjunction predicate alternative) env) := by
  refine .bind (sound.judged env) first fun v possible => ?_
  by_cases isFalse : v = .boolean false
  · rw [if_pos isFalse]
    exact second.resolve_left fun holds => possible.2 holds isFalse
  · rw [if_neg isFalse]
    exact .pure v

end Branches

section Calls

variable {P : Value → Prop} {env : Env} {operands : List Expression}

theorem applyPrimitive_of_answer {p : Primitive} (notApply : p ≠ .apply) (known : ∀ number, p ≠ .other number)
    (vs : List Value) : w.applyPrimitive p vs = w.trace p vs >>= fun _ => ofOption (w.answer p vs) := by
  unfold applyPrimitive
  split
  · exact absurd rfl notApply
  · exact absurd rfl (known _)
  · rfl

theorem predicate_returns {p : Primitive} (known : p ∈ primitiveBooleanPredicates) (vs : List Value) :
    Returns (w.applyPrimitive p vs) fun v => ∃ b, v = .boolean b := by
  have notApply : p ≠ .apply := by
    rintro rfl
    simp [primitiveBooleanPredicates] at known
  have notOther : ∀ number, p ≠ .other number := by
    rintro number rfl
    simp [primitiveBooleanPredicates] at known
  rw [applyPrimitive_of_answer notApply notOther]
  apply Returns.bind_any
  intro _
  apply Returns.ofOption
  intro v answer
  simp only [Machine.answer, if_pos known] at answer
  split at answer
  · obtain ⟨b, _, rfl⟩ := Option.map_eq_some_iff.mp answer
    exact ⟨b, rfl⟩
  · cases answer

theorem effectFreePrimitive_quiet {p : Primitive} (free : p ∈ effectFreePrimitives) (vs : List Value) :
    Quiet (w.applyPrimitive p vs) := by
  have notApply : p ≠ .apply := by
    rintro rfl
    simp [effectFreePrimitives] at free
  have notOther : ∀ number, p ≠ .other number := by
    rintro number rfl
    simp [effectFreePrimitives] at free
  rw [applyPrimitive_of_answer notApply notOther, World.trace, if_neg fun noted => noted.1 free]
  exact .bind_any (.pure _) fun _ => .ofOption _

theorem primitive_returns {p : Primitive} (returns : ∀ vs, Returns (w.applyPrimitive p vs) P) :
    Returns (w.evaluate (.combination (.constant (.primitive p)) operands) env) P := by
  exact .bind_any returns

theorem primitive_quiet {p : Primitive} (operands_quiet' : ∀ e ∈ operands, Quiet (w.evaluate e env))
    (quiet : ∀ vs, Quiet (w.applyPrimitive p vs)) :
    Quiet (w.evaluate (.combination (.constant (.primitive p)) operands) env) := by
  exact .bind_any (operands_quiet operands_quiet') quiet

theorem not_returns {operand : Expression} (returns : Returns (w.evaluate operand env) P) :
    Returns (w.evaluate (.combination (.constant (.primitive .not)) [operand]) env) fun v =>
      ∃ a, P a ∧ v = .boolean (a = .boolean false) := by
  refine .bind (inSomeOrder_returns w.pick (evaluations_length [operand] env)) fun vs values => ?_
  cases values with
  | cons first rest =>
    cases rest
    obtain ⟨h, h', value⟩ := first
    apply Returns.bind_any
    intro _
    apply Returns.consult
    intro h v answer
    cases answer
    exact ⟨_, returns _ _ _ value, rfl⟩

section Known

variable {safe : Bool} {required optional : List Variable} {rest : Option Variable} {body : Expression}

theorem known_returns (returns : ∀ inner, Returns (w.evaluate body inner) P) :
    Returns (w.evaluate (.combination (.procedure safe required optional rest body) operands) env) P := by
  apply Returns.bind_any
  intro vs
  apply Returns.bind_any
  intro h
  exact .bind_any returns

theorem known_quiet (operands_quiet' : ∀ e ∈ operands, Quiet (w.evaluate e env))
    (quiet : ∀ inner, Quiet (w.evaluate body inner)) :
    Quiet (w.evaluate (.combination (.procedure safe required optional rest body) operands) env) := by
  apply Quiet.bind_any (operands_quiet operands_quiet')
  intro vs
  apply Quiet.bind_any now_quiet
  intro h
  exact .bind_any (.ofOption _) quiet

end Known

end Calls

section Sequences

variable {P : Value → Prop} {env : Env}

theorem sequence_returns : ∀ {es : List Expression} {last : Expression}, es.getLast? = some last →
    Returns (w.evaluate last env) P → Returns (w.evaluateSequence es env) P
  | [], _, ends, _ => by simp at ends
  | [e], _, ends, returns => by
    simp only [getLast?_singleton, Option.some.injEq] at ends
    rw [ends]
    exact returns
  | e :: e' :: es, _, ends, returns => by
    rw [evaluateSequence]
    · apply Returns.bind_any
      intro _
      exact sequence_returns ends returns
    · simp

theorem sequence_quiet : ∀ {es : List Expression}, (∀ e ∈ es, Quiet (w.evaluate e env)) →
    Quiet (w.evaluateSequence es env)
  | [], _ => .fail
  | [e], quiet => by
    exact quiet e mem_cons_self
  | e :: e' :: es, quiet => by
    rw [evaluateSequence]
    · apply Quiet.bind_any (quiet e mem_cons_self)
      intro _
      exact sequence_quiet fun e among => quiet e (mem_cons_of_mem _ among)
    · simp

theorem actions_returns : ∀ {actions : List (Option Variable × Expression)} {last : Expression},
    actions.getLast? = some (none, last) → Returns (w.evaluate last env) P → Returns (w.evaluateActions actions env) P
  | [], _, ends, _ => by simp at ends
  | [(some name, e)], _, ends, _ => by simp at ends
  | [(none, e)], _, ends, returns => by
    simp only [getLast?_singleton, Option.some.injEq, Prod.mk.injEq, true_and] at ends
    rw [ends]
    exact .bind returns fun v => .pure
  | (none, e) :: action :: actions, _, ends, returns => by
    exact .bind_any fun _ => actions_returns ends returns
  | (some name, e) :: action :: actions, _, ends, returns => by
    exact .bind_any fun _ => .bind_any fun _ => actions_returns ends returns

end Sequences

theorem Sound.silent {e : Expression}
    (values : e.alwaysFalse = false ∧ e.neverFalse = false ∧ e.boolean = false ∧ e.pureFalse = false ∧ e.pureTrue = false)
    (quiet : e.effectFree → ∀ env, Quiet (w.evaluate e env)) : Sound w e where
  alwaysFalse holds := by simp [values] at holds
  neverFalse holds := by simp [values] at holds
  boolean holds := by simp [values] at holds
  effectFree := quiet
  pureFalse holds := by simp [values] at holds
  pureTrue holds := by simp [values] at holds

theorem Sound.object {e : Expression} {type : ℕ} (creates : ∀ env, w.evaluate e env = do
      let h ← now
      pure (.object type (w.identity e env h)))
    (values : e.alwaysFalse = false ∧ e.boolean = false ∧ e.pureFalse = false ∧ e.pureTrue = false) : Sound w e where
  alwaysFalse holds := by simp [values] at holds
  neverFalse _ env := by
    rw [creates]
    exact .bind_any fun h => .pure (by simp)
  boolean holds := by simp [values] at holds
  effectFree _ env := by
    rw [creates]
    exact .bind_any now_quiet fun h => .pure _
  pureFalse holds := by simp [values] at holds
  pureTrue holds := by simp [values] at holds

theorem sound_access (environment : Expression) (name : ℕ) (sound : Sound w environment) :
    Sound w (.access environment name) := by
  apply Sound.silent (by simp [alwaysFalse, neverFalse, boolean, pureFalse, pureTrue])
  intro free env
  exact .bind_any (sound.effectFree (by simpa [effectFree] using free) env) fun _ => .consult _

theorem sound_assignment (target : Variable) (value : Expression) (_ : Sound w value) :
    Sound w (.assignment target value) := by
  apply Sound.silent (by simp [alwaysFalse, neverFalse, boolean, pureFalse, pureTrue])
  intro free
  simp [effectFree] at free

theorem sound_quotation (expression : Expression) (_ : Sound w expression) : Sound w (.quotation expression) := by
  apply Sound.silent (by simp [alwaysFalse, neverFalse, boolean, pureFalse, pureTrue])
  intro free
  simp [effectFree] at free

theorem sound_reference (name : Variable) : Sound w (.reference name) := by
  apply Sound.silent (by simp [alwaysFalse, neverFalse, boolean, pureFalse, pureTrue])
  intro _ env
  exact .consult _

theorem sound_delay (expression : Expression) (_ : Sound w expression) : Sound w (.delay expression) := by
  apply Sound.object fun env => by rw [evaluate]
  simp [alwaysFalse, boolean, pureFalse, pureTrue]

theorem sound_procedure (safe : Bool) (required optional : List Variable) (rest : Option Variable) (body : Expression)
    (_ : Sound w body) : Sound w (.procedure safe required optional rest body) := by
  apply Sound.object fun env => by rw [evaluate]
  simp [alwaysFalse, boolean, pureFalse, pureTrue]

theorem sound_theEnvironment : Sound w .theEnvironment := by
  apply Sound.object fun env => by rw [evaluate]
  simp [alwaysFalse, boolean, pureFalse, pureTrue]

theorem sound_constant (value : Value) : Sound w (.constant value) := by
  have only : ∀ {P : Value → Prop}, P value → ∀ env, Returns (w.evaluate (.constant value) env) P := by
    intro P holds env
    exact .pure holds
  have quiet : ∀ env, Quiet (w.evaluate (.constant value) env) := by
    intro env
    exact .pure value
  constructor
  case alwaysFalse => exact fun holds => only (by simpa [alwaysFalse] using holds)
  case neverFalse => exact fun holds => only (by simpa [neverFalse] using holds)
  case boolean =>
    intro holds
    apply only
    rcases (by simpa [boolean] using holds : value = .boolean false ∨ value = .boolean true) with rfl | rfl
    · exact ⟨false, rfl⟩
    · exact ⟨true, rfl⟩
  case effectFree => exact fun _ => quiet
  case pureFalse => exact fun holds env => ⟨quiet env, only (by simpa [pureFalse] using holds) env⟩
  case pureTrue => exact fun holds env => ⟨quiet env, only (by simpa [pureTrue] using holds) env⟩

theorem sound_declaration (declarations : ℕ) (expression : Expression) (sound : Sound w expression) :
    Sound w (.declaration declarations expression) := by
  constructor <;> intro holds env
  case alwaysFalse => exact sound.alwaysFalse (by simpa using holds) env
  case neverFalse => exact sound.neverFalse (by simpa using holds) env
  case boolean => exact sound.boolean (by simpa using holds) env
  case effectFree => exact sound.effectFree (by simpa using holds) env
  case pureFalse => exact sound.pureFalse (by simpa using holds) env
  case pureTrue => exact sound.pureTrue (by simpa using holds) env

theorem sound_conditional (predicate consequent alternative : Expression) (sound : Sound w predicate)
    (sound' : Sound w consequent) (sound'' : Sound w alternative) :
    Sound w (.conditional predicate consequent alternative) := by
  constructor <;> intro holds env
  case alwaysFalse =>
    simp only [alwaysFalse, and_eq_true, or_eq_true] at holds
    refine conditional_returns sound ?_ ?_
    · exact holds.1.imp_right fun always => sound'.alwaysFalse always env
    · exact holds.2.imp_right fun always => sound''.alwaysFalse always env
  case neverFalse =>
    simp only [neverFalse, and_eq_true, or_eq_true] at holds
    refine conditional_returns sound ?_ ?_
    · exact holds.1.imp_right fun never => sound'.neverFalse never env
    · exact holds.2.imp_right fun never => sound''.neverFalse never env
  case boolean =>
    simp only [boolean, and_eq_true, or_eq_true] at holds
    refine conditional_returns sound ?_ ?_
    · exact holds.1.imp_right fun boolean => sound'.boolean boolean env
    · exact holds.2.imp_right fun boolean => sound''.boolean boolean env
  case effectFree =>
    simp only [effectFree, and_eq_true, or_eq_true] at holds
    refine conditional_quiet sound (sound.effectFree holds.1.1 env) ?_ ?_
    · exact holds.1.2.imp_right fun free => sound'.effectFree free env
    · exact holds.2.imp_right fun free => sound''.effectFree free env
  case pureFalse =>
    simp only [pureFalse, and_eq_true, or_eq_true] at holds
    constructor
    · refine conditional_quiet sound (sound.effectFree holds.1.1 env) ?_ ?_
      · exact holds.1.2.imp_right fun pure => (sound'.pureFalse pure env).1
      · exact holds.2.imp_right fun pure => (sound''.pureFalse pure env).1
    · refine conditional_returns sound ?_ ?_
      · exact holds.1.2.imp_right fun pure => (sound'.pureFalse pure env).2
      · exact holds.2.imp_right fun pure => (sound''.pureFalse pure env).2
  case pureTrue =>
    simp only [pureTrue, and_eq_true, or_eq_true] at holds
    constructor
    · refine conditional_quiet sound (sound.effectFree holds.1.1 env) ?_ ?_
      · exact holds.1.2.imp_right fun pure => (sound'.pureTrue pure env).1
      · exact holds.2.imp_right fun pure => (sound''.pureTrue pure env).1
    · refine conditional_returns sound ?_ ?_
      · exact holds.1.2.imp_right fun pure => (sound'.pureTrue pure env).2
      · exact holds.2.imp_right fun pure => (sound''.pureTrue pure env).2

theorem sound_disjunction (predicate alternative : Expression) (sound : Sound w predicate) (sound' : Sound w alternative) :
    Sound w (.disjunction predicate alternative) := by
  constructor <;> intro holds env
  case alwaysFalse =>
    simp only [alwaysFalse, and_eq_true] at holds
    refine disjunction_returns (sound.alwaysFalse holds.1 env) ?_ ?_
    · exact fun v isFalse _ => isFalse
    · exact .inr (sound'.alwaysFalse holds.2 env)
  case neverFalse =>
    simp only [neverFalse, or_eq_true] at holds
    refine disjunction_returns (sound.judged env) ?_ ?_
    · exact fun v _ kept => kept
    · exact holds.imp (fun never v judged => judged.2 never) fun never => sound'.neverFalse never env
  case boolean =>
    simp only [boolean, and_eq_true, or_eq_true] at holds
    have both : Returns (w.evaluate predicate env) fun v =>
        (∃ b, v = .boolean b) ∧ (predicate.neverFalse → v ≠ .boolean false) :=
      fun h v h' value => ⟨sound.boolean holds.1 env h v h' value, (sound.judged env h v h' value).2⟩
    refine disjunction_returns both ?_ ?_
    · exact fun v boolean _ => boolean.1
    · exact holds.2.imp (fun never v judged => judged.2 never) fun boolean => sound'.boolean boolean env
  case effectFree =>
    simp only [effectFree, and_eq_true, or_eq_true] at holds
    refine disjunction_quiet sound (sound.effectFree holds.1 env) ?_
    exact holds.2.imp_right fun free => sound'.effectFree free env
  case pureFalse =>
    simp only [pureFalse, and_eq_true] at holds
    constructor
    · exact disjunction_quiet sound (sound.pureFalse holds.1 env).1 (.inr (sound'.pureFalse holds.2 env).1)
    · refine disjunction_returns (sound.pureFalse holds.1 env).2 ?_ ?_
      · exact fun v isFalse _ => isFalse
      · exact .inr (sound'.pureFalse holds.2 env).2
  case pureTrue =>
    simp only [pureTrue, and_eq_true] at holds
    constructor
    · exact disjunction_quiet sound (sound.effectFree holds.1.1 env) (.inr (sound'.pureTrue holds.2 env).1)
    · refine disjunction_returns (sound.boolean holds.1.2 env) ?_ ?_
      · rintro v ⟨b, rfl⟩ kept
        cases b
        · exact absurd rfl kept
        · rfl
      · exact .inr (sound'.pureTrue holds.2 env).2

theorem sound_sequence (es : List Expression) (sound : ∀ e ∈ es, Sound w e) : Sound w (.sequence es) := by
  have last : ∀ {judge : Expression → Bool}, es.getLast?.any judge →
      ∃ e ∈ es, es.getLast? = some e ∧ judge e := by
    intro judge holds
    obtain ⟨e, ends, holds⟩ := (Option.any_eq_true _ _).mp holds
    exact ⟨e, mem_of_getLast? ends, ends, holds⟩
  have quietLast : ∀ {judge : Expression → Bool} {env : Env}, (∀ e ∈ es, judge e → Quiet (w.evaluate e env)) →
      effectFreeAll es.dropLast → es.getLast?.any judge → Quiet (w.evaluateSequence es env) := by
    intro judge env judged free holds
    obtain ⟨e, among, ends, holds⟩ := last holds
    have split := dropLast_append_getLast? e ends
    apply sequence_quiet
    intro e' among'
    rw [← split, mem_append, mem_singleton] at among'
    rcases among' with before | rfl
    · rw [effectFreeAll_eq, all_eq_true] at free
      exact (sound e' (dropLast_subset _ before)).effectFree (free e' before) env
    · exact judged e' among holds
  constructor <;> intro holds env
  case alwaysFalse =>
    rw [alwaysFalse, alwaysFalseLast_eq] at holds
    obtain ⟨e, among, ends, holds⟩ := last holds
    exact sequence_returns ends ((sound e among).alwaysFalse holds env)
  case neverFalse =>
    rw [neverFalse, neverFalseLast_eq] at holds
    obtain ⟨e, among, ends, holds⟩ := last holds
    exact sequence_returns ends ((sound e among).neverFalse holds env)
  case boolean =>
    rw [boolean, booleanLast_eq] at holds
    obtain ⟨e, among, ends, holds⟩ := last holds
    exact sequence_returns ends ((sound e among).boolean holds env)
  case effectFree =>
    rw [effectFree, effectFreeAll_eq, all_eq_true] at holds
    exact sequence_quiet fun e among => (sound e among).effectFree (holds e among) env
  case pureFalse =>
    rw [pureFalse, pureFalseLast_eq, and_eq_true] at holds
    obtain ⟨e, among, ends, pure⟩ := last holds.2
    exact ⟨quietLast (fun e among pure => ((sound e among).pureFalse pure env).1) holds.1 holds.2,
      sequence_returns ends ((sound e among).pureFalse pure env).2⟩
  case pureTrue =>
    rw [pureTrue, pureTrueLast_eq, and_eq_true] at holds
    obtain ⟨e, among, ends, pure⟩ := last holds.2
    exact ⟨quietLast (fun e among pure => ((sound e among).pureTrue pure env).1) holds.1 holds.2,
      sequence_returns ends ((sound e among).pureTrue pure env).2⟩

theorem sound_openBlock (actions : List (Option Variable × Expression)) (sound : ∀ action ∈ actions, Sound w action.2) :
    Sound w (.openBlock actions) := by
  have last : ∀ {judge : Expression → Bool}, (actions.getLast?.any fun action => action.1.isNone && judge action.2) →
      ∃ e, actions.getLast? = some (none, e) ∧ Sound w e ∧ judge e := by
    intro judge holds
    obtain ⟨⟨name, e⟩, ends, holds⟩ := (Option.any_eq_true _ _).mp holds
    simp only [and_eq_true, Option.isNone_iff_eq_none] at holds
    obtain ⟨rfl, holds⟩ := holds
    exact ⟨e, ends, sound _ (mem_of_getLast? ends), holds⟩
  constructor <;> intro holds env
  case alwaysFalse =>
    rw [alwaysFalse, alwaysFalseLastAction_eq] at holds
    obtain ⟨e, ends, sound, holds⟩ := last holds
    exact .bind_any fun h => actions_returns ends (sound.alwaysFalse holds _)
  case neverFalse =>
    rw [neverFalse, neverFalseLastAction_eq] at holds
    obtain ⟨e, ends, sound, holds⟩ := last holds
    exact .bind_any fun h => actions_returns ends (sound.neverFalse holds _)
  case boolean =>
    rw [boolean, booleanLastAction_eq] at holds
    obtain ⟨e, ends, sound, holds⟩ := last holds
    exact .bind_any fun h => actions_returns ends (sound.boolean holds _)
  case effectFree => simp [effectFree] at holds
  case pureFalse => simp [pureFalse] at holds
  case pureTrue => simp [pureTrue] at holds

theorem sound_call (p : Primitive) (operands : List Expression) (sound : ∀ e ∈ operands, Sound w e) :
    Sound w (.combination (.constant (.primitive p)) operands) := by
  constructor <;> intro holds env
  case alwaysFalse =>
    unfold alwaysFalse at holds
    split at holds
    case h_1 operand call =>
      cases call
      refine .mono (not_returns ((sound _ mem_cons_self).neverFalse holds env)) ?_
      rintro v ⟨a, notFalse, rfl⟩
      simp [notFalse]
    case h_2 call => cases call
    case h_3 => cases holds
  case neverFalse =>
    unfold neverFalse at holds
    split at holds
    case h_1 operand call =>
      cases call
      refine .mono (not_returns ((sound _ mem_cons_self).alwaysFalse holds env)) ?_
      simp
    case h_2 call => cases call
    case h_3 => cases holds
  case boolean =>
    simp only [boolean, callToBooleanPredicate, callTo, and_eq_true, decide_eq_true_eq] at holds
    exact primitive_returns fun vs => predicate_returns holds.1 vs
  case effectFree =>
    simp only [effectFree, callToEffectFreePrimitive, callTo, and_eq_true, Bool.or_false,
      decide_eq_true_eq, effectFreeAll_eq, all_eq_true] at holds
    exact primitive_quiet (fun e among => (sound e among).effectFree (holds.1 e among) env) (effectFreePrimitive_quiet holds.2.1)
  case pureFalse =>
    unfold pureFalse at holds
    split at holds
    case h_1 operand call =>
      cases call
      have pure := (sound _ mem_cons_self).pureTrue holds env
      constructor
      · refine primitive_quiet ?_ (effectFreePrimitive_quiet (by decide))
        simpa using pure.1
      · refine .mono (not_returns pure.2) ?_
        rintro v ⟨a, rfl, rfl⟩
        rfl
    case h_2 call => cases call
    case h_3 => cases holds
  case pureTrue =>
    unfold pureTrue at holds
    split at holds
    case h_1 operand call =>
      cases call
      have pure := (sound _ mem_cons_self).pureFalse holds env
      constructor
      · refine primitive_quiet ?_ (effectFreePrimitive_quiet (by decide))
        simpa using pure.1
      · refine .mono (not_returns pure.2) ?_
        rintro v ⟨a, rfl, rfl⟩
        rfl
    case h_2 call => cases call
    case h_3 => cases holds

theorem sound_known (safe : Bool) (required optional : List Variable) (rest : Option Variable) (body : Expression)
    (operands : List Expression) (sound : Sound w body) (sound' : ∀ e ∈ operands, Sound w e) :
    Sound w (.combination (.procedure safe required optional rest body) operands) := by
  have quiet : ∀ {env}, effectFreeAll operands → ∀ e ∈ operands, Quiet (w.evaluate e env) := by
    intro env free e among
    rw [effectFreeAll_eq, all_eq_true] at free
    exact (sound' e among).effectFree (free e among) env
  constructor <;> intro holds env
  case alwaysFalse => exact known_returns (sound.alwaysFalse (by simpa [alwaysFalse] using holds))
  case neverFalse => exact known_returns (sound.neverFalse (by simpa [neverFalse] using holds))
  case boolean => simp [boolean, callToBooleanPredicate, callTo] at holds
  case effectFree =>
    simp only [effectFree, callToEffectFreePrimitive, callTo, and_eq_true, Bool.false_or] at holds
    exact known_quiet (quiet holds.1) (sound.effectFree holds.2)
  case pureFalse =>
    simp only [pureFalse, and_eq_true] at holds
    exact ⟨known_quiet (quiet holds.1) fun inner => (sound.pureFalse holds.2 inner).1,
      known_returns fun inner => (sound.pureFalse holds.2 inner).2⟩
  case pureTrue =>
    simp only [pureTrue, and_eq_true] at holds
    exact ⟨known_quiet (quiet holds.1) fun inner => (sound.pureTrue holds.2 inner).1,
      known_returns fun inner => (sound.pureTrue holds.2 inner).2⟩

theorem sound_unknown (operator : Expression) (operands : List Expression)
    (notPrimitive : ∀ p, operator ≠ .constant (.primitive p))
    (notProcedure : ∀ safe required optional rest body, operator ≠ .procedure safe required optional rest body) :
    Sound w (.combination operator operands) := by
  apply Sound.silent
  · cases operator with
    | constant value =>
      cases value with
      | primitive p => exact absurd rfl (notPrimitive p)
      | _ => simp [alwaysFalse, neverFalse, boolean, pureFalse, pureTrue, callToBooleanPredicate, callTo]
    | procedure safe required optional rest body => exact absurd rfl (notProcedure safe required optional rest body)
    | _ => simp [alwaysFalse, neverFalse, boolean, pureFalse, pureTrue, callToBooleanPredicate, callTo]
  · intro free
    cases operator with
    | constant value =>
      cases value with
      | primitive p => exact absurd rfl (notPrimitive p)
      | _ => simp [effectFree, callToEffectFreePrimitive, callTo] at free
    | procedure safe required optional rest body => exact absurd rfl (notProcedure safe required optional rest body)
    | _ => simp [effectFree, callToEffectFreePrimitive, callTo] at free

def BodySound (w : World) (e : Expression) : Prop :=
  ∀ safe required optional rest body, e = .procedure safe required optional rest body → Sound w body

theorem sound_combination (operator : Expression) (operands : List Expression) (sound : BodySound w operator)
    (sound' : ∀ e ∈ operands, Sound w e) : Sound w (.combination operator operands) := by
  by_cases known : ∃ safe required optional rest body, operator = .procedure safe required optional rest body
  · obtain ⟨safe, required, optional, rest, body, rfl⟩ := known
    exact sound_known safe required optional rest body operands (sound _ _ _ _ _ rfl) sound'
  · by_cases primitive : ∃ p, operator = .constant (.primitive p)
    · obtain ⟨p, rfl⟩ := primitive
      exact sound_call p operands sound'
    · apply sound_unknown operator operands
      · exact fun p same => primitive ⟨p, same⟩
      · exact fun safe required optional rest body same => known ⟨safe, required, optional, rest, body, same⟩

theorem sound_all (w : World) (e : Expression) : Sound w e ∧ BodySound w e := by
  refine @Expression.rec (fun e => Sound w e ∧ BodySound w e) (fun es => ∀ e ∈ es, Sound w e)
    (fun actions => ∀ action ∈ actions, Sound w action.2) (fun action => Sound w action.2)
    ?access ?assignment ?combination ?conditional ?constant ?declaration ?delay ?disjunction ?openBlock ?procedure
    ?quotation ?reference ?sequence ?theEnvironment ?nil ?cons ?noActions ?actions ?action e
  case access => exact fun environment name ih => ⟨sound_access environment name ih.1, by simp [BodySound]⟩
  case assignment => exact fun target value ih => ⟨sound_assignment target value ih.1, by simp [BodySound]⟩
  case combination => exact fun operator operands ih ih' => ⟨sound_combination operator operands ih.2 ih', by simp [BodySound]⟩
  case conditional => exact fun p c a ih ih' ih'' => ⟨sound_conditional p c a ih.1 ih'.1 ih''.1, by simp [BodySound]⟩
  case constant => exact fun value => ⟨sound_constant value, by simp [BodySound]⟩
  case declaration => exact fun declarations e ih => ⟨sound_declaration declarations e ih.1, by simp [BodySound]⟩
  case delay => exact fun e ih => ⟨sound_delay e ih.1, by simp [BodySound]⟩
  case disjunction => exact fun p a ih ih' => ⟨sound_disjunction p a ih.1 ih'.1, by simp [BodySound]⟩
  case openBlock => exact fun actions ih => ⟨sound_openBlock actions ih, by simp [BodySound]⟩
  case procedure =>
    intro safe required optional rest body ih
    refine ⟨sound_procedure safe required optional rest body ih.1, ?_⟩
    intro _ _ _ _ body' same
    cases same
    exact ih.1
  case quotation => exact fun e ih => ⟨sound_quotation e ih.1, by simp [BodySound]⟩
  case reference => exact fun name => ⟨sound_reference name, by simp [BodySound]⟩
  case sequence => exact fun actions ih => ⟨sound_sequence actions ih, by simp [BodySound]⟩
  case theEnvironment => exact ⟨sound_theEnvironment, by simp [BodySound]⟩
  case nil => simp
  case cons => exact fun e es ih ih' => forall_mem_cons.mpr ⟨ih.1, ih'⟩
  case noActions => simp
  case actions => exact fun action actions ih ih' => forall_mem_cons.mpr ⟨ih, ih'⟩
  case action => exact fun name e ih => ih.1

/-- The analyses are sound: whatever world an expression is evaluated in, and after whatever history. -/
theorem analyses_sound (w : World) (e : Expression) (env : Env) (h : History) :
    (∀ v h', w.evaluate e env h = .value v h' →
      (e.alwaysFalse → v = .boolean false) ∧
      (e.neverFalse → v ≠ .boolean false) ∧
      (e.boolean → v = .boolean true ∨ v = .boolean false)) ∧
    (e.effectFree → (∃ v, w.evaluate e env h = .value v h) ∨ w.evaluate e env h = .error h) ∧
    (e.pureFalse → w.evaluate e env h = .value (.boolean false) h ∨ w.evaluate e env h = .error h) ∧
    (e.pureTrue → w.evaluate e env h = .value (.boolean true) h ∨ w.evaluate e env h = .error h) := by
  have sound := (sound_all w e).1
  have only : ∀ {b : Bool}, Quiet (w.evaluate e env) ∧ Returns (w.evaluate e env) (· = .boolean b) →
      w.evaluate e env h = .value (.boolean b) h ∨ w.evaluate e env h = .error h := by
    rintro b ⟨quiet, returns⟩
    refine (quiet h).imp_left ?_
    rintro ⟨v, value⟩
    rw [value, returns h v h value]
  refine ⟨fun v h' value => ⟨?_, ?_, ?_⟩, ?_, ?_, ?_⟩
  · exact fun holds => sound.alwaysFalse holds env h v h' value
  · exact fun holds => sound.neverFalse holds env h v h' value
  · intro holds
    obtain ⟨b, rfl⟩ := sound.boolean holds env h v h' value
    simp
  · exact fun holds => sound.effectFree holds env h
  · exact fun holds => only (sound.pureFalse holds env)
  · exact fun holds => only (sound.pureTrue holds env)

end World

end MitScheme.Sf
