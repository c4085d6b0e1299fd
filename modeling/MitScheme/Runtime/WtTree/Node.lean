import MitScheme.Library.LogBalance
import MitScheme.Runtime.FixnumFields
import Mathlib.Data.Nat.Log

/-!
A node holds its weight, the number of its associations. A reference into an empty node is an
error of its own, apart from the one that an operation on an empty tree signals.
-/

namespace MitScheme.Runtime.WtTree

open Library
open Nat (log lt_size size size_le size_pos)
open FixnumFields (Fixnum fxarithmeticShift position shiftLeft_bit shiftRight_bit)

inductive Error where
  /-- `error:empty` -/
  | empty
  /-- A `vector-ref` into an empty node. -/
  | reference
  /-- `guarantee-tree` -/
  | wrongType
  deriving DecidableEq, Repr

inductive Node (K V : Type) where
  | empty
  | node (w : Nat) (l : Node K V) (k : K) (r : Node K V) (v : V)
  deriving DecidableEq, Repr

section
variable {K V : Type}

namespace Node

def size : Node K V → Nat
  | .empty => 0
  | .node w _ _ _ _ => w

def entries : Node K V → List (K × V)
  | .empty => []
  | .node _ l k r v => l.entries ++ (k, v) :: r.entries

def Weighed : Node K V → Prop
  | .empty => True
  | .node w l _ r _ => w = 1 + l.size + r.size ∧ l.Weighed ∧ r.Weighed

/-- At every node the bit lengths of the weights of the subtrees differ by at most one. -/
def Balanced : Node K V → Prop
  | .empty => True
  | .node _ l _ r _ => Near 1 l.size r.size ∧ l.Balanced ∧ r.Balanced

end Node

def log2Less (a b : Nat) : Bool := a < b && (a &&& b) <<< 1 < b

def overweight (a b : Nat) : Bool := log2Less a (b >>> 1)

def single (a b : Nat) : Bool := !log2Less b a

theorem log2Less_iff (a b : Nat) : log2Less a b = true ↔ size a < size b := by
  rw [log2Less, Bool.and_eq_true, decide_eq_true_iff, decide_eq_true_iff, Nat.shiftLeft_eq]
  constructor
  · by_contra long
    obtain ⟨k, length⟩ : ∃ k, size b = k + 1 := by
      refine ⟨size b - 1, ?_⟩
      have positive : 0 < size b := size_pos.mpr (by omega)
      omega
    have high_a : 2 ^ k ≤ a := lt_size.mp (by omega)
    have high_b : 2 ^ k ≤ b := lt_size.mp (by omega)
    have low_b : b < 2 ^ (k + 1) := size_le.mp (by omega)
    -- both have the leading bit of `b`
    have bit_a : a.testBit k = true := Nat.testBit_of_two_pow_le_and_two_pow_add_one_gt high_a (by omega)
    have bit_b : b.testBit k = true := Nat.testBit_of_two_pow_le_and_two_pow_add_one_gt high_b low_b
    have common : 2 ^ k ≤ a &&& b := Nat.ge_two_pow_of_testBit (by rw [Nat.testBit_and, bit_a, bit_b]; rfl)
    omega
  · intro less
    obtain ⟨k, length⟩ : ∃ k, size b = k + 1 := ⟨size b - 1, by omega⟩
    have low_a : a < 2 ^ k := size_le.mp (by omega)
    have high_b : 2 ^ k ≤ b := lt_size.mp (by omega)
    have low_b : b < 2 ^ (k + 1) := size_le.mp (by omega)
    have rest : a &&& b ≤ b - 2 ^ k := by
      have bounded : a &&& b < 2 ^ k := Nat.and_le_left.trans_lt low_a
      have masked : a &&& b = (a % 2 ^ k) &&& (b % 2 ^ k) := by
        rw [← Nat.and_mod_two_pow, Nat.mod_eq_of_lt bounded]
      have reduced : b % 2 ^ k = b - 2 ^ k := by
        rw [Nat.mod_eq_sub_mod high_b, Nat.mod_eq_of_lt]
        omega
      rw [masked, reduced]
      exact Nat.and_le_right
    exact ⟨by omega, by omega⟩

theorem overweight_iff (a b : Nat) : overweight a b = true ↔ size a + 2 ≤ size b := by
  have half : size (b >>> 1) = size b - 1 := by
    rcases eq_zero_or_pos b with rfl | positive
    · rfl
    · obtain ⟨k, length⟩ : ∃ k, size b = k + 1 := by
        refine ⟨size b - 1, ?_⟩
        have long := size_pos.mpr positive
        omega
      have high_b : 2 ^ k ≤ b := lt_size.mp (by omega)
      have low_b : b < 2 ^ (k + 1) := size_le.mp (by omega)
      rw [length, Nat.add_sub_cancel, Nat.shiftRight_eq_div_pow]
      refine (size_le.mpr ?_).antisymm ?_
      · omega
      · cases k with
        | zero => exact Nat.zero_le _
        | succ k =>
          refine lt_size.mpr ?_
          omega
  rw [overweight, log2Less_iff]
  omega

theorem single_iff (a b : Nat) : single a b = true ↔ size a ≤ size b := by
  rw [single, Bool.not_eq_true', Bool.eq_false_iff, ne_eq, log2Less_iff]
  omega

/-- `overweight?`, on fixnums. -/
def fxOverweight (a b : Fixnum) : Bool :=
  let c := fxarithmeticShift b (-1)
  a.slt c && (fxarithmeticShift (a &&& c) 1).slt c

/-- The logarithm to base two, rounded down; that of zero is taken as -1. -/
def floorLg (n : ℕ) : ℤ := if n = 0 then -1 else log 2 n

theorem floorLg_size (n : ℕ) : floorLg n = size n - 1 := by
  rcases eq_zero_or_pos n with rfl | positive
  · rfl
  · obtain ⟨k, size⟩ : ∃ k, size n = k + 1 := Nat.exists_eq_succ_of_ne_zero (size_pos.mpr positive).ne'
    have log : log 2 n = k :=
      Nat.log_eq_of_pow_le_of_lt_pow (lt_size.mp (by omega)) (size_le.mp (by omega))
    rw [floorLg, if_neg positive.ne', log, size]
    simp

theorem slt_position {m n : ℕ} (small_m : m < 2 ^ 57) (small_n : n < 2 ^ 57) :
    (position m).slt (position n) = decide (m < n) := by
  rw [BitVec.slt_eq_decide, BitVec.toInt_eq_toNat_of_lt, BitVec.toInt_eq_toNat_of_lt] <;> simp <;> omega

theorem fxOverweight_position {a b : ℕ} (small_a : a < 2 ^ 56) (small_b : b < 2 ^ 56) :
    fxOverweight (position a) (position b) = overweight a b := by
  have half : fxarithmeticShift (position b) (-1) = position (b >>> 1) := by
    refine BitVec.eq_of_getLsbD_eq fun i inside => ?_
    rw [shiftRight_bit (n := 1) (by decide) (by decide) inside]
    have sign : (position b).msb = false := by
      rw [BitVec.msb_eq_false_iff_two_mul_lt]
      simp
      omega
    have high : 58 ≤ i + 1 → b.testBit (i + 1) = false := fun beyond =>
      Nat.testBit_lt_two_pow (small_b.trans_le (Nat.pow_le_pow_right (by decide) (by omega)))
    rw [sign, BitVec.getLsbD_ofNat, BitVec.getLsbD_ofNat, Nat.testBit_shiftRight, add_comm 1]
    split
    case isTrue within => simp [inside, within]
    case isFalse beyond => rw [high (Nat.le_of_not_lt beyond), Bool.and_false]
  have twice : ∀ n < 2 ^ 56, fxarithmeticShift (position n) 1 = position (n <<< 1) := by
    intro n small
    refine BitVec.eq_of_getLsbD_eq fun i inside => ?_
    rw [show (1 : Fixnum) = position 1 from rfl, shiftLeft_bit (by decide) inside]
    have within : i - 1 < 58 := by omega
    simp only [BitVec.getLsbD_ofNat, Nat.testBit_shiftLeft, inside, within, decide_true, Bool.true_and]
  have both : a &&& b >>> 1 < 2 ^ 56 := Nat.and_le_left.trans_lt small_a
  have meet : position a &&& position (b >>> 1) = position (a &&& b >>> 1) := (BitVec.ofNat_and ..).symm
  rw [fxOverweight, half, meet, twice _ both, slt_position (by omega) (by omega), slt_position (by omega) (by omega)]
  rfl

/-- `overweight?` compares the logarithms. -/
theorem fxOverweight_iff {a b : ℕ} (small_a : a < 2 ^ 56) (small_b : b < 2 ^ 56) :
    fxOverweight (position a) (position b) = true ↔ floorLg a + 1 < floorLg b := by
  rw [fxOverweight_position small_a small_b, overweight_iff, floorLg_size, floorLg_size]
  omega

theorem fxOverweight_eight : floorLg 1 + 1 < floorLg 8 :=
  (fxOverweight_iff (show 1 < 2 ^ 56 by decide) (show 8 < 2 ^ 56 by decide)).mp (by decide)

def singleton (k : K) (v : V) : Node K V := .node 1 .empty k .empty v

def nJoin (k : K) (v : V) (l r : Node K V) : Node K V := .node (1 + l.size + r.size) l k r v

def singleL (ak : K) (av : V) (x : Node K V) : Node K V → Except Error (Node K V)
  | .node _ y bk z bv => .ok (nJoin bk bv (nJoin ak av x y) z)
  | .empty => .error .reference

def doubleL (ak : K) (av : V) (x : Node K V) : Node K V → Except Error (Node K V)
  | .node _ (.node _ y1 bk y2 bv) ck z cv => .ok (nJoin bk bv (nJoin ak av x y1) (nJoin ck cv y2 z))
  | _ => .error .reference

def singleR (bk : K) (bv : V) (l z : Node K V) : Except Error (Node K V) :=
  match l with
  | .node _ x ak y av => .ok (nJoin ak av x (nJoin bk bv y z))
  | .empty => .error .reference

def doubleR (ck : K) (cv : V) (l z : Node K V) : Except Error (Node K V) :=
  match l with
  | .node _ x ak (.node _ y1 bk y2 bv) av => .ok (nJoin bk bv (nJoin ak av x y1) (nJoin ck cv y2 z))
  | _ => .error .reference

def tJoin (k : K) (v : V) (l r : Node K V) : Except Error (Node K V) :=
  if overweight l.size r.size then
    match r with
    | .node _ rl _ rr _ => if single rl.size rr.size then singleL k v l r else doubleL k v l r
    | .empty => .error .reference
  else if overweight r.size l.size then
    match l with
    | .node _ ll _ lr _ => if single lr.size ll.size then singleR k v l r else doubleR k v l r
    | .empty => .error .reference
  else .ok (nJoin k v l r)

def nodeMin : Node K V → Except Error (K × V)
  | .empty => .error .empty
  | .node _ .empty k _ v => .ok (k, v)
  | .node _ l _ _ _ => nodeMin l

def nodeDelmin : Node K V → Except Error (Node K V)
  | .empty => .error .empty
  | .node _ .empty _ r _ => .ok r
  | .node _ l k r v => do
    let l ← nodeDelmin l
    tJoin k v l r

def nodeConcat2 (node1 node2 : Node K V) : Except Error (Node K V) :=
  match node1, node2 with
  | .empty, node2 => .ok node2
  | node1, .empty => .ok node1
  | node1, node2 => do
    let (k, v) ← nodeMin node2
    let rest ← nodeDelmin node2
    tJoin k v node1 rest

section
variable {k : K} {v : V} {l r t : Node K V}

theorem Node.Weighed.size_eq (weighed : t.Weighed) : t.size = t.entries.length := by
  induction t with
  | empty => rfl
  | node w l k r v left right =>
    obtain ⟨weight, weighed_l, weighed_r⟩ := weighed
    rw [Node.size, weight, left weighed_l, right weighed_r, Node.entries, List.length_append, List.length_cons]
    omega

theorem weighed_nJoin (weighed_l : l.Weighed) (weighed_r : r.Weighed) : (nJoin k v l r).Weighed :=
  ⟨rfl, weighed_l, weighed_r⟩

theorem balanced_nJoin (near : Near 1 l.size r.size) (balanced_l : l.Balanced) (balanced_r : r.Balanced) :
    (nJoin k v l r).Balanced := ⟨near, balanced_l, balanced_r⟩

@[simp] theorem entries_nJoin : (nJoin k v l r).entries = l.entries ++ (k, v) :: r.entries := rfl

@[simp] theorem size_nJoin : (nJoin k v l r).size = 1 + l.size + r.size := rfl

structure Joins (k : K) (v : V) (l r t : Node K V) : Prop where
  weighed : t.Weighed
  entries : t.entries = l.entries ++ (k, v) :: r.entries
  balanced : l.Balanced → r.Balanced → Near 2 l.size r.size → t.Balanced

theorem Joins.size (joins : Joins k v l r t) (weighed_l : l.Weighed) (weighed_r : r.Weighed) :
    t.size = 1 + l.size + r.size := by
  rw [joins.weighed.size_eq, joins.entries, weighed_l.size_eq, weighed_r.size_eq, List.length_append, List.length_cons]
  omega

theorem tJoin_left (weighed_l : l.Weighed) (weighed_r : r.Weighed) (heavy : overweight l.size r.size = true) :
    ∃ t, tJoin k v l r = .ok t ∧ Joins k v l r t := by
  unfold tJoin
  rw [if_pos heavy]
  rw [overweight_iff] at heavy
  cases r with
  | empty => simp [Node.size] at heavy
  | node w rl rk rr rv =>
    obtain ⟨weight, weighed_rl, weighed_rr⟩ := weighed_r
    by_cases one : single rl.size rr.size = true
    · simp only [if_pos one, singleL]
      refine ⟨_, rfl, weighed_nJoin (weighed_nJoin weighed_l weighed_rl) weighed_rr, by simp [Node.entries], ?_⟩
      rintro balanced_l ⟨inner, balanced_rl, balanced_rr⟩ near
      rw [single_iff] at one
      rw [weight] at heavy near
      obtain ⟨first, second⟩ := near_single (le_antisymm near.2 heavy) inner one
      exact balanced_nJoin second (balanced_nJoin first balanced_l balanced_rl) balanced_rr
    · have double : size rr.size < size rl.size := by
        rw [single_iff] at one
        omega
      simp only [if_neg one]
      cases rl with
      | empty => simp [Node.size] at double
      | node w' y1 bk y2 bv =>
        obtain ⟨weight', weighed_1, weighed_2⟩ := weighed_rl
        refine ⟨_, rfl, weighed_nJoin (weighed_nJoin weighed_l weighed_1) (weighed_nJoin weighed_2 weighed_rr),
          by simp [Node.entries], ?_⟩
        rintro balanced_l ⟨inner, ⟨inner', balanced_1, balanced_2⟩, balanced_rr⟩ near
        rw [weight] at heavy near
        rw [weight'] at heavy near inner double
        obtain ⟨first, second, third⟩ := near_double (le_antisymm near.2 heavy) inner inner' double
        exact balanced_nJoin third (balanced_nJoin first balanced_l balanced_1)
          (balanced_nJoin second balanced_2 balanced_rr)

theorem tJoin_right (weighed_l : l.Weighed) (weighed_r : r.Weighed) (light : ¬overweight l.size r.size = true)
    (heavy : overweight r.size l.size = true) : ∃ t, tJoin k v l r = .ok t ∧ Joins k v l r t := by
  unfold tJoin
  rw [if_neg light, if_pos heavy]
  rw [overweight_iff] at heavy
  -- the rotations are those of the mirror image
  have mirror (a b : Nat) : 1 + a + b = 1 + b + a := by omega
  cases l with
  | empty => simp [Node.size] at heavy
  | node w ll lk lr lv =>
    obtain ⟨weight, weighed_ll, weighed_lr⟩ := weighed_l
    by_cases one : single lr.size ll.size = true
    · simp only [if_pos one, singleR]
      refine ⟨_, rfl, weighed_nJoin weighed_ll (weighed_nJoin weighed_lr weighed_r), by simp [Node.entries], ?_⟩
      rintro ⟨inner, balanced_ll, balanced_lr⟩ balanced_r near
      rw [single_iff] at one
      rw [weight, mirror] at heavy near
      obtain ⟨first, second⟩ := near_single (le_antisymm near.1 heavy) inner.symm one
      rw [mirror] at second
      exact balanced_nJoin second.symm balanced_ll (balanced_nJoin first.symm balanced_lr balanced_r)
    · have double : size ll.size < size lr.size := by
        rw [single_iff] at one
        omega
      simp only [if_neg one]
      cases lr with
      | empty => simp [Node.size] at double
      | node w' y1 bk y2 bv =>
        obtain ⟨weight', weighed_1, weighed_2⟩ := weighed_lr
        refine ⟨_, rfl, weighed_nJoin (weighed_nJoin weighed_ll weighed_1) (weighed_nJoin weighed_2 weighed_r),
          by simp [Node.entries], ?_⟩
        rintro ⟨inner, balanced_ll, ⟨inner', balanced_1, balanced_2⟩⟩ balanced_r near
        rw [weight, mirror] at heavy near
        rw [weight', mirror y1.size] at heavy near inner double
        obtain ⟨first, second, third⟩ :=
          near_double (le_antisymm near.1 heavy) inner.symm inner'.symm double
        rw [mirror r.size, mirror y1.size] at third
        exact balanced_nJoin third.symm (balanced_nJoin second.symm balanced_ll balanced_1)
          (balanced_nJoin first.symm balanced_2 balanced_r)

theorem tJoin_joins (weighed_l : l.Weighed) (weighed_r : r.Weighed) : ∃ t, tJoin k v l r = .ok t ∧ Joins k v l r t := by
  by_cases left : overweight l.size r.size = true
  · exact tJoin_left weighed_l weighed_r left
  by_cases right : overweight r.size l.size = true
  · exact tJoin_right weighed_l weighed_r left right
  refine ⟨nJoin k v l r, by unfold tJoin; rw [if_neg left, if_neg right], weighed_nJoin weighed_l weighed_r, rfl, ?_⟩
  intro balanced_l balanced_r near
  rw [overweight_iff] at left right
  exact balanced_nJoin ⟨by omega, by omega⟩ balanced_l balanced_r

structure Delmins (t : Node K V) (p : K × V) (rest : Node K V) : Prop where
  weighed : rest.Weighed
  entries : t.entries = p :: rest.entries
  balanced : t.Balanced → rest.Balanced

theorem Delmins.size {p : K × V} {rest : Node K V} (delmins : Delmins t p rest) (weighed : t.Weighed) :
    t.size = rest.size + 1 := by
  rw [weighed.size_eq, delmins.weighed.size_eq, delmins.entries, List.length_cons]

theorem nodeDelmin_delmins (weighed : t.Weighed) (nonempty : t ≠ .empty) :
    ∃ p rest, nodeMin t = .ok p ∧ nodeDelmin t = .ok rest ∧ Delmins t p rest := by
  induction t with
  | empty => exact absurd rfl nonempty
  | node w l k r v left right =>
    obtain ⟨weight, weighed_l, weighed_r⟩ := weighed
    cases l with
    | empty => exact ⟨(k, v), r, rfl, rfl, weighed_r, rfl, fun balanced => balanced.2.2⟩
    | node w' ll lk lr lv =>
      obtain ⟨p, rest, least, deleted, delmins⟩ := left weighed_l (by intro h; cases h)
      obtain ⟨t, joined, joins⟩ := tJoin_joins (k := k) (v := v) delmins.weighed weighed_r
      have ran : nodeDelmin (.node w (.node w' ll lk lr lv) k r v) = .ok t := by
        rw [nodeDelmin, deleted]
        · exact joined
        · intro h
          cases h
      refine ⟨p, t, least, ran, joins.weighed, ?_, ?_⟩
      · rw [joins.entries, Node.entries, delmins.entries]
        rfl
      · rintro ⟨near, balanced_l, balanced_r⟩
        rw [delmins.size weighed_l] at near
        exact joins.balanced (delmins.balanced balanced_l) balanced_r near.pred_left

theorem nodeConcat2_spec (weighed_l : l.Weighed) (weighed_r : r.Weighed) : ∃ t, nodeConcat2 l r = .ok t ∧ t.Weighed ∧
    t.entries = l.entries ++ r.entries ∧ (l.Balanced → r.Balanced → Near 1 l.size r.size → t.Balanced) := by
  by_cases empty_l : l = .empty
  · subst empty_l
    exact ⟨r, by simp [nodeConcat2], weighed_r, rfl, fun _ balanced _ => balanced⟩
  by_cases empty_r : r = .empty
  · subst empty_r
    refine ⟨l, ?_, weighed_l, (List.append_nil _).symm, fun balanced _ _ => balanced⟩
    cases l with
    | empty => exact absurd rfl empty_l
    | node => rfl
  obtain ⟨p, rest, least, deleted, delmins⟩ := nodeDelmin_delmins weighed_r empty_r
  obtain ⟨t, joined, joins⟩ := tJoin_joins (k := p.1) (v := p.2) weighed_l delmins.weighed
  refine ⟨t, ?_, joins.weighed, by rw [joins.entries, delmins.entries], ?_⟩
  · cases l with
    | empty => exact absurd rfl empty_l
    | node =>
      cases r with
      | empty => exact absurd rfl empty_r
      | node =>
        rw [nodeConcat2, least, deleted]
        · exact joined
        · intro h
          cases h
        · intro h
          cases h
  · intro balanced_l balanced_r near
    rw [delmins.size weighed_r] at near
    exact joins.balanced balanced_l (delmins.balanced balanced_r) near.symm.pred_left.symm

end

end

end MitScheme.Runtime.WtTree
