import MitScheme.Runtime.CharSet.Ilist

/-!
What the operations on inversion lists compute: the combiner sweeps over two lists at once and joins the
ranges that meet.
-/

namespace MitScheme.Runtime.CharSets

open Library List

section
variable {combine : Bool → Bool → Bool} {want : Nat → Bool} {v vi start stop : Nat} {result ilist il1 il2 : List Nat}

/-- The result of a sweep up to `start`, in reverse, holds the wanted code points. -/
structure Swept (want : Nat → Bool) (start : Nat) (result : List Nat) : Prop where
  descending : result.Pairwise (· > ·)
  even : result.length % 2 = 0
  below : ∀ p ∈ result, p ≤ start
  members : ∀ cp < start, toggled cp result = want cp

theorem Swept.nothing (swept : Swept want start result) {cp : Nat} (above : start ≤ cp) : toggled cp result = false := by
  rw [toggled_of_le fun p member => (swept.below p member).trans above, swept.even]
  rfl

theorem Swept.proper (swept : Swept want charCodeLimit result) :
    Proper result.reverse ∧ ∀ cp < charCodeLimit, toggled cp result.reverse = want cp := by
  refine ⟨⟨pairwise_reverse.mpr swept.descending, by rw [length_reverse]; exact swept.even,
    fun p member => swept.below p (mem_reverse.mp member)⟩, fun cp inside => ?_⟩
  rw [toggled_reverse]
  exact swept.members cp inside

theorem Swept.extend (swept : Swept want start result) (order : start ≤ stop)
    (absent : ∀ cp, start ≤ cp → cp < stop → want cp = false) : Swept want stop result := by
  refine ⟨swept.descending, swept.even, fun p member => (swept.below p member).trans order, fun cp below => ?_⟩
  rcases lt_or_ge cp start with before | after
  · exact swept.members cp before
  · rw [swept.nothing after, absent cp after below]

theorem Swept.push (swept : Swept want start result) (order : start < stop) (apart : ∀ p ∈ result, p < start)
    (present : ∀ cp, start ≤ cp → cp < stop → want cp = true) : Swept want stop (stop :: start :: result) := by
  refine ⟨?_, ?_, ?_, fun cp below => ?_⟩
  · refine pairwise_cons.mpr ⟨?_, pairwise_cons.mpr ⟨apart, swept.descending⟩⟩
    exact forall_mem_cons.mpr ⟨order, fun p member => (apart p member).trans order⟩
  · rw [length_cons, length_cons]
    have even := swept.even
    omega
  · exact forall_mem_cons.mpr ⟨le_rfl, forall_mem_cons.mpr
      ⟨order.le, fun p member => ((apart p member).trans order).le⟩⟩
  · rw [toggled_cons, decide_eq_false below.not_ge, Bool.false_xor, toggled_cons]
    rcases lt_or_ge cp start with before | after
    · rw [decide_eq_false before.not_ge, Bool.false_xor, swept.members cp before]
    · rw [decide_eq_true after, swept.nothing after, present cp after below]
      rfl

theorem Swept.splice {s : Nat} {rest : List Nat} (swept : Swept want start (start :: s :: rest)) (order : start < stop)
    (present : ∀ cp, start ≤ cp → cp < stop → want cp = true) : Swept want stop (stop :: s :: rest) := by
  obtain ⟨head, tail⟩ := pairwise_cons.mp swept.descending
  refine ⟨?_, swept.even, ?_, fun cp below => ?_⟩
  · exact pairwise_cons.mpr ⟨fun p member => (head p member).trans order, tail⟩
  · exact forall_mem_cons.mpr ⟨le_rfl, fun p member => ((head p member).trans order).le⟩
  · rw [toggled_cons, decide_eq_false below.not_ge, Bool.false_xor]
    rcases lt_or_ge cp start with before | after
    · rw [← swept.members cp before, toggled_cons (p := start), decide_eq_false before.not_ge, Bool.false_xor]
    · have nothing := swept.nothing after
      rw [toggled_cons, decide_eq_true after, Bool.true_xor, Bool.not_eq_false'] at nothing
      rw [nothing, present cp after below]

theorem process_swept (swept : Swept want start result) (order : start ≤ stop)
    (wanted : ∀ cp, start ≤ cp → cp < stop → want cp = combine (v &&& 1 == 1) (v &&& 2 == 2)) :
    Swept want stop (process combine v start stop result) := by
  unfold process
  split
  · next taken =>
    obtain ⟨less, yes⟩ := taken
    have present : ∀ cp, start ≤ cp → cp < stop → want cp = true := fun cp low high => (wanted cp low high).trans yes
    rcases result with _ | ⟨e, _ | ⟨s, rest⟩⟩
    · exact swept.push less (forall_mem_nil _) present
    · exact absurd swept.even (by decide : ¬1 % 2 = 0)
    · dsimp only
      split
      · next touches =>
        subst touches
        exact swept.splice less present
      · next touches =>
        have last : e < start := lt_of_le_of_ne (swept.below e mem_cons_self) (.symm touches)
        refine swept.push less (forall_mem_cons.mpr ⟨last, fun p member => ?_⟩) present
        exact ((pairwise_cons.mp swept.descending).1 p member).trans last
  · next skipped =>
    refine swept.extend order fun cp low high => ?_
    rw [wanted cp low high]
    exact Bool.eq_false_iff.mpr fun yes => skipped ⟨low.trans_lt high, yes⟩

theorem combinerTail_swept {f : Bool → Nat} {g : Bool → Bool} {a : Bool} (flip : ∀ a, f a ^^^ vi = f !a)
    (reads : ∀ a, combine (f a &&& 1 == 1) (f a &&& 2 == 2) = g a) (ascending : (start :: ilist).Pairwise (· ≤ ·))
    (bounded : ∀ p ∈ start :: ilist, p ≤ charCodeLimit) (swept : Swept want start result)
    (wanted : ∀ cp, start ≤ cp → cp < charCodeLimit → want cp = g (xor a (toggled cp ilist))) :
    Swept want charCodeLimit (combinerTail combine (f a) vi start ilist result).reverse := by
  induction ilist generalizing start result a with
  | nil =>
    rw [combinerTail, reverse_reverse]
    split
    · next less =>
      refine process_swept swept less.le fun cp low high => ?_
      rw [wanted cp low high, reads, toggled_nil, Bool.xor_false]
    · next done =>
      have last : start = charCodeLimit := (bounded start mem_cons_self).antisymm (not_lt.mp done)
      exact last ▸ swept
  | cons stop ilist ih =>
    obtain ⟨head, tail⟩ := pairwise_cons.mp ascending
    have above := (pairwise_cons.mp tail).1
    have order := head stop mem_cons_self
    rw [combinerTail, flip]
    refine ih tail (fun p member => bounded p (mem_cons_of_mem _ member)) ?_ fun cp low high => ?_
    · refine process_swept swept order fun cp low high => ?_
      have limit := bounded stop (mem_cons_of_mem _ mem_cons_self)
      have nothing : toggled cp (stop :: ilist) = false :=
        toggled_of_lt (forall_mem_cons.mpr ⟨high, fun p member => high.trans_le (above p member)⟩)
      rw [wanted cp low (high.trans_le limit), reads, nothing, Bool.xor_false]
    · rw [wanted cp (order.trans low) high, toggled_cons, decide_eq_true low, Bool.true_xor, Bool.not_xor, Bool.xor_not]

def memberships (a b : Bool) : Nat := a.toNat + 2 * b.toNat

theorem memberships_first {a b : Bool} : memberships a b ^^^ 1 = memberships (!a) b := by
  cases a <;> cases b <;> rfl

theorem memberships_second {a b : Bool} : memberships a b ^^^ 2 = memberships a (!b) := by
  cases a <;> cases b <;> rfl

theorem memberships_both {a b : Bool} : memberships a b ^^^ 3 = memberships (!a) (!b) := by
  cases a <;> cases b <;> rfl

theorem memberships_reads {a b : Bool} : (memberships a b &&& 1 == 1) = a ∧ (memberships a b &&& 2 == 2) = b := by
  cases a <;> cases b <;> exact ⟨rfl, rfl⟩

theorem passed {p cp : Nat} {a : Bool} (below : p ≤ cp) :
    xor a (toggled cp (p :: ilist)) = xor (!a) (toggled cp ilist) := by
  rw [toggled_cons, decide_eq_true below, Bool.true_xor, Bool.not_xor, Bool.xor_not]

theorem unchanged {p cp : Nat} (ascending : (p :: ilist).Pairwise (· ≤ ·)) (below : cp < p) :
    toggled cp (p :: ilist) = false :=
  toggled_of_lt (forall_mem_cons.mpr ⟨below, fun _ member => below.trans_le ((pairwise_cons.mp ascending).1 _ member)⟩)

theorem ascending_cons {p q : Nat} (order : q ≤ p) (ascending : (p :: ilist).Pairwise (· ≤ ·)) :
    (q :: p :: ilist).Pairwise (· ≤ ·) := by
  refine pairwise_cons.mpr ⟨forall_mem_cons.mpr ⟨order, fun r member => ?_⟩, ascending⟩
  exact order.trans ((pairwise_cons.mp ascending).1 r member)

theorem combinerLoop_swept {a b : Bool} (ascending1 : (start :: il1).Pairwise (· ≤ ·))
    (ascending2 : (start :: il2).Pairwise (· ≤ ·)) (bounded1 : ∀ p ∈ start :: il1, p ≤ charCodeLimit)
    (bounded2 : ∀ p ∈ il2, p ≤ charCodeLimit) (swept : Swept want start result)
    (wanted : ∀ cp, start ≤ cp → cp < charCodeLimit → want cp = combine (xor a (toggled cp il1)) (xor b (toggled cp il2))) :
    Swept want charCodeLimit (combinerLoop combine (memberships a b) start il1 il2 result).reverse := by
  induction il1 generalizing start il2 result a b with
  | nil =>
    rw [combinerLoop]
    have bounded : ∀ p ∈ start :: il2, p ≤ charCodeLimit :=
      forall_mem_cons.mpr ⟨bounded1 start mem_cons_self, bounded2⟩
    refine combinerTail_swept (f := memberships a) (g := combine a) (fun _ => memberships_second) (fun _ => ?_)
      ascending2 bounded swept fun cp low high => ?_
    · rw [memberships_reads.1, memberships_reads.2]
    · rw [wanted cp low high, toggled_nil, Bool.xor_false]
  | cons x1 rest1 ih1 =>
    induction il2 generalizing start result a b with
    | nil =>
      rw [combinerLoop]
      · refine combinerTail_swept (f := fun a => memberships a b) (g := fun a => combine a b)
          (fun _ => memberships_first) (fun _ => ?_) ascending1 bounded1 swept fun cp low high => ?_
        · rw [memberships_reads.1, memberships_reads.2]
        · rw [wanted cp low high, toggled_nil, Bool.xor_false]
      · exact cons_ne_nil _ _
    | cons x2 rest2 ih2 =>
      obtain ⟨head1, tail1⟩ := pairwise_cons.mp ascending1
      obtain ⟨head2, tail2⟩ := pairwise_cons.mp ascending2
      obtain ⟨-, bounds1⟩ := forall_mem_cons.mp bounded1
      have order1 := head1 x1 mem_cons_self
      have order2 := head2 x2 mem_cons_self
      have limit1 := bounds1 x1 mem_cons_self
      have processed : Swept want (min x1 x2) (process combine (memberships a b) start (min x1 x2) result) := by
        refine process_swept swept (le_min order1 order2) fun cp low high => ?_
        obtain ⟨high1, high2⟩ := lt_min_iff.mp high
        rw [wanted cp low (high1.trans_le limit1), unchanged tail1 high1, unchanged tail2 high2, Bool.xor_false,
          Bool.xor_false, memberships_reads.1, memberships_reads.2]
      rw [combinerLoop]
      by_cases first : x2 > min x1 x2
      · have order : x1 ≤ x2 := by omega
        rw [if_pos first, memberships_first]
        rw [min_eq_left order] at processed ⊢
        refine ih1 tail1 (ascending_cons order tail2) bounds1 bounded2 processed fun cp low high => ?_
        rw [wanted cp (order1.trans low) high, passed low]
      rw [if_neg first]
      have order : x2 ≤ x1 := by omega
      rw [min_eq_right order] at processed ⊢
      obtain ⟨limit2, bounds2⟩ := forall_mem_cons.mp bounded2
      by_cases second : x1 > x2
      · rw [if_pos second, memberships_second]
        refine ih2 (ascending_cons order tail1) tail2 (forall_mem_cons.mpr ⟨limit2, bounds1⟩) bounds2 processed
          fun cp low high => ?_
        rw [wanted cp (order2.trans low) high, passed low]
      · obtain rfl : x1 = x2 := by omega
        rw [if_neg second, memberships_both]
        refine ih1 tail1 tail2 bounds1 bounds2 processed fun cp low high => ?_
        rw [wanted cp (order2.trans low) high, passed low, passed low]

theorem ilistCombiner_ascending (combine : Bool → Bool → Bool) (ascending1 : il1.Pairwise (· ≤ ·)) (bounded1 : ∀ p ∈ il1, p ≤ charCodeLimit)
    (ascending2 : il2.Pairwise (· ≤ ·)) (bounded2 : ∀ p ∈ il2, p ≤ charCodeLimit) :
    Proper (ilistCombiner combine il1 il2) ∧
      ∀ cp < charCodeLimit, toggled cp (ilistCombiner combine il1 il2) = combine (toggled cp il1) (toggled cp il2) := by
  have from_zero {il : List Nat} (ascending : il.Pairwise (· ≤ ·)) : (0 :: il).Pairwise (· ≤ ·) :=
    pairwise_cons.mpr ⟨fun p _ => Nat.zero_le p, ascending⟩
  have start : Swept (fun cp => combine (toggled cp il1) (toggled cp il2)) 0 [] :=
    ⟨.nil, rfl, forall_mem_nil _, fun cp below => absurd below (Nat.not_lt_zero cp)⟩
  have swept := combinerLoop_swept (a := false) (b := false) (from_zero ascending1) (from_zero ascending2)
    (forall_mem_cons.mpr ⟨Nat.zero_le _, bounded1⟩) bounded2 start
    fun cp _ _ => by rw [Bool.false_xor, Bool.false_xor]
  have proper := swept.proper
  rwa [reverse_reverse] at proper

theorem ilistCombiner_spec (valid1 : Loose il1) (valid2 : Loose il2) : Proper (ilistCombiner combine il1 il2) ∧
    ∀ cp < charCodeLimit, toggled cp (ilistCombiner combine il1 il2) = combine (toggled cp il1) (toggled cp il2) :=
  ilistCombiner_ascending _ valid1.ascending valid1.bounded valid2.ascending valid2.bounded

theorem invertLoop_swept (even : ilist.length % 2 = 0) (ascending : (start :: ilist).Pairwise (· < ·))
    (bounded : ∀ p ∈ start :: ilist, p ≤ charCodeLimit) (swept : Swept want start result)
    (apart : ∀ p ∈ result, p < start) (wanted : ∀ cp, start ≤ cp → cp < charCodeLimit → want cp = !toggled cp ilist) :
    Swept want charCodeLimit (invertLoop start ilist result).reverse := by
  induction ilist, even using pairs_induction generalizing start result with
  | nil =>
    rw [invertLoop, reverse_reverse]
    · split
      · next less => exact swept.push less apart wanted
      · next done =>
        have last : start = charCodeLimit := (bounded start mem_cons_self).antisymm (not_lt.mp done)
        exact last ▸ swept
    · exact fun _ _ _ equal => cons_ne_nil _ _ equal.symm
  | pair s e rest _ ih =>
    obtain ⟨head, tail⟩ := pairwise_cons.mp ascending
    obtain ⟨above_s, tail'⟩ := pairwise_cons.mp tail
    have order := head s mem_cons_self
    have order' := above_s e mem_cons_self
    have bounds := fun p member => bounded p (mem_cons_of_mem _ (mem_cons_of_mem _ member))
    have limit := bounds e mem_cons_self
    have weakly : (s :: e :: rest).Pairwise (· ≤ ·) := tail.imp le_of_lt
    have pushed : Swept want s (s :: start :: result) := swept.push order apart fun cp low high => by
      rw [wanted cp low ((high.trans order').trans_le limit), unchanged weakly high]
      rfl
    have extended : Swept want e (s :: start :: result) := pushed.extend order'.le fun cp low high => by
      rw [wanted cp (order.le.trans low) (high.trans_le limit), toggled_interval weakly, decide_eq_true ⟨low, high⟩]
      rfl
    refine ih tail' bounds extended ?_ fun cp low high => ?_
    · exact fun p member => (pushed.below p member).trans_lt order'
    · rw [wanted cp ((order.trans order').le.trans low) high, toggled_interval weakly,
        decide_eq_false fun inside => low.not_gt inside.2, Bool.false_or]

theorem ilistInvert_spec (proper : Proper ilist) :
    Proper (ilistInvert ilist) ∧ ∀ cp < charCodeLimit, toggled cp (ilistInvert ilist) = !toggled cp ilist := by
  have start {want : Nat → Bool} : Swept want 0 [] :=
    ⟨.nil, rfl, forall_mem_nil _, fun cp below => absurd below (Nat.not_lt_zero cp)⟩
  suffices swept : Swept (fun cp => !toggled cp ilist) charCodeLimit (ilistInvert ilist).reverse by
    have inverse := swept.proper
    rwa [reverse_reverse] at inverse
  obtain ⟨ascending, even, bounded⟩ := proper
  rcases ilist with _ | ⟨s, _ | ⟨e, rest⟩⟩
  · exact invertLoop_swept rfl (pairwise_singleton _ _) (by simp) start (forall_mem_nil _) fun _ _ _ => rfl
  · exact absurd even (by decide : ¬1 % 2 = 0)
  · rw [ilistInvert]
    split
    · next positive =>
      refine invertLoop_swept even (pairwise_cons.mpr ⟨forall_mem_cons.mpr ⟨positive, fun p member => ?_⟩, ascending⟩)
        (forall_mem_cons.mpr ⟨Nat.zero_le _, bounded⟩) start (forall_mem_nil _) fun _ _ _ => rfl
      exact positive.trans ((pairwise_cons.mp ascending).1 p member)
    · next zero =>
      obtain rfl : s = 0 := Nat.eq_zero_of_not_pos zero
      have weakly : (0 :: e :: rest).Pairwise (· ≤ ·) := ascending.imp le_of_lt
      rw [length_cons, length_cons] at even
      refine invertLoop_swept (by omega) (pairwise_cons.mp ascending).2
        (fun p member => bounded p (mem_cons_of_mem _ member)) (start.extend (Nat.zero_le e) fun cp low high => ?_)
        (forall_mem_nil _) fun cp low high => ?_
      · rw [toggled_interval weakly, decide_eq_true ⟨low, high⟩]
        rfl
      · rw [toggled_interval weakly, decide_eq_false fun inside => low.not_gt inside.2, Bool.false_or]

end

end MitScheme.Runtime.CharSets
