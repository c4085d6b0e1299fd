import Mathlib.Data.List.Basic

/-!
A machine that takes its input in packets, when a packet is no more than its items one by one: the way
the input is cut does not matter.
-/

namespace MitScheme.Library

open List

/-- Items with optional bounds, both inside the packet. -/
structure Packet (α : Type) where
  items : List α
  start : Option ℕ
  stop : Option ℕ
  ordered : start.getD 0 ≤ stop.getD items.length
  inside : stop.getD items.length ≤ items.length

def Packet.contents {α : Type} (p : Packet α) : List α :=
  (p.items.take (p.stop.getD p.items.length)).drop (p.start.getD 0)

def Packet.whole {α : Type} (items : List α) : Packet α := ⟨items, none, none, Nat.zero_le _, Nat.le_refl _⟩

@[simp] theorem Packet.contents_whole {α : Type} (items : List α) : (Packet.whole items).contents = items :=
  take_length

theorem contents_singletons {α : Type} (items : List α) : (items.map fun item => Packet.whole [item]).flatMap Packet.contents = items := by
  simp [flatMap_map]

section
variable {σ α ε : Type}

theorem foldlM_packets {update : σ → Packet α → Except ε σ} {step : σ → α → Except ε σ}
    (fed : ∀ s p, update s p = p.contents.foldlM step s) (packets : List (Packet α)) (s : σ) :
    packets.foldlM update s = (packets.flatMap Packet.contents).foldlM step s := by
  induction packets generalizing s with
  | nil => rfl
  | cons packet rest ih =>
    rw [foldlM_cons, flatMap_cons, foldlM_append, fed]
    cases packet.contents.foldlM step s with
    | error e => rfl
    | ok s' => exact ih s'

/-- A relation to the items so far that one packet carries on holds after all of them, as long as the
items are legal. -/
theorem foldlM_carries {update : σ → Packet α → Except ε σ} (legal : List α → Prop) (inv : List α → σ → Prop)
    (prefixes : ∀ {first last}, legal (first ++ last) → legal first)
    (carries : ∀ {past s} (p : Packet α), legal (past ++ p.contents) → inv past s →
      ∃ s', update s p = .ok s' ∧ inv (past ++ p.contents) s')
    {packets : List (Packet α)} {past : List α} {s : σ} (all : legal (past ++ packets.flatMap Packet.contents))
    (start : inv past s) :
    ∃ s', packets.foldlM update s = .ok s' ∧ inv (past ++ packets.flatMap Packet.contents) s' := by
  induction packets generalizing past s with
  | nil => exact ⟨s, rfl, by rw [flatMap_nil, append_nil]; exact start⟩
  | cons packet rest ih =>
    rw [flatMap_cons, ← append_assoc] at all ⊢
    obtain ⟨s', updated, held⟩ := carries packet (prefixes all) start
    obtain ⟨s'', fed, after⟩ := ih all held
    refine ⟨s'', ?_, after⟩
    rw [foldlM_cons, updated]
    exact fed

end

end MitScheme.Library
