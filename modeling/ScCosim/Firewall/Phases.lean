import ScCosim.Firewall.Settled
import ScCosim.Firewall.WriteEnds

/-!
# One stretch of a packet's way

Behind the write thread a packet is in one place at a time, and one process has to take it
from there. A phase names the place, the process and a measure. The process lowers the
measure each time it runs on what an update has shown, and nobody raises it, so the packet
leaves the place within as many clock edges.
-/
namespace ScCosim.Firewall

open Kernel Async

namespace Device

variable {d e : Device}

/-- A write is on its way behind the write thread. -/
structure Pending (d : Device) : Prop where
  reachable : machine.Reachable d
  waits : d.bus.client = .waitWrite
  rests : d.bus.writeThread = .wait

/-- The end of the write has been notified. -/
def Ended (d : Device) : Prop := d.bus.client = .notified

theorem Pending.accounted (h : Pending d) : Accounted d := accounted_of_reachable h.reachable

/-- The packet is in one piece at most. -/
theorem Pending.path (h : Pending d) : d.pathLoad ≤ 1 := by
  have write := h.accounted.write
  rw [if_pos h.waits] at write
  omega

/-- A clocked process ends the write, or it goes on. -/
theorem Pending.exec (h : Pending d) {q : Proc} (inside : q ∈ clocked)
    (runnable : d.runnable q = true) : (d.exec q).Ended ∨ Pending (d.exec q) := by
  have alive : d.bus.client ≠ .thrown := by simp [h.waits]
  have step : machine.step d (.run q) = some (d.exec q) := step_iff.mpr ⟨alive, .run q runnable⟩
  obtain ⟨notify, pending, bus⟩ := d.process_signal inside
  obtain ⟨r, frame⟩ := d.bus.signal_waits notify pending h.waits
  rw [← bus] at frame
  cases notify with
  | true => exact Or.inl (by change (d.process q).bus.client = _; rw [frame]; rfl)
  | false =>
    refine Or.inr ⟨h.reachable.step step, ?_, ?_⟩
    · change (d.process q).bus.client = _
      rw [frame]
      rfl
    · change (d.process q).bus.writeThread = _
      rw [frame]
      exact h.rests

theorem Pending.update (h : Pending d) (quiescent : d.quiescent = true) (dirty : d.dirty = true) :
    Pending d.update := by
  have alive : d.bus.client ≠ .thrown := by simp [h.waits]
  exact ⟨h.reachable.step (step_iff.mpr ⟨alive, .delta quiescent dirty⟩),
    by simp [Device.update, h.waits], h.rests⟩

theorem Pending.edge (h : Pending d) (quiescent : d.quiescent = true) (clean : d.dirty = false) :
    Pending d.edge := by
  have alive : d.bus.client ≠ .thrown := by simp [h.waits]
  exact ⟨h.reachable.step (step_iff.mpr ⟨alive, .edge quiescent clean⟩), h.waits, h.rests⟩

/-- Only the clocked processes run, the kernel updates, and the clock rises. -/
theorem Pending.moves (h : Pending d) {a : Action} (hs : Move d a e) :
    (∃ q ∈ clocked, a = .run q ∧ d.runnable q = true ∧ e = d.exec q) ∨
      (a = .delta ∧ d.quiescent = true ∧ d.dirty = true ∧ e = d.update) ∨
      (a = .edge ∧ d.quiescent = true ∧ d.dirty = false ∧ e = d.edge) := by
  cases hs with
  | request t idle => simp [h.waits] at idle
  | delta quiescent dirty => exact Or.inr (Or.inl ⟨rfl, quiescent, dirty, rfl⟩)
  | edge quiescent clean => exact Or.inr (Or.inr ⟨rfl, quiescent, clean, rfl⟩)
  | run q runnable =>
    rcases clocked_or_thread q with inside | rfl | rfl | rfl
    · exact Or.inl ⟨q, inside, rfl, runnable, rfl⟩
    · simp [Device.runnable, h.waits] at runnable
    · simp [Device.runnable, h.rests] at runnable
    · have rests := (h.accounted.no_read (by simp [h.waits])).1
      simp [Device.runnable, rests] at runnable

/-- At place `T` the process `q` has to run; `ripe` says that it finds the packet there. -/
structure Phase (T G : Device → Prop) (q : Proc) (measure : Device → Nat) (ripe : Device → Prop) :
    Prop where
  inside : q ∈ clocked
  awake : ∀ d, Pending d → T d → d.blocked q = false
  own : ∀ d, Pending d → T d → q ∈ d.ready → (d.exec q).Ended ∨ G (d.exec q) ∨
    T (d.exec q) ∧ measure (d.exec q) ≤ measure d ∧ (ripe d → measure (d.exec q) < measure d)
  other : ∀ d p, Pending d → T d → p ∈ clocked → p ≠ q → d.runnable p = true →
    (d.exec p).Ended ∨ G (d.exec p) ∨
      T (d.exec p) ∧ measure (d.exec p) ≤ measure d ∧ (ripe d → ripe (d.exec p))
  update : ∀ d, Pending d → T d → T d.update ∧ measure d.update ≤ measure d
  edge : ∀ d, Pending d → T d → d.quiescent = true → d.update = d →
    T d.edge ∧ measure d.edge ≤ measure d ∧ ripe d.edge

/-- A packet leaves its place in time. -/
theorem Phase.within {T G : Device → Prop} {q : Proc} {measure : Device → Nat}
    {ripe : Device → Prop} (phase : Phase T G q measure ripe) (pending : Pending d) (here : T d)
    {bound : Nat} (le : measure d ≤ bound) :
    machine.Within isEdge (bound + 2) (fun e => e.Ended ∨ Pending e ∧ G e) d := by
  classical
  -- one more while the process has still to be woken for what it is to find
  let rank (d : Device) : Nat := measure d + if q ∈ d.ready ∧ ripe d then 0 else 1
  have small : rank d ≤ bound + 1 := by
    have one : (if q ∈ d.ready ∧ ripe d then 0 else 1) ≤ 1 := by split <;> simp
    exact Nat.add_le_add le one
  refine Machine.Within.mono ?_ (Nat.add_le_add_right small 1)
  refine Machine.within_of_rank (I := fun d => Pending d ∧ T d) rank ?_ ⟨pending, here⟩
  rintro d a e ⟨pending, here⟩ hs
  rcases pending.moves (move_of_step hs) with
    ⟨p, inside, rfl, runnable, rfl⟩ | ⟨rfl, quiescent, dirty, rfl⟩ | ⟨rfl, quiescent, clean, rfl⟩
  · rcases pending.exec inside runnable with ended | goes
    · exact Or.inl (Or.inl ended)
    by_cases own : p = q
    · subst own
      have ready : p ∈ d.ready := by
        have awake := phase.awake d pending here
        cases p with
        | client | executeWriteThread | executeReadThread => simp [clocked] at inside
        | _ => simpa [Device.runnable, awake] using runnable
      have gone : p ∉ (d.exec p).ready :=
        (ready_nodup (open_of_reachable pending.reachable)).not_mem_erase
      rcases phase.own d pending here ready with ended | left | ⟨still, less, strict⟩
      · exact Or.inl (Or.inl ended)
      · exact Or.inl (Or.inr ⟨goes, left⟩)
      · refine Or.inr ⟨⟨goes, still⟩, ?_⟩
        simp only [rank, gone, ready, false_and, true_and, if_false, isEdge, Bool.false_eq_true,
          Nat.add_zero]
        by_cases found : ripe d
        · rw [if_pos found]
          exact strict found
        · rw [if_neg found]
          exact Nat.add_le_add_right less 1
    · have same : q ∈ (d.exec p).ready ↔ q ∈ d.ready := List.mem_erase_of_ne (Ne.symm own)
      rcases phase.other d p pending here inside own runnable with ended | left | ⟨still, less, kept⟩
      · exact Or.inl (Or.inl ended)
      · exact Or.inl (Or.inr ⟨goes, left⟩)
      · refine Or.inr ⟨⟨goes, still⟩, ?_⟩
        simp only [rank, same, isEdge, Bool.false_eq_true, if_false, Nat.add_zero]
        by_cases found : q ∈ d.ready ∧ ripe d
        · rw [if_pos found, if_pos ⟨found.1, kept found.2⟩]
          exact less
        · rw [if_neg found]
          have one : (if q ∈ d.ready ∧ ripe (d.exec p) then 0 else 1) ≤ 1 := by split <;> simp
          omega
  · obtain ⟨still, less⟩ := phase.update d pending here
    have asleep : q ∉ d.ready := not_ready_of_quiescent quiescent phase.inside
    refine Or.inr ⟨⟨pending.update quiescent dirty, still⟩, ?_⟩
    have before : ¬ (q ∈ d.ready ∧ ripe d) := fun both => asleep both.1
    have after : ¬ (q ∈ d.update.ready ∧ ripe d.update) := fun both => asleep both.1
    simp only [rank, if_neg before, if_neg after, isEdge, Bool.false_eq_true, if_false, Nat.add_zero]
    omega
  · obtain ⟨still, less, found⟩ :=
      phase.edge d pending here quiescent (update_of_clean pending.reachable clean)
    have asleep : q ∉ d.ready := not_ready_of_quiescent quiescent phase.inside
    have woken : q ∈ d.edge.ready := by
      simp [Device.edge, phase.inside, phase.awake d pending here]
    refine Or.inr ⟨⟨pending.edge quiescent clean, still⟩, ?_⟩
    have before : ¬ (q ∈ d.ready ∧ ripe d) := fun both => asleep both.1
    simp only [rank, if_neg before, if_pos (And.intro woken found), isEdge, if_true]
    omega

/-- The rule for a packet in a FIFO: one process takes from it, and the others find no second
packet to add. -/
theorem phase_of_fifo {α : Type} {F : Device → Fifo α} {G : Device → Prop} {q : Proc}
    {measure : Device → Nat} (inside : q ∈ clocked) (awake : ∀ d : Device, d.blocked q = false)
    (path : ∀ d, (F d).held ≤ d.pathLoad)
    (own : ∀ d, Pending d → (F d).held ≠ 0 → q ∈ d.ready → (d.exec q).Ended ∨ G (d.exec q) ∨
      F (d.exec q) = F d ∧ measure (d.exec q) ≤ measure d ∧
        ((F d).readable ≠ [] → measure (d.exec q) < measure d))
    (other : ∀ d p, Pending d → (F d).held ≠ 0 → p ∈ clocked → p ≠ q → (d.exec p).Ended ∨
      (F (d.exec p) = F d ∨ ∃ f, F (d.exec p) = (F d).push f) ∧ (Pending (d.exec p) →
        measure (d.exec p) ≤ measure d))
    (update : ∀ d, F d.update = (F d).update ∧ measure d.update = measure d)
    (edge : ∀ d, F d.edge = F d ∧ measure d.edge = measure d) :
    Phase (fun d => (F d).held ≠ 0) G q measure fun d => (F d).written = [] := by
  refine ⟨inside, fun d _ _ => awake d, ?_, ?_, ?_, ?_⟩
  · intro d pending here ready
    rcases own d pending here ready with ended | left | ⟨same, less, strict⟩
    · exact Or.inl ended
    · exact Or.inr (Or.inl left)
    · refine Or.inr (Or.inr ⟨by rwa [same], less, fun shown => strict fun none => here ?_⟩)
      rw [Fifo.held_eq_zero, Fifo.contents, none, shown, List.append_nil]
  · intro d p pending here inside apart runnable
    rcases other d p pending here inside apart with ended | ⟨moved, less⟩
    · exact Or.inl ended
    rcases pending.exec inside runnable with ended | goes
    · exact Or.inl ended
    · refine Or.inr (Or.inr ?_)
      rcases moved with same | ⟨f, push⟩
      · exact ⟨by rwa [same], less goes, fun shown => by rwa [same]⟩
      · -- two packets would be on their way
        have one := (path (d.exec p)).trans goes.path
        rw [push, Fifo.held_push] at one
        omega
  · intro d pending here
    obtain ⟨fifo, same⟩ := update d
    exact ⟨by rwa [fifo, Fifo.held_update], same.le⟩
  · intro d pending here quiescent clean
    obtain ⟨fifo, same⟩ := edge d
    refine ⟨by rwa [fifo], same.le, ?_⟩
    have shown : (F d).update = F d := by rw [← (update d).1, clean]
    rw [fifo]
    exact (Fifo.shown_of_update shown).1

end Device

end ScCosim.Firewall
