import ScCosim.Firewall.Judging

/-!
# Through the switch

A packet in an input of a switch is passed on when the process next looks at that input. Every
FIFO behind it is empty then, so that the packet is not lost.
-/
namespace ScCosim.Firewall

open Kernel

/-- How many runs a switch process still makes before it looks at both inputs. -/
def SwitchPc.runs : SwitchPc → Nat
  | .start => 2
  | .init | .middle => 1
  | .loop => 0

namespace SwitchStep

/-- With room behind it a switch passes a packet on, or it comes nearer to its loop. -/
theorem run_waits (s : SwitchStep) (room : ∀ b, 0 < (s.outs b).numFree) :
    (∃ b, (s.run.outs b).held ≠ 0) ∨
      (∀ j, s.run.ins j = s.ins j) ∧ s.run.pc.runs ≤ s.pc.runs ∧
        ((∃ j, (s.ins j).readable ≠ []) → s.run.pc.runs < s.pc.runs) := by
  cases s.passes_run with
  | moves j f rest taken read ins outs =>
    refine Or.inl ⟨sideOf (nextPosition f.word), ?_⟩
    rw [outs, if_pos rfl, Fifo.nbWrite, if_pos (room _), Fifo.held_push]
    exact Nat.succ_ne_zero _
  | still none ins outs =>
    refine Or.inr ⟨ins, ?_⟩
    have idle (empty : s.in1.readable = []) : s.second = { s with pc := .loop } := by
      rw [second, (Fifo.nbRead_eq_none_iff _).mpr empty]
    cases pc : s.pc with
    | start => simp [run, pc, SwitchPc.runs]
    | init => simp [run, pc, SwitchPc.runs]
    | middle =>
      have empty : s.in1.readable = [] := by simpa [taking, pc] using none
      simp [run, pc, idle empty, SwitchPc.runs]
    | loop =>
      -- in the loop both inputs are looked at
      obtain ⟨first, second⟩ : s.in0.readable = [] ∧ s.in1.readable = [] := by
        simpa [taking, pc] using none
      have still : s.run = { s with pc := .loop } := by
        rw [run, pc]
        simp only [(Fifo.nbRead_eq_none_iff _).mpr first]
        exact idle second
      rw [still]
      refine ⟨le_refl _, fun found => ?_⟩
      obtain ⟨j, found⟩ := found
      unfold SwitchStep.ins at found
      split at found
      · exact absurd first found
      · exact absurd second found

end SwitchStep

/-- A FIFO stays as it is, or one element more is in it. -/
theorem Fifo.nbWrite_push {α : Type} (f : Fifo α) (a : α) :
    f.nbWrite a = f ∨ ∃ b, f.nbWrite a = f.push b := by
  unfold Fifo.nbWrite
  split
  · exact Or.inr ⟨a, rfl⟩
  · exact Or.inl rfl

namespace SwitchStep

theorem run_outs (s : SwitchStep) (b : Fin 2) :
    s.run.outs b = s.outs b ∨ ∃ f, s.run.outs b = (s.outs b).push f := by
  cases s.passes_run with
  | still none ins outs => exact Or.inl (outs b)
  | moves j f rest taken read ins outs =>
    rw [outs]
    split
    · exact Fifo.nbWrite_push _ _
    · exact Or.inl rfl

end SwitchStep

namespace Device

variable {d : Device}

/-- What a switch process leaves. -/
theorem stepOf_entrySw (d : Device) (k : Fin 4) :
    (d.exec (.entrySw k)).switch.stepOf k = (d.switch.stepOf k).run := by
  match k with
  | 0 | 1 => simp [exec, process, entrySw1, entrySw2, Switch.firstStage, Switch.stepOf]
  | 2 | 3 => simp [exec, process, entrySw3, entrySw4, Switch.secondStage, Switch.stepOf]

/-- A packet in front of a switch process is one of the pieces. -/
theorem held_le_pathLoad (d : Device) (k : Fin 4) (j : Fin 2) :
    ((d.switch.stepOf k).ins j).held ≤ d.pathLoad := by
  have entry (i : Port) : (d.switch.inFifo i).held ≤ d.pathLoad := by
    have own := Finset.single_le_sum (f := fun i => (d.switch.inFifo i).held)
      (fun _ _ => Nat.zero_le _) (Finset.mem_univ i)
    unfold pathLoad Switch.load
    omega
  have stage (a b : Fin 2) : (d.switch.outFifoS a b).held ≤ d.pathLoad := by
    have row := Finset.single_le_sum (f := fun b => (d.switch.outFifoS a b).held)
      (fun _ _ => Nat.zero_le _) (Finset.mem_univ b)
    have all := Finset.single_le_sum (f := fun a => ∑ b, (d.switch.outFifoS a b).held)
      (fun _ _ => Nat.zero_le _) (Finset.mem_univ a)
    unfold pathLoad Switch.load
    omega
  match k, j with
  | 0, 0 => exact entry 0
  | 0, 1 => exact entry 1
  | 1, 0 => exact entry 2
  | 1, 1 => exact entry 3
  | 2, 0 => exact stage 0 0
  | 2, 1 => exact stage 1 0
  | 3, 0 => exact stage 0 1
  | 3, 1 => exact stage 1 1

/-- The other processes at most add a packet in front of a switch process. -/
theorem ins_process (d : Device) {k : Fin 4} {p : Proc} (apart : p ≠ .entrySw k) (j : Fin 2) :
    ((d.exec p).switch.pc k = d.switch.pc k) ∧
      (((d.exec p).switch.stepOf k).ins j = (d.switch.stepOf k).ins j ∨
        ∃ f, ((d.exec p).switch.stepOf k).ins j = ((d.switch.stepOf k).ins j).push f) := by
  have four (m : Fin 4) : m = 0 ∨ m = 1 ∨ m = 2 ∨ m = 3 := by omega
  have two (j : Fin 2) : j = 0 ∨ j = 1 := by omega
  cases p with
  | entrySw l =>
    have other : k ≠ l := fun same => apart (same ▸ rfl)
    have outs := (d.switch.stepOf l).run_outs
    rw [← stepOf_entrySw] at outs
    constructor
    · rcases four l with rfl | rfl | rfl | rfl <;>
        simp [exec, process, entrySw1, entrySw2, entrySw3, entrySw4, Switch.firstStage,
          Switch.secondStage, other]
    -- the outputs of the first stage are the inputs of the second
    · have first := outs 0
      have second := outs 1
      rcases four l with rfl | rfl | rfl | rfl <;> rcases four k with rfl | rfl | rfl | rfl <;>
        rcases two j with rfl | rfl <;>
        first
          | exact absurd rfl other
          | exact Or.inl rfl
          | exact first
          | exact second
  | interfaceIn i =>
    have pushes : ∀ l, (d.exec (.interfaceIn i)).switch.inFifo l = d.switch.inFifo l ∨
        ∃ f, (d.exec (.interfaceIn i)).switch.inFifo l = (d.switch.inFifo l).push f := by
      intro l
      by_cases own : l = i
      · subst own
        rw [(d.exec_interfaceIn l).2.1]
        rcases IngressStep.run_inFifo l (portBits l) (d.setup l).fwRange (d.responces.responceS l).cur
          (d.ingressStep l) with same | ⟨f, push, -⟩
        · exact Or.inl same
        · exact Or.inr ⟨f, push⟩
      · left
        simp [exec, interfaceIn, own]
    have rest : (d.exec (.interfaceIn i)).switch.pc = d.switch.pc ∧
        (d.exec (.interfaceIn i)).switch.outFifoS = d.switch.outFifoS := by
      rw [exec, process_interfaceIn]
      exact ⟨rfl, rfl⟩
    refine ⟨congrFun rest.1 k, ?_⟩
    rcases four k with rfl | rfl | rfl | rfl <;> rcases two j with rfl | rfl
    · exact pushes 0
    · exact pushes 1
    · exact pushes 2
    · exact pushes 3
    -- the second stage has no port of its own
    all_goals exact Or.inl (by simp [Switch.stepOf, SwitchStep.ins, rest.2])
  | interfaceOut l =>
    rw [exec, process_interfaceOut]
    refine ⟨rfl, Or.inl ?_⟩
    rcases four k with rfl | rfl | rfl | rfl <;> rcases two j with rfl | rfl <;> rfl
  | _ =>
    rw [exec, d.process_switch (by simp) (by simp) (by simp)]
    exact ⟨rfl, Or.inl rfl⟩

/-- A packet in front of a switch process is passed on, if the process finds room behind it. -/
theorem phase_switch (k : Fin 4) (j : Fin 2)
    (room : ∀ d, Pending d → ((d.switch.stepOf k).ins j).held ≠ 0 →
      ∀ b, 0 < ((d.switch.stepOf k).outs b).numFree) :
    Phase (fun d => ((d.switch.stepOf k).ins j).held ≠ 0)
      (fun d => ∃ b, ((d.switch.stepOf k).outs b).held ≠ 0) (.entrySw k)
      (fun d => (d.switch.pc k).runs) fun d => ((d.switch.stepOf k).ins j).written = [] := by
  have pcOf (d : Device) : d.switch.pc k = (d.switch.stepOf k).pc := by
    match k with
    | 0 | 1 | 2 | 3 => rfl
  refine phase_of_fifo ((clocked_or_thread _).resolve_right (by simp)) (fun _ => rfl)
    (fun d => d.held_le_pathLoad k j) ?_ ?_ ?_ ?_
  · intro d pending here ready
    simp only [pcOf, stepOf_entrySw]
    rcases (d.switch.stepOf k).run_waits (room d pending here) with passed | ⟨ins, less, strict⟩
    · exact Or.inr (Or.inl passed)
    · exact Or.inr (Or.inr ⟨ins j, less, fun some => strict ⟨j, some⟩⟩)
  · intro d p pending here inside apart
    obtain ⟨pc, ins⟩ := d.ins_process apart j
    exact Or.inr ⟨ins, fun _ => by rw [pc]⟩
  · intro d
    refine ⟨?_, rfl⟩
    match k, j with
    | 0, 0 | 0, 1 | 1, 0 | 1, 1 | 2, 0 | 2, 1 | 3, 0 | 3, 1 => rfl
  · exact fun d => ⟨rfl, rfl⟩

theorem runs_le (c : SwitchPc) : c.runs ≤ 2 := by cases c <;> simp [SwitchPc.runs]

/-- A packet passes the process in time. -/
theorem within_switch (pending : Pending d) (k : Fin 4) (j : Fin 2)
    (room : ∀ d, Pending d → ((d.switch.stepOf k).ins j).held ≠ 0 →
      ∀ b, 0 < ((d.switch.stepOf k).outs b).numFree)
    (here : ((d.switch.stepOf k).ins j).held ≠ 0) :
    machine.Within isEdge 4 (fun e => e.Ended ∨ Pending e ∧
      ∃ b, ((e.switch.stepOf k).outs b).held ≠ 0) d :=
  (phase_switch k j room).within pending here (runs_le _)

/-! ### The two stages -/

/-- With a packet in front of the first stage there is room behind it. -/
theorem room_stage (pending : Pending d) {i : Port} (here : (d.switch.inFifo i).held ≠ 0)
    (a b : Fin 2) : 0 < (d.switch.outFifoS a b).numFree := by
  refine (metered_stage pending.reachable a b).free (by decide) ?_
  have path := pending.path
  have own := Finset.single_le_sum (f := fun i => (d.switch.inFifo i).held)
    (fun _ _ => Nat.zero_le _) (Finset.mem_univ i)
  unfold pathLoad Switch.load at path
  have stages : ∑ a, ∑ b, (d.switch.outFifoS a b).held = 0 := by omega
  have row := Finset.sum_eq_zero_iff.mp stages a (Finset.mem_univ a)
  exact Finset.sum_eq_zero_iff.mp row b (Finset.mem_univ b)

/-- With a packet between the stages there is room behind the second. -/
theorem room_exit (pending : Pending d) {a b : Fin 2} (here : (d.switch.outFifoS a b).held ≠ 0)
    (k : Port) : 0 < (d.switch.outFifo k).numFree := by
  refine (metered_exit pending.reachable k).free (by decide) ?_
  have path := pending.path
  have row := Finset.single_le_sum (f := fun b => (d.switch.outFifoS a b).held)
    (fun _ _ => Nat.zero_le _) (Finset.mem_univ b)
  have all := Finset.single_le_sum (f := fun a => ∑ b, (d.switch.outFifoS a b).held)
    (fun _ _ => Nat.zero_le _) (Finset.mem_univ a)
  unfold pathLoad Switch.load at path
  have exits : ∑ k, (d.switch.outFifo k).held = 0 := by omega
  exact Finset.sum_eq_zero_iff.mp exits k (Finset.mem_univ k)

theorem within_entry (pending : Pending d) {i : Port} (here : (d.switch.inFifo i).held ≠ 0) :
    machine.Within isEdge 4 (fun e => e.Ended ∨ Pending e ∧
      ∃ a b, (e.switch.outFifoS a b).held ≠ 0) d := by
  have front (k : Fin 4) (j a : Fin 2)
      (ins : ∀ d : Device, (d.switch.stepOf k).ins j = d.switch.inFifo i)
      (outs : ∀ b, ∀ d : Device, (d.switch.stepOf k).outs b = d.switch.outFifoS a b) :
      machine.Within isEdge 4 (fun e => e.Ended ∨ Pending e ∧
        ∃ a b, (e.switch.outFifoS a b).held ≠ 0) d := by
    refine (within_switch pending k j ?_ (by rwa [ins])).imp ?_
    · intro d pending here b
      rw [outs]
      exact room_stage pending (by rwa [← ins]) a b
    · rintro e (ended | ⟨pending, b, there⟩)
      · exact Or.inl ended
      · exact Or.inr ⟨pending, a, b, by rwa [← outs]⟩
  match i with
  | 0 => exact front 0 0 0 (fun _ => rfl) (Fin.forall_fin_two.mpr ⟨fun _ => rfl, fun _ => rfl⟩)
  | 1 => exact front 0 1 0 (fun _ => rfl) (Fin.forall_fin_two.mpr ⟨fun _ => rfl, fun _ => rfl⟩)
  | 2 => exact front 1 0 1 (fun _ => rfl) (Fin.forall_fin_two.mpr ⟨fun _ => rfl, fun _ => rfl⟩)
  | 3 => exact front 1 1 1 (fun _ => rfl) (Fin.forall_fin_two.mpr ⟨fun _ => rfl, fun _ => rfl⟩)

theorem within_exit (pending : Pending d) {a b : Fin 2} (here : (d.switch.outFifoS a b).held ≠ 0) :
    machine.Within isEdge 4 (fun e => e.Ended ∨ Pending e ∧
      ∃ k, (e.switch.outFifo k).held ≠ 0) d := by
  have back (k : Fin 4) (exit : Fin 2 → Port)
      (ins : ∀ d : Device, (d.switch.stepOf k).ins a = d.switch.outFifoS a b)
      (outs : ∀ c, ∀ d : Device, (d.switch.stepOf k).outs c = d.switch.outFifo (exit c)) :
      machine.Within isEdge 4 (fun e => e.Ended ∨ Pending e ∧
        ∃ k, (e.switch.outFifo k).held ≠ 0) d := by
    refine (within_switch pending k a ?_ (by rwa [ins])).imp ?_
    · intro d pending here c
      rw [outs]
      exact room_exit pending (by rwa [← ins]) (exit c)
    · rintro e (ended | ⟨pending, c, there⟩)
      · exact Or.inl ended
      · exact Or.inr ⟨pending, exit c, by rwa [← outs]⟩
  match a, b with
  | 0, 0 | 1, 0 =>
    exact back 2 ![0, 1] (fun _ => rfl) (Fin.forall_fin_two.mpr ⟨fun _ => rfl, fun _ => rfl⟩)
  | 0, 1 | 1, 1 =>
    exact back 3 ![2, 3] (fun _ => rfl) (Fin.forall_fin_two.mpr ⟨fun _ => rfl, fun _ => rfl⟩)

end Device

end ScCosim.Firewall
