import ScCosim.Firewall.Judging

/-!
# The process that publishes

`entry_response` serves one FIFO at each run, and a marker before an answer. While a write is
on its way nothing but the packet of this write adds a marker, so the process comes to the end
of the markers: a blocked `interface_in` gets its place, and an answer is published.
-/
namespace ScCosim.Kernel

/-- The places of a FIFO are enough for what it holds and for what has just been taken. -/
structure Fifo.Fits {α : Type} (f : Fifo α) (n : Nat) : Prop where
  size : f.size = n
  places : f.numRead + f.readable.length + f.written.length ≤ n

namespace Fifo.Fits

variable {α : Type} {f g : Fifo α} {n : Nat} {a : α}

theorem push (h : f.Fits n) (free : 0 < f.numFree) : (f.push a).Fits n := by
  obtain ⟨size, places⟩ := h
  refine ⟨size, ?_⟩
  simp only [numFree, size] at free
  simp only [Fifo.push, List.length_append, List.length_singleton]
  omega

theorem nbRead (h : f.Fits n) (read : f.nbRead = some (a, g)) : g.Fits n := by
  obtain ⟨size, places⟩ := h
  obtain ⟨-, readable, written⟩ := contents_of_nbRead read
  refine ⟨(size_of_nbRead read).trans size, ?_⟩
  rw [readable, List.length_cons] at places
  rw [numRead_of_nbRead read, written]
  omega

theorem update (h : f.Fits n) : f.update.Fits n := by
  obtain ⟨size, places⟩ := h
  refine ⟨size, ?_⟩
  simp only [Fifo.update, List.length_append, List.length_nil]
  omega

theorem held_le (h : f.Fits n) : f.held ≤ n := by
  have places := h.places
  simp only [held, contents, List.length_append]
  omega

end Fifo.Fits

end ScCosim.Kernel

namespace ScCosim.Firewall

open Kernel

/-! ### What is left to publish -/

/-- How many runs without a marker lie ahead of the top of the loop. -/
def ResponcePc.runs : ResponcePc → Nat
  | .start => 2
  | .init | .served _ => 1
  | .loop => 0

namespace Responces

/-- Each marker takes a run, and after it the rest of the loop. -/
def left (r : Responces) : Nat := r.pc.runs + 2 * ∑ n, (r.initResponceFifo n).held

/-- The process finds something. -/
def Waiting (r : Responces) : Prop :=
  ∃ n, (r.initResponceFifo n).readable ≠ [] ∨ (r.responceFifo n).readable ≠ []

/-- The blocks of some ports: an answer, a marker or nothing. -/
theorem serve_cases (r : Responces) (ports : List Port) :
    (r.serve ports).2 = true ∨
      (∃ n v rest, (r.initResponceFifo n).nbRead = some (v, rest) ∧
        r.serve ports = (r.publishInit n rest v, false)) ∨
      r.serve ports = ({ r with pc := .loop }, false) ∧
        ∀ n ∈ ports, (r.initResponceFifo n).readable = [] ∧ (r.responceFifo n).readable = [] := by
  induction ports with
  | nil => exact Or.inr (Or.inr ⟨rfl, by simp⟩)
  | cons n ports ih =>
    unfold serve
    cases marker : (r.initResponceFifo n).nbRead with
    | some v => exact Or.inr (Or.inl ⟨n, v.1, v.2, marker, rfl⟩)
    | none =>
      cases answer : (r.responceFifo n).nbRead with
      | some f => exact Or.inl rfl
      | none =>
        rcases ih with loud | found | ⟨rest, empty⟩
        · exact Or.inl loud
        · exact Or.inr (Or.inl found)
        · refine Or.inr (Or.inr ⟨rest, List.forall_mem_cons.mpr ⟨?_, empty⟩⟩)
          exact ⟨(Fifo.nbRead_eq_none_iff _).mp marker, (Fifo.nbRead_eq_none_iff _).mp answer⟩

theorem left_publishInit (r : Responces) {n : Port} {v : Word} {rest : Fifo Word}
    (read : (r.initResponceFifo n).nbRead = some (v, rest)) :
    (r.publishInit n rest v).left + 1 = 2 * ∑ n, (r.initResponceFifo n).held := by
  have taken := Fifo.held_of_nbRead read
  have moved := sum_update Fifo.held r.initResponceFifo n rest
  simp only [left, publishInit, publish, ResponcePc.runs]
  omega

/-- A run ends the call with an answer, or less is left if there was anything to find. -/
theorem run_drains (r : Responces) : r.run.2 = true ∨
    r.run.1.responceFifo = r.responceFifo ∧ r.run.1.left ≤ r.left ∧
      (r.Waiting → r.run.1.left < r.left) := by
  unfold run
  cases pc : r.pc with
  | start => exact Or.inr ⟨rfl, by simp [left, reset, pc, ResponcePc.runs]⟩
  | init => exact Or.inr ⟨rfl, by simp [left, pc, ResponcePc.runs]⟩
  | loop =>
    rcases r.serve_cases [0, 1, 2, 3] with loud | ⟨n, v, rest, read, served⟩ | ⟨rests, empty⟩
    · exact Or.inl loud
    · have less := r.left_publishInit read
      simp only [served]
      refine Or.inr ⟨rfl, ?_⟩
      simp only [left, pc, ResponcePc.runs] at less ⊢
      omega
    · simp only [rests]
      refine Or.inr ⟨trivial, by simp [left, pc], fun found => ?_⟩
      obtain ⟨n, found⟩ := found
      have each : ∀ n : Port, n ∈ ([0, 1, 2, 3] : List Port) := by decide
      obtain ⟨marker, answer⟩ := empty n (each n)
      simp [marker, answer] at found
  | served m =>
    rcases r.serve_cases (portsAfter m) with loud | ⟨n, v, rest, read, served⟩ | ⟨rests, -⟩
    · exact Or.inl loud
    · have less := r.left_publishInit read
      simp only [served]
      refine Or.inr ⟨rfl, ?_⟩
      simp only [left, pc, ResponcePc.runs] at less ⊢
      omega
    · simp only [rests]
      exact Or.inr ⟨trivial, by simp [left, pc, ResponcePc.runs]⟩

end Responces

/-- A marker is added with the notification or with the packet that it is for. -/
theorem IngressStep.run_marks (i : Port) (source : BitVec 2) (fw : Triple) (responceS : Word)
    (s : IngressStep) : (run i source fw responceS s).notify = true ∨
      (run i source fw responceS s).initResponceFifo = s.initResponceFifo ∨
      ∃ f, (run i source fw responceS s).inFifo = s.inFifo.push f := by
  have hit : ∀ t : IngressStep, t.initResponceFifo = s.initResponceFifo →
      t.writeHit.notify = true ∨ t.writeHit.initResponceFifo = s.initResponceFifo := by
    intro t same
    unfold writeHit
    split
    · exact Or.inl rfl
    · exact Or.inr same
  have forward : ∀ (t : IngressStep) (f : Flit), t.initResponceFifo = s.initResponceFifo →
      t.inFifo = s.inFifo → (t.writeForward f).initResponceFifo = s.initResponceFifo ∨
        ∃ g, (t.writeForward f).inFifo = s.inFifo.push g := by
    intro t f same fifo
    unfold writeForward
    split
    · exact Or.inr ⟨f, by rw [IngressStep.forward, ← fifo]⟩
    · exact Or.inl same
  have spec := run_spec i source fw responceS s
  generalize run i source fw responceS s = t at spec ⊢
  cases spec with
  | reset | init | latch | idle | repeated | wait1 => exact Or.inr (Or.inl rfl)
  | hit | drop => exact Or.inl rfl
  | hitRead w rest => exact (hit ((s.take rest w .hit).count w) rfl).imp_right Or.inl
  | resumeHit => exact (hit s rfl).imp_right Or.inl
  | forward w rest => exact Or.inr (Or.inr ⟨_, rfl⟩)
  | forwardRead w rest =>
    exact Or.inr (forward ((s.take rest w .forwarded).count w) (s.flit i source w) rfl rfl)
  | resumeForward f => exact Or.inr (forward s f rfl rfl)

theorem IngressStep.run_fits {i : Port} {source : BitVec 2} {fw : Triple} {responceS : Word}
    {s : IngressStep} {n : Nat} (fits : s.initResponceFifo.Fits n) :
    (run i source fw responceS s).initResponceFifo.Fits n := by
  have hit : ∀ t : IngressStep, t.initResponceFifo = s.initResponceFifo →
      t.writeHit.initResponceFifo.Fits n := by
    intro t same
    unfold writeHit
    split
    next free => exact (same ▸ fits : t.initResponceFifo.Fits n).push free
    next => exact same ▸ fits
  have forward : ∀ (t : IngressStep) (f : Flit), t.initResponceFifo = s.initResponceFifo →
      (t.writeForward f).initResponceFifo.Fits n := by
    intro t f same
    unfold writeForward
    split
    next free => exact (same ▸ fits : t.initResponceFifo.Fits n).push free
    next => exact same ▸ fits
  have spec := run_spec i source fw responceS s
  generalize run i source fw responceS s = t at spec ⊢
  cases spec with
  | reset | init | latch | idle | repeated | wait1 | hit | drop | forward => exact fits
  | hitRead w rest => exact hit ((s.take rest w .hit).count w) rfl
  | resumeHit => exact hit s rfl
  | forwardRead w rest =>
    exact forward ((s.take rest w .forwarded).count w) (s.flit i source w) rfl
  | resumeForward f => exact forward s f rfl

/-- A blocked `interface_in` that runs again marks its packet, or stays blocked. -/
theorem IngressStep.run_blocked (i : Port) (source : BitVec 2) (fw : Triple) (responceS : Word)
    (s : IngressStep) (blocked : s.ingress.pc.load = 1) :
    (run i source fw responceS s).notify = true ∨
      (∃ f, (run i source fw responceS s).inFifo = s.inFifo.push f) ∨
      (run i source fw responceS s).ingress.pc.load = 1 := by
  have spec := run_spec i source fw responceS s
  generalize run i source fw responceS s = t at spec ⊢
  cases spec with
  | resumeHit =>
    unfold writeHit
    split
    · exact Or.inl rfl
    · exact Or.inr (Or.inr rfl)
  | resumeForward f =>
    unfold writeForward
    split
    · exact Or.inr (Or.inl ⟨f, rfl⟩)
    · exact Or.inr (Or.inr rfl)
  -- elsewhere the process is not blocked
  | reset pc | init pc | latch pc | idle pc | repeated _ _ pc | hit _ _ pc | hitRead _ _ pc
  | drop _ _ pc | forward _ _ pc | forwardRead _ _ pc | wait1 pc => simp [pc, IngressPc.load] at blocked

namespace Device

variable {d : Device}

/-! ### The places of the markers -/

theorem fits_of_reachable (h : machine.Reachable d) (n : Port) :
    (d.responces.initResponceFifo n).Fits internalFifoSize := by
  refine h.invariant (I := fun d => (d.responces.initResponceFifo n).Fits internalFifoSize)
    ⟨rfl, by simp [machine, Device.new, Responces.new, Fifo.new]⟩ ?_
  intro d a e fits hs
  cases move_of_step hs with
  | request | edge => exact fits
  | delta => exact fits.update
  | run q =>
    change ((d.process q).responces.initResponceFifo n).Fits _
    by_cases publishes : q = .entryResponse
    · subst publishes
      change (d.responces.run.1.initResponceFifo n).Fits _
      have spec := d.responces.run_spec
      generalize d.responces.run = t at spec ⊢
      cases spec with
      | reset | rest | answer => exact fits
      | marker m v rest read =>
        by_cases same : n = m
        · subst same
          simpa [Responces.publishInit, Responces.publish] using fits.nbRead read
        · simpa [Responces.publishInit, Responces.publish, same] using fits
    by_cases marks : ∃ i, q = .interfaceIn i
    · obtain ⟨i, rfl⟩ := marks
      rw [process_interfaceIn]
      by_cases same : n = i
      · subst same
        simp only [interfaceIn, Function.update_self]
        exact IngressStep.run_fits fits
      · simpa [interfaceIn, same] using fits
    · simp only [not_exists] at marks
      obtain ⟨markers, answers, same, kept⟩ := d.process_responces publishes
      rw [same, kept marks]
      exact fits

/-- A bound on what is left to publish. -/
theorem left_le (h : machine.Reachable d) : d.responces.left ≤ 82 := by
  have markers : ∑ n, (d.responces.initResponceFifo n).held ≤ ∑ _n : Port, internalFifoSize :=
    Finset.sum_le_sum fun n _ => (fits_of_reachable h n).held_le
  have pc : d.responces.pc.runs ≤ 2 := by cases d.responces.pc <;> simp [ResponcePc.runs]
  simp [internalFifoSize] at markers
  unfold Responces.left
  omega

/-! ### Nothing else is marked -/

/-- While the packet of a write is elsewhere, nothing is left to publish but what was. -/
theorem left_exec (pending : Pending d) {p : Proc} (inside : p ∈ clocked)
    (apart : p ≠ .entryResponse)
    (elsewhere : Pending (d.exec p) → ∀ i, p = .interfaceIn i →
      ((d.exec p).switch.inFifo i).held = 0) :
    (d.exec p).Ended ∨ (Pending (d.exec p) →
      (d.exec p).responces.pc = d.responces.pc ∧
        (d.exec p).responces.initResponceFifo = d.responces.initResponceFifo) := by
  by_cases marks : ∃ i, p = .interfaceIn i
  · obtain ⟨i, rfl⟩ := marks
    rcases IngressStep.run_marks i (portBits i) (d.setup i).fwRange (d.responces.responceS i).cur
      (d.ingressStep i) with notify | same | ⟨f, push⟩
    · exact Or.inl ((d.exec_interfaceIn i).2.2.2.2 notify pending.waits)
    · refine Or.inr fun _ => ?_
      have fifo : (d.ingressRun i).initResponceFifo = d.responces.initResponceFifo i := same
      rw [exec, process_interfaceIn]
      refine ⟨rfl, ?_⟩
      change Function.update d.responces.initResponceFifo i (d.ingressRun i).initResponceFifo = _
      rw [fifo, Function.update_eq_self]
    · refine Or.inr fun goes => ?_
      have none := elsewhere goes i rfl
      have fifo : (d.ingressRun i).inFifo = (d.switch.inFifo i).push f := push
      rw [(d.exec_interfaceIn i).2.1, fifo, Fifo.held_push] at none
      cases none
  · simp only [not_exists] at marks
    refine Or.inr fun _ => ?_
    obtain ⟨markers, answers, same, kept⟩ := d.process_responces apart
    change (d.process p).responces.pc = _ ∧ (d.process p).responces.initResponceFifo = _
    rw [same, kept marks]
    exact ⟨rfl, rfl⟩

/-- The run of the process that publishes. -/
theorem exec_entryResponse (pending : Pending d) :
    (d.exec .entryResponse).responces = d.responces.run.1 ∧
      (d.responces.run.2 = true → (d.exec .entryResponse).Ended) := by
  refine ⟨rfl, fun loud => ?_⟩
  change (if d.responces.run.2 = true then _ else _ : Bus).client = _
  rw [if_pos loud]
  simp [Bus.notifyWriteEnded, pending.waits]

/-! ### An answer is published -/

/-- An answer in its FIFO ends the call. -/
theorem phase_answer (k : Port) :
    Phase (fun d => (d.responces.responceFifo k).held ≠ 0) (fun _ => False) .entryResponse
      (fun d => d.responces.left) fun d => (d.responces.responceFifo k).written = [] := by
  have path (d : Device) : (d.responces.responceFifo k).held ≤ d.responces.load :=
    Finset.single_le_sum (f := fun k => (d.responces.responceFifo k).held)
      (fun _ _ => Nat.zero_le _) (Finset.mem_univ k)
  refine phase_of_fifo (by simp [clocked]) (fun _ => rfl) ?_ ?_ ?_ ?_ ?_
  · intro d
    have own := path d
    unfold pathLoad
    omega
  · intro d pending here ready
    obtain ⟨same, ends⟩ := exec_entryResponse pending
    rcases d.responces.run_drains with loud | ⟨fifo, less, strict⟩
    · exact Or.inl (ends loud)
    · rw [same]
      exact Or.inr (Or.inr ⟨congrFun fifo k, less, fun found => strict ⟨k, Or.inr found⟩⟩)
  · intro d p pending here inside apart
    have moved : (d.exec p).responces.responceFifo k = d.responces.responceFifo k ∨
        ∃ f, (d.exec p).responces.responceFifo k = (d.responces.responceFifo k).push f := by
      by_cases egress : ∃ j, p = .interfaceOut j
      · obtain ⟨j, rfl⟩ := egress
        rw [exec, process_interfaceOut]
        by_cases own : k = j
        · subst own
          simpa [interfaceOut] using EgressStep.run_responceFifo (memBase k)
            ⟨d.egress k, d.switch.outFifo k, d.responces.responceFifo k, d.mem k, false⟩
        · exact Or.inl (by simp [interfaceOut, own])
      · left
        rw [exec, d.process_responceFifo (fun j at_ => egress ⟨j, at_⟩) apart]
    have elsewhere : Pending (d.exec p) → ∀ i, p = .interfaceIn i →
        ((d.exec p).switch.inFifo i).held = 0 := by
      rintro goes i rfl
      have answer := path (d.exec (.interfaceIn i))
      have still : (d.exec (.interfaceIn i)).responces.responceFifo = d.responces.responceFifo := by
        rw [exec, d.process_responceFifo (by simp) (by simp)]
      rw [still] at answer
      have one := goes.path
      have entry := Finset.single_le_sum
        (f := fun j => ((d.exec (.interfaceIn i)).switch.inFifo j).held)
        (fun _ _ => Nat.zero_le _) (Finset.mem_univ i)
      unfold pathLoad Switch.load at one
      omega
    rcases left_exec pending inside apart elsewhere with ended | kept
    · exact Or.inl ended
    · refine Or.inr ⟨moved, fun goes => ?_⟩
      obtain ⟨pc, markers⟩ := kept goes
      simp only [Responces.left, pc, markers, le_refl]
  · exact fun d => ⟨rfl, by simp [Responces.left, update]⟩
  · exact fun d => ⟨rfl, rfl⟩

theorem within_answer (pending : Pending d) {k : Port}
    (here : (d.responces.responceFifo k).held ≠ 0) : machine.Within isEdge 84 Ended d := by
  refine ((phase_answer k).within pending here (left_le pending.reachable)).imp ?_
  rintro e (ended | ⟨-, never⟩)
  · exact ended
  · exact never.elim

/-! ### A blocked process gets its place -/

/-- While `interface_in_i` is blocked with a packet, no packet is in the switch. -/
theorem inFifo_of_blocked (pending : Pending d) {i : Port} (here : (d.ingress i).pc.load = 1)
    (j : Port) : (d.switch.inFifo j).held = 0 := by
  have path := pending.path
  have own : (d.ingress i).in_.held + (d.ingress i).pc.load ≤ ∑ i, (d.ingress i).load :=
    Finset.single_le_sum (f := fun i => (d.ingress i).load) (fun _ _ => Nat.zero_le _)
      (Finset.mem_univ i)
  have entry := Finset.single_le_sum (f := fun i => (d.switch.inFifo i).held)
    (fun _ _ => Nat.zero_le _) (Finset.mem_univ j)
  unfold pathLoad Switch.load at path
  omega

/-- A blocked `interface_in` waits for `entry_response` only. -/
theorem phase_blocked (i : Port) :
    Phase (fun d => (d.ingress i).pc.load = 1) (fun d => (d.switch.inFifo i).held ≠ 0)
      .entryResponse (fun d => d.responces.left)
      fun d => (d.responces.initResponceFifo i).readable ≠ [] := by
  refine ⟨by simp [clocked], fun _ _ _ => rfl, ?_, ?_, ?_, ?_⟩
  · intro d pending here ready
    obtain ⟨same, ends⟩ := exec_entryResponse pending
    rcases d.responces.run_drains with loud | ⟨-, less, strict⟩
    · exact Or.inl (ends loud)
    · rw [same]
      exact Or.inr (Or.inr ⟨here, less, fun found => strict ⟨i, Or.inl found⟩⟩)
  · intro d p pending here inside apart runnable
    have stays : (d.exec p).Ended ∨ ((d.exec p).switch.inFifo i).held ≠ 0 ∨
        ((d.exec p).ingress i).pc.load = 1 := by
      by_cases own : p = .interfaceIn i
      · subst own
        obtain ⟨ingress, inFifo, -, -, ends⟩ := d.exec_interfaceIn i
        rw [ingress, inFifo]
        rcases IngressStep.run_blocked i (portBits i) (d.setup i).fwRange
          (d.responces.responceS i).cur (d.ingressStep i) here with
          notify | ⟨f, push⟩ | still
        · exact Or.inl (ends notify pending.waits)
        · refine Or.inr (Or.inl ?_)
          have fifo : (d.ingressRun i).inFifo = (d.switch.inFifo i).push f := push
          rw [fifo, Fifo.held_push]
          exact Nat.succ_ne_zero _
        · exact Or.inr (Or.inr still)
      · have writes : p ≠ .executeWriteThread := by rintro rfl; simp [clocked] at inside
        have same : (d.exec p).ingress i = d.ingress i := d.process_ingress own writes
        exact Or.inr (Or.inr (by rw [same]; exact here))
    rcases stays with ended | left | still
    · exact Or.inl ended
    · exact Or.inr (Or.inl left)
    rcases pending.exec inside runnable with ended | goes
    · exact Or.inl ended
    rcases left_exec pending inside apart fun _ j _ => inFifo_of_blocked goes still j with
      ended | kept
    · exact Or.inl ended
    · obtain ⟨pc, markers⟩ := kept goes
      refine Or.inr (Or.inr ⟨still, ?_, ?_⟩)
      · simp only [Responces.left, pc, markers, le_refl]
      · rw [markers]
        exact id
  · exact fun d pending here => ⟨here, by simp [Responces.left, update]⟩
  · intro d pending here quiescent same
    refine ⟨here, le_refl _, fun empty => ?_⟩
    -- a process with room would still run
    have listed : ∀ i, Proc.interfaceIn i ∈ procs := by decide
    have rests : d.runnable (.interfaceIn i) = false := by
      simpa using List.all_eq_true.mp quiescent (.interfaceIn i) (listed i)
    have fifo : (d.responces.initResponceFifo i).update = d.responces.initResponceFifo i :=
      congrArg (fun d : Device => d.responces.initResponceFifo i) same
    obtain ⟨written, numRead⟩ := Fifo.shown_of_update fifo
    have size := (fits_of_reachable pending.reachable i).size
    have free : 0 < (d.responces.initResponceFifo i).numFree := by
      have empty : (d.responces.initResponceFifo i).readable = [] := empty
      simp [Fifo.numFree, written, numRead, empty, size, internalFifoSize]
    have blocked : d.blocked (.interfaceIn i) = true := by
      cases pc : (d.ingress i).pc <;> simp_all [Device.blocked, IngressPc.load]
    simp [Device.runnable, blocked, hasRoom, free] at rests

theorem within_blocked (pending : Pending d) {i : Port} (here : (d.ingress i).pc.load = 1) :
    machine.Within isEdge 84 (fun e => e.Ended ∨ Pending e ∧ (e.switch.inFifo i).held ≠ 0) d :=
  (phase_blocked i).within pending here (left_le pending.reachable)

end Device

end ScCosim.Firewall
