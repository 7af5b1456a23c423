import ScCosim.Firewall.Contents

/-!
# Between the phases

While nothing has run since the last update, an update changes nothing: every channel shows
what has been written. And a FIFO between the switches is read at most once before the next
edge, so one that holds no packet has a free place.
-/
namespace ScCosim.Kernel

theorem Fifo.update_update {α : Type} (f : Fifo α) : f.update.update = f.update := by
  simp [Fifo.update]

theorem Signal.update_update {α : Type} (s : Signal α) : s.update.update = s.update := rfl

theorem Fifo.numRead_of_nbRead {α : Type} {f g : Fifo α} {a : α} (h : f.nbRead = some (a, g)) :
    g.numRead = f.numRead + 1 := by
  unfold nbRead at h
  split at h
  · cases h
  · cases h
    rfl

/-- An update that changes nothing finds nothing written or taken. -/
theorem Fifo.shown_of_update {α : Type} {f : Fifo α} (same : f.update = f) :
    f.written = [] ∧ f.numRead = 0 :=
  ⟨(congrArg Fifo.written same).symm, (congrArg Fifo.numRead same).symm⟩

end ScCosim.Kernel

namespace ScCosim.Firewall

open Kernel

namespace Device

variable {d e : Device}

/-- The threads and the clocked processes can only notify the initiator. -/
theorem client_process (d : Device) {q : Proc} (other : q ≠ .client) :
    (d.process q).bus.client = d.bus.client ∨ (d.process q).bus.client = .notified := by
  rcases clocked_or_thread q with inside | rfl | rfl | rfl
  · obtain ⟨notify, pending, bus⟩ := d.process_signal inside
    rw [bus, d.bus.signal_client]
    split
    · exact Or.inr rfl
    · exact Or.inl rfl
  · exact absurd rfl other
  · obtain ⟨client, _, _, _, _, _, same, woken⟩ := d.executeWriteThread_frame
    rw [process, same]
    exact woken
  · obtain ⟨client, _, _, _, same, woken⟩ := d.executeReadThread_frame
    rw [process, same]
    exact woken

theorem update_update (d : Device) : d.update.update = d.update := by
  -- the initiator's wait ends with the first update
  cases client : d.bus.client <;>
    simp [update, client, Fifo.update_update, Signal.update_update]

theorem update_of_clean (h : machine.Reachable d) (clean : d.dirty = false) : d.update = d := by
  refine h.invariant (I := fun d => d.dirty = false → d.update = d) (fun _ => rfl) ?_ clean
  intro d a e same hs clean
  cases move_of_step hs with
  | run q => cases clean
  | request => cases clean
  | delta => exact d.update_update
  | edge _ before =>
    have frame : d.edge.update = { d.update with ready := d.edge.ready } := rfl
    rw [frame, same before]
    rfl

/-! ### FIFOs with one reader on the clock -/

/-- A FIFO of `n` places that the process `q` takes at most one packet from before the next
edge. -/
structure Metered {α : Type} (d : Device) (f : Fifo α) (n : Nat) (q : Proc) : Prop where
  size : f.size = n
  taken : f.numRead + (if q ∈ d.ready then 1 else 0) ≤ 1

/-- The rule for such a FIFO: it is found at one place of the device, where no process but the
reader takes from it. -/
theorem metered_of_reachable {α : Type} (F : Device → Fifo α) (n : Nat) (q : Proc)
    (init : F Device.new = Fifo.new n)
    (update : ∀ d : Device, F d.update = (F d).update)
    (request : ∀ (d : Device) t, F (d.request t) = F d)
    (edge : ∀ d : Device, F d.edge = F d)
    (run : ∀ (d : Device) p, d.runnable p = true → (F (d.exec p)).size = (F d).size ∧
      (F (d.exec p)).numRead ≤ (F d).numRead + if p = q ∧ q ∈ d.ready then 1 else 0)
    (h : machine.Reachable d) : Metered d (F d) n q := by
  have bound (p : Prop) [Decidable p] : 0 + (if p then 1 else 0) ≤ 1 := by split <;> simp
  have inv : machine.Reachable d ∧ d.ready.Nodup ∧ Metered d (F d) n q := by
    refine h.invariant (I := fun d => machine.Reachable d ∧ d.ready.Nodup ∧ Metered d (F d) n q)
      ⟨machine.reachable_init, List.nodup_nil, ?_⟩ ?_
    · change Metered Device.new (F Device.new) n q
      rw [init]
      exact ⟨rfl, by simp [Fifo.new, Device.new]⟩
    rintro d a e ⟨reachable, nodup, size, taken⟩ hs
    have move := move_of_step hs
    refine ⟨reachable.step hs, nodup_step nodup (transition_of_move move), ?_⟩
    cases move with
    | run p runnable =>
      obtain ⟨same, reads⟩ := run d p runnable
      refine ⟨same.trans size, ?_⟩
      change (F (d.exec p)).numRead + (if q ∈ d.ready.erase p then 1 else 0) ≤ 1
      by_cases own : p = q
      · subst own
        -- the reader is not ready any more
        rw [if_neg nodup.not_mem_erase]
        simp only [true_and] at reads
        omega
      · have still : q ∈ d.ready.erase p ↔ q ∈ d.ready := List.mem_erase_of_ne (Ne.symm own)
        simp only [still]
        simp only [own, false_and, if_false] at reads
        omega
    | request t =>
      rw [request]
      exact ⟨size, taken⟩
    | delta =>
      rw [update]
      exact ⟨size, bound _⟩
    | edge quiescent clean =>
      have same : (F d).update = F d := by rw [← update, update_of_clean reachable clean]
      rw [edge]
      refine ⟨size, ?_⟩
      rw [(Fifo.shown_of_update same).2]
      exact bound _
  exact inv.2.2

/-- With nothing in it such a FIFO has a free place. -/
theorem Metered.free {α : Type} {f : Fifo α} {n : Nat} {q : Proc} (h : Metered d f n q)
    (places : 1 < n) (empty : f.held = 0) : 0 < f.numFree := by
  have taken := h.taken
  rw [Fifo.held_eq_zero, Fifo.contents, List.append_eq_nil_iff] at empty
  simp only [Fifo.numFree, empty.1, empty.2, h.size, List.length_nil]
  omega

end Device

/-- A run takes at most one packet from an input and none from an output. -/
theorem SwitchStep.run_reads (s : SwitchStep) (j : Fin 2) :
    ((s.run.ins j).size = (s.ins j).size ∧ (s.run.ins j).numRead ≤ (s.ins j).numRead + 1) ∧
      (s.run.outs j).size = (s.outs j).size ∧ (s.run.outs j).numRead = (s.outs j).numRead := by
  refine ⟨s.run_gauge j, ?_⟩
  cases s.passes_run with
  | still none ins outs => rw [outs]; exact ⟨rfl, rfl⟩
  | moves i f rest taken read ins outs =>
    rw [outs]
    unfold Fifo.nbWrite
    split
    · split <;> exact ⟨rfl, rfl⟩
    · exact ⟨rfl, rfl⟩

namespace Switch

variable (w : Switch)

/-- Switch `a` of the first stage only writes behind itself. -/
theorem reads_firstStage (k : Fin 4) (a x : Fin 2) (p q : Port) (y : Fin 2) :
    ((w.firstStage k a p q).outFifoS x y).size = (w.outFifoS x y).size ∧
      ((w.firstStage k a p q).outFifoS x y).numRead = (w.outFifoS x y).numRead := by
  have outs := (SwitchStep.run_reads
    ⟨w.inFifo p, w.inFifo q, w.outFifoS a 0, w.outFifoS a 1, w.pc k⟩ y).2
  by_cases here : x = a
  · subst here
    match y with
    | 0 | 1 => simpa [firstStage, SwitchStep.outs] using outs
  · simp [firstStage, here]

/-- Switch `b` of the second stage takes at most one packet from each side. -/
theorem reads_secondStage (k : Fin 4) (b x : Fin 2) (p q : Port) (y : Fin 2) :
    ((w.secondStage k b p q).outFifoS x y).size = (w.outFifoS x y).size ∧
      ((w.secondStage k b p q).outFifoS x y).numRead ≤
        (w.outFifoS x y).numRead + if y = b then 1 else 0 := by
  have ins := (SwitchStep.run_reads
    ⟨w.outFifoS 0 b, w.outFifoS 1 b, w.outFifo p, w.outFifo q, w.pc k⟩ x).1
  by_cases here : y = b
  · subst here
    match x with
    | 0 | 1 => simpa [secondStage, SwitchStep.ins] using ins
  · simp [secondStage, here]

/-- No packet is taken from behind the second stage. -/
theorem reads_exit (k : Fin 4) (b : Fin 2) (p q x : Port) (apart : p ≠ q) :
    ((w.secondStage k b p q).outFifo x).size = (w.outFifo x).size ∧
      ((w.secondStage k b p q).outFifo x).numRead = (w.outFifo x).numRead := by
  have outs := fun y => (SwitchStep.run_reads
    ⟨w.outFifoS 0 b, w.outFifoS 1 b, w.outFifo p, w.outFifo q, w.pc k⟩ y).2
  by_cases second : x = q
  · subst second
    simpa [secondStage, SwitchStep.outs] using outs 1
  by_cases first : x = p
  · subst first
    simpa [secondStage, SwitchStep.outs, apart] using outs 0
  · simp [secondStage, first, second]

end Switch

/-- A run of `interface_out` adds at most one answer. -/
theorem EgressStep.run_responceFifo (base : Word) (s : EgressStep) :
    (run base s).responceFifo = s.responceFifo ∨
      ∃ f, (run base s).responceFifo = s.responceFifo.push f := by
  have written (t : EgressStep) (f : Flit) : (t.writeResponce f).responceFifo = t.responceFifo ∨
      ∃ g, (t.writeResponce f).responceFifo = t.responceFifo.push g := by
    rcases t.writeResponce_spec f with room | full
    · exact Or.inr ⟨f, by rw [room]⟩
    · exact Or.inl (by rw [full])
  have spec := run_spec base s
  generalize run base s = t at spec ⊢
  cases spec with
  | start | init | rest | lower | write => exact Or.inl rfl
  | read f rest cell =>
    exact written { s with outFifo := rest, egress.isWriteOp := false }
      { f with word := answer f.word cell }
  | resume f => exact written s f

namespace Device

variable {d : Device}

theorem ready_of_entrySw {k : Fin 4} (runnable : d.runnable (.entrySw k) = true) :
    .entrySw k ∈ d.ready := by
  simpa [Device.runnable, blocked] using runnable

theorem metered_stage (h : machine.Reachable d) (a b : Fin 2) :
    Metered d (d.switch.outFifoS a b) internalFifoSize (Spot.stage a b).reader := by
  refine metered_of_reachable (fun d => d.switch.outFifoS a b) _ _ rfl (fun _ => rfl)
    (fun _ _ => rfl) (fun _ => rfl) ?_ h
  intro d p runnable
  have stays : ∀ {w : Switch}, (w.outFifoS a b).size = (d.switch.outFifoS a b).size ∧
      (w.outFifoS a b).numRead = (d.switch.outFifoS a b).numRead →
      (w.outFifoS a b).size = (d.switch.outFifoS a b).size ∧ (w.outFifoS a b).numRead ≤
        (d.switch.outFifoS a b).numRead +
          if p = (Spot.stage a b).reader ∧ (Spot.stage a b).reader ∈ d.ready then 1 else 0 :=
    fun same => ⟨same.1, same.2 ▸ Nat.le_add_right ..⟩
  cases p with
  | entrySw k =>
    have ready := ready_of_entrySw runnable
    match k with
    | 0 => exact stays (d.switch.reads_firstStage 0 0 a 0 1 b)
    | 1 => exact stays (d.switch.reads_firstStage 1 1 a 2 3 b)
    | 2 =>
      have reads := d.switch.reads_secondStage 2 0 a 0 1 b
      refine ⟨reads.1, reads.2.trans (Nat.add_le_add_left ?_ _)⟩
      by_cases here : b = 0
      · simp [here, Spot.reader, ready]
      · simp [here]
    | 3 =>
      have reads := d.switch.reads_secondStage 3 1 a 2 3 b
      refine ⟨reads.1, reads.2.trans (Nat.add_le_add_left ?_ _)⟩
      by_cases here : b = 1
      · simp [here, Spot.reader, ready]
      · simp [here]
  | interfaceIn i => rw [exec, process_interfaceIn]; exact stays ⟨rfl, rfl⟩
  | interfaceOut k => rw [exec, process_interfaceOut]; exact stays ⟨rfl, rfl⟩
  | _ =>
    rw [exec, d.process_switch (by simp) (by simp) (by simp)]
    exact stays ⟨rfl, rfl⟩

theorem metered_exit (h : machine.Reachable d) (k : Port) :
    Metered d (d.switch.outFifo k) internalFifoSize (.interfaceOut k) := by
  refine metered_of_reachable (fun d => d.switch.outFifo k) _ _ rfl (fun _ => rfl)
    (fun _ _ => rfl) (fun _ => rfl) ?_ h
  intro d p runnable
  have stays : ∀ {w : Switch}, (w.outFifo k).size = (d.switch.outFifo k).size ∧
      (w.outFifo k).numRead = (d.switch.outFifo k).numRead →
      (w.outFifo k).size = (d.switch.outFifo k).size ∧ (w.outFifo k).numRead ≤
        (d.switch.outFifo k).numRead +
          if p = .interfaceOut k ∧ .interfaceOut k ∈ d.ready then 1 else 0 :=
    fun same => ⟨same.1, same.2 ▸ Nat.le_add_right ..⟩
  cases p with
  | entrySw j =>
    match j with
    | 0 | 1 => exact stays ⟨rfl, rfl⟩
    | 2 => exact stays (d.switch.reads_exit 2 0 0 1 k (by decide))
    | 3 => exact stays (d.switch.reads_exit 3 1 2 3 k (by decide))
  | interfaceIn i => rw [exec, process_interfaceIn]; exact stays ⟨rfl, rfl⟩
  | interfaceOut j =>
    rw [exec, process_interfaceOut]
    by_cases own : k = j
    · subst own
      have frame : (d.interfaceOut k (memBase k)).switch.outFifo k =
          (EgressStep.run (memBase k) ⟨d.egress k, d.switch.outFifo k, d.responces.responceFifo k,
            d.mem k, false⟩).outFifo := by
        simp [interfaceOut]
      rw [frame]
      -- a process that looks at the FIFO is not blocked, so the clock has woken it
      have woken (pc : (d.egress k).pc = .loop) : .interfaceOut k ∈ d.ready := by
        simpa [Device.runnable, blocked, pc] using runnable
      have taken {f : Flit} {rest : Fifo Flit} (pc : (d.egress k).pc = .loop)
          (read : (d.switch.outFifo k).nbRead = some (f, rest)) :
          rest.size = (d.switch.outFifo k).size ∧ rest.numRead ≤ (d.switch.outFifo k).numRead +
            if Proc.interfaceOut k = .interfaceOut k ∧ .interfaceOut k ∈ d.ready then 1 else 0 := by
        refine ⟨Fifo.size_of_nbRead read, ?_⟩
        rw [if_pos ⟨rfl, woken pc⟩, Fifo.numRead_of_nbRead read]
      have spec := EgressStep.run_spec (memBase k)
        ⟨d.egress k, d.switch.outFifo k, d.responces.responceFifo k, d.mem k, false⟩
      generalize EgressStep.run _ _ = t at spec ⊢
      cases spec with
      | start | init | rest | lower => exact ⟨rfl, Nat.le_add_right ..⟩
      | read f rest cell pc free read =>
        rw [(EgressStep.writeResponce_flits _ _).2.2.1]
        exact taken pc read
      | write f rest pc free read => exact taken pc read
      | resume f =>
        rw [(EgressStep.writeResponce_flits _ _).2.2.1]
        exact ⟨rfl, Nat.le_add_right ..⟩
    · exact stays (by simp [interfaceOut, own])
  | _ =>
    rw [exec, d.process_switch (by simp) (by simp) (by simp)]
    exact stays ⟨rfl, rfl⟩

/-- Only `interface_out` and `entry_response` come to the answers. -/
theorem process_responceFifo (d : Device) {p : Proc} (out : ∀ k, p ≠ .interfaceOut k)
    (response : p ≠ .entryResponse) :
    (d.process p).responces.responceFifo = d.responces.responceFifo := by
  cases moving : moves p with
  | false => rw [(d.process_apart moving).2.2]
  | true =>
    cases p with
    | interfaceIn i => rw [process_interfaceIn]; rfl
    | entrySw k => rw [process_entrySw]
    | interfaceOut k => exact absurd rfl (out k)
    | entryResponse => exact absurd rfl response
    | _ => cases moving

theorem metered_responce (h : machine.Reachable d) (k : Port) :
    Metered d (d.responces.responceFifo k) internalFifoSize .entryResponse := by
  refine metered_of_reachable (fun d => d.responces.responceFifo k) _ _ rfl (fun _ => rfl)
    (fun _ _ => rfl) (fun _ => rfl) ?_ h
  intro d p runnable
  have stays : ∀ {r : Responces}, (r.responceFifo k).size = (d.responces.responceFifo k).size ∧
      (r.responceFifo k).numRead = (d.responces.responceFifo k).numRead →
      (r.responceFifo k).size = (d.responces.responceFifo k).size ∧ (r.responceFifo k).numRead ≤
        (d.responces.responceFifo k).numRead +
          if p = .entryResponse ∧ .entryResponse ∈ d.ready then 1 else 0 :=
    fun same => ⟨same.1, same.2 ▸ Nat.le_add_right ..⟩
  by_cases egress : ∃ j, p = .interfaceOut j
  · obtain ⟨j, rfl⟩ := egress
    rw [exec, process_interfaceOut]
    by_cases own : k = j
    · subst own
      refine stays ?_
      rcases EgressStep.run_responceFifo (memBase k)
        ⟨d.egress k, d.switch.outFifo k, d.responces.responceFifo k, d.mem k, false⟩ with kept | push
      · simp [interfaceOut, kept]
      · obtain ⟨f, push⟩ := push
        simp [interfaceOut, push, Fifo.push]
    · exact stays (by simp [interfaceOut, own])
  by_cases reader : p = .entryResponse
  · subst reader
    have ready : Proc.entryResponse ∈ d.ready := by
      simpa [Device.runnable, blocked] using runnable
    have frame : (d.exec .entryResponse).responces = d.responces.run.1 := rfl
    rw [frame, if_pos ⟨rfl, ready⟩]
    have spec := d.responces.run_spec
    generalize d.responces.run = t at spec ⊢
    cases spec with
    | reset | rest | marker => exact ⟨rfl, Nat.le_add_right ..⟩
    | answer n f rest none read =>
      by_cases same : k = n
      · subst same
        simp only [Responces.publishAnswer, Responces.publish, Function.update_self]
        exact ⟨Fifo.size_of_nbRead read, (Fifo.numRead_of_nbRead read).le⟩
      · simp [Responces.publishAnswer, Responces.publish, same]
  · refine stays ?_
    rw [exec, d.process_responceFifo (fun j at_ => egress ⟨j, at_⟩) reader]
    exact ⟨rfl, rfl⟩

end Device

end ScCosim.Firewall
