import ScCosim.Firewall.Answers
import ScCosim.Firewall.Delivery

/-!
# How far a packet is from its publication

A packet passes at most one process at each clock edge, because what a process writes is read
after the next edge at the earliest. So each place of the device has a number of edges that lie
at least between it and the run of `entry_response` that publishes the answer.
-/
namespace ScCosim.Firewall

open Kernel

/-! ### Places -/

/-- The places of a packet that has been accepted. -/
inductive Spot where
  | inFifo (s : Port)
  | stage (a b : Fin 2)
  | outFifo (k : Port)
  /-- `interface_out_k` is blocked with the answer. -/
  | blocked (k : Port)
  | responceFifo (k : Port)
  deriving DecidableEq

namespace Spot

/-- The process that takes packets from here. -/
def reader : Spot → Proc
  | .inFifo s => if s < 2 then .entrySw 0 else .entrySw 1
  | .stage _ b => if b = 0 then .entrySw 2 else .entrySw 3
  | .outFifo k | .blocked k => .interfaceOut k
  | .responceFifo _ => .entryResponse

/-- How many clock edges a packet that is written here now waits at least. -/
def edges : Spot → Nat
  | .inFifo _ => 4
  | .stage _ _ => 3
  | .outFifo _ => 2
  | .blocked _ | .responceFifo _ => 1

end Spot

namespace Device

/-- The packets that the reader of a place finds in this delta cycle. -/
def ripe (d : Device) : Spot → List Flit
  | .inFifo s => (d.switch.inFifo s).readable
  | .stage a b => (d.switch.outFifoS a b).readable
  | .outFifo k => (d.switch.outFifo k).readable
  | .blocked _ => []
  | .responceFifo k => (d.responces.responceFifo k).readable

/-- The packets that it does not find yet. -/
def fresh (d : Device) : Spot → List Flit
  | .inFifo s => (d.switch.inFifo s).written
  | .stage a b => (d.switch.outFifoS a b).written
  | .outFifo k => (d.switch.outFifo k).written
  | .blocked k =>
    match (d.egress k).pc with
    | .writeResponce f => [f]
    | _ => []
  | .responceFifo k => (d.responces.responceFifo k).written

/-- The packet is in the device, and its answer is published after `n` more edges at the
earliest. -/
inductive Due (d : Device) (f : Flit) : Nat → Prop
  /-- The reader has yet to run in this cycle. -/
  | now (s : Spot) (member : f ∈ d.ripe s) (ready : s.reader ∈ d.ready) : Due d f (s.edges - 1)
  | later (s : Spot) (member : f ∈ d.ripe s) (gone : s.reader ∉ d.ready) : Due d f s.edges
  | fresh (s : Spot) (member : f ∈ d.fresh s) : Due d f s.edges

/-! ### One run of each process -/

/-- A packet of this origin has at most `n` edges to go. -/
def Comes (d : Device) (o : Origin) (n : Nat) : Prop := ∃ f m, d.Due f m ∧ f.origin = o ∧ m ≤ n

/-- Packets have moved on by one place, if their reader had been woken, and none by more. -/
structure Onward (d e : Device) (new : Flit → Prop) : Prop where
  ready : ∀ q, q ∈ e.ready → q ∈ d.ready
  ripe : ∀ s f, f ∈ e.ripe s → f ∈ d.ripe s
  fresh : ∀ s f, f ∈ e.fresh s → d.Comes f.origin s.edges ∨ (new f ∧ s.edges = 4)

variable {d e : Device}

theorem Onward.due {new : Flit → Prop} (h : Onward d e new) {f : Flit} {n : Nat} (due : e.Due f n) :
    d.Comes f.origin n ∨ (new f ∧ n = 4) := by
  cases due with
  | now s member ready => exact Or.inl ⟨f, _, .now s (h.ripe s f member) (h.ready _ ready), rfl, le_rfl⟩
  | later s member gone =>
    -- a reader that has run by now had not run before, or had
    by_cases was : s.reader ∈ d.ready
    · exact Or.inl ⟨f, _, .now s (h.ripe s f member) was, rfl, Nat.sub_le ..⟩
    · exact Or.inl ⟨f, _, .later s (h.ripe s f member) was, rfl, le_rfl⟩
  | fresh s member => exact h.fresh s f member

/-- What lay in a place still does. -/
theorem comes_fresh {s : Spot} {f : Flit} (member : f ∈ d.fresh s) : d.Comes f.origin s.edges :=
  ⟨f, _, .fresh s member, rfl, le_rfl⟩

/-- A packet that its reader takes now has one edge less to go. -/
theorem comes_taken {s : Spot} {f g : Flit} {n : Nat} (member : g ∈ d.ripe s)
    (ready : s.reader ∈ d.ready) (same : g.origin = f.origin) (next : s.edges ≤ n + 1) :
    d.Comes f.origin n :=
  ⟨g, _, .now s member ready, same, by omega⟩

end Device

namespace SwitchStep

/-- What a run leaves to read, and what it writes. -/
structure Ends (s t : SwitchStep) : Prop where
  ripe : ∀ j, ∀ f ∈ (t.ins j).readable, f ∈ (s.ins j).readable
  written : ∀ j, (t.ins j).written = (s.ins j).written
  outs : ∀ b, (t.outs b).readable = (s.outs b).readable
  fresh : ∀ b, ∀ g ∈ (t.outs b).written, g ∈ (s.outs b).written ∨
    ∃ j, ∃ f ∈ (s.ins j).readable, f.origin = g.origin

theorem ends_run (s : SwitchStep) : Ends s s.run := by
  cases s.passes_run with
  | still none ins outs =>
    constructor
    · intro j f member
      rwa [ins] at member
    · intro j
      rw [ins]
    · intro b
      rw [outs]
    · intro b g member
      rw [outs] at member
      exact Or.inl member
  | moves j f rest taken read ins outs =>
    obtain ⟨-, readable, written⟩ := Fifo.contents_of_nbRead read
    constructor
    · intro i g member
      rw [ins] at member
      split at member
      next same => rw [same, readable]; exact List.mem_cons_of_mem _ member
      next => exact member
    · intro i
      rw [ins]
      split
      next same => rw [same, written]
      next => rfl
    · intro b
      rw [outs]
      split
      · unfold Fifo.nbWrite
        split <;> rfl
      · rfl
    · intro b g member
      rw [outs] at member
      split at member
      · unfold Fifo.nbWrite at member
        split at member
        · rcases List.mem_append.mp member with old | new
          · exact Or.inl old
          · rw [List.mem_singleton.mp new]
            exact Or.inr ⟨j, f, readable ▸ List.mem_cons_self .., rfl⟩
        · exact Or.inl member
      · exact Or.inl member

end SwitchStep

namespace EgressStep

/-- What a run leaves to read, and what it writes or is blocked with. -/
structure Ends (s t : EgressStep) : Prop where
  ripe : ∀ f ∈ t.outFifo.readable, f ∈ s.outFifo.readable
  written : t.outFifo.written = s.outFifo.written
  responces : t.responceFifo.readable = s.responceFifo.readable
  fresh : ∀ g, g ∈ t.responceFifo.written ∨ t.egress.pc = .writeResponce g →
    (g ∈ s.responceFifo.written ∨ s.egress.pc = .writeResponce g) ∨
      s.egress.pc = .loop ∧ ∃ f ∈ s.outFifo.readable, f.origin = g.origin

theorem ends_writeResponce (s : EgressStep) (f : Flit) :
    (s.writeResponce f).outFifo = s.outFifo ∧
      (s.writeResponce f).responceFifo.readable = s.responceFifo.readable ∧
      ∀ g, g ∈ (s.writeResponce f).responceFifo.written ∨
        (s.writeResponce f).egress.pc = .writeResponce g → g ∈ s.responceFifo.written ∨ g = f := by
  rcases s.writeResponce_spec f with room | full
  · rw [room]
    exact ⟨rfl, rfl, fun g held => by simpa [Fifo.push] using held⟩
  · rw [full]
    exact ⟨rfl, rfl, fun g held => by simpa [eq_comm] using held⟩

theorem ends_run (base : Word) (s : EgressStep) : Ends s (run base s) := by
  have spec := run_spec base s
  generalize run base s = t at spec ⊢
  cases spec with
  | start pc | init pc | rest pc | lower pc =>
    exact ⟨fun f => id, rfl, rfl, fun g held => Or.inl (by simpa [pc] using held)⟩
  | write f rest pc free read =>
    obtain ⟨-, readable, written⟩ := Fifo.contents_of_nbRead read
    refine ⟨fun g member => ?_, written, rfl, fun g held => Or.inl ?_⟩
    · exact readable ▸ List.mem_cons_of_mem f member
    · simpa [EgressStep.write, pc] using held
  | read f rest cell pc free read =>
    obtain ⟨-, readable, written⟩ := Fifo.contents_of_nbRead read
    obtain ⟨out, responces, held⟩ := ends_writeResponce
      { s with outFifo := rest, egress.isWriteOp := false } { f with word := answer f.word cell }
    refine ⟨fun g member => ?_, out ▸ written, responces, fun g new => ?_⟩
    · rw [out] at member
      exact readable ▸ List.mem_cons_of_mem f member
    · rcases held g new with old | rfl
      · exact Or.inl (Or.inl old)
      · exact Or.inr ⟨pc, f, readable ▸ List.mem_cons_self .., rfl⟩
  | resume f pc =>
    obtain ⟨out, responces, held⟩ := s.ends_writeResponce f
    refine ⟨fun g member => out ▸ member, by rw [out], responces, fun g new => Or.inl ?_⟩
    rcases held g new with old | rfl
    · exact Or.inl old
    · exact Or.inr pc

end EgressStep

namespace Device

variable (d : Device)

/-- A place as a FIFO shows it. -/
def Shows (d : Device) (s : Spot) (f : Fifo Flit) : Prop := d.ripe s = f.readable ∧ d.fresh s = f.written

theorem onward_of_run {d e : Device} (s : SwitchStep) (inAt outAt : Fin 2 → Spot)
    (woken : ∀ j, (inAt j).reader ∈ d.ready) (edges : ∀ j b, (inAt j).edges ≤ (outAt b).edges + 1)
    (ins : ∀ j, d.Shows (inAt j) (s.ins j)) (ins' : ∀ j, e.Shows (inAt j) (s.run.ins j))
    (outs : ∀ b, d.Shows (outAt b) (s.outs b)) (outs' : ∀ b, e.Shows (outAt b) (s.run.outs b))
    (others : ∀ r, (∀ j, r ≠ inAt j) → (∀ b, r ≠ outAt b) →
      e.ripe r = d.ripe r ∧ e.fresh r = d.fresh r)
    (ready : ∀ q, q ∈ e.ready → q ∈ d.ready) : Onward d e fun _ => False := by
  have ends := s.ends_run
  refine ⟨ready, fun r f member => ?_, fun r f member => Or.inl ?_⟩
  all_goals by_cases atIn : ∃ j, r = inAt j
  · obtain ⟨j, rfl⟩ := atIn
    rw [(ins' j).1] at member
    exact (ins j).1 ▸ ends.ripe j f member
  · by_cases atOut : ∃ b, r = outAt b
    · obtain ⟨b, rfl⟩ := atOut
      rwa [(outs' b).1, ends.outs, ← (outs b).1] at member
    · simp only [not_exists] at atIn atOut
      exact (others r atIn atOut).1 ▸ member
  · obtain ⟨j, rfl⟩ := atIn
    rw [(ins' j).2, ends.written, ← (ins j).2] at member
    exact comes_fresh member
  · by_cases atOut : ∃ b, r = outAt b
    · obtain ⟨b, rfl⟩ := atOut
      rw [(outs' b).2] at member
      rcases ends.fresh b f member with old | ⟨j, g, from_, same⟩
      · exact comes_fresh ((outs b).2 ▸ old)
      · exact comes_taken ((ins j).1 ▸ from_) (woken j) same (edges j b)
    · simp only [not_exists] at atIn atOut
      exact comes_fresh ((others r atIn atOut).2 ▸ member)

theorem onward_firstStage (k : Fin 4) (a : Fin 2) (p q : Port) (apart : p ≠ q)
    (wired : (Spot.inFifo p).reader = .entrySw k ∧ (Spot.inFifo q).reader = .entrySw k)
    (ready : .entrySw k ∈ d.ready) :
    Onward d { { d with switch := d.switch.firstStage k a p q } with
      ready := d.ready.erase (.entrySw k), dirty := true } fun _ => False := by
  apply onward_of_run ⟨d.switch.inFifo p, d.switch.inFifo q, d.switch.outFifoS a 0,
    d.switch.outFifoS a 1, d.switch.pc k⟩ (fun j => .inFifo (if j = 0 then p else q)) (.stage a)
  case woken =>
    refine Fin.forall_fin_two.mpr ⟨?_, ?_⟩
    · simpa [wired.1] using ready
    · simpa [wired.2] using ready
  case edges => exact fun j b => le_rfl
  case ins => exact Fin.forall_fin_two.mpr ⟨⟨rfl, rfl⟩, ⟨rfl, rfl⟩⟩
  case outs => exact Fin.forall_fin_two.mpr ⟨⟨rfl, rfl⟩, ⟨rfl, rfl⟩⟩
  case ins' =>
    refine Fin.forall_fin_two.mpr ⟨?_, ?_⟩
    · simp [Shows, ripe, Device.fresh, Switch.firstStage, SwitchStep.ins, apart]
    · simp [Shows, ripe, Device.fresh, Switch.firstStage, SwitchStep.ins]
  case outs' =>
    refine Fin.forall_fin_two.mpr ⟨?_, ?_⟩
    · simp [Shows, ripe, Device.fresh, Switch.firstStage, SwitchStep.outs]
    · simp [Shows, ripe, Device.fresh, Switch.firstStage, SwitchStep.outs]
  case others =>
    intro r notIn notOut
    cases r with
    | inFifo i =>
      have notP : i ≠ p := by simpa using notIn 0
      have notQ : i ≠ q := by simpa using notIn 1
      simp [ripe, Device.fresh, Switch.firstStage, notP, notQ]
    | stage c b =>
      have other : c ≠ a := by
        rintro rfl
        exact notOut b rfl
      simp [ripe, Device.fresh, Switch.firstStage, other]
    | outFifo | blocked | responceFifo => exact ⟨rfl, rfl⟩
  case ready => exact fun r => List.mem_of_mem_erase

theorem onward_secondStage (k : Fin 4) (b : Fin 2) (p q : Port) (apart : p ≠ q)
    (wired : ∀ a, (Spot.stage a b).reader = .entrySw k) (ready : .entrySw k ∈ d.ready) :
    Onward d { { d with switch := d.switch.secondStage k b p q } with
      ready := d.ready.erase (.entrySw k), dirty := true } fun _ => False := by
  apply onward_of_run ⟨d.switch.outFifoS 0 b, d.switch.outFifoS 1 b, d.switch.outFifo p,
    d.switch.outFifo q, d.switch.pc k⟩ (fun a => .stage a b)
    (fun c => .outFifo (if c = 0 then p else q))
  case woken => exact fun a => wired a ▸ ready
  case edges => exact fun a c => le_rfl
  case ins => exact Fin.forall_fin_two.mpr ⟨⟨rfl, rfl⟩, ⟨rfl, rfl⟩⟩
  case outs => exact Fin.forall_fin_two.mpr ⟨⟨rfl, rfl⟩, ⟨rfl, rfl⟩⟩
  case ins' =>
    refine Fin.forall_fin_two.mpr ⟨?_, ?_⟩
    · simp [Shows, ripe, Device.fresh, Switch.secondStage, SwitchStep.ins]
    · simp [Shows, ripe, Device.fresh, Switch.secondStage, SwitchStep.ins]
  case outs' =>
    refine Fin.forall_fin_two.mpr ⟨?_, ?_⟩
    · simp [Shows, ripe, Device.fresh, Switch.secondStage, SwitchStep.outs, apart]
    · simp [Shows, ripe, Device.fresh, Switch.secondStage, SwitchStep.outs]
  case others =>
    intro r notIn notOut
    cases r with
    | stage a c =>
      have other : c ≠ b := by
        rintro rfl
        exact notIn a rfl
      simp [ripe, Device.fresh, Switch.secondStage, other]
    | outFifo k =>
      have notP : k ≠ p := by simpa using notOut 0
      have notQ : k ≠ q := by simpa using notOut 1
      simp [ripe, Device.fresh, Switch.secondStage, notP, notQ]
    | inFifo | blocked | responceFifo => exact ⟨rfl, rfl⟩
  case ready => exact fun r => List.mem_of_mem_erase

/-- The process takes packets only when the clock has woken it. -/
theorem onward_interfaceOut (k : Port) (runnable : d.runnable (.interfaceOut k) = true) :
    Onward d (d.exec (.interfaceOut k)) fun _ => False := by
  have ends := EgressStep.ends_run (memBase k)
    ⟨d.egress k, d.switch.outFifo k, d.responces.responceFifo k, d.mem k, false⟩
  have member_blocked : ∀ {e : Device} {f : Flit} {j : Port},
      f ∈ e.fresh (.blocked j) ↔ (e.egress j).pc = .writeResponce f := by
    intro e f j
    simp only [Device.fresh]
    split
    next g pc => simp [pc, eq_comm]
    next other => exact iff_of_false (by simp) (other f)
  have held : ∀ g, (g ∈ (d.responces.responceFifo k).written ∨ (d.egress k).pc = .writeResponce g) ∨
      (d.egress k).pc = .loop ∧ (∃ f ∈ (d.switch.outFifo k).readable, f.origin = g.origin) →
      d.Comes g.origin 1 := by
    rintro g ((member | pc) | ⟨pc, f, member, same⟩)
    · exact comes_fresh (s := .responceFifo k) member
    · exact comes_fresh (s := .blocked k) (member_blocked.mpr pc)
    · have ready : Proc.interfaceOut k ∈ d.ready := by simpa [Device.runnable, blocked, pc] using runnable
      exact comes_taken (s := .outFifo k) member ready same le_rfl
  rw [exec, process_interfaceOut]
  refine ⟨fun r => List.mem_of_mem_erase, fun s f member => ?_, fun s f member => Or.inl ?_⟩
  · cases s with
    | inFifo | stage | blocked => exact member
    | outFifo j =>
      by_cases same : j = k
      · subst same
        exact ends.ripe f (by simpa [ripe, interfaceOut] using member)
      · simpa [ripe, interfaceOut, same] using member
    | responceFifo j =>
      by_cases same : j = k
      · subst same
        simpa [ripe, interfaceOut, ends.responces] using member
      · simpa [ripe, interfaceOut, same] using member
  · cases s with
    | inFifo i => exact comes_fresh (s := .inFifo i) member
    | stage a b => exact comes_fresh (s := .stage a b) member
    | outFifo j =>
      refine comes_fresh (s := .outFifo j) ?_
      by_cases same : j = k
      · subst same
        simpa [Device.fresh, interfaceOut, ends.written] using member
      · simpa [Device.fresh, interfaceOut, same] using member
    | blocked j =>
      by_cases same : j = k
      · subst same
        exact held f (ends.fresh f (Or.inr (by simpa [interfaceOut] using member_blocked.mp member)))
      · refine comes_fresh (s := .blocked j) ?_
        simpa [Device.fresh, interfaceOut, same] using member
    | responceFifo j =>
      by_cases same : j = k
      · subst same
        exact held f (ends.fresh f (Or.inl (by simpa [Device.fresh, interfaceOut] using member)))
      · refine comes_fresh (s := .responceFifo j) ?_
        simpa [Device.fresh, interfaceOut, same] using member

theorem onward_entryResponse : Onward d (d.exec .entryResponse) fun _ => False := by
  have fifos : ∀ k, (∀ f ∈ (d.responces.run.1.responceFifo k).readable,
      f ∈ (d.responces.responceFifo k).readable) ∧
      (d.responces.run.1.responceFifo k).written = (d.responces.responceFifo k).written := by
    intro k
    have spec := d.responces.run_spec
    generalize d.responces.run = t at spec ⊢
    cases spec with
    | reset | rest | marker => exact ⟨fun f => id, rfl⟩
    | answer n g rest none read =>
      obtain ⟨-, readable, written⟩ := Fifo.contents_of_nbRead read
      by_cases same : k = n
      · subst same
        simp only [Responces.publishAnswer, Responces.publish, Function.update_self]
        exact ⟨fun f member => readable ▸ List.mem_cons_of_mem g member, written⟩
      · simp [Responces.publishAnswer, Responces.publish, same]
  refine ⟨fun r => List.mem_of_mem_erase, fun s f member => ?_, fun s f member => Or.inl ?_⟩
  · cases s with
    | responceFifo k => exact (fifos k).1 f member
    | inFifo | stage | outFifo | blocked => exact member
  · cases s with
    | responceFifo k => exact comes_fresh (s := .responceFifo k) (by rwa [Device.fresh, ← (fifos k).2])
    | inFifo i => exact comes_fresh (s := .inFifo i) member
    | stage a b => exact comes_fresh (s := .stage a b) member
    | outFifo k => exact comes_fresh (s := .outFifo k) member
    | blocked k => exact comes_fresh (s := .blocked k) member

/-- The packets that `interface_in_i` sends when it runs now. -/
def sends (i : Port) : List Flit := (d.switch.inFifo i).writtenSince (d.judged i).inFifo

theorem onward_interfaceIn (i : Port) :
    Onward d (d.exec (.interfaceIn i)) fun f => f ∈ d.sends i := by
  have fifo : (d.judged i).inFifo = d.switch.inFifo i ∨
      ∃ f, (d.judged i).inFifo = (d.switch.inFifo i).push f := by
    rcases IngressStep.run_inFifo i (portBits i) (d.setup i).fwRange (d.responces.responceS i).cur
      ⟨d.ingress i, d.switch.inFifo i, d.responces.initResponceFifo i, false⟩ with
      same | ⟨f, push, -⟩
    · exact Or.inl same
    · exact Or.inr ⟨f, push⟩
  have own : (d.exec (.interfaceIn i)).switch.inFifo i = (d.judged i).inFifo := by
    simp [exec, interfaceIn, judged]
  have others : ∀ j, j ≠ i → (d.exec (.interfaceIn i)).switch.inFifo j = d.switch.inFifo j := by
    intro j other
    simp [exec, interfaceIn, other]
  have rest : ∀ s, (∀ j, s ≠ .inFifo j) → (d.exec (.interfaceIn i)).ripe s = d.ripe s ∧
      (d.exec (.interfaceIn i)).fresh s = d.fresh s := by
    intro s notIn
    rw [exec, process_interfaceIn]
    cases s with
    | inFifo j => exact absurd rfl (notIn j)
    | stage | outFifo | blocked | responceFifo => exact ⟨rfl, rfl⟩
  refine ⟨fun r => List.mem_of_mem_erase, fun s f member => ?_, fun s f member => ?_⟩
  all_goals by_cases entry : ∃ j, s = .inFifo j
  · obtain ⟨j, rfl⟩ := entry
    by_cases same : j = i
    · subst same
      rw [ripe, own] at member
      rcases fifo with stay | ⟨g, push⟩
      · rwa [stay] at member
      · rwa [push] at member
    · rwa [ripe, others j same] at member
  · simp only [not_exists] at entry
    exact (rest s entry).1 ▸ member
  · obtain ⟨j, rfl⟩ := entry
    by_cases same : j = i
    · subst same
      rw [Device.fresh, own] at member
      rcases fifo with stay | ⟨g, push⟩
      · rw [stay] at member
        exact Or.inl (comes_fresh (s := .inFifo j) member)
      · rw [push] at member
        -- the packet that is new is the one that the run sends
        rcases List.mem_append.mp member with old | new
        · exact Or.inl (comes_fresh (s := .inFifo j) old)
        · exact Or.inr ⟨by simpa [sends, push] using new, rfl⟩
    · rw [Device.fresh, others j same] at member
      exact Or.inl (comes_fresh (s := .inFifo j) member)
  · simp only [not_exists] at entry
    exact Or.inl (comes_fresh ((rest s entry).2 ▸ member))

/-- The other processes touch neither the switch nor the responses. -/
theorem process_apart {q : Proc} (h : moves q = false) : (d.process q).switch = d.switch ∧
    (∀ k, ((d.process q).egress k).pc = (d.egress k).pc) ∧ (d.process q).responces = d.responces := by
  have egress := (d.still_process h).answering
  cases q with
  | interfaceIn | entrySw | interfaceOut | entryResponse => cases h
  | setupfwRule =>
    refine ⟨?_, egress, ?_⟩ <;> simp only [process, setupfwRule] <;> split <;> rfl
  | executeReadThread =>
    obtain ⟨_, _, _, direct, same, _⟩ := d.executeReadThread_frame
    exact ⟨by rw [process, same], egress, by rw [process, same]⟩
  | executeWriteThread =>
    obtain ⟨_, _, _, setup, ingress, direct, same, _⟩ := d.executeWriteThread_frame
    exact ⟨by rw [process, same], egress, by rw [process, same]⟩
  | directMemOut k =>
    rw [process_directMemOut] at egress ⊢
    exact ⟨rfl, egress, rfl⟩
  | client | entry | directentry => exact ⟨rfl, egress, rfl⟩

theorem onward_apart {q : Proc} (h : moves q = false) : Onward d (d.exec q) fun _ => False := by
  obtain ⟨switch, egress, responces⟩ := d.process_apart h
  have ripe : (d.exec q).ripe = d.ripe := by
    funext s
    cases s <;> simp [Device.ripe, exec, switch, responces]
  have fresh : (d.exec q).fresh = d.fresh := by
    funext s
    cases s <;> simp [Device.fresh, exec, switch, responces, egress]
  refine ⟨fun r => List.mem_of_mem_erase, fun s f member => ?_, fun s f member => Or.inl ?_⟩
  · rwa [ripe] at member
  · rw [fresh] at member
    exact comes_fresh member

theorem onward_run (q : Proc) (runnable : d.runnable q = true) :
    Onward d (d.exec q) fun f => ∃ i, q = .interfaceIn i ∧ f ∈ d.sends i := by
  have quiet : Onward d (d.exec q) (fun _ => False) →
      Onward d (d.exec q) fun f => ∃ i, q = .interfaceIn i ∧ f ∈ d.sends i := fun h =>
    ⟨h.ready, h.ripe, fun s f member => Or.inl ((h.fresh s f member).resolve_right (·.1))⟩
  cases q with
  | interfaceIn i =>
    have h := d.onward_interfaceIn i
    exact ⟨h.ready, h.ripe, fun s f member => (h.fresh s f member).imp_right
      fun new => ⟨⟨i, rfl, new.1⟩, new.2⟩⟩
  | interfaceOut k => exact quiet (d.onward_interfaceOut k runnable)
  | entryResponse => exact quiet d.onward_entryResponse
  | entrySw k =>
    have ready : Proc.entrySw k ∈ d.ready := by simpa [Device.runnable, blocked] using runnable
    refine quiet ?_
    -- the wiring of `sw_0` .. `sw_3`
    fin_cases k
    · exact d.onward_firstStage 0 0 0 1 (by decide) ⟨rfl, rfl⟩ ready
    · exact d.onward_firstStage 1 1 2 3 (by decide) ⟨rfl, rfl⟩ ready
    · exact d.onward_secondStage 2 0 0 1 (by decide) (fun _ => rfl) ready
    · exact d.onward_secondStage 3 1 2 3 (by decide) (fun _ => rfl) ready
  | client | executeWriteThread | executeReadThread | setupfwRule | directMemOut | entry
  | directentry => exact quiet (d.onward_apart rfl)

theorem reader_clocked (s : Spot) : s.reader ∈ clocked := by
  cases s with
  | inFifo p | stage _ p =>
    simp only [Spot.reader]
    split <;> decide
  | outFifo k | blocked k =>
    revert k
    decide
  | responceFifo => simp [Spot.reader, clocked]

theorem one_le_edges (s : Spot) : 1 ≤ s.edges := by
  cases s <;> simp [Spot.edges]

/-- Before the edge no reader is awake: each packet has one edge more to go than after it. -/
theorem comes_edge {d : Device} (quiescent : d.quiescent = true) {f : Flit} {n : Nat}
    (due : d.edge.Due f n) : d.Comes f.origin (n + 1) := by
  have gone : ∀ s : Spot, s.reader ∉ d.ready := fun s =>
    not_ready_of_quiescent quiescent (reader_clocked s)
  cases due with
  | now s member =>
    have bound := one_le_edges s
    exact ⟨f, _, .later s member (gone s), rfl, by omega⟩
  | later s member => exact ⟨f, _, .later s member (gone s), rfl, Nat.le_succ _⟩
  | fresh s member => exact ⟨f, _, .fresh s member, rfl, Nat.le_succ _⟩

theorem comes_update {d : Device} (quiescent : d.quiescent = true) {f : Flit} {n : Nat}
    (due : d.update.Due f n) : d.Comes f.origin n := by
  have ripe : ∀ s, f ∈ d.update.ripe s → f ∈ d.ripe s ∨ f ∈ d.fresh s := by
    intro s member
    cases s with
    | blocked => cases member
    | inFifo | stage | outFifo | responceFifo => exact List.mem_append.mp member
  cases due with
  | now s member ready => exact absurd ready (not_ready_of_quiescent quiescent (reader_clocked s))
  | later s member gone =>
    rcases ripe s member with old | new
    · exact ⟨f, _, .later s old gone, rfl, le_rfl⟩
    · exact comes_fresh new
  | fresh s member =>
    cases s with
    | blocked k => exact comes_fresh (s := .blocked k) member
    | inFifo | stage | outFifo | responceFifo => cases member

/-- No step brings a packet nearer, but an edge, and that by one; a packet that comes in has
four edges to go. -/
theorem due_of_step {e : Device} {a : Action ⊕ (Port × Word)} (hs : openMachine.step d a = some e)
    {f : Flit} {n : Nat} (due : e.Due f n) :
    d.Comes f.origin (n + if a = .inl .edge then 1 else 0) ∨
      ∃ i, a = .inl (.run (.interfaceIn i)) ∧ f ∈ d.sends i ∧ n = 4 := by
  have same : ∀ {e : Device}, e.ready = d.ready → e.ripe = d.ripe → e.fresh = d.fresh →
      e.Due f n → d.Comes f.origin n := by
    intro e ready ripe fresh due
    have onward : Onward d e fun _ => False :=
      ⟨fun q => ready ▸ id, fun s f => ripe ▸ id, fun s f member => Or.inl (comes_fresh (fresh ▸ member))⟩
    exact (onward.due due).resolve_right (·.1)
  rcases a with a | ⟨i, w⟩
  · cases move_of_step hs with
    | run q runnable =>
      rcases (d.onward_run q runnable).due due with comes | ⟨⟨i, rfl, sent⟩, rfl⟩
      · exact Or.inl (by simpa using comes)
      · exact Or.inr ⟨i, rfl, sent, rfl⟩
    | request => exact Or.inl (by simpa using same (e := d.request _) rfl rfl rfl due)
    | edge quiescent => exact Or.inl (by simpa using comes_edge quiescent due)
    | delta quiescent => exact Or.inl (by simpa using comes_update quiescent due)
  · simp only [openMachine, openStep] at hs
    split at hs
    next =>
      cases hs
      exact Or.inl (by simpa using same (e := d.arrive i w) rfl rfl rfl due)
    next => cases hs

/-! ### No read is lost while there is room -/

/-- A packet of this origin is in the switch, or an answer to it is under way. -/
def Carries (d : Device) (o : Origin) : Prop :=
  ∃ f, f.origin = o ∧ ((∃ p, f ∈ d.switch.hold p) ∨ ∃ k, d.Answering k f)

/-- The answers that a step takes off the response FIFOs. -/
def published (d e : Device) : List Flit :=
  ([0, 1, 2, 3] : List Port).flatMap fun k =>
    (d.responces.responceFifo k).readOff (e.responces.responceFifo k)

end Device

/-- An answer stays until `entry_response` takes it. -/
theorem Responces.run_keeps (r : Responces) {k : Port} {f : Flit}
    (member : f ∈ (r.responceFifo k).contents) : f ∈ (r.run.1.responceFifo k).contents ∨
      f ∈ (r.responceFifo k).readOff (r.run.1.responceFifo k) := by
  have spec := r.run_spec
  generalize r.run = t at spec ⊢
  cases spec with
  | reset | rest | marker => exact Or.inl member
  | answer n g rest none read =>
    by_cases same : k = n
    · subst same
      rw [(Fifo.contents_of_nbRead read).1] at member
      simp only [publishAnswer, publish, Function.update_self, Fifo.readOff_of_nbRead read]
      rcases List.mem_cons.mp member with rfl | later
      · exact Or.inr (List.mem_singleton.mpr rfl)
      · exact Or.inl later
    · exact Or.inl (by simpa [publishAnswer, publish, same] using member)

theorem EgressStep.run_keeps (base : Word) (s : EgressStep) {f : Flit}
    (held : f ∈ s.responceFifo.contents ∨ s.egress.pc = .writeResponce f) :
    f ∈ (run base s).responceFifo.contents ∨ (run base s).egress.pc = .writeResponce f := by
  have spec := run_spec base s
  generalize run base s = t at spec ⊢
  cases spec with
  | start pc | init pc | rest pc | lower pc | write g rest pc =>
    exact Or.inl (by simpa [pc, EgressStep.write] using held)
  | read g rest cell pc =>
    have old : f ∈ s.responceFifo.contents := by simpa [pc] using held
    rcases writeResponce_spec { s with outFifo := rest, egress.isWriteOp := false }
      { g with word := answer g.word cell } with room | full
    · rw [room]
      exact Or.inl (by simp [old])
    · rw [full]
      exact Or.inl old
  | resume g pc =>
    have held : f ∈ s.responceFifo.contents ∨ g = f := by simpa [pc] using held
    rcases s.writeResponce_spec g with room | full
    · rw [room]
      exact Or.inl (by simpa [eq_comm] using held)
    · rw [full]
      exact held.imp_right fun same => by rw [same]

namespace Device

theorem answering_kept {a : Action ⊕ (Port × Word)} (hs : openMachine.step d a = some e)
    {k : Port} {f : Flit} (held : d.Answering k f) : e.Answering k f ∨
      f ∈ (d.responces.responceFifo k).readOff (e.responces.responceFifo k) := by
  rcases a with a | ⟨i, w⟩
  · cases move_of_step hs with
    | run q runnable =>
      cases moving : moves q with
      | false =>
        obtain ⟨-, egress, responces⟩ := d.process_apart moving
        exact Or.inl (by simpa [Answering, exec, egress, responces] using held)
      | true =>
        cases q with
        | interfaceIn i =>
          left
          simpa [Answering, exec, interfaceIn] using held
        | entrySw j =>
          left
          rw [Answering, exec, process_entrySw]
          exact held
        | entryResponse =>
          rcases held with member | pc
          · exact (d.responces.run_keeps member).imp_left Or.inl
          · exact Or.inl (Or.inr pc)
        | interfaceOut j =>
          left
          simp only [exec, process_interfaceOut]
          by_cases same : k = j
          · subst same
            have kept := EgressStep.run_keeps (memBase k)
              ⟨d.egress k, d.switch.outFifo k, d.responces.responceFifo k, d.mem k, false⟩ held
            simpa [Answering, interfaceOut] using kept
          · simpa [Answering, interfaceOut, same] using held
        | _ => cases moving
    | request | edge => exact Or.inl held
    | delta => exact Or.inl (held.imp_left fun member => by simpa [update] using member)
  · simp only [openMachine, openStep] at hs
    split at hs
    next => cases hs; exact Or.inl held
    next => cases hs

theorem fed_of_run {d e : Device} {as : List (Action ⊕ (Port × Word))}
    (h : openMachine.run d as = some e) : fedMachine.run d (as.map Sum.inl) = some e := by
  induction as generalizing d with
  | nil => exact h
  | cons a as ih =>
    obtain ⟨r, step, rest⟩ := (openMachine.run_cons_iff _ _ _ _).mp h
    exact (fedMachine.run_cons_iff _ _ _ _).mpr ⟨r, step, ih rest⟩

theorem carries_step {as : List (Action ⊕ (Port × Word))} (hr : openMachine.run new as = some d)
    {a : Action ⊕ (Port × Word)} (hs : openMachine.step d a = some e) (room : d.HasRoom (.inl a))
    {o : Origin} (read : opcode o.word = 1) (h : d.Carries o) :
    e.Carries o ∨ ∃ f ∈ published d e, f.origin = o := by
  have delivering := delivering_of_run (fed_of_run hr)
  have fed : fedMachine.step d (.inl a) = some e := hs
  obtain ⟨more, out, gone, move⟩ :=
    switchMove_of_step delivering.forwarding (atDest_of_orderly delivering.orderly) fed
  have none : gone = [] := move.room.mpr room
  obtain ⟨f, rfl, ⟨p, held⟩ | ⟨k, held⟩⟩ := h
  · rcases move.move.kept held with ⟨q, held⟩ | left | lost
    · exact Or.inl ⟨f, rfl, Or.inl ⟨q, held⟩⟩
    · -- the packet has reached its BRAM, where it is answered
      have member : f ∈ taken (portOf (dest f.word)) d (.inl a) e := by
        rw [move.taken]
        simpa using left
      have first : f ∈ (d.switch.outFifo (portOf (dest f.word))).contents :=
        List.mem_append_left _ (List.mem_of_mem_take member)
      obtain ⟨⟨-, word⟩, -⟩ := (placed_of_reachable ⟨as, hr⟩).outFifo _ f first
      have op : opcode f.word = 1 := by rw [word, Origin.opcode_sent, read]
      obtain ⟨-, g, same, -, answered⟩ := (accesses_of_step fed member).read op
      refine Or.inl ⟨g, same, Or.inr ⟨portOf (dest f.word), ?_⟩⟩
      exact answered.imp_left fun push => by simp [push]
    · rw [none] at lost
      cases lost
  · rcases answering_kept hs held with held | out
    · exact Or.inl ⟨f, rfl, Or.inr ⟨k, held⟩⟩
    · have each : ∀ k : Port, k ∈ ([0, 1, 2, 3] : List Port) := by decide
      exact Or.inr ⟨f, List.mem_flatMap.mpr ⟨k, each k, out⟩, rfl⟩

end Device

end ScCosim.Firewall
