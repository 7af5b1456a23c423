import Mathlib.Data.Fintype.Pi
import ScCosim.Firewall.Transit

/-!
# The round of `entry_response`

The process looks at the blocks of the four ports in turn and waits for an edge after each value
it publishes, and once more at the end of the round. So a value in `init_responce_fifo_i` is
published after a number of edges that its place in the FIFO and the place of the process bound.
-/
namespace ScCosim.Firewall

open Kernel

/-! ### What `interface_in` sends -/

namespace IngressStep

/-- The packet is of the word that this run takes. -/
structure Taking (i : Port) (s t : IngressStep) (f : Flit) : Prop where
  port : f.origin.port = i
  seq : f.origin.seq = s.ingress.taken.length
  taken : t.ingress.taken.length = s.ingress.taken.length + 1

/-- The packet is of this run's word, or one that the process was blocked with. -/
def Sent (i : Port) (s t : IngressStep) (f : Flit) : Prop :=
  (Taking i s t f ∧ opcode f.origin.word = 1) ∨
    (s.ingress.pc = .writeForward f ∧ t.ingress.taken = s.ingress.taken)

/-- What one run puts into `in_fifo_i` and `init_responce_fifo_i`: only a read goes with a
marker. -/
inductive Sending (i : Port) (s t : IngressStep) : Prop
  | still (inFifo : t.inFifo = s.inFifo)
      (markers : t.initResponceFifo = s.initResponceFifo ∨
        t.initResponceFifo = s.initResponceFifo.push 0)
      (longer : s.ingress.taken.length ≤ t.ingress.taken.length)
      (blocked : ∀ f, t.ingress.pc = .writeForward f → Sent i s t f)
  | write (f : Flit) (inFifo : t.inFifo = s.inFifo.push f) (taking : Taking i s t f)
      (op : opcode f.origin.word ≠ 1) (markers : t.initResponceFifo = s.initResponceFifo)
      (pc : t.ingress.pc = .wait1)
  | read (f : Flit) (inFifo : t.inFifo = s.inFifo.push f)
      (markers : t.initResponceFifo = s.initResponceFifo.push 0x80000000) (sent : Sent i s t f)
      (pc : t.ingress.pc = .wait1)

theorem sending_run (i : Port) (source : BitVec 2) (fw : Triple) (responceS : Word)
    (s : IngressStep) : Sending i s (run i source fw responceS s) := by
  have hit : ∀ t : IngressStep, s.inFifo = t.inFifo → s.initResponceFifo = t.initResponceFifo →
      s.ingress.taken.length ≤ t.ingress.taken.length → Sending i s t.writeHit := by
    intro t inFifo markers longer
    have keeps := t.keeps_writeHit
    obtain ⟨same, other⟩ := t.writeHit_flits
    refine .still (same.trans inFifo.symm) ?_ (keeps.taken ▸ longer) fun f at_ => absurd at_ (other f)
    unfold writeHit
    split
    · exact Or.inr (by rw [markers]; rfl)
    · exact Or.inl markers.symm
  have forward : ∀ (t : IngressStep) (f : Flit), s.inFifo = t.inFifo →
      s.initResponceFifo = t.initResponceFifo → s.ingress.taken.length ≤ t.ingress.taken.length →
      Sent i s (t.writeForward f) f → Sending i s (t.writeForward f) := by
    intro t f inFifo markers longer sent
    have keeps := t.keeps_writeForward f
    unfold writeForward at sent keeps ⊢
    split at sent
    next room =>
      rw [if_pos room]
      exact .read f (by rw [inFifo]; rfl) (by rw [markers]; rfl) sent rfl
    next full =>
      rw [if_neg full]
      refine .still inFifo.symm (Or.inl markers.symm) longer fun g at_ => ?_
      cases at_
      exact sent
  have spec := run_spec i source fw responceS s
  generalize run i source fw responceS s = t at spec ⊢
  cases spec with
  | reset pc | init pc | wait1 pc =>
    exact .still rfl (Or.inl rfl) le_rfl (by simp [reset])
  | latch pc | idle pc => exact .still rfl (Or.inl rfl) le_rfl (by simp [latch, pc])
  | repeated w rest pc => exact .still rfl (Or.inl rfl) (by simp [take]) (by simp [take, pc])
  | hit w rest => exact .still rfl (Or.inl rfl) (by simp [finishHit, count, take]) (by simp [finishHit])
  | drop w rest => exact .still rfl (Or.inl rfl) (by simp [drop, count, take]) (by simp [drop])
  | hitRead w rest => exact hit _ rfl rfl (by simp [count, take])
  | resumeHit => exact hit s rfl rfl le_rfl
  | forward w rest pc seen read miss op =>
    exact .write (s.flit i source w) rfl ⟨rfl, rfl, by simp [IngressStep.forward, count, take]⟩ op rfl rfl
  | forwardRead w rest pc seen read miss op =>
    have taken := (((s.take rest w .forwarded).count w).keeps_writeForward (s.flit i source w)).taken
    refine forward _ (s.flit i source w) rfl rfl (by simp [count, take]) (Or.inl ⟨⟨rfl, rfl, ?_⟩, op⟩)
    rw [taken]
    simp [count, take]
  | resumeForward f pc =>
    exact forward s f rfl rfl le_rfl (Or.inr ⟨pc, (s.keeps_writeForward f).taken⟩)

end IngressStep

/-! ### The blocks of `entry_response` -/

namespace Responces

/-- How many waits the process makes at most before the run that comes to the block of port
`i`. -/
def rank (i : Port) : ResponcePc → Nat
  | .start => i + 2
  | .init => i + 1
  | .loop => i
  | .served n => if n < i then i - n - 1 else 4 - n + i

/-- The blocks that the process comes to when it runs. -/
def round : ResponcePc → List Port
  | .start | .init => []
  | .loop => [0, 1, 2, 3]
  | .served n => portsAfter n

variable (r : Responces) (i : Port)

/-- The block of port `n` finds something to publish. -/
def busy (n : Port) : Bool :=
  !(r.initResponceFifo n).readable.isEmpty || !(r.responceFifo n).readable.isEmpty

/-- Where the process waits after its next run. -/
def nextPc : ResponcePc :=
  match r.pc with
  | .start => .init
  | pc => ((round pc).find? r.busy).elim .loop .served

/-- The next run publishes a value of `init_responce_fifo_i`. -/
def Announces : Prop := r.nextPc = .served i ∧ (r.initResponceFifo i).readable ≠ []

instance : Decidable (r.Announces i) := by
  unfold Announces
  infer_instance

/-- What one run does, and the block that it does it in. -/
inductive Turn (r : Responces) : Responces × Bool → Prop
  | reset (next : r.nextPc = .init) : Turn r (r.reset, false)
  | rest (next : r.nextPc = .loop) : Turn r ({ r with pc := .loop }, false)
  | marker (n : Port) (v : Word) (rest : Fifo Word) (next : r.nextPc = .served n)
      (read : (r.initResponceFifo n).nbRead = some (v, rest)) : Turn r (r.publishInit n rest v, false)
  | answer (n : Port) (f : Flit) (rest : Fifo Flit) (next : r.nextPc = .served n)
      (none : (r.initResponceFifo n).nbRead = none)
      (read : (r.responceFifo n).nbRead = some (f, rest)) : Turn r (r.publishAnswer n rest f, true)

theorem turn_serve (ports : List Port)
    (next : r.nextPc = (ports.find? r.busy).elim .loop .served) : Turn r (r.serve ports) := by
  induction ports with
  | nil => exact .rest next
  | cons n ports ih =>
    unfold serve
    cases marker : (r.initResponceFifo n).nbRead with
    | some v =>
      obtain ⟨-, readable, -⟩ := Fifo.contents_of_nbRead marker
      have busy : r.busy n = true := by simp [busy, readable]
      exact .marker n v.1 v.2 (by simpa [busy] using next) marker
    | none =>
      have idle := (Fifo.nbRead_eq_none_iff _).mp marker
      cases answer : (r.responceFifo n).nbRead with
      | some f =>
        obtain ⟨-, readable, -⟩ := Fifo.contents_of_nbRead answer
        have busy : r.busy n = true := by simp [busy, readable]
        exact .answer n f.1 f.2 (by simpa [busy] using next) marker answer
      | none =>
        have busy : r.busy n = false := by
          simp [busy, idle, (Fifo.nbRead_eq_none_iff _).mp answer]
        exact ih (by simpa [busy] using next)

theorem turn_run : Turn r r.run := by
  have next : r.nextPc = r.nextPc := rfl
  conv at next => rhs; unfold nextPc
  unfold run
  cases pc : r.pc with
  | start => exact .reset (by simpa [pc] using next)
  | init => exact .rest (by simpa [pc, Responces.round] using next)
  | loop => exact r.turn_serve _ (by simpa [pc, Responces.round] using next)
  | served n => exact r.turn_serve _ (by simpa [pc, Responces.round] using next)

theorem run_pc : r.run.1.pc = r.nextPc := by
  have turn := r.turn_run
  generalize r.run = t at turn ⊢
  cases turn with
  | reset next | rest next | marker n v rest next | answer n f rest next => exact next.symm

/-- Only a run that serves the block takes the first value off its FIFO. -/
theorem readOff_run : ((r.initResponceFifo i).readOff (r.run.1.initResponceFifo i)).length =
    if r.Announces i then 1 else 0 := by
  have turn := r.turn_run
  generalize r.run = t at turn ⊢
  cases turn with
  | reset next | rest next => simp [Announces, next, reset]
  | marker n v rest next read =>
    by_cases same : i = n
    · subst same
      have readable := (Fifo.contents_of_nbRead read).2.1
      simp [Announces, next, readable, publishInit, publish, Fifo.readOff_of_nbRead read]
    · simp [Announces, next, publishInit, publish, same, Ne.symm same]
  | answer n f rest next none read =>
    have idle := (Fifo.nbRead_eq_none_iff _).mp none
    by_cases same : i = n
    · subst same
      simp [Announces, next, idle, publishAnswer, publish]
    · simp [Announces, next, publishAnswer, publish, Ne.symm same]

/-- As long as a value waits there, each run brings the process nearer to the block, or serves
it. -/
theorem rank_nextPc (waits : (r.initResponceFifo i).readable ≠ []) :
    r.nextPc = .served i ∨ rank i r.nextPc + 1 ≤ rank i r.pc := by
  have busy : r.busy i = true := by simp [busy, waits]
  -- the blocks between are served or passed
  have first : ∀ (i : Port) (b : Port → Bool), b i = true →
      ([0, 1, 2, 3] : List Port).find? b = some i ∨
        rank i ((([0, 1, 2, 3] : List Port).find? b).elim .loop .served) + 1 ≤ rank i .loop := by
    decide
  have round : ∀ (n i : Port) (b : Port → Bool), b i = true →
      (portsAfter n).find? b = some i ∨
        rank i (((portsAfter n).find? b).elim .loop .served) + 1 ≤ rank i (.served n) := by
    decide +kernel
  unfold nextPc
  cases r.pc with
  | start | init => exact Or.inr le_rfl
  | loop => exact (first i r.busy busy).imp_left fun found => by simp [Responces.round, found]
  | served n => exact (round n i r.busy busy).imp_left fun found => by simp [Responces.round, found]

/-- What the process sees of the FIFOs is the same. -/
structure Alike (r t : Responces) : Prop where
  pc : t.pc = r.pc
  init : ∀ n, (t.initResponceFifo n).readable = (r.initResponceFifo n).readable
  answers : ∀ n, (t.responceFifo n).readable = (r.responceFifo n).readable

variable {r} {t : Responces}

theorem Alike.nextPc (h : Alike r t) : t.nextPc = r.nextPc := by
  have busy : t.busy = r.busy := by
    funext n
    simp [Responces.busy, h.init, h.answers]
  simp only [Responces.nextPc, h.pc, busy]

theorem Alike.announces (h : Alike r t) : t.Announces i ↔ r.Announces i := by
  simp [Announces, h.nextPc, h.init]

end Responces

namespace Device

open Responces

/-- The value at position `j` of `init_responce_fifo_i` is published after at most so many
edges. -/
def waits (d : Device) (i : Port) (j : Nat) : Nat :=
  if .entryResponse ∈ d.ready then
    1 + rank i d.responces.nextPc + 5 * j - if d.responces.Announces i then 5 else 0
  else 1 + rank i d.responces.pc + 5 * j

variable {d e : Device}

theorem waits_of_alike (ready : .entryResponse ∈ e.ready ↔ .entryResponse ∈ d.ready)
    (same : Alike d.responces e.responces) (i : Port) (j : Nat) : e.waits i j = d.waits i j := by
  simp only [waits, ready, same.nextPc, same.announces, same.pc]

/-- A process other than `entry_response` takes nothing from its FIFOs. -/
theorem alike_run {q : Proc} (other : q ≠ .entryResponse) :
    Alike d.responces (d.exec q).responces ∧
      ∀ i, (d.responces.initResponceFifo i).readOff ((d.exec q).responces.initResponceFifo i) = [] := by
  have still : (d.process q).responces = d.responces → Alike d.responces (d.exec q).responces ∧
      ∀ i, (d.responces.initResponceFifo i).readOff ((d.exec q).responces.initResponceFifo i) = [] := by
    intro same
    have same : (d.exec q).responces = d.responces := same
    rw [same]
    exact ⟨⟨rfl, fun _ => rfl, fun _ => rfl⟩, fun i => Fifo.readOff_self _⟩
  cases moving : moves q with
  | false => exact still (d.process_apart moving).2.2
  | true =>
    cases q with
    | entryResponse => exact absurd rfl other
    | entrySw k => exact still (by rw [process_entrySw])
    | interfaceOut k =>
      have ends := EgressStep.ends_run (memBase k)
        ⟨d.egress k, d.switch.outFifo k, d.responces.responceFifo k, d.mem k, false⟩
      rw [exec, process_interfaceOut]
      refine ⟨⟨rfl, fun _ => rfl, fun n => ?_⟩, fun i => Fifo.readOff_self _⟩
      by_cases same : n = k
      · subst same
        simp [interfaceOut, ends.responces]
      · simp [interfaceOut, same]
    | interfaceIn k =>
      have markers : (d.judged k).initResponceFifo.readable =
          (d.responces.initResponceFifo k).readable := by
        cases IngressStep.sending_run k (portBits k) (d.setup k).fwRange (d.responces.responceS k).cur
          ⟨d.ingress k, d.switch.inFifo k, d.responces.initResponceFifo k, false⟩ with
        | still inFifo markers =>
          rcases markers with same | push
          · simp [judged, same]
          · simp [judged, push, Fifo.push]
        | write f inFifo taking op markers => simp [judged, markers]
        | read f inFifo markers => simp [judged, markers, Fifo.push]
      have readable : ∀ n, ((d.exec (.interfaceIn k)).responces.initResponceFifo n).readable =
          (d.responces.initResponceFifo n).readable := by
        intro n
        by_cases same : n = k
        · subst same
          simpa [exec, interfaceIn, judged] using markers
        · simp [exec, interfaceIn, same]
      refine ⟨⟨?_, readable, fun n => ?_⟩, fun i => ?_⟩
      · simp [exec, interfaceIn]
      · simp [exec, interfaceIn]
      · simp [Fifo.readOff, readable]
    | _ => cases moving

theorem waits_of_ready (ready : .entryResponse ∈ d.ready) (i : Port) (j : Nat) :
    d.waits i j = 1 + rank i d.responces.nextPc + 5 * j - if d.responces.Announces i then 5 else 0 :=
  if_pos ready

theorem waits_of_gone (gone : .entryResponse ∉ d.ready) (i : Port) (j : Nat) :
    d.waits i j = 1 + rank i d.responces.pc + 5 * j :=
  if_neg gone

/-- The run itself is the one that the number was counted from. -/
theorem waits_entryResponse (nodup : d.ready.Nodup) (runs : d.runnable .entryResponse = true)
    (i : Port) (j : Nat) : (d.exec .entryResponse).waits i j ≤ d.waits i (j +
      ((d.responces.initResponceFifo i).readOff
        ((d.exec .entryResponse).responces.initResponceFifo i)).length) := by
  have ready : Proc.entryResponse ∈ d.ready := by simpa [runnable, blocked] using runs
  have gone : Proc.entryResponse ∉ (d.exec .entryResponse).ready := nodup.not_mem_erase
  have pc : (d.exec .entryResponse).responces.pc = d.responces.nextPc := d.responces.run_pc
  have length : ((d.responces.initResponceFifo i).readOff
      ((d.exec .entryResponse).responces.initResponceFifo i)).length =
      if d.responces.Announces i then 1 else 0 := d.responces.readOff_run i
  rw [waits_of_gone gone, waits_of_ready ready, pc, length]
  split <;> omega

theorem waits_edge (quiescent : d.quiescent = true) {i : Port}
    (readable : (d.responces.initResponceFifo i).readable ≠ []) (j : Nat) :
    d.edge.waits i j + 1 ≤ d.waits i j := by
  have gone : Proc.entryResponse ∉ d.ready := not_ready_of_quiescent quiescent (by simp [clocked])
  have woken : Proc.entryResponse ∈ d.edge.ready := by simp [edge, clocked, blocked]
  have same : d.edge.responces = d.responces := rfl
  rw [waits_of_gone gone, waits_of_ready woken, same]
  rcases d.responces.rank_nextPc i readable with here | nearer
  · have last : rank i (.served i) = 4 := by
      simp only [rank, lt_irrefl, if_false]
      omega
    rw [if_pos ⟨here, readable⟩, here, last]
    omega
  · split <;> omega

/-- Each edge brings a value that waits nearer to its publication, and no other step takes it
farther from it. -/
theorem waits_of_step (nodup : d.ready.Nodup) {i : Port}
    (seen : d.dirty = false → (d.responces.initResponceFifo i).written = [])
    {a : Action ⊕ (Port × Word)} (hs : openMachine.step d a = some e) {j : Nat}
    (held : j < (e.responces.initResponceFifo i).contents.length) :
    e.waits i j + (if a = .inl .edge then 1 else 0) ≤ d.waits i
      (j + ((d.responces.initResponceFifo i).readOff (e.responces.initResponceFifo i)).length) := by
  have still : (.entryResponse ∈ e.ready ↔ .entryResponse ∈ d.ready) →
      Alike d.responces e.responces →
      (d.responces.initResponceFifo i).readOff (e.responces.initResponceFifo i) = [] →
      e.waits i j ≤ d.waits i (j +
        ((d.responces.initResponceFifo i).readOff (e.responces.initResponceFifo i)).length) := by
    intro ready alike none
    simp [none, waits_of_alike ready alike]
  rcases a with a | ⟨p, w⟩
  · cases move_of_step hs with
    | run q runnable =>
      by_cases own : q = .entryResponse
      · subst own
        simpa using waits_entryResponse nodup runnable i j
      · obtain ⟨alike, none⟩ := alike_run (d := d) own
        simpa using still (List.mem_erase_of_ne (Ne.symm own)) alike (none i)
    | request => simpa using still Iff.rfl ⟨rfl, fun _ => rfl, fun _ => rfl⟩ (Fifo.readOff_self _)
    | edge quiescent clean =>
      have readable : (d.responces.initResponceFifo i).readable ≠ [] := by
        intro none
        simp [edge, Fifo.contents, none, seen clean] at held
      simpa [edge] using waits_edge quiescent readable j
    | delta quiescent =>
      have gone : Proc.entryResponse ∉ d.ready :=
        not_ready_of_quiescent quiescent (by simp [clocked])
      simp [waits, update, gone]
  · simp only [openMachine, openStep] at hs
    split at hs
    next =>
      cases hs
      simpa using still Iff.rfl ⟨rfl, fun _ => rfl, fun _ => rfl⟩ (Fifo.readOff_self _)
    next => cases hs

end Device

end ScCosim.Firewall
