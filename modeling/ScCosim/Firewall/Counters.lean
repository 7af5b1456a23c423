import Mathlib.Data.Fintype.Basic
import Mathlib.Tactic.FinCases
import ScCosim.Kernel.Trace
import ScCosim.Firewall.Pipeline
import ScCosim.Firewall.Processes

/-!
# What becomes of the words of a port

`interface_in` is put into surroundings that do as they like: at each of its runs the sampled
rule, the visible response register and the FIFOs it writes are arbitrary, and words arrive at
any time. What it takes, passes on and acknowledges is observed from outside and compared with
its counters.
-/
namespace ScCosim.Firewall

open Kernel

/-! ### The process on its own -/

/-- What one run of `interface_in` finds around it. -/
structure Around where
  fw : Triple
  responceS : Word
  inFifo : Fifo Flit
  initResponceFifo : Fifo Word

namespace Ingress

/-- One run of `interface_in_i`. -/
def runIn (i : Port) (g : Ingress) (x : Around) : IngressStep :=
  IngressStep.run i (portBits i) x.fw x.responceS ⟨g, x.inFifo, x.initResponceFifo, false⟩

inductive Action where
  | run (x : Around)
  | arrive (w : Word)
  | update

def updated (g : Ingress) : Ingress :=
  { g with
    in_ := g.in_.update
    total := g.total.update
    droped := g.droped.update
    fwRuleHitCounter := g.fwRuleHitCounter.update }

def step (i : Port) (g : Ingress) : Action → Option Ingress
  | .run x => some (g.runIn i x).ingress
  | .arrive w => some { g with in_ := g.in_.push w }
  | .update => some g.updated

def machine (i : Port) : Machine Ingress Action := ⟨new, step i⟩

/-! ### What is seen of it -/

/-- The words that a step takes off `in_i`. -/
def removed (g : Ingress) (_ : Action) (h : Ingress) : List Word := g.in_.readOff h.in_

/-- The words that a step writes to `in_fifo_i`. -/
def passed (i : Port) (g : Ingress) (a : Action) (_ : Ingress) : List Word :=
  match a with
  | .run x => (x.inFifo.writtenSince (g.runIn i x).inFifo).map Flit.word
  | _ => []

/-- A step's notifications of `m_write_ended_event`. -/
def ended (i : Port) (g : Ingress) (a : Action) (_ : Ingress) : List Unit :=
  match a with
  | .run x => if (g.runIn i x).notify then [()] else []
  | _ => []

/-- The word as `interface_in_i` writes it to `in_fifo_i`. -/
def sentAs (i : Port) (w : Word) : Word := if opcode w = 1 then setSrc w (portBits i) else w

/-- The words on record with one outcome. -/
def withOutcome (o : Outcome) (taken : List Taken) : List Word :=
  (taken.filter fun t => t.outcome = o).map Taken.word

theorem withOutcome_snoc (o : Outcome) (taken : List Taken) (t : Taken) :
    withOutcome o (taken ++ [t]) =
      withOutcome o taken ++ if t.outcome = o then [t.word] else [] := by
  unfold withOutcome
  by_cases h : t.outcome = o <;> simp [h]

/-- The four outcomes share out the record. -/
theorem length_withOutcome (taken : List Taken) :
    taken.length = (withOutcome .repeated taken).length + (withOutcome .hit taken).length +
      (withOutcome .droped taken).length + (withOutcome .forwarded taken).length := by
  induction taken with
  | nil => rfl
  | cons t taken ih =>
    unfold withOutcome at ih ⊢
    cases outcome : t.outcome <;> simp [outcome] at ih ⊢ <;> omega

/-- Not in the middle of a packet. -/
def between (pc : IngressPc) : Bool :=
  match pc with
  | .writeHit | .writeForward _ => false
  | _ => true

/-- A packet that hit and is not counted yet. -/
def hitInHand (pc : IngressPc) : Nat :=
  match pc with
  | .writeHit => 1
  | _ => 0

/-- A packet to forward that is not in `in_fifo_i` yet. -/
def passInHand (pc : IngressPc) : List Word :=
  match pc with
  | .writeForward f => [f.word]
  | _ => []

/-- The counters, and what has been seen of the process, agree with the record. -/
structure Tallied (i : Port) (g : Ingress) (removed passed : List Word) (ended : Nat) :
    Prop where
  words : g.taken.map Taken.word = removed
  start : g.pc = .start → g.taken = []
  last : g.preval = removed.getLastD 0
  repeated : ∀ (n : Nat) (t : Taken), g.taken[n]? = some t →
    (t.outcome = .repeated ↔ (0 :: removed)[n]? = some t.word)
  total : g.countTotal = BitVec.ofNat 32 ((withOutcome .hit g.taken).length +
    (withOutcome .droped g.taken).length + (withOutcome .forwarded g.taken).length)
  hits : g.ruleHitCounter + BitVec.ofNat 32 (hitInHand g.pc) =
    BitVec.ofNat 32 (withOutcome .hit g.taken).length
  droped : g.countDroped = BitVec.ofNat 32 (withOutcome .droped g.taken).length
  forwarded : passed ++ passInHand g.pc = (withOutcome .forwarded g.taken).map (sentAs i)
  ended : ended + hitInHand g.pc =
    (withOutcome .hit g.taken).length + (withOutcome .droped g.taken).length

/-! ### What one run does to the tally -/

section tally

variable {i : Port} {g g' : Ingress} {removed passed more : List Word} {ended n : Nat}

/-- A step that takes no word. -/
theorem Tallied.stay (h : Tallied i g removed passed ended) (taken : g'.taken = g.taken)
    (start : g'.pc = .start → g.pc = .start) (preval : g'.preval = g.preval)
    (total : g'.countTotal = g.countTotal) (droped : g'.countDroped = g.countDroped)
    (hits : g'.ruleHitCounter + BitVec.ofNat 32 (hitInHand g'.pc) =
      g.ruleHitCounter + BitVec.ofNat 32 (hitInHand g.pc))
    (forwarded : more ++ passInHand g'.pc = passInHand g.pc)
    (notified : n + hitInHand g'.pc = hitInHand g.pc) :
    Tallied i g' removed (passed ++ more) (ended + n) where
  words := by rw [taken, h.words]
  start pc := by rw [taken, h.start (start pc)]
  last := by rw [preval, h.last]
  repeated := by rw [taken]; exact h.repeated
  total := by rw [total, taken, h.total]
  hits := by rw [hits, taken, h.hits]
  droped := by rw [droped, taken, h.droped]
  forwarded := by rw [List.append_assoc, forwarded, taken, h.forwarded]
  ended := by
    have was := h.ended
    rw [taken]
    omega

/-- A step that takes a word gives it one outcome, and counts it or has it in hand. -/
theorem Tallied.take (h : Tallied i g removed passed ended) {w : Word} {rule : Triple}
    {o : Outcome} (loop : g.pc = .loop) (start : g'.pc ≠ .start)
    (taken : g'.taken = g.taken ++ [⟨w, rule, o⟩]) (preval : g'.preval = w)
    (same : o = .repeated ↔ w = g.preval)
    (total : g'.countTotal = g.countTotal + if o = .repeated then 0 else 1)
    (droped : g'.countDroped = g.countDroped + if o = .droped then 1 else 0)
    (hits : g'.ruleHitCounter + BitVec.ofNat 32 (hitInHand g'.pc) =
      g.ruleHitCounter + if o = .hit then 1 else 0)
    (forwarded : more ++ passInHand g'.pc = if o = .forwarded then [sentAs i w] else [])
    (notified : n + hitInHand g'.pc = if o = .hit ∨ o = .droped then 1 else 0) :
    Tallied i g' (removed ++ [w]) (passed ++ more) (ended + n) := by
  have nothingHit : hitInHand g.pc = 0 := by rw [loop]; rfl
  have nothingPassed : passInHand g.pc = [] := by rw [loop]; rfl
  have length : removed.length = g.taken.length := by rw [← h.words, List.length_map]
  constructor
  case words => simp [taken, h.words]
  case start => exact fun pc => absurd pc start
  case last => simp [preval]
  case repeated =>
    intro m t at_
    rw [taken] at at_
    by_cases old : m < g.taken.length
    · -- an older entry: the words before it are the same
      rw [List.getElem?_append_left old] at at_
      rw [h.repeated m t at_, ← List.cons_append, List.getElem?_append_left (by simp; omega)]
    · have new : m = g.taken.length := by
        have bound := (List.getElem?_eq_some_iff.mp at_).1
        simp at bound
        omega
      subst new
      obtain rfl : t = ⟨w, rule, o⟩ := by simpa [eq_comm] using at_
      have before : (0 :: (removed ++ [w]))[g.taken.length]? = some (removed.getLastD 0) := by
        rw [← List.cons_append, List.getElem?_append_left (by simp [length]), ← length]
        cases removed using List.reverseRecOn <;> simp
      rw [before, same, h.last, Option.some.injEq, eq_comm]
  case total =>
    rw [total, h.total, taken]
    cases o <;> simp [withOutcome_snoc, BitVec.ofNat_add] <;> ac_rfl
  case droped =>
    rw [droped, h.droped, taken]
    cases o <;> simp [withOutcome_snoc, BitVec.ofNat_add]
  case hits =>
    have wasHits : g.ruleHitCounter = BitVec.ofNat 32 (withOutcome .hit g.taken).length := by
      simpa [nothingHit] using h.hits
    rw [hits, wasHits, taken]
    cases o <;> simp [withOutcome_snoc, BitVec.ofNat_add]
  case forwarded =>
    have wasForwarded : passed = (withOutcome .forwarded g.taken).map (sentAs i) := by
      simpa [nothingPassed] using h.forwarded
    rw [List.append_assoc, forwarded, wasForwarded, taken]
    cases o <;> simp [withOutcome_snoc]
  case ended =>
    have wasEnded := h.ended
    rw [taken]
    cases o <;> simp [withOutcome_snoc] at notified ⊢ <;> omega

/-- What is recorded as repeated is equal to the word before. -/
theorem repeated_iff {s : IngressStep} {source : BitVec 2} {fw : Triple} {responceS w : Word}
    {rest : Fifo Word} {rule : Triple} {o : Outcome} (pc : s.ingress.pc = .loop)
    (seen : fw.r = s.ingress.preReadR) (read : s.ingress.in_.nbRead = some (w, rest))
    (taken : (IngressStep.run i source fw responceS s).ingress.taken =
      s.ingress.taken ++ [⟨w, rule, o⟩]) :
    o = .repeated ↔ w = s.ingress.preval := by
  have run : IngressStep.run i source fw responceS s =
      IngressStep.judge i source responceS s rest w := by
    simp [IngressStep.run, pc, seen, read]
  rw [run] at taken
  unfold IngressStep.judge at taken
  split at taken
  next same =>
    have outcome : Outcome.repeated = o := by
      simpa [IngressStep.take] using congrArg (List.map Taken.outcome) taken
    simp [same, ← outcome]
  next fresh =>
    -- every other branch records an outcome of its own
    have other : o ≠ .repeated := by
      rintro rfl
      revert taken
      repeat' split
      all_goals simp [(IngressStep.keeps_writeHit _).taken,
        (IngressStep.keeps_writeForward _ _).taken, IngressStep.take, IngressStep.count,
        IngressStep.finishHit, IngressStep.drop, IngressStep.forward]
    simp [fresh, other]

/-- One run adds to what has been seen what it takes, passes on and notifies. -/
theorem tallied_step {s : IngressStep} (h : Tallied i s.ingress removed passed ended)
    (quiet : s.notify = false) (fw : Triple) (responceS : Word) {t : IngressStep}
    (run : IngressStep.run i (portBits i) fw responceS s = t) :
    Tallied i t.ingress (removed ++ s.ingress.in_.readOff t.ingress.in_)
      (passed ++ (s.inFifo.writtenSince t.inFifo).map Flit.word)
      (ended + if t.notify then 1 else 0) := by
  have fresh {w : Word} {rest : Fifo Word} {o : Outcome} (pc : s.ingress.pc = .loop)
      (seen : fw.r = s.ingress.preReadR) (read : s.ingress.in_.nbRead = some (w, rest))
      (taken : t.ingress.taken = s.ingress.taken ++ [⟨w, s.ingress.fwRead, o⟩]) :
      o = .repeated ↔ w = s.ingress.preval := by
    rw [← run] at taken
    exact repeated_iff pc seen read taken
  have spec := IngressStep.run_spec i (portBits i) fw responceS s
  rw [run] at spec
  cases spec with
  | reset pc =>
    -- nothing has been taken before the first `wait()`
    have none := h.start pc
    obtain rfl : removed = [] := by simp [← h.words, none]
    obtain rfl : passed = [] := by
      simpa [passInHand, none, withOutcome, pc] using h.forwarded
    obtain rfl : ended = 0 := by simpa [hitInHand, none, withOutcome, pc] using h.ended
    constructor <;> simp [IngressStep.reset, none, withOutcome, hitInHand, passInHand, quiet]
  | init pc | wait1 pc =>
    rw [Fifo.readOff_self, List.append_nil]
    apply h.stay <;> simp [pc, hitInHand, passInHand, quiet]
  | latch pc =>
    simp only [IngressStep.latch, Fifo.readOff_self, List.append_nil]
    apply h.stay <;> simp [pc, hitInHand, passInHand, quiet]
  | idle pc =>
    rw [Fifo.readOff_self, List.append_nil]
    apply h.stay <;> simp [pc, hitInHand, passInHand, quiet]
  | repeated w rest pc seen read same =>
    simp only [IngressStep.take, Fifo.readOff_of_nbRead read]
    refine h.take (o := .repeated) pc ?_ rfl same.symm (by simp [same]) ?_ ?_ ?_ ?_ ?_ <;>
      simp [pc, hitInHand, passInHand, quiet]
  | hit w rest pc seen read hit op =>
    have same := fresh (o := .hit) pc seen read rfl
    simp only [IngressStep.finishHit, IngressStep.count, IngressStep.take,
      Fifo.readOff_of_nbRead read, Fifo.writtenSince_self] at same ⊢
    refine h.take (o := .hit) pc ?_ rfl rfl same ?_ ?_ ?_ ?_ ?_ <;> simp [hitInHand, passInHand]
  | hitRead w rest pc seen read hit op =>
    have keeps := ((s.take rest w .hit).count w).keeps_writeHit
    have same := fresh (o := .hit) pc seen read keeps.taken
    rw [keeps.in_]
    simp only [IngressStep.count, IngressStep.take, Fifo.readOff_of_nbRead read]
    -- the zero for the reader is written at once, or the process blocks with the packet
    unfold IngressStep.writeHit
    split
    · simp only [IngressStep.finishHit]
      refine h.take (o := .hit) pc ?_ rfl rfl same ?_ ?_ ?_ ?_ ?_ <;> simp [hitInHand, passInHand]
    · refine h.take (o := .hit) pc ?_ rfl rfl same ?_ ?_ ?_ ?_ ?_ <;>
        simp [hitInHand, passInHand, quiet]
  | drop w rest pc seen read miss =>
    have same := fresh (o := .droped) pc seen read rfl
    simp only [IngressStep.drop, IngressStep.count, IngressStep.take,
      Fifo.readOff_of_nbRead read, Fifo.writtenSince_self]
    refine h.take (o := .droped) pc ?_ rfl rfl same ?_ ?_ ?_ ?_ ?_ <;>
      simp [hitInHand, passInHand]
  | forward w rest pc seen read miss op free =>
    have same := fresh (o := .forwarded) pc seen read rfl
    simp only [IngressStep.forward, IngressStep.count, IngressStep.take,
      Fifo.readOff_of_nbRead read, Fifo.writtenSince_push, IngressStep.flit]
    refine h.take (o := .forwarded) pc ?_ rfl rfl same ?_ ?_ ?_ ?_ ?_ <;>
      simp [hitInHand, passInHand, quiet, sentAs]
  | forwardRead w rest pc seen read miss op answered free =>
    have keeps := ((s.take rest w .forwarded).count w).keeps_writeForward
      (s.flit i (portBits i) w)
    have same := fresh (o := .forwarded) pc seen read keeps.taken
    rw [keeps.in_]
    simp only [IngressStep.count, IngressStep.take, Fifo.readOff_of_nbRead read]
    -- so is the marker
    unfold IngressStep.writeForward
    split
    · simp only [IngressStep.forward, IngressStep.flit, Fifo.writtenSince_push]
      refine h.take (o := .forwarded) pc ?_ rfl rfl same ?_ ?_ ?_ ?_ ?_ <;>
        simp [hitInHand, passInHand, quiet, sentAs]
    · refine h.take (o := .forwarded) pc ?_ rfl rfl same ?_ ?_ ?_ ?_ ?_ <;>
        simp [hitInHand, passInHand, quiet, sentAs, IngressStep.flit]
  | resumeHit pc =>
    rw [s.keeps_writeHit.in_, Fifo.readOff_self, List.append_nil]
    unfold IngressStep.writeHit
    split
    · simp only [IngressStep.finishHit]
      apply h.stay <;> simp [pc, hitInHand, passInHand]
    · apply h.stay <;> simp [pc, hitInHand, passInHand, quiet]
  | resumeForward f pc =>
    rw [(s.keeps_writeForward f).in_, Fifo.readOff_self, List.append_nil]
    unfold IngressStep.writeForward
    split
    · simp only [IngressStep.forward, Fifo.writtenSince_push]
      apply h.stay <;> simp [pc, hitInHand, passInHand, quiet]
    · apply h.stay <;> simp [pc, hitInHand, passInHand, quiet]

end tally

/-- After any run the counters and the record agree with what has been seen. -/
theorem tallied_of_run (i : Port) {as : List Action} {g : Ingress}
    (hr : (machine i).run new as = some g) :
    Tallied i g ((machine i).trace removed new as) ((machine i).trace (passed i) new as)
      ((machine i).trace (ended i) new as).length := by
  refine (machine i).run_history (I := fun as g =>
    Tallied i g ((machine i).trace removed new as) ((machine i).trace (passed i) new as)
      ((machine i).trace (ended i) new as).length) ?_ ?_ hr
  · constructor <;> simp [machine, new, withOutcome, hitInHand, passInHand]
  · intro as g a g' (before : (machine i).run new as = some g) h step
    rw [Machine.trace_snoc _ before step, Machine.trace_snoc _ before step,
      Machine.trace_snoc _ before step, List.length_append]
    cases a with
    | run x =>
      cases step
      have next := tallied_step h rfl x.fw x.responceS (s := ⟨g, x.inFifo, x.initResponceFifo, false⟩)
        rfl
      simp only [removed, passed, ended, runIn]
      split at next
      next notified => simpa [notified] using next
      next silent => simpa [silent] using next
    | arrive w =>
      cases step
      simp only [removed, passed, ended, Fifo.readOff_push, List.append_nil, List.length_nil,
        Nat.add_zero]
      exact ⟨h.words, h.start, h.last, h.repeated, h.total, h.hits, h.droped, h.forwarded, h.ended⟩
    | update =>
      cases step
      simp only [removed, passed, ended, updated, Fifo.readOff_update, List.append_nil,
        List.length_nil, Nat.add_zero]
      exact ⟨h.words, h.start, h.last, h.repeated, h.total, h.hits, h.droped, h.forwarded, h.ended⟩

/-- Between two packets every word taken off `in_i` has been skipped as equal to the one
before it, or counted as hit, or counted as droped, or passed on; what is counted in all are
the words that were not skipped, and the hits and drops have been acknowledged. -/
theorem words_accounted (i : Port) {as : List Action} {g : Ingress}
    (hr : (machine i).run new as = some g) (done : between g.pc = true) :
    g.taken.map Taken.word = (machine i).trace removed new as ∧
      (∀ (n : Nat) (t : Taken), g.taken[n]? = some t → (t.outcome = .repeated ↔
        (0 :: (machine i).trace removed new as)[n]? = some t.word)) ∧
      g.ruleHitCounter = BitVec.ofNat 32 (withOutcome .hit g.taken).length ∧
      g.countDroped = BitVec.ofNat 32 (withOutcome .droped g.taken).length ∧
      (machine i).trace (passed i) new as = (withOutcome .forwarded g.taken).map (sentAs i) ∧
      g.countTotal = BitVec.ofNat 32 (((machine i).trace removed new as).length -
        (withOutcome .repeated g.taken).length) ∧
      g.countTotal = g.ruleHitCounter + g.countDroped +
        BitVec.ofNat 32 ((machine i).trace (passed i) new as).length ∧
      ((machine i).trace (ended i) new as).length =
        (withOutcome .hit g.taken).length + (withOutcome .droped g.taken).length := by
  have h := tallied_of_run i hr
  have noHit : hitInHand g.pc = 0 := by
    cases pc : g.pc <;> simp [between, pc, hitInHand] at done ⊢
  have noPass : passInHand g.pc = [] := by
    cases pc : g.pc <;> simp [between, pc, passInHand] at done ⊢
  have hits := h.hits
  have forwarded := h.forwarded
  have ended := h.ended
  rw [noHit] at hits ended
  rw [noPass, List.append_nil] at forwarded
  have hits : g.ruleHitCounter = BitVec.ofNat 32 (withOutcome .hit g.taken).length := by
    simpa using hits
  have shared : ((machine i).trace removed new as).length =
      (withOutcome .repeated g.taken).length + (withOutcome .hit g.taken).length +
        (withOutcome .droped g.taken).length + (withOutcome .forwarded g.taken).length := by
    rw [← h.words, List.length_map, length_withOutcome]
  refine ⟨h.words, h.repeated, hits, h.droped, forwarded, ?_, ?_, ended⟩
  · rw [h.total, shared]
    congr 1
    omega
  · rw [h.total, hits, h.droped, forwarded, List.length_map, BitVec.ofNat_add, BitVec.ofNat_add]

/-- Surroundings without a rule and with room everywhere. -/
def clear : Around := ⟨⟨0, 0, 0⟩, 0, Fifo.new internalFifoSize, Fifo.new internalFifoSize⟩

/-- A rule that matches every packet. -/
def denying : Around := { clear with fw := ⟨0xFF, 0, 0x3FF⟩ }

/-- No room in `in_fifo_i`. -/
def congested : Around := { clear with inFifo := Fifo.new 0 }

/-- The process is started, then takes 7 twice, 8 while there is no room, and 9 under a rule
that matches it. -/
def mixed : List Action :=
  [.run clear, .run clear, .arrive 7, .arrive 7, .arrive 8, .arrive 9, .update, .run clear,
    .run clear, .run clear, .run congested, .run clear, .run denying, .run denying]

theorem words_accounted_of_mixed : ∃ g, (machine 0).run new mixed = some g ∧
    (machine 0).trace removed new mixed = [7, 7, 8, 9] ∧
    (machine 0).trace (passed 0) new mixed = [7] ∧ g.ruleHitCounter = 1 ∧ g.countDroped = 1 ∧
    g.countTotal = g.ruleHitCounter + g.countDroped +
      BitVec.ofNat 32 ((machine 0).trace (passed 0) new mixed).length :=
  ⟨_, rfl, by decide, by decide, by decide, by decide,
    (words_accounted 0 (rfl : (machine 0).run new mixed = some _) (by decide)).2.2.2.2.2.2.1⟩

/-- The second of two equal words is taken without a trace. -/
theorem repeated_word_unaccounted : ¬ ∀ (i : Port) (as : List Action) (g : Ingress),
    (machine i).run new as = some g → between g.pc = true →
      g.countTotal = BitVec.ofNat 32 ((machine i).trace removed new as).length := by
  intro claim
  have counted := claim 0 [.run clear, .run clear, .arrive 7, .arrive 7, .update, .run clear,
    .run clear, .run clear] _ rfl (by decide)
  exact absurd counted (by decide)

end Ingress

/-! ### In the device -/

namespace Device

/-- The words that a step of the device takes off `in_i`. -/
def removed (i : Port) (d : Device) (_ : Action ⊕ (Port × Word)) (e : Device) : List Word :=
  (d.ingress i).in_.readOff (e.ingress i).in_

/-- The words that a step of the device writes to `in_fifo_i`. -/
def passed (i : Port) (d : Device) (_ : Action ⊕ (Port × Word)) (e : Device) : List Word :=
  ((d.switch.inFifo i).writtenSince (e.switch.inFifo i)).map Flit.word

/-- The notifications of `m_write_ended_event` that `interface_in_i` makes in a step. -/
def ended (i : Port) (d : Device) (a : Action ⊕ (Port × Word)) (_ : Device) : List Unit :=
  if a = .inl (.run (.interfaceIn i)) ∧ (d.judged i).notify = true then [()] else []

/-- Only `interface_in_i` writes to `in_fifo_i`. -/
theorem writtenSince_inFifo (d : Device) {q : Proc} {i : Port} (other : q ≠ .interfaceIn i) :
    (d.switch.inFifo i).writtenSince ((d.process q).switch.inFifo i) = [] := by
  by_cases ingress : ∃ j, q = .interfaceIn j
  · obtain ⟨j, rfl⟩ := ingress
    have apart : i ≠ j := fun h => other (by rw [h])
    simp [interfaceIn, apart]
  by_cases switch : ∃ k, q = .entrySw k
  · obtain ⟨k, rfl⟩ := switch
    fin_cases k
    · exact Switch.writtenSince_firstStage ..
    · exact Switch.writtenSince_firstStage ..
    · exact Fifo.writtenSince_self _
    · exact Fifo.writtenSince_self _
  by_cases egress : ∃ k, q = .interfaceOut k
  · obtain ⟨k, rfl⟩ := egress
    rw [process_interfaceOut]
    exact Fifo.writtenSince_self _
  · simp only [not_exists] at ingress switch egress
    rw [d.process_switch ingress egress switch, Fifo.writtenSince_self]

/-- The process alone, in some surroundings, does what the device does with its port. -/
structure Mimics (i : Port) (g h : Ingress) (bs : List Ingress.Action) (removed passed : List Word)
    (ended : List Unit) : Prop where
  run : (Ingress.machine i).run g bs = some h
  removed : (Ingress.machine i).trace Ingress.removed g bs = removed
  passed : (Ingress.machine i).trace (Ingress.passed i) g bs = passed
  ended : (Ingress.machine i).trace (Ingress.ended i) g bs = ended

theorem mimics_of_step {d e : Device} {a : Action ⊕ (Port × Word)} (i : Port)
    (hs : openMachine.step d a = some e) : ∃ bs,
    Mimics i (d.ingress i) (e.ingress i) bs (removed i d a e) (passed i d a e) (ended i d a e) := by
  -- a step that leaves the port alone
  have still : e.ingress i = d.ingress i →
      (d.switch.inFifo i).writtenSince (e.switch.inFifo i) = [] → ended i d a e = [] →
      ∃ bs, Mimics i (d.ingress i) (e.ingress i) bs (removed i d a e) (passed i d a e)
        (ended i d a e) := by
    intro ingress unwritten quiet
    exact ⟨[], by simp [ingress], by simp [removed, ingress], by simp [passed, unwritten],
      by simp [quiet]⟩
  -- a word that arrives
  have arrival : ∀ w, e.ingress i = { d.ingress i with in_ := (d.ingress i).in_.push w } →
      (d.switch.inFifo i).writtenSince (e.switch.inFifo i) = [] → ended i d a e = [] →
      ∃ bs, Mimics i (d.ingress i) (e.ingress i) bs (removed i d a e) (passed i d a e)
        (ended i d a e) := by
    intro w ingress unwritten quiet
    refine ⟨[.arrive w], ?_, ?_, ?_, ?_⟩
    · simp [Ingress.machine, Ingress.step, ingress]
    · rw [Machine.trace_cons _ rfl]
      simp [removed, ingress, Ingress.removed]
    · rw [Machine.trace_cons _ rfl]
      simp [passed, unwritten, Ingress.passed]
    · rw [Machine.trace_cons _ rfl]
      simp [quiet, Ingress.ended]
  rcases a with a | ⟨j, w⟩
  · cases move_of_step hs with
    | run q =>
      by_cases own : q = .interfaceIn i
      · subst own
        refine ⟨[.run ⟨(d.setup i).fwRange, (d.responces.responceS i).cur, d.switch.inFifo i,
          d.responces.initResponceFifo i⟩], ?_, ?_, ?_, ?_⟩
        · simp [Ingress.machine, Ingress.step, exec, interfaceIn, Ingress.runIn]
        · rw [Machine.trace_cons _ rfl]
          simp [removed, Ingress.removed, exec, interfaceIn, Ingress.runIn]
        · rw [Machine.trace_cons _ rfl]
          simp [passed, Ingress.passed, exec, interfaceIn, Ingress.runIn]
        · rw [Machine.trace_cons _ rfl]
          have same : (d.ingress i).runIn i ⟨(d.setup i).fwRange, (d.responces.responceS i).cur,
            d.switch.inFifo i, d.responces.initResponceFifo i⟩ = d.judged i := rfl
          cases notified : (d.judged i).notify <;> simp [ended, Ingress.ended, same, notified]
      have unwritten : (d.switch.inFifo i).writtenSince ((d.exec q).switch.inFifo i) = [] :=
        d.writtenSince_inFifo own
      have quiet : ended i d (.inl (.run q)) (d.exec q) = [] := by simp [ended, own]
      by_cases write : q = .executeWriteThread
      · subst write
        obtain ⟨t, fifo, -, -, ingress, rfl | ⟨w, rfl⟩⟩ := d.executeWriteThread_port i
        · exact still ingress unwritten quiet
        · exact arrival w ingress unwritten quiet
      · exact still (d.process_ingress own write) unwritten quiet
    | request t idle => exact still rfl (Fifo.writtenSince_self _) (by simp [ended])
    | edge quiescent clean => exact still rfl (Fifo.writtenSince_self _) (by simp [ended])
    | delta quiescent dirty =>
      refine ⟨[.update], rfl, ?_, ?_, ?_⟩
      · rw [Machine.trace_cons _ rfl]
        simp [removed, Ingress.removed, Ingress.updated, update]
      · rw [Machine.trace_cons _ rfl]
        simp [passed, Ingress.passed, update]
      · rw [Machine.trace_cons _ rfl]
        simp [ended, Ingress.ended]
  · simp only [openMachine, openStep] at hs
    split at hs
    next =>
      cases hs
      by_cases own : i = j
      · subst own
        exact arrival w (by simp [arrive]) (Fifo.writtenSince_self _) (by simp [ended])
      · exact still (by simp [arrive, own]) (Fifo.writtenSince_self _) (by simp [ended])
    next => cases hs

/-- Seen from `interface_in_i`, a run of the device is a run in some surroundings. -/
theorem mimics_of_run {d : Device} {as : List (Action ⊕ (Port × Word))} (i : Port)
    (hr : openMachine.run new as = some d) : ∃ bs,
    Mimics i Ingress.new (d.ingress i) bs (openMachine.trace (removed i) new as)
      (openMachine.trace (passed i) new as) (openMachine.trace (ended i) new as) := by
  refine openMachine.run_history (I := fun as d => ∃ bs,
    Mimics i Ingress.new (d.ingress i) bs (openMachine.trace (removed i) new as)
      (openMachine.trace (passed i) new as) (openMachine.trace (ended i) new as))
    ⟨[], rfl, rfl, rfl, rfl⟩ ?_ hr
  rintro as d a e (before : openMachine.run new as = some d) ⟨bs, h⟩ step
  obtain ⟨cs, more⟩ := mimics_of_step i step
  refine ⟨bs ++ cs, ((Ingress.machine i).run_append_iff _ _ _ _).mpr ⟨_, h.run, more.run⟩,
    ?_, ?_, ?_⟩
  · rw [Machine.trace_append _ h.run, Machine.trace_snoc _ before step, h.removed, more.removed]
  · rw [Machine.trace_append _ h.run, Machine.trace_snoc _ before step, h.passed, more.passed]
  · rw [Machine.trace_append _ h.run, Machine.trace_snoc _ before step, h.ended, more.ended]

/-- The device's counters and its record of a port account for every word. -/
theorem tallied_of_run {d : Device} {as : List (Action ⊕ (Port × Word))} (i : Port)
    (hr : openMachine.run new as = some d) :
    Ingress.Tallied i (d.ingress i) (openMachine.trace (removed i) new as)
      (openMachine.trace (passed i) new as) (openMachine.trace (ended i) new as).length := by
  obtain ⟨bs, h⟩ := mimics_of_run i hr
  rw [← h.removed, ← h.passed, ← h.ended]
  exact Ingress.tallied_of_run i h.run

end Device

end ScCosim.Firewall
