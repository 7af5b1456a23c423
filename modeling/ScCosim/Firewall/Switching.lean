import Mathlib.Tactic.FinCases
import Mathlib.Data.Fintype.Sigma
import Mathlib.Data.Fintype.Sum
import Mathlib.Tactic.DeriveFintype
import ScCosim.Kernel.Flow
import ScCosim.Kernel.Trace
import ScCosim.Firewall.Routing

/-!
# The switch as a network of queues

The FIFOs of the switch are the places of a network, and a run of any process is one move in
it. The places between the stages are read with the destination turned back, so a packet is
the same item everywhere. Packets of any kind can be written to the inputs by the
surroundings, as the `interface_in` processes do.
-/
namespace ScCosim.Firewall

open Kernel

inductive Place where
  | inFifo (s : Port)
  /-- From switch `a` of the first stage to switch `b` of the second. -/
  | stage (a b : Fin 2)
  | outFifo (k : Port)
  deriving DecidableEq, Fintype

/-- The switch of the first stage that port `s` is wired to. -/
def stageOf (s : Port) : Fin 2 := if s < 2 then 0 else 1

/-- An exit of switch `b` of the second stage. -/
def exitOf (b : Fin 2) (up : Bool) : Port :=
  if b = 0 then (if up then 1 else 0) else (if up then 3 else 2)

/-- The output of a switch of the first stage. -/
def sideOf (up : Bool) : Fin 2 := if up then 1 else 0

/-- The wiring. -/
def switchRoutes : Routes Place Flit where
  entry f := .inFifo f.origin.port
  next
    | .inFifo s, f => some (.stage (stageOf s) (sideOf (nextPosition f.word)))
    | .stage _ b, f => some (.outFifo (exitOf b (nextPosition (rotateDest f.word))))
    | .outFifo _, _ => none

/-- The packets at each place, as they were sent. -/
def Switch.hold (w : Switch) : Place → List Flit
  | .inFifo s => (w.inFifo s).contents
  | .stage a b => (w.outFifoS a b).contents.map SwitchStep.moved
  | .outFifo k => (w.outFifo k).contents

@[simp] theorem SwitchStep.moved_moved (f : Flit) : moved (moved f) = f := by
  simp [moved, rotateDest_rotateDest]

@[simp] theorem SwitchStep.moved_comp_moved : moved ∘ moved = id := by
  funext f
  exact moved_moved f

/-! ### One run of a switch -/

namespace SwitchStep

def ins (s : SwitchStep) (j : Fin 2) : Fifo Flit := if j = 0 then s.in0 else s.in1

def outs (s : SwitchStep) (b : Fin 2) : Fifo Flit := if b = 0 then s.out0 else s.out1

/-- The packet that the process takes when it runs. -/
def taking (s : SwitchStep) : Option Flit :=
  match s.pc with
  | .loop => s.in0.readable.head? <|> s.in1.readable.head?
  | .middle => s.in1.readable.head?
  | _ => none

/-- The output that the packet goes to has a free place. -/
def hasRoom (s : SwitchStep) : Bool :=
  match s.taking with
  | some f => 0 < (s.outs (sideOf (nextPosition f.word))).numFree
  | none => true

/-- The packets that a run loses. -/
def lost (s : SwitchStep) : List Flit := if s.hasRoom then [] else s.taking.toList

theorem lost_eq_nil (s : SwitchStep) : s.lost = [] ↔ s.hasRoom = true := by
  unfold lost
  split
  next room => simp [room]
  next full =>
    unfold hasRoom at full ⊢
    cases taken : s.taking <;> simp_all

/-- A packet goes from an input to the output that its destination picks. -/
inductive Passes (s t : SwitchStep) : Prop
  | still (none : s.taking = none) (ins : ∀ j, t.ins j = s.ins j) (outs : ∀ b, t.outs b = s.outs b)
  | moves (j : Fin 2) (f : Flit) (rest : Fifo Flit) (taken : s.taking = some f)
      (read : (s.ins j).nbRead = some (f, rest))
      (ins : ∀ i, t.ins i = if i = j then rest else s.ins i)
      (outs : ∀ b, t.outs b = if b = sideOf (nextPosition f.word) then (s.outs b).nbWrite (moved f)
        else s.outs b)

private theorem outs_pass (s : SwitchStep) (f : Flit) (b : Fin 2) :
    (s.pass f).outs b = if b = sideOf (nextPosition f.word) then (s.outs b).nbWrite (moved f)
      else s.outs b := by
  obtain ⟨-, -, out⟩ := s.pass_spec f
  match b with
  | 0 | 1 => cases up : nextPosition f.word <;> simp [up] at out <;> simp [outs, sideOf, out]

private theorem head?_readable (f : Fifo Flit) : f.readable.head? = f.nbRead.map Prod.fst := by
  unfold Fifo.nbRead
  cases f.readable <;> rfl

/-- The packet of the second input is passed on, if there is one. -/
private theorem passes_second (s : SwitchStep) (taking : s.taking = s.in1.readable.head?) :
    Passes s s.second := by
  rw [head?_readable] at taking
  unfold second
  cases read : s.in1.nbRead with
  | none => exact .still (by rw [taking, read]; rfl) (fun _ => rfl) (fun _ => rfl)
  | some r =>
    obtain ⟨f, rest⟩ := r
    obtain ⟨in0, in1, -⟩ := { s with in1 := rest }.pass_spec f
    refine .moves 1 f rest (by rw [taking, read]; rfl) read (fun i => ?_)
      (outs_pass { s with in1 := rest } f)
    match i with
    | 0 | 1 => simp [ins, in0, in1]

theorem passes_run (s : SwitchStep) : Passes s s.run := by
  unfold run
  cases pc : s.pc with
  | start | init => exact .still (by simp [taking, pc]) (fun _ => rfl) (fun _ => rfl)
  | middle => exact s.passes_second (by simp [taking, pc])
  | loop =>
    cases read : s.in0.nbRead with
    | none =>
      -- nothing on the first input
      refine s.passes_second ?_
      simp [taking, pc, (Fifo.nbRead_eq_none_iff _).mp read]
    | some r =>
      obtain ⟨f, rest⟩ := r
      obtain ⟨in0, in1, -⟩ := { s with in0 := rest, pc := .loop }.pass_spec f
      refine .moves 0 f rest ?_ read (fun i => ?_) (outs_pass { s with in0 := rest, pc := .loop } f)
      · simp [taking, pc, head?_readable s.in0, read]
      · match i with
        | 0 | 1 => simp [ins, in0, in1]

/-- A run is one move in a network that has the inputs and outputs among its places. -/
theorem move_of_run (s : SwitchStep) (hold hold' : Place → List Flit) (sent : Flit → Flit)
    (inAt outAt : Fin 2 → Place) (apart : ∀ j b, inAt j ≠ outAt b)
    (inAt_inj : Function.Injective inAt) (outAt_inj : Function.Injective outAt)
    (next : ∀ j f, switchRoutes.next (inAt j) (sent f) = some (outAt (sideOf (nextPosition f.word))))
    (ins : ∀ j, hold (inAt j) = (s.ins j).contents.map sent)
    (ins' : ∀ j, hold' (inAt j) = (s.run.ins j).contents.map sent)
    (outs : ∀ b, hold (outAt b) = (s.outs b).contents.map (sent ∘ moved))
    (outs' : ∀ b, hold' (outAt b) = (s.run.outs b).contents.map (sent ∘ moved))
    (others : ∀ r, (∀ j, r ≠ inAt j) → (∀ b, r ≠ outAt b) → hold' r = hold r) :
    switchRoutes.Move hold hold' [] [] (s.lost.map sent) := by
  -- two queue assignments are equal if they agree at the switch and elsewhere
  have same {new : Place → List Flit} (atIns : ∀ j, hold' (inAt j) = new (inAt j))
      (atOuts : ∀ b, hold' (outAt b) = new (outAt b))
      (rest : ∀ r, (∀ j, r ≠ inAt j) → (∀ b, r ≠ outAt b) → hold r = new r) : hold' = new := by
    funext r
    by_cases atIn : ∃ j, r = inAt j
    · obtain ⟨j, rfl⟩ := atIn
      exact atIns j
    by_cases atOut : ∃ b, r = outAt b
    · obtain ⟨b, rfl⟩ := atOut
      exact atOuts b
    · simp only [not_exists] at atIn atOut
      rw [others r atIn atOut, rest r atIn atOut]
  cases s.passes_run with
  | still none insStay outsStay =>
    have lost : s.lost = [] := by simp [lost, none]
    have stay : hold' = hold := same (fun j => by rw [ins', insStay, ins])
      (fun b => by rw [outs', outsStay, outs]) fun _ _ _ => rfl
    rw [lost, stay]
    exact .still
  | moves j f rest taken read insMove outsMove =>
    have contents := (Fifo.contents_of_nbRead read).1
    have head : hold (inAt j) = sent f :: rest.contents.map sent := by rw [ins, contents]; rfl
    have atIns : ∀ i, hold' (inAt i) = if i = j then rest.contents.map sent else hold (inAt i) := by
      intro i
      rw [ins', insMove]
      split
      · rfl
      · rw [ins]
    have taken_in : ∀ i, hold' (inAt i) =
        Function.update hold (inAt j) (rest.contents.map sent) (inAt i) := by
      intro i
      rw [atIns]
      split
      next here => rw [here, Function.update_self]
      next other => rw [Function.update_of_ne fun same => other (inAt_inj same)]
    cases room : s.hasRoom with
    | true =>
      have free : 0 < (s.outs (sideOf (nextPosition f.word))).numFree := by
        simpa [hasRoom, taken] using room
      rw [(lost_eq_nil s).mpr room, List.map_nil]
      convert Routes.Move.hop (inAt j) _ (sent f) _ (apart j _) head (next j f)
      refine same (fun i => ?_) (fun b => ?_) fun r notIn notOut => ?_
      · rw [taken_in, Function.update_of_ne (apart i _)]
      · rw [outs', outsMove]
        split
        next here =>
          rw [here, Function.update_self, outs, Fifo.nbWrite, if_pos free, Fifo.push_contents]
          simp
        next other =>
          rw [Function.update_of_ne fun same => other (outAt_inj same),
            Function.update_of_ne (apart j b).symm, outs]
      · rw [Function.update_of_ne (notOut _), Function.update_of_ne (notIn _)]
    | false =>
      -- the result of `nb_write` is not looked at
      have full : ¬ 0 < (s.outs (sideOf (nextPosition f.word))).numFree := by
        simpa [hasRoom, taken] using room
      have lost : s.lost.map sent = [sent f] := by simp [lost, room, taken]
      rw [lost]
      convert Routes.Move.lose (inAt j) (sent f) _ head
      refine same taken_in (fun b => ?_) fun r notIn notOut => ?_
      · rw [Function.update_of_ne (apart j b).symm, outs', outsMove, outs]
        split
        next here => rw [here, Fifo.nbWrite, if_neg full]
        next other => rfl
      · rw [Function.update_of_ne (notIn _)]

end SwitchStep

/-! ### The two stages -/

namespace Switch

variable (w : Switch)

/-- What the switch process `k` reads and writes. -/
def stepOf (w : Switch) : Fin 4 → SwitchStep
  | 0 => ⟨w.inFifo 0, w.inFifo 1, w.outFifoS 0 0, w.outFifoS 0 1, w.pc 0⟩
  | 1 => ⟨w.inFifo 2, w.inFifo 3, w.outFifoS 1 0, w.outFifoS 1 1, w.pc 1⟩
  | 2 => ⟨w.outFifoS 0 0, w.outFifoS 1 0, w.outFifo 0, w.outFifo 1, w.pc 2⟩
  | 3 => ⟨w.outFifoS 0 1, w.outFifoS 1 1, w.outFifo 2, w.outFifo 3, w.pc 3⟩

/-- A packet that process `k` takes, as it was sent. -/
def sentOf (k : Fin 4) (f : Flit) : Flit := if k < 2 then f else SwitchStep.moved f

theorem move_firstStage (k : Fin 4) (a : Fin 2) (p q : Port) (apart : p ≠ q)
    (wired : stageOf p = a ∧ stageOf q = a) :
    switchRoutes.Move w.hold (w.firstStage k a p q).hold [] []
      (SwitchStep.lost ⟨w.inFifo p, w.inFifo q, w.outFifoS a 0, w.outFifoS a 1, w.pc k⟩) := by
  rw [← List.map_id (SwitchStep.lost _)]
  apply SwitchStep.move_of_run _ w.hold _ id (fun j => .inFifo (if j = 0 then p else q)) (.stage a)
  case apart => intro j b; simp
  case inAt_inj =>
    intro i j same
    fin_cases i <;> fin_cases j
    · rfl
    · simp [apart] at same
    · simp [apart.symm] at same
    · rfl
  case outAt_inj => intro b c same; simpa using same
  case next =>
    intro j f
    match j with
    | 0 => simp [switchRoutes, wired.1]
    | 1 => simp [switchRoutes, wired.2]
  case ins =>
    refine Fin.forall_fin_two.mpr ⟨?_, ?_⟩
    · simp [hold, SwitchStep.ins]
    · simp [hold, SwitchStep.ins]
  case outs =>
    refine Fin.forall_fin_two.mpr ⟨?_, ?_⟩
    · simp [hold, SwitchStep.outs]
    · simp [hold, SwitchStep.outs]
  case ins' =>
    refine Fin.forall_fin_two.mpr ⟨?_, ?_⟩
    · simp [hold, SwitchStep.ins, firstStage, apart]
    · simp [hold, SwitchStep.ins, firstStage]
  case outs' =>
    refine Fin.forall_fin_two.mpr ⟨?_, ?_⟩
    · simp [hold, SwitchStep.outs, firstStage]
    · simp [hold, SwitchStep.outs, firstStage]
  case others =>
    intro r notIn notOut
    cases r with
    | inFifo i =>
      have notP : i ≠ p := by simpa using notIn 0
      have notQ : i ≠ q := by simpa using notIn 1
      simp [hold, firstStage, notP, notQ]
    | stage c b =>
      have other : c ≠ a := by
        rintro rfl
        exact notOut b rfl
      simp [hold, firstStage, other]
    | outFifo k => rfl

theorem move_secondStage (k : Fin 4) (b : Fin 2) (p q : Port) (apart : p ≠ q)
    (wired : exitOf b false = p ∧ exitOf b true = q) :
    switchRoutes.Move w.hold (w.secondStage k b p q).hold [] []
      ((SwitchStep.lost ⟨w.outFifoS 0 b, w.outFifoS 1 b, w.outFifo p, w.outFifo q, w.pc k⟩).map
        SwitchStep.moved) := by
  apply SwitchStep.move_of_run _ w.hold _ SwitchStep.moved (fun a => .stage a b)
    (fun c => .outFifo (if c = 0 then p else q))
  case apart => intro j b; simp
  case inAt_inj => intro b c same; simpa using same
  case outAt_inj =>
    intro i j same
    fin_cases i <;> fin_cases j
    · rfl
    · simp [apart] at same
    · simp [apart.symm] at same
    · rfl
  case next =>
    intro j f
    cases up : nextPosition f.word with
    | false => simp [switchRoutes, SwitchStep.moved, rotateDest_rotateDest, sideOf, up, wired.1]
    | true => simp [switchRoutes, SwitchStep.moved, rotateDest_rotateDest, sideOf, up, wired.2]
  case ins =>
    refine Fin.forall_fin_two.mpr ⟨?_, ?_⟩
    · simp [hold, SwitchStep.ins]
    · simp [hold, SwitchStep.ins]
  case outs =>
    refine Fin.forall_fin_two.mpr ⟨?_, ?_⟩
    · simp [hold, SwitchStep.outs]
    · simp [hold, SwitchStep.outs]
  case ins' =>
    refine Fin.forall_fin_two.mpr ⟨?_, ?_⟩
    · simp [hold, SwitchStep.ins, secondStage]
    · simp [hold, SwitchStep.ins, secondStage]
  case outs' =>
    refine Fin.forall_fin_two.mpr ⟨?_, ?_⟩
    · simp [hold, SwitchStep.outs, secondStage, apart]
    · simp [hold, SwitchStep.outs, secondStage]
  case others =>
    intro r notIn notOut
    cases r with
    | inFifo i => rfl
    | stage c d =>
      have other : d ≠ b := by
        rintro rfl
        exact notIn c rfl
      simp [hold, secondStage, other]
    | outFifo k =>
      have notP : k ≠ p := by simpa using notOut 0
      have notQ : k ≠ q := by simpa using notOut 1
      simp [hold, secondStage, notP, notQ]

/-- A switch takes nothing from its outputs. -/
theorem readOff_secondStage (k : Fin 4) (b : Fin 2) (p q j : Port) :
    (w.outFifo j).readOff ((w.secondStage k b p q).outFifo j) = [] := by
  have outs : ∀ (s : SwitchStep) (c : Fin 2), (s.outs c).readOff (s.run.outs c) = [] := by
    intro s c
    cases s.passes_run with
    | still none ins outs => rw [outs, Fifo.readOff_self]
    | moves j f rest taken read ins outs =>
      rw [outs]
      split <;> simp
  simp only [secondStage]
  by_cases atQ : j = q
  · subst atQ
    rw [Function.update_self]
    exact outs ⟨w.outFifoS 0 b, w.outFifoS 1 b, w.outFifo p, w.outFifo j, w.pc k⟩ 1
  by_cases atP : j = p
  · subst atP
    rw [Function.update_of_ne atQ, Function.update_self]
    exact outs ⟨w.outFifoS 0 b, w.outFifoS 1 b, w.outFifo j, w.outFifo q, w.pc k⟩ 0
  · rw [Function.update_of_ne atQ, Function.update_of_ne atP, Fifo.readOff_self]

end Switch

/-! ### The other processes at the switch -/

/-- At most one packet is added to `in_fifo_i`. -/
theorem IngressStep.run_inFifo (i : Port) (source : BitVec 2) (fw : Triple) (responceS : Word)
    (s : IngressStep) : (run i source fw responceS s).inFifo = s.inFifo ∨
      ∃ f, (run i source fw responceS s).inFifo = s.inFifo.push f ∧
        (f.origin.port = i ∨ s.ingress.pc = .writeForward f) := by
  have hit : ∀ t : IngressStep, t.writeHit.inFifo = t.inFifo := fun t => t.writeHit_flits.1
  have forward : ∀ (t : IngressStep) (f : Flit), (t.writeForward f).inFifo = t.inFifo ∨
      (t.writeForward f).inFifo = t.inFifo.push f := by
    intro t f
    unfold writeForward
    split
    · exact Or.inr rfl
    · exact Or.inl rfl
  have spec := run_spec i source fw responceS s
  generalize run i source fw responceS s = t at spec ⊢
  cases spec with
  | reset | init | wait1 | latch | idle | repeated | hit | drop => exact Or.inl rfl
  | hitRead | resumeHit => exact Or.inl (hit _)
  | forward w => exact Or.inr ⟨s.flit i source w, rfl, Or.inl rfl⟩
  | forwardRead w rest =>
    rcases forward ((s.take rest w .forwarded).count w) (s.flit i source w) with same | more
    · exact Or.inl same
    · exact Or.inr ⟨s.flit i source w, more, Or.inl rfl⟩
  | resumeForward f pc =>
    rcases forward s f with same | more
    · exact Or.inl same
    · exact Or.inr ⟨f, more, Or.inr pc⟩

/-- At most one packet is taken out of `out_fifo_k`. -/
theorem EgressStep.run_outFifo (base : Word) (s : EgressStep) :
    (run base s).outFifo = s.outFifo ∨
      ∃ f rest, s.outFifo.nbRead = some (f, rest) ∧ (run base s).outFifo = rest := by
  have spec := run_spec base s
  generalize run base s = t at spec ⊢
  cases spec with
  | start | init | rest | lower => exact Or.inl rfl
  | read f rest cell pc free read =>
    exact Or.inr ⟨f, rest, read, (writeResponce_flits _ _).2.2.1⟩
  | write f rest pc free read => exact Or.inr ⟨f, rest, read, rfl⟩
  | resume f => exact Or.inl (writeResponce_flits _ _).2.2.1

/-! ### Packets from elsewhere -/

namespace Device

/-- A word is written to `in_fifo_s` by the surroundings. -/
def feed (d : Device) (s : Port) (w : Word) : Device :=
  { d with
    switch.inFifo := Function.update d.switch.inFifo s
      ((d.switch.inFifo s).push ⟨w, ⟨s, 0, w, ⟨0, 0, 0⟩⟩⟩)
    dirty := true }

/-- As the `interface_in` processes do, the surroundings look for a free place first. -/
def fedStep (d : Device) : (Action ⊕ (Port × Word)) ⊕ (Port × Word) → Option Device
  | .inl a => d.openStep a
  | .inr (s, w) => if 0 < (d.switch.inFifo s).numFree then some (d.feed s w) else none

def fedMachine : Machine Device ((Action ⊕ (Port × Word)) ⊕ (Port × Word)) := ⟨new, fedStep⟩

inductive FedTransition (d : Device) : (Action ⊕ (Port × Word)) ⊕ (Port × Word) → Device → Prop
  | own (a : Action ⊕ (Port × Word)) (e : Device) (step : openMachine.step d a = some e) :
      FedTransition d (.inl a) e
  | feed (s : Port) (w : Word) (free : 0 < (d.switch.inFifo s).numFree) :
      FedTransition d (.inr (s, w)) (d.feed s w)

theorem fedTransition_of_step {d e : Device} {a : (Action ⊕ (Port × Word)) ⊕ (Port × Word)}
    (h : fedMachine.step d a = some e) : FedTransition d a e := by
  rcases a with a | ⟨s, w⟩
  · exact .own a e h
  · simp only [fedMachine, fedStep] at h
    split at h
    next free => cases h; exact .feed s w free
    next => cases h

/-! ### What is seen of the switch -/

/-- The packets that a step writes to `in_fifo_s`. -/
def fed (s : Port) (d : Device) (_ : (Action ⊕ (Port × Word)) ⊕ (Port × Word)) (e : Device) :
    List Flit :=
  (d.switch.inFifo s).writtenSince (e.switch.inFifo s)

/-- The packets that a step takes from `out_fifo_k`. -/
def taken (k : Port) (d : Device) (_ : (Action ⊕ (Port × Word)) ⊕ (Port × Word)) (e : Device) :
    List Flit :=
  (d.switch.outFifo k).readOff (e.switch.outFifo k)

/-- If a switch process runs next, the packet it takes finds a free place. -/
def HasRoom (d : Device) (a : (Action ⊕ (Port × Word)) ⊕ (Port × Word)) : Prop :=
  ∀ k, a = .inl (.inl (.run (.entrySw k))) → (d.switch.stepOf k).hasRoom = true

instance (d : Device) (a : (Action ⊕ (Port × Word)) ⊕ (Port × Word)) : Decidable (d.HasRoom a) := by
  unfold HasRoom
  infer_instance

/-- What a step does to the switch: at most one packet moves, and what is seen of the step
are the packets that come in and go out. -/
structure SwitchMove (d e : Device) (a : (Action ⊕ (Port × Word)) ⊕ (Port × Word))
    (more out gone : List Flit) : Prop where
  move : switchRoutes.Move d.switch.hold e.switch.hold more out gone
  written : ∀ s, fed s d a e = more.filter fun f => f.origin.port = s
  taken : ∀ k, taken k d a e = out.filter fun f => portOf (dest f.word) = k
  room : gone = [] ↔ d.HasRoom a

/-- The packet that a process is blocked with is one of its own port. -/
def OwnForwarding (d : Device) : Prop :=
  ∀ i f, (d.ingress i).pc = .writeForward f → f.origin.port = i

/-- A packet is at the output that it is sent to. -/
def AtDest (d : Device) : Prop :=
  ∀ k, ∀ f ∈ (d.switch.outFifo k).contents, portOf (dest f.word) = k

variable {d e : Device} {a : (Action ⊕ (Port × Word)) ⊕ (Port × Word)}

theorem switchMove_still (inFifo : ∀ s, (d.switch.inFifo s).writtenSince (e.switch.inFifo s) = [])
    (outFifo : ∀ k, (d.switch.outFifo k).readOff (e.switch.outFifo k) = [])
    (hold : e.switch.hold = d.switch.hold) (room : d.HasRoom a) :
    SwitchMove d e a [] [] [] := by
  constructor
  · rw [hold]
    exact .still
  · exact inFifo
  · exact outFifo
  · simp [room]

theorem switchMove_enter {s : Port} {f : Flit} (port : f.origin.port = s)
    (switch : e.switch = { d.switch with
      inFifo := Function.update d.switch.inFifo s ((d.switch.inFifo s).push f) })
    (room : d.HasRoom a) : SwitchMove d e a [f] [] [] := by
  have hold : e.switch.hold = Function.update d.switch.hold (switchRoutes.entry f)
      (d.switch.hold (switchRoutes.entry f) ++ [f]) := by
    funext r
    rw [switch]
    cases r with
    | inFifo i =>
      by_cases here : i = s
      · subst here
        simp [Switch.hold, switchRoutes, port]
      · simp [Switch.hold, switchRoutes, port, here]
    | stage | outFifo => rfl
  constructor
  · rw [hold]
    exact .enter f
  · intro i
    by_cases here : i = s
    · subst here
      simp [fed, switch, port]
    · simp [fed, switch, port, here, Ne.symm here]
  · intro k
    simp [taken, switch]
  · simp [room]

theorem switchMove_leave {k : Port} {f : Flit} {rest : Fifo Flit}
    (read : (d.switch.outFifo k).nbRead = some (f, rest)) (there : portOf (dest f.word) = k)
    (switch : e.switch = { d.switch with outFifo := Function.update d.switch.outFifo k rest })
    (room : d.HasRoom a) : SwitchMove d e a [] [f] [] := by
  have contents := (Fifo.contents_of_nbRead read).1
  have hold : e.switch.hold = Function.update d.switch.hold (Place.outFifo k) rest.contents := by
    funext r
    rw [switch]
    cases r with
    | outFifo j =>
      by_cases here : j = k
      · subst here
        simp [Switch.hold]
      · simp [Switch.hold, here]
    | inFifo | stage => rfl
  constructor
  · rw [hold]
    exact .leave (Place.outFifo k) f rest.contents contents rfl
  · intro s
    simp [fed, switch]
  · intro j
    by_cases here : j = k
    · subst here
      simp [taken, switch, there, Fifo.readOff_of_nbRead read]
    · simp [taken, switch, there, here, Ne.symm here]
  · simp [room]

/-- A switch writes nothing to its inputs and takes nothing from its outputs. -/
theorem switchMove_entrySw (d : Device) (k : Fin 4) :
    SwitchMove d (d.exec (.entrySw k)) (.inl (.inl (.run (.entrySw k)))) [] []
      ((d.switch.stepOf k).lost.map (Switch.sentOf k)) := by
  constructor
  case move =>
    match k with
    | 0 =>
      have plain : Switch.sentOf 0 = id := rfl
      rw [plain, List.map_id]
      exact d.switch.move_firstStage 0 0 0 1 (by decide) (by decide)
    | 1 =>
      have plain : Switch.sentOf 1 = id := rfl
      rw [plain, List.map_id]
      exact d.switch.move_firstStage 1 1 2 3 (by decide) (by decide)
    | 2 => exact d.switch.move_secondStage 2 0 0 1 (by decide) (by decide)
    | 3 => exact d.switch.move_secondStage 3 1 2 3 (by decide) (by decide)
  case written =>
    intro s
    match k with
    | 0 | 1 => exact Switch.writtenSince_firstStage ..
    | 2 | 3 => exact Fifo.writtenSince_self _
  case taken =>
    intro j
    match k with
    | 0 | 1 => exact Fifo.readOff_self _
    | 2 | 3 => exact Switch.readOff_secondStage ..
  case room =>
    rw [List.map_eq_nil_iff, SwitchStep.lost_eq_nil]
    constructor
    · intro room j same
      cases same
      exact room
    · exact fun room => room k rfl

theorem switchMove_run (own : d.OwnForwarding) (there : d.AtDest) (q : Proc) :
    ∃ more out gone, SwitchMove d (d.exec q) (.inl (.inl (.run q))) more out gone := by
  have room : (∀ k, q ≠ .entrySw k) → d.HasRoom (.inl (.inl (.run q))) := by
    rintro other k same
    cases same
    exact absurd rfl (other k)
  by_cases switch : ∃ k, q = .entrySw k
  · obtain ⟨k, rfl⟩ := switch
    exact ⟨[], [], _, d.switchMove_entrySw k⟩
  simp only [not_exists] at switch
  by_cases ingress : ∃ i, q = .interfaceIn i
  · obtain ⟨i, rfl⟩ := ingress
    rcases IngressStep.run_inFifo i (portBits i) (d.setup i).fwRange (d.responces.responceS i).cur
      ⟨d.ingress i, d.switch.inFifo i, d.responces.initResponceFifo i, false⟩ with
      same | ⟨f, push, port⟩
    · -- no packet for the switch
      have stay : (d.exec (.interfaceIn i)).switch = d.switch := by
        simp [exec, interfaceIn, same]
      exact ⟨[], [], [], switchMove_still (by simp [stay]) (by simp [stay]) (by rw [stay])
        (room switch)⟩
    · refine ⟨[f], [], [], switchMove_enter (port.elim id (own i f)) ?_ (room switch)⟩
      simp [exec, interfaceIn, push]
  by_cases egress : ∃ k, q = .interfaceOut k
  · obtain ⟨k, rfl⟩ := egress
    rcases EgressStep.run_outFifo (memBase k)
      ⟨d.egress k, d.switch.outFifo k, d.responces.responceFifo k, d.mem k, false⟩ with
      same | ⟨f, rest, read, gone⟩
    · have stay : (d.exec (.interfaceOut k)).switch = d.switch := by
        simp [exec, interfaceOut, same]
      exact ⟨[], [], [], switchMove_still (by simp [stay]) (by simp [stay]) (by rw [stay])
        (room switch)⟩
    · have first : f ∈ (d.switch.outFifo k).contents :=
        (Fifo.contents_of_nbRead read).1 ▸ List.mem_cons_self ..
      refine ⟨[], [f], [], switchMove_leave read (there k f first) ?_ (room switch)⟩
      simp [exec, interfaceOut, gone]
  · simp only [not_exists] at ingress egress
    have stay : (d.exec q).switch = d.switch := d.process_switch ingress egress switch
    exact ⟨[], [], [], switchMove_still (by simp [stay]) (by simp [stay]) (by rw [stay])
      (room switch)⟩

theorem switchMove_of_step (own : d.OwnForwarding) (there : d.AtDest)
    (h : fedMachine.step d a = some e) : ∃ more out gone, SwitchMove d e a more out gone := by
  cases fedTransition_of_step h with
  | feed s w free =>
    have room : d.HasRoom (.inr (s, w)) := fun _ same => by cases same
    exact ⟨_, [], [], switchMove_enter (f := ⟨w, ⟨s, 0, w, ⟨0, 0, 0⟩⟩⟩) rfl rfl room⟩
  | own a e step =>
    rcases a with a | ⟨i, w⟩
    · cases move_of_step step with
      | run q runnable => exact switchMove_run own there q
      | request t idle =>
        exact ⟨[], [], [], switchMove_still (by simp [request]) (by simp [request]) rfl
          fun _ same => by cases same⟩
      | edge quiescent clean =>
        exact ⟨[], [], [], switchMove_still (by simp [edge]) (by simp [edge]) rfl
          fun _ same => by cases same⟩
      | delta quiescent dirty =>
        refine ⟨[], [], [], switchMove_still (by simp [update]) (by simp [update]) ?_
          fun _ same => by cases same⟩
        funext r
        cases r <;> simp [Switch.hold, update]
    · simp only [openMachine, openStep] at step
      split at step
      next =>
        cases step
        exact ⟨[], [], [], switchMove_still (by simp [arrive]) (by simp [arrive]) rfl
          fun _ same => by cases same⟩
      next => cases step

end Device

end ScCosim.Firewall
