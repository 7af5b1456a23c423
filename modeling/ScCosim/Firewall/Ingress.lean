import ScCosim.Firewall.Ports

/-!
# What one run of `interface_in` can do

`Run` lists the branches of the process with what leads to each. The lemmas after it say
what the pieces leave alone.
-/
namespace ScCosim.Firewall

open Kernel

namespace IngressStep

variable {i : Port} {source : BitVec 2} {fw : Triple} {responceS : Word}

/-- One run from `s`, branch by branch. -/
inductive Run (i : Port) (source : BitVec 2) (fw : Triple) (responceS : Word) (s : IngressStep) :
    IngressStep → Prop
  | reset (pc : s.ingress.pc = .start) : Run i source fw responceS s s.reset
  | init (pc : s.ingress.pc = .init) :
      Run i source fw responceS s { s with ingress := { s.ingress with pc := .loop } }
  | latch (pc : s.ingress.pc = .loop) (new : fw.r ≠ s.ingress.preReadR) :
      Run i source fw responceS s (s.latch fw)
  | idle (pc : s.ingress.pc = .loop) (seen : fw.r = s.ingress.preReadR)
      (read : s.ingress.in_.nbRead = none) : Run i source fw responceS s s
  | repeated (w : Word) (rest : Fifo Word) (pc : s.ingress.pc = .loop)
      (seen : fw.r = s.ingress.preReadR) (read : s.ingress.in_.nbRead = some (w, rest))
      (same : w = s.ingress.preval) : Run i source fw responceS s (s.take rest w .repeated)
  | hit (w : Word) (rest : Fifo Word) (pc : s.ingress.pc = .loop)
      (seen : fw.r = s.ingress.preReadR) (read : s.ingress.in_.nbRead = some (w, rest))
      (hit : fwHit s.ingress.fwRead w = true) (op : opcode w ≠ 1) :
      Run i source fw responceS s ((s.take rest w .hit).count w).finishHit
  | hitRead (w : Word) (rest : Fifo Word) (pc : s.ingress.pc = .loop)
      (seen : fw.r = s.ingress.preReadR) (read : s.ingress.in_.nbRead = some (w, rest))
      (hit : fwHit s.ingress.fwRead w = true) (op : opcode w = 1) :
      Run i source fw responceS s ((s.take rest w .hit).count w).writeHit
  | drop (w : Word) (rest : Fifo Word) (pc : s.ingress.pc = .loop)
      (seen : fw.r = s.ingress.preReadR) (read : s.ingress.in_.nbRead = some (w, rest))
      (miss : fwHit s.ingress.fwRead w = false) :
      Run i source fw responceS s ((s.take rest w .droped).count w).drop
  | forward (w : Word) (rest : Fifo Word) (pc : s.ingress.pc = .loop)
      (seen : fw.r = s.ingress.preReadR) (read : s.ingress.in_.nbRead = some (w, rest))
      (miss : fwHit s.ingress.fwRead w = false) (op : opcode w ≠ 1)
      (free : 0 < s.inFifo.numFree) :
      Run i source fw responceS s
        (((s.take rest w .forwarded).count w).forward (s.flit i source w))
  | forwardRead (w : Word) (rest : Fifo Word) (pc : s.ingress.pc = .loop)
      (seen : fw.r = s.ingress.preReadR) (read : s.ingress.in_.nbRead = some (w, rest))
      (miss : fwHit s.ingress.fwRead w = false) (op : opcode w = 1)
      (answered : pending responceS = false) (free : 0 < s.inFifo.numFree) :
      Run i source fw responceS s
        (((s.take rest w .forwarded).count w).writeForward (s.flit i source w))
  | wait1 (pc : s.ingress.pc = .wait1) :
      Run i source fw responceS s { s with ingress := { s.ingress with pc := .loop } }
  | resumeHit (pc : s.ingress.pc = .writeHit) : Run i source fw responceS s s.writeHit
  | resumeForward (f : Flit) (pc : s.ingress.pc = .writeForward f) :
      Run i source fw responceS s (s.writeForward f)

theorem run_spec (i : Port) (source : BitVec 2) (fw : Triple) (responceS : Word)
    (s : IngressStep) : Run i source fw responceS s (run i source fw responceS s) := by
  unfold run
  cases pc : s.ingress.pc with
  | start => exact .reset pc
  | init => exact .init pc
  | wait1 => exact .wait1 pc
  | writeHit => exact .resumeHit pc
  | writeForward f => exact .resumeForward f pc
  | loop =>
    simp only
    split
    next new => exact .latch pc new
    next seen =>
      have seen : fw.r = s.ingress.preReadR := by simpa using seen
      -- the rule value is known: a word is taken if there is one
      cases read : s.ingress.in_.nbRead with
      | none => exact .idle pc seen read
      | some r =>
        obtain ⟨w, rest⟩ := r
        simp only [judge]
        split
        next same => exact .repeated w rest pc seen read same
        next =>
        split
        next hit =>
          split
          next op => exact .hitRead w rest pc seen read hit op
          next op => exact .hit w rest pc seen read hit op
        next miss =>
        have miss : fwHit s.ingress.fwRead w = false := by simpa using miss
        split
        -- a read while an answer is outstanding is dropped
        next => exact .drop w rest pc seen read miss
        next clear =>
        split
        next free =>
          split
          next op =>
            have answered : pending responceS = false := by simpa [op] using clear
            exact .forwardRead w rest pc seen read miss op answered free
          next op => exact .forward w rest pc seen read miss op free
        -- no room in the switch
        next => exact .drop w rest pc seen read miss

/-! ### What the pieces leave alone -/

variable (s : IngressStep) (f : Flit) (w : Word)

/-- `writeHit`, `writeForward` and the ends touch neither `in_i` nor the latch nor the record
of words taken. -/
structure Keeps (g g' : Ingress) : Prop where
  in_ : g'.in_ = g.in_
  fwRead : g'.fwRead = g.fwRead
  preReadR : g'.preReadR = g.preReadR
  taken : g'.taken = g.taken

theorem keeps_writeHit : Keeps s.ingress s.writeHit.ingress := by
  unfold writeHit
  split <;> exact ⟨rfl, rfl, rfl, rfl⟩

theorem keeps_writeForward : Keeps s.ingress (s.writeForward f).ingress := by
  unfold writeForward
  split <;> exact ⟨rfl, rfl, rfl, rfl⟩

/-- What a run does to the latch and to the record of words taken. -/
inductive Latching (fw : Triple) (g g' : Ingress) : Prop
  | reset (pc : g.pc = .start) (fwRead : g'.fwRead = ⟨0, 0, 0⟩) (preReadR : g'.preReadR = 0)
      (in_ : g'.in_ = g.in_) (taken : g'.taken = g.taken)
  | latch (pc : g.pc = .loop) (new : fw.r ≠ g.preReadR)
      (result : g' = { g with preReadR := fw.r, fwRead := fw })
  | take (w : Word) (rest : Fifo Word) (outcome : Outcome) (seen : fw.r = g.preReadR)
      (read : g.in_.nbRead = some (w, rest))
      (passed : outcome = .forwarded → fwHit g.fwRead w = false)
      (fwRead : g'.fwRead = g.fwRead) (preReadR : g'.preReadR = g.preReadR)
      (in_ : g'.in_ = rest) (taken : g'.taken = g.taken ++ [⟨w, g.fwRead, outcome⟩])
  | stay (pc : g.pc = .loop → g'.pc = .loop ∧ fw.r = g.preReadR) (keeps : Keeps g g')

theorem latching_run (i : Port) (source : BitVec 2) (fw : Triple) (responceS : Word)
    (s : IngressStep) : Latching fw s.ingress (run i source fw responceS s).ingress := by
  have spec := run_spec i source fw responceS s
  generalize run i source fw responceS s = t at spec ⊢
  cases spec with
  | reset pc => exact .reset pc rfl rfl rfl rfl
  -- the process goes on to the top of its loop
  | init pc | wait1 pc => exact .stay (by simp [pc]) ⟨rfl, rfl, rfl, rfl⟩
  | latch pc new => exact .latch pc new rfl
  | idle pc seen => exact .stay (fun _ => ⟨pc, seen⟩) ⟨rfl, rfl, rfl, rfl⟩
  | repeated w rest pc seen read =>
    exact .take w rest .repeated seen read (by simp) rfl rfl rfl rfl
  | hit w rest pc seen read => exact .take w rest .hit seen read (by simp) rfl rfl rfl rfl
  | hitRead w rest pc seen read =>
    have keeps := ((s.take rest w .hit).count w).keeps_writeHit
    exact .take w rest .hit seen read (by simp) keeps.fwRead keeps.preReadR keeps.in_ keeps.taken
  | drop w rest pc seen read => exact .take w rest .droped seen read (by simp) rfl rfl rfl rfl
  | forward w rest pc seen read miss =>
    exact .take w rest .forwarded seen read (fun _ => miss) rfl rfl rfl rfl
  | forwardRead w rest pc seen read miss =>
    have keeps := ((s.take rest w .forwarded).count w).keeps_writeForward (s.flit i source w)
    exact .take w rest .forwarded seen read (fun _ => miss) keeps.fwRead keeps.preReadR keeps.in_
      keeps.taken
  | resumeHit pc => exact .stay (by simp [pc]) s.keeps_writeHit
  | resumeForward f pc => exact .stay (by simp [pc]) (s.keeps_writeForward f)

/-- No run leads back to the part before the first `wait()`. -/
theorem run_pc_ne_start (i : Port) (source : BitVec 2) (fw : Triple) (responceS : Word)
    (s : IngressStep) : (run i source fw responceS s).ingress.pc ≠ .start := by
  have hit : ∀ t : IngressStep, t.writeHit.ingress.pc ≠ .start := by
    intro t
    unfold writeHit
    split <;> simp [finishHit]
  have forward : ∀ (t : IngressStep) (f : Flit), (t.writeForward f).ingress.pc ≠ .start := by
    intro t f
    unfold writeForward
    split <;> simp [IngressStep.forward]
  have spec := run_spec i source fw responceS s
  generalize run i source fw responceS s = t at spec ⊢
  cases spec with
  | reset | init | wait1 | hit | drop | forward => simp [reset, finishHit, drop, IngressStep.forward]
  | latch pc | idle pc | repeated w rest pc => simp [latch, take, pc]
  | hitRead => exact hit _
  | forwardRead => exact forward _ _
  | resumeHit => exact hit _
  | resumeForward f => exact forward _ f

end IngressStep

end ScCosim.Firewall
