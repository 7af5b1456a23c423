import ScCosim.Firewall.Phases

/-!
# From the write thread into the switch

A word that differs from the one before it at its port is counted, and then denied, dropped
or passed on. It waits only while its process starts, or latches a rule that has just been
set up: no rule is set up while the word is on its way, so that comes to an end.
-/
namespace ScCosim.Firewall

open Kernel Async

/-! ### One run with a new word -/

/-- How many runs the process still makes before it looks at a word, with one to spare before
its reset. -/
def IngressPc.runs : IngressPc → Nat
  | .start => 3
  | .init | .wait1 => 1
  | .loop | .writeHit | .writeForward _ => 0

/-- One if the values differ. -/
def differ (a b : Word) : Nat := if a = b then 0 else 1

theorem differ_le_one (a b : Word) : differ a b ≤ 1 := by
  unfold differ
  split <;> simp

theorem differ_triangle (a b c : Word) : differ a c ≤ differ a b + differ b c := by
  unfold differ
  split <;> split <;> split <;> simp_all

@[simp] theorem differ_self (a : Word) : differ a a = 0 := if_pos rfl

theorem differ_of_ne {a b : Word} (h : a ≠ b) : differ a b = 1 := if_neg h

/-- The same, with the latch of a rule value that it has not seen. -/
def Ingress.runs (g : Ingress) (r : Word) : Nat := g.pc.runs + differ r g.preReadR

/-- What a run does with a new word: it acknowledges it, blocks with it, passes it on, or has
not come to it yet. -/
inductive Judges (r : Word) (s t : IngressStep) : Prop
  | acknowledged (notify : t.notify = true)
  | blocked (load : t.ingress.pc.load = 1)
  | passed (f : Flit) (push : t.inFifo = s.inFifo.push f)
  | later (in_ : t.ingress.in_ = s.ingress.in_) (preval : t.ingress.preval = s.ingress.preval)
      (runs : t.ingress.runs r ≤ s.ingress.runs r)
      (fewer : s.ingress.in_.written = [] → t.ingress.runs r < s.ingress.runs r)

theorem IngressStep.judges_run (i : Port) (source : BitVec 2) (fw : Triple) (responceS : Word)
    (s : IngressStep) {w : Word} (word : s.ingress.in_.contents = [w]) (new : w ≠ s.ingress.preval)
    (start : s.ingress.pc = .start → s.ingress.preval = 0) (free : s.ingress.pc.load = 0) :
    Judges fw.r s (run i source fw responceS s) := by
  have hit : ∀ t : IngressStep, Judges fw.r s t.writeHit := by
    intro t
    unfold writeHit
    split
    · exact .acknowledged rfl
    · exact .blocked rfl
  have forward : ∀ (t : IngressStep) (f : Flit), t.inFifo = s.inFifo →
      Judges fw.r s (t.writeForward f) := by
    intro t f same
    unfold writeForward
    split
    · exact .passed f (by rw [IngressStep.forward, ← same])
    · exact .blocked rfl
  have spec := run_spec i source fw responceS s
  generalize run i source fw responceS s = t at spec ⊢
  cases spec with
  | reset pc =>
    have once := differ_le_one fw.r 0
    refine .later rfl (start pc).symm ?_ fun _ => ?_ <;>
      simp only [reset, Ingress.runs, pc, IngressPc.runs] <;> omega
  | init pc | wait1 pc =>
    refine .later rfl rfl ?_ fun _ => ?_ <;> simp only [Ingress.runs, pc, IngressPc.runs] <;> omega
  | latch pc unseen =>
    refine .later rfl rfl ?_ fun _ => ?_ <;>
      simp [latch, Ingress.runs, pc, IngressPc.runs, differ_of_ne unseen]
  | idle pc seen read =>
    -- the word has been written and not yet been shown
    refine .later rfl rfl (le_refl _) fun shown => ?_
    rw [Fifo.contents, (Fifo.nbRead_eq_none_iff _).mp read, shown] at word
    cases word
  | repeated v rest pc seen read same =>
    have head := (Fifo.contents_of_nbRead read).1
    rw [word] at head
    exact absurd ((List.cons.inj head).1.trans same) new
  | hit v rest => exact .acknowledged rfl
  | hitRead v rest => exact hit _
  | drop v rest => exact .acknowledged rfl
  | forward v rest => exact .passed _ rfl
  | forwardRead v rest => exact forward _ _ rfl
  | resumeHit pc => simp [pc, IngressPc.load] at free
  | resumeForward f pc => simp [pc, IngressPc.load] at free

/-- How many rule values the reset of `setupfw_rule` can make differ. -/
def ThreadPc.sends : ThreadPc → Nat
  | .start => 2
  | .init | .loop => 0

namespace Device

variable {d e : Device} {i : Port} {w : Word}

/-! ### Before the first wait -/

/-- The part before the first `wait()` sets `preval` to what it is. -/
theorem preval_of_start (h : machine.Reachable d) (i : Port) (start : (d.ingress i).pc = .start) :
    (d.ingress i).preval = 0 := by
  refine h.invariant (I := fun d => (d.ingress i).pc = .start → (d.ingress i).preval = 0)
    (fun _ => rfl) ?_ start
  intro d a e before hs
  cases move_of_step hs with
  | request | delta | edge => exact before
  | run q runnable =>
    change ((d.process q).ingress i).pc = .start → ((d.process q).ingress i).preval = 0
    by_cases own : q = .interfaceIn i
    · subst own
      intro start
      rw [process_interfaceIn] at start
      simp only [interfaceIn, Function.update_self] at start
      exact absurd start (IngressStep.run_pc_ne_start _ _ _ _ _)
    by_cases write : q = .executeWriteThread
    · subst write
      obtain ⟨_, fifo, _, _, ingress, _⟩ := d.executeWriteThread_port i
      rw [process, ingress]
      exact before
    · rw [d.process_ingress own write]
      exact before

/-- Setting up a rule ends the write that does it. -/
theorem setup_executeWriteThread (waits : d.bus.client = .waitWrite) :
    d.executeWriteThread.setup = d.setup ∨ d.executeWriteThread.bus.client = .notified := by
  have ended (j : Port) (register : Setup → Setup) :
      (d.decodeSetup j register).bus.client = .notified := by
    simp [decodeSetup, writeSetup, logServed, Bus.notifyWriteEnded, waits]
  unfold executeWriteThread
  cases d.bus.writeThread with
  | wait => exact Or.inl rfl
  | writeIn j v => exact Or.inl (by simp)
  | writeDirect k v => exact Or.inl (by simp)
  | notified =>
    simp only [decodeWrite]
    split
    · exact Or.inl (by simp [setDirect, logServed])
    · split
      · exact Or.inl (by simp [logServed])
      · exact Or.inr (ended _ _)
      · exact Or.inr (ended _ _)
      · exact Or.inr (ended _ _)
      · exact Or.inl rfl

/-- `setupfw_rule` does not write the setup registers. -/
theorem setupRuleRange_setupfwRule (d : Device) (p : Port) :
    (d.setupfwRule.setup p).setupRuleRange = (d.setup p).setupRuleRange := by
  unfold setupfwRule
  split
  · rfl
  · rfl
  · simp only [Setup.sample]
    split <;> rfl

/-- A call finds the rules of the calls before it in the setup registers. -/
theorem setup_shown (h : machine.Reachable d) :
    d.bus.client = .notified ∨ d.bus.client = .delay ∨
      ∀ p, (d.setup p).setupRuleRange.cur = (d.setup p).setupRuleRange.next := by
  have inv : machine.Reachable d ∧ (d.bus.client = .notified ∨ d.bus.client = .delay ∨
      ∀ p, (d.setup p).setupRuleRange.cur = (d.setup p).setupRuleRange.next) := by
    refine h.invariant (I := fun d => machine.Reachable d ∧ (d.bus.client = .notified ∨
      d.bus.client = .delay ∨
      ∀ p, (d.setup p).setupRuleRange.cur = (d.setup p).setupRuleRange.next))
      ⟨machine.reachable_init, Or.inr (Or.inr fun _ => rfl)⟩ ?_
    rintro d a e ⟨reachable, before⟩ hs
    refine ⟨reachable.step hs, ?_⟩
    cases move_of_step hs with
    | edge => exact before
    | delta => exact Or.inr (Or.inr fun _ => rfl)
    | request t idle =>
      -- an idle initiator is past the update
      refine Or.inr (Or.inr ?_)
      rcases before with at_ | at_ | shown
      · simp [idle] at at_
      · simp [idle] at at_
      · exact shown
    | run q runnable =>
      change (d.process q).bus.client = _ ∨ (d.process q).bus.client = _ ∨
        ∀ p, ((d.process q).setup p).setupRuleRange.cur = ((d.process q).setup p).setupRuleRange.next
      by_cases initiator : q = .client
      · subst initiator
        exact Or.inr (Or.inl rfl)
      by_cases writes : q = .executeWriteThread
      · subst writes
        have busy : d.bus.writeThread ≠ .wait := by
          intro rests
          simp [Device.runnable, rests] at runnable
        have waits := ((accounted_of_reachable reachable).writing busy).1
        rcases setup_executeWriteThread waits with same | ended
        · rcases before with at_ | at_ | shown
          · simp [waits] at at_
          · simp [waits] at at_
          · exact Or.inr (Or.inr (by rw [process, same]; exact shown))
        · exact Or.inl ended
      · have registers : ∀ p, ((d.process q).setup p).setupRuleRange = (d.setup p).setupRuleRange := by
          intro p
          by_cases sample : q = .setupfwRule
          · subst sample
            exact d.setupRuleRange_setupfwRule p
          · rw [(d.process_setup sample writes).1]
        have client := d.client_process initiator
        rcases before with at_ | at_ | shown
        · exact Or.inl (client.elim (fun same => same.trans at_) id)
        · exact client.elim (fun same => Or.inr (Or.inl (same.trans at_))) Or.inl
        · exact Or.inr (Or.inr (by intro p; rw [registers]; exact shown p))
  exact inv.2

/-! ### The word is in `in_i` -/

/-- A word that differs from the one before it. -/
def AtIngress (i : Port) (w : Word) (d : Device) : Prop :=
  (d.ingress i).in_.contents = [w] ∧ w ≠ (d.ingress i).preval

/-- The rule values that are on their way from the setup register to `interface_in_i`, with
those that the reset of `setupfw_rule` sends. -/
def rulesLeft (d : Device) (i : Port) : Nat :=
  d.setupPc.sends +
    differ (d.setup i).setupRuleRange.cur (d.setup i).precommand +
    differ (d.setup i).fwRuleRange.next (d.setup i).fwRuleRange.cur

/-- A bound on the clock edges before the word is judged. -/
def judgeLeft (i : Port) (d : Device) : Nat :=
  d.rulesLeft i + (d.ingress i).runs (d.setup i).fwRuleRange.cur

/-- Past `interface_in_i`, or blocked in it. -/
def Judged (i : Port) (d : Device) : Prop :=
  (d.ingress i).pc.load = 1 ∨ (d.switch.inFifo i).held ≠ 0

theorem rulesLeft_setupfwRule (d : Device) (i : Port) :
    d.setupfwRule.rulesLeft i ≤ d.rulesLeft i ∧
      (d.setupfwRule.setup i).fwRuleRange.cur = (d.setup i).fwRuleRange.cur := by
  unfold rulesLeft setupfwRule
  cases pc : d.setupPc with
  | start =>
    -- the reset pays for what it sends
    have first := differ_le_one (d.setup i).setupRuleRange.cur 0
    have second := differ_le_one 0 (d.setup i).fwRuleRange.cur
    refine ⟨?_, rfl⟩
    simp only [Setup.writeFwRange, Signal.write_cur, Signal.write_next, ThreadPc.sends]
    omega
  | init => exact ⟨by simp [ThreadPc.sends], rfl⟩
  | loop =>
    by_cases changed : (d.setup i).setupRuleRange.cur = (d.setup i).precommand
    · have same : (d.setup i).sample = d.setup i := if_neg (not_not.mpr changed)
      simp only [same, le_refl, and_self]
    · have sent : (d.setup i).sample =
          { (d.setup i).writeFwRange (d.setup i).setupRange with
            precommand := (d.setup i).setupRange.r } := if_pos changed
      have one := differ_le_one (d.setup i).setupRuleRange.cur (d.setup i).fwRuleRange.cur
      refine ⟨?_, by simp only [sent]; rfl⟩
      simp only [sent, Setup.writeFwRange, Setup.setupRange, Signal.write_cur,
        Signal.write_next, differ_self, differ_of_ne changed]
      omega

theorem awake_of_load (free : (d.ingress i).pc.load = 0) : d.blocked (.interfaceIn i) = false := by
  cases pc : (d.ingress i).pc <;> simp_all [blocked, IngressPc.load]

/-- The state that `interface_in_i` finds when it runs. -/
def ingressStep (d : Device) (i : Port) : IngressStep :=
  ⟨d.ingress i, d.switch.inFifo i, d.responces.initResponceFifo i, false⟩

/-- What it leaves. -/
def ingressRun (d : Device) (i : Port) : IngressStep :=
  IngressStep.run i (portBits i) (d.setup i).fwRange (d.responces.responceS i).cur (d.ingressStep i)

theorem exec_interfaceIn (d : Device) (i : Port) :
    (d.exec (.interfaceIn i)).ingress i = (d.ingressRun i).ingress ∧
      (d.exec (.interfaceIn i)).switch.inFifo i = (d.ingressRun i).inFifo ∧
      (d.exec (.interfaceIn i)).setup = d.setup ∧
      (d.exec (.interfaceIn i)).setupPc = d.setupPc ∧
      ((d.ingressRun i).notify = true → d.bus.client = .waitWrite →
        (d.exec (.interfaceIn i)).Ended) := by
  simp only [exec, process_interfaceIn, interfaceIn, Function.update_self, Ended]
  refine ⟨rfl, rfl, trivial, trivial, fun notify waits => ?_⟩
  change (if (d.ingressRun i).notify = true then _ else _ : Bus).client = _
  rw [if_pos notify]
  simp [Bus.notifyWriteEnded, waits]

/-- A new word is judged. -/
theorem phase_judging (i : Port) (w : Word) : Phase (AtIngress i w) (Judged i) (.interfaceIn i)
    (judgeLeft i) fun d => (d.ingress i).in_.written = [] := by
  have free : ∀ d, Pending d → AtIngress i w d → (d.ingress i).pc.load = 0 := by
    intro d pending here
    have word : 0 < (d.ingress i).in_.held := by simp [Fifo.held, here.1]
    exact (alone pending.path word).1 i
  refine ⟨(clocked_or_thread _).resolve_right (by simp), ?_, ?_, ?_, ?_, ?_⟩
  · exact fun d pending here => awake_of_load (free d pending here)
  · intro d pending here _
    obtain ⟨ingress, inFifo, setup, setupPc, ends⟩ := d.exec_interfaceIn i
    have judges := IngressStep.judges_run i (portBits i) (d.setup i).fwRange
      (d.responces.responceS i).cur (d.ingressStep i) here.1 here.2
      (preval_of_start pending.reachable i) (free d pending here)
    cases judges with
    | acknowledged notify => exact Or.inl (ends notify pending.waits)
    | blocked load => exact Or.inr (Or.inl (Or.inl (by rw [ingress]; exact load)))
    | passed f push =>
      refine Or.inr (Or.inl (Or.inr ?_))
      have held : (d.ingressRun i).inFifo.held = (d.ingressStep i).inFifo.held + 1 := by
        rw [ingressRun, push, Fifo.held_push]
      rw [inFifo, held]
      exact Nat.succ_ne_zero _
    | later in_ preval runs fewer =>
      refine Or.inr (Or.inr ⟨⟨?_, ?_⟩, ?_, fun shown => ?_⟩)
      · rw [ingress, ingressRun, in_]
        exact here.1
      · rw [ingress, ingressRun, preval]
        exact here.2
      · simp only [judgeLeft, rulesLeft, setup, setupPc, ingress]
        exact Nat.add_le_add_left runs _
      · simp only [judgeLeft, rulesLeft, setup, setupPc, ingress]
        exact Nat.add_lt_add_left (fewer shown) _
  · intro d p pending here inside other runnable
    have writes : p ≠ .executeWriteThread := by rintro rfl; simp [clocked] at inside
    have same : (d.exec p).ingress i = d.ingress i := d.process_ingress other writes
    refine Or.inr (Or.inr ⟨⟨by rw [same]; exact here.1, by rw [same]; exact here.2⟩, ?_, ?_⟩)
    · by_cases sample : p = .setupfwRule
      · subst sample
        obtain ⟨rules, cur⟩ := d.rulesLeft_setupfwRule i
        change d.setupfwRule.rulesLeft i + ((d.exec .setupfwRule).ingress i).runs
          (d.setupfwRule.setup i).fwRuleRange.cur ≤ _
        rw [same, cur]
        exact Nat.add_le_add_right rules _
      · obtain ⟨setup, setupPc⟩ := d.process_setup sample writes
        have setup : (d.exec p).setup = d.setup := setup
        have setupPc : (d.exec p).setupPc = d.setupPc := setupPc
        simp only [judgeLeft, rulesLeft, setup, setupPc, same, le_refl]
    · rw [same]
      exact id
  · intro d pending here
    refine ⟨⟨by simpa [Device.update] using here.1, here.2⟩, ?_⟩
    have shown : (d.setup i).setupRuleRange.cur = (d.setup i).setupRuleRange.next := by
      rcases setup_shown pending.reachable with at_ | at_ | shown
      · simp [pending.waits] at at_
      · simp [pending.waits] at at_
      · exact shown i
    have triangle := differ_triangle (d.setup i).fwRuleRange.next (d.setup i).fwRuleRange.cur
      (d.ingress i).preReadR
    simp only [judgeLeft, rulesLeft, Device.update, Signal.update, Ingress.runs, differ_self, shown]
    omega
  · intro d pending here quiescent same
    refine ⟨here, le_refl _, ?_⟩
    have fifo : (d.ingress i).in_.update = (d.ingress i).in_ :=
      congrArg (fun d : Device => (d.ingress i).in_) same
    exact (Fifo.shown_of_update fifo).1

theorem judgeLeft_le (i : Port) (d : Device) : judgeLeft i d ≤ 8 := by
  have first := differ_le_one (d.setup i).setupRuleRange.cur (d.setup i).precommand
  have second := differ_le_one (d.setup i).fwRuleRange.next (d.setup i).fwRuleRange.cur
  have third := differ_le_one (d.setup i).fwRuleRange.cur (d.ingress i).preReadR
  have start : d.setupPc.sends ≤ 2 := by cases d.setupPc <;> simp [ThreadPc.sends]
  have pc : (d.ingress i).pc.runs ≤ 3 := by cases (d.ingress i).pc <;> simp [IngressPc.runs]
  simp only [judgeLeft, rulesLeft, Ingress.runs]
  omega

end Device

end ScCosim.Firewall
