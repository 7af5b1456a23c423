import ScCosim.Firewall.Rules

/-!
# When an acknowledged rule is in force

A write of a setup register is acknowledged when the register is written. From there the
rule has two more places to reach, and each process on the way looks only at the rule value.
So a new rule is in force for the packets written after one more clock edge, provided its
rule value is not one that a later place still holds.
-/
namespace ScCosim.Firewall

open Kernel Async

namespace Device

/-! ### Two facts about every state -/

/-- `setupfw_rule` remembers the value it has sampled. -/
theorem precommand_eq_sample {d : Device} (h : openMachine.Reachable d) (p : Port) :
    (d.setup p).precommand = (d.setup p).fwNext.r := by
  refine (h.invariant (I := fun d => d.ready.Nodup ∧
    (d.setup p).precommand = (d.setup p).fwNext.r) ⟨List.nodup_nil, rfl⟩ ?_).2
  rintro d a e ⟨nodup, same⟩ hs
  have transition := transition_of_openStep hs
  refine ⟨nodup_step nodup transition, ?_⟩
  cases portStep_of_transition nodup transition p with
  | quiet t fifo setup => rw [setup]; exact same
  | judge setup => rw [setup]; exact same
  | update setup => rw [setup]; exact same
  | edge clean setup => rw [setup]; exact same
  | sample was setup =>
    rw [setup]
    unfold setupfwRule
    split
    · rfl
    · exact same
    · simp only [Setup.sample]
      split
      · rfl
      · exact same

/-- Between delta cycles the registers show what was written. -/
theorem visible_of_clean {d : Device} (h : openMachine.Reachable d) (p : Port)
    (clean : d.dirty = false) : (d.setup p).setupRange = (d.setup p).setupNext := by
  refine h.invariant (I := fun d => d.dirty = false →
    (d.setup p).setupRange = (d.setup p).setupNext) (fun _ => rfl) ?_ clean
  intro d a e visible hs clean
  cases transition_of_openStep hs with
  | run q | request t | arrive i w => exact absurd clean (by simp [exec, request, arrive])
  | delta => rfl
  | edge quiescent clean => exact visible clean

/-! ### The way of a rule -/

/-- No place of port `p`'s pipeline would take the rule value `r` for one it has seen: not
the registers as shown, not `precommand`, not the samples as shown, and not `pre_read_r`
unless `interface_in` is at the top of its loop, where it looks at the samples first. Both
processes are past their initial parts. -/
structure Unseen (d : Device) (p : Port) (r : Word) : Prop where
  loop : d.setupPc = .loop
  started : (d.ingress p).pc ≠ .start
  register : (d.setup p).setupRange.r ≠ r
  precommand : (d.setup p).precommand ≠ r
  shown : (d.setup p).fwRange.r ≠ r
  latch : (d.ingress p).preReadR ≠ r ∨ (d.ingress p).pc = .loop

/-- `interface_in` will not take the rule value `r` for one it has seen: it either holds
another value, or has yet to run in this clock cycle, from the top of its loop. -/
def Notices (d : Device) (p : Port) (r : Word) : Prop :=
  (d.ingress p).preReadR ≠ r ∨ ((d.ingress p).pc = .loop ∧ .interfaceIn p ∈ d.ready)

/-- How far the triple `t` has come. -/
inductive Travel (t : Triple) (d : Device) (p : Port) : Prop
  /-- Written and not yet shown. -/
  | written (unseen : d.Unseen p t.r)
  /-- Shown by the registers; the next edge has not come. -/
  | visible (register : (d.setup p).setupRange = t)
      (precommand : (d.setup p).precommand ≠ t.r) (shown : (d.setup p).fwRange.r ≠ t.r)
      (latch : (d.ingress p).preReadR ≠ t.r ∨ (d.ingress p).pc = .loop)
      (asleep : ∀ q, InPipeline p q → q ∉ d.ready)
  /-- The edge has come and `setupfw_rule` has yet to run. -/
  | woken (register : (d.setup p).setupRange = t)
      (precommand : (d.setup p).precommand ≠ t.r) (shown : (d.setup p).fwRange.r ≠ t.r)
      (latch : d.Notices p t.r) (ready : .setupfwRule ∈ d.ready)
  /-- Sampled, and the sample not yet shown. -/
  | sampled (register : (d.setup p).setupRange = t)
      (precommand : (d.setup p).precommand = t.r) (sample : (d.setup p).fwNext = t)
      (shown : (d.setup p).fwRange.r ≠ t.r) (latch : d.Notices p t.r)
  /-- `interface_in` sees it before the next packet, or has latched it. -/
  | arrived (register : (d.setup p).setupRange = t)
      (precommand : (d.setup p).precommand = t.r) (sample : (d.setup p).fwNext = t)
      (shown : (d.setup p).fwRange = t)
      (latch : (d.ingress p).preReadR ≠ t.r ∨ (d.ingress p).fwRead = t)

/-! ### Each step keeps the rule on its way -/

/-- One run of `interface_in` while the samples show another value: afterwards it does not
hold `r`, for from the top of its loop it latches what is shown. -/
private theorem preReadR_ne_of_latching {fw : Triple} {g g' : Ingress} {r : Word}
    (started : g.pc ≠ .start) (shown : fw.r ≠ r) (latch : g.preReadR ≠ r ∨ g.pc = .loop)
    (h : IngressStep.Latching fw g g') : g'.preReadR ≠ r := by
  cases h with
  | reset pc => exact absurd pc started
  | latch pc new result => rw [result]; exact shown
  | take w rest outcome seen read passed fwRead preReadR =>
    -- a word is taken only when the value shown is the one held
    rw [preReadR, ← seen]
    exact shown
  | stay pc keeps =>
    rw [keeps.preReadR]
    -- at the top of its loop it stays only if the value shown is the one held
    rcases latch with other | loop
    · exact other
    · rw [← (pc loop).2]
      exact shown

private theorem Notices.weaken {d : Device} {p : Port} {r : Word} (h : d.Notices p r) :
    (d.ingress p).preReadR ≠ r ∨ (d.ingress p).pc = .loop :=
  h.imp id And.left

/-- Only registers are written and only words arrive: the rule stays where it is. -/
private theorem travel_quiet {t t' : Triple} {d e : Device} {p : Port} {fifo : Fifo Word}
    (h : Travel t d p) (setup : e.setup p = (d.setup p).writeSetup t')
    (pc : e.setupPc = d.setupPc) (ingress : e.ingress p = { d.ingress p with in_ := fifo })
    (ready : ∀ q, InPipeline p q → (q ∈ e.ready ↔ q ∈ d.ready)) : Travel t e p := by
  -- a write to a register is shown only after the update
  have register : (e.setup p).setupRange = (d.setup p).setupRange := by rw [setup]; rfl
  have precommand : (e.setup p).precommand = (d.setup p).precommand := by rw [setup]; rfl
  have sample : (e.setup p).fwNext = (d.setup p).fwNext := by rw [setup]; rfl
  have shown : (e.setup p).fwRange = (d.setup p).fwRange := by rw [setup]; rfl
  have pre : (e.ingress p).preReadR = (d.ingress p).preReadR := by rw [ingress]
  have at_ : (e.ingress p).pc = (d.ingress p).pc := by rw [ingress]
  have latched : (e.ingress p).fwRead = (d.ingress p).fwRead := by rw [ingress]
  have notices : d.Notices p t.r → e.Notices p t.r := by
    unfold Notices
    rw [pre, at_, ready _ (Or.inr rfl)]
    exact id
  cases h with
  | written unseen =>
    exact .written ⟨pc ▸ unseen.loop, at_ ▸ unseen.started, register ▸ unseen.register,
      precommand ▸ unseen.precommand, shown ▸ unseen.shown, by rw [pre, at_]; exact unseen.latch⟩
  | visible r c s l asleep =>
    exact .visible (register ▸ r) (precommand ▸ c) (shown ▸ s) (by rw [pre, at_]; exact l)
      fun q hq member => asleep q hq ((ready q hq).mp member)
  | woken r c s l awake =>
    exact .woken (register ▸ r) (precommand ▸ c) (shown ▸ s) (notices l)
      ((ready _ (Or.inl rfl)).mpr awake)
  | sampled r c n s l =>
    exact .sampled (register ▸ r) (precommand ▸ c) (sample ▸ n) (shown ▸ s) (notices l)
  | arrived r c n s l =>
    exact .arrived (register ▸ r) (precommand ▸ c) (sample ▸ n) (shown ▸ s)
      (by rw [pre, latched]; exact l)

/-- `setupfw_rule` runs: it samples the rule if the registers show it. -/
private theorem travel_sample {t : Triple} {d e : Device} {p : Port} (h : Travel t d p)
    (loop : d.setupPc = .loop) (was : .setupfwRule ∈ d.ready)
    (setup : e.setup p = d.setupfwRule.setup p) (pc : e.setupPc = d.setupfwRule.setupPc)
    (ingress : e.ingress p = d.ingress p)
    (ready : .interfaceIn p ∈ e.ready ↔ .interfaceIn p ∈ d.ready) : Travel t e p := by
  have same : e.setup p = (d.setup p).sample := by rw [setup, setupfwRule, loop]
  have loop' : e.setupPc = .loop := by rw [pc, setupfwRule, loop]
  have notices : d.Notices p t.r → e.Notices p t.r := by
    unfold Notices
    rw [ingress, ready]
    exact id
  have register : (e.setup p).setupRange = (d.setup p).setupRange := by
    rw [same]; unfold Setup.sample; split <;> rfl
  have shown : (e.setup p).fwRange = (d.setup p).fwRange := by
    rw [same]; unfold Setup.sample; split <;> rfl
  -- a value that is remembered is not sampled again
  have seen : (d.setup p).setupRange.r = (d.setup p).precommand → e.setup p = d.setup p := by
    intro seen
    rw [same, Setup.sample, if_neg (not_not_intro seen)]
  cases h with
  | written unseen =>
    -- the registers still show another value, so that one is sampled
    refine .written ⟨loop', ingress ▸ unseen.started, register ▸ unseen.register, ?_,
      shown ▸ unseen.shown, ingress ▸ unseen.latch⟩
    rw [same, Setup.sample]
    split
    · exact unseen.register
    · exact unseen.precommand
  | visible r c s l asleep => exact absurd was (asleep _ (Or.inl rfl))
  | woken r c s l awake =>
    -- the registers show the rule, and its value is new to the process
    have new : (d.setup p).setupRange.r ≠ (d.setup p).precommand := by
      rw [r]
      exact Ne.symm c
    have sampled : e.setup p = { (d.setup p).writeFwRange t with precommand := t.r } := by
      rw [same, Setup.sample, if_pos new, r]
    exact .sampled (register ▸ r) (by rw [sampled]) (by rw [sampled]; rfl) (shown ▸ s) (notices l)
  | sampled r c n s l =>
    -- it has been sampled before
    have stays := seen (by rw [r, c])
    exact .sampled (stays ▸ r) (stays ▸ c) (stays ▸ n) (stays ▸ s) (notices l)
  | arrived r c n s l =>
    have stays := seen (by rw [r, c])
    exact .arrived (stays ▸ r) (stays ▸ c) (stays ▸ n) (stays ▸ s) (ingress ▸ l)

/-- `interface_in` runs. -/
private theorem travel_judge {t : Triple} {d e : Device} {p : Port} (h : Travel t d p)
    (loop : d.setupPc = .loop) (started : (d.ingress p).pc ≠ .start)
    (setup : e.setup p = d.setup p) (pc : e.setupPc = d.setupPc)
    (ingress : e.ingress p = (d.judged p).ingress)
    (ready : .setupfwRule ∈ e.ready ↔ .setupfwRule ∈ d.ready)
    (gone : .interfaceIn p ∉ e.ready) : Travel t e p := by
  -- until the samples show the rule, the process latches some other value
  have latching : IngressStep.Latching (d.setup p).fwRange (d.ingress p) (e.ingress p) := by
    rw [ingress]
    exact d.latching_judged p
  have started' : (e.ingress p).pc ≠ .start := by
    rw [ingress]
    exact IngressStep.run_pc_ne_start _ _ _ _ _
  cases h with
  | written unseen =>
    exact .written ⟨pc ▸ loop, started', setup ▸ unseen.register, setup ▸ unseen.precommand,
      setup ▸ unseen.shown,
      Or.inl (preReadR_ne_of_latching started unseen.shown unseen.latch latching)⟩
  | visible r c s l asleep =>
    refine .visible (setup ▸ r) (setup ▸ c) (setup ▸ s)
      (Or.inl (preReadR_ne_of_latching started s l latching)) fun q hq => ?_
    rcases hq with rfl | rfl
    · rw [ready]; exact asleep _ (Or.inl rfl)
    · exact gone
  | woken r c s l awake =>
    exact .woken (setup ▸ r) (setup ▸ c) (setup ▸ s)
      (Or.inl (preReadR_ne_of_latching started s l.weaken latching)) (ready.mpr awake)
  | sampled r c n s l =>
    exact .sampled (setup ▸ r) (setup ▸ c) (setup ▸ n) (setup ▸ s)
      (Or.inl (preReadR_ne_of_latching started s l.weaken latching))
  | arrived r c n s l =>
    -- from now on the value latched is that of the rule
    refine .arrived (setup ▸ r) (setup ▸ c) (setup ▸ n) (setup ▸ s) ?_
    cases latching with
    | reset pc => exact absurd pc started
    | latch pc new result => rw [result]; exact Or.inr s
    | take w rest outcome seen read passed fwRead preReadR => rw [preReadR, fwRead]; exact l
    | stay pc keeps => rw [keeps.preReadR, keeps.fwRead]; exact l

/-- The update phase shows what was written. -/
private theorem travel_update {t : Triple} {d e : Device} {p : Port} (h : Travel t d p)
    (remembered : (d.setup p).precommand = (d.setup p).fwNext.r)
    (setup : e.setup p = (d.setup p).updated)
    (ingress : ∃ total droped hits, e.ingress p = { d.ingress p with
      in_ := (d.ingress p).in_.update, total := total, droped := droped,
      fwRuleHitCounter := hits })
    (rest : ∀ q, InPipeline p q → q ∉ d.ready) (ready : e.ready = d.ready)
    (registers : (e.setup p).setupNext = t) : Travel t e p := by
  obtain ⟨total, droped, hits, ingress⟩ := ingress
  have register : (e.setup p).setupRange = t := by rw [← registers, setup]; rfl
  have precommand : (e.setup p).precommand = (d.setup p).precommand := by rw [setup]; rfl
  have sample : (e.setup p).fwNext = (d.setup p).fwNext := by rw [setup]; rfl
  have shown : (e.setup p).fwRange = (d.setup p).fwNext := by rw [setup]; rfl
  have pre : (e.ingress p).preReadR = (d.ingress p).preReadR := by rw [ingress]
  have at_ : (e.ingress p).pc = (d.ingress p).pc := by rw [ingress]
  have latched : (e.ingress p).fwRead = (d.ingress p).fwRead := by rw [ingress]
  have asleep : ∀ q, InPipeline p q → q ∉ e.ready := fun q hq => by rw [ready]; exact rest q hq
  cases h with
  | written unseen =>
    -- the registers show the rule; the samples show what was sampled before
    refine .visible register (precommand ▸ unseen.precommand) ?_
      (by rw [pre, at_]; exact unseen.latch) asleep
    rw [shown, ← remembered]
    exact unseen.precommand
  | visible r c s l =>
    refine .visible register (precommand ▸ c) ?_ (by rw [pre, at_]; exact l) asleep
    rw [shown, ← remembered]
    exact c
  -- the evaluation phase ends only when `setupfw_rule` has run
  | woken r c s l awake => exact absurd awake (rest _ (Or.inl rfl))
  | sampled r c n s l =>
    -- `interface_in` has run in this cycle too, so it holds another value
    refine .arrived register (precommand ▸ c) (sample ▸ n) (shown.trans n) (Or.inl ?_)
    rcases l with other | ⟨-, member⟩
    · rw [pre]; exact other
    · exact absurd member (rest _ (Or.inr rfl))
  | arrived r c n s l =>
    exact .arrived register (precommand ▸ c) (sample ▸ n) (shown.trans n)
      (by rw [pre, latched]; exact l)

private theorem travel_edge {t : Triple} {d e : Device} {p : Port} (h : Travel t d p)
    (visible : (d.setup p).setupRange = t) (setup : e.setup p = d.setup p)
    (ingress : e.ingress p = d.ingress p) (rest : ∀ q, InPipeline p q → q ∉ d.ready)
    (woken : .setupfwRule ∈ e.ready ∧
      (.interfaceIn p ∈ e.ready ∨ d.blocked (.interfaceIn p) = true)) : Travel t e p := by
  -- a blocked process is not at the top of its loop
  have notices : (d.ingress p).preReadR ≠ t.r ∨ (d.ingress p).pc = .loop → e.Notices p t.r := by
    rintro (other | loop)
    · exact Or.inl (by rw [ingress]; exact other)
    · rcases woken.2 with member | blocked
      · exact Or.inr ⟨by rw [ingress]; exact loop, member⟩
      · simp [loop, Device.blocked] at blocked
  cases h with
  | written unseen => exact absurd (congrArg Triple.r visible) unseen.register
  | visible r c s l => exact .woken (setup ▸ r) (setup ▸ c) (setup ▸ s) (notices l) woken.1
  | woken r c s l awake => exact absurd awake (rest _ (Or.inl rfl))
  | sampled r c n s l =>
    exact .sampled (setup ▸ r) (setup ▸ c) (setup ▸ n) (setup ▸ s) (notices l.weaken)
  | arrived r c n s l =>
    exact .arrived (setup ▸ r) (setup ▸ c) (setup ▸ n) (setup ▸ s) (ingress ▸ l)

/-- The rule is on its way, and the processes are past their initial parts. -/
structure OnItsWay (t : Triple) (d : Device) (p : Port) : Prop where
  loop : d.setupPc = .loop
  started : (d.ingress p).pc ≠ .start
  travel : Travel t d p

theorem onItsWay_step {t : Triple} {d e : Device} {p : Port} (hd : openMachine.Reachable d)
    (h : OnItsWay t d p) (hs : PortStep p d e) (registers : (e.setup p).setupNext = t) :
    OnItsWay t e p := by
  obtain ⟨loop, started, travel⟩ := h
  cases hs with
  | quiet t' fifo setup pc ingress arrived ready =>
    exact ⟨pc.trans loop, by rw [ingress]; exact started,
      travel_quiet travel setup pc ingress ready⟩
  | sample was setup pc ingress ready =>
    exact ⟨by rw [pc, setupfwRule, loop], by rw [ingress]; exact started,
      travel_sample travel loop was setup pc ingress ready⟩
  | judge setup pc ingress ready gone =>
    refine ⟨pc.trans loop, ?_, travel_judge travel loop started setup pc ingress ready gone⟩
    rw [ingress]
    exact IngressStep.run_pc_ne_start _ _ _ _ _
  | update setup pc ingress rest ready =>
    have kept : (e.ingress p).pc = (d.ingress p).pc := by
      obtain ⟨total, droped, hits, ingress⟩ := ingress
      rw [ingress]
    exact ⟨pc.trans loop, kept ▸ started,
      travel_update travel (precommand_eq_sample hd p) setup ingress rest ready registers⟩
  | edge clean setup pc ingress rest woken =>
    have visible : (d.setup p).setupRange = t := by
      rw [visible_of_clean hd p clean, ← registers, setup]
    -- an edge comes only after an update, which has shown the registers
    exact ⟨pc.trans loop, ingress ▸ started,
      travel_edge travel visible setup ingress rest woken⟩

/-- What is asked of the state in which the last write of a call is served: no place of the
pipeline would take `t` for something it has seen. When a rule is taken away, the first write
of the call is the value of the last one, so the registers may show `t` already, as long as
no process has looked at them since. -/
structure Fresh (d : Device) (p : Port) (t : Triple) : Prop where
  loop : d.setupPc = .loop
  started : (d.ingress p).pc ≠ .start
  register : (d.setup p).setupRange.r ≠ t.r ∨
    (d.setup p).setupRange = t ∧ ∀ q, InPipeline p q → q ∉ d.ready
  precommand : (d.setup p).precommand ≠ t.r
  shown : (d.setup p).fwRange.r ≠ t.r
  latch : (d.ingress p).preReadR ≠ t.r ∨ (d.ingress p).pc = .loop

theorem onItsWay_of_fresh {t : Triple} {d : Device} {p : Port} (h : d.Fresh p t) :
    OnItsWay t d p := by
  refine ⟨h.loop, h.started, ?_⟩
  rcases h.register with hidden | ⟨shows, asleep⟩
  · exact .written ⟨h.loop, h.started, hidden, h.precommand, h.shown, h.latch⟩
  · exact .visible shows h.precommand h.shown h.latch asleep

/-! ### After the edge -/

/-- The edge after the write has come: the registers show the rule, and it is sampled or
about to be. -/
structure PastEdge (t : Triple) (d : Device) (p : Port) : Prop extends OnItsWay t d p where
  register : (d.setup p).setupRange = t
  sampling : .setupfwRule ∈ d.ready ∨ (d.setup p).precommand = t.r

theorem pastEdge_of_edge {t : Triple} {d e : Device} {p : Port} (hd : openMachine.Reachable d)
    (h : OnItsWay t d p) (hs : openMachine.step d (.inl .edge) = some e)
    (registers : (e.setup p).setupNext = t) : PastEdge t e p := by
  have transition := transition_of_openStep hs
  have way := onItsWay_step hd h (portStep_of_transition (ready_nodup hd) transition p) registers
  have move : Move d .edge e := move_of_step hs
  cases move with
  | edge quiescent clean =>
    have visible := visible_of_clean hd p clean
    constructor
    · exact way
    · exact visible.trans registers
    · -- `setupfw_rule` is woken by every edge
      left
      simp [edge, clocked, blocked]

theorem pastEdge_step {t : Triple} {d e : Device} {p : Port} (hd : openMachine.Reachable d)
    (h : PastEdge t d p) (hs : PortStep p d e) (registers : (e.setup p).setupNext = t) :
    PastEdge t e p := by
  refine ⟨onItsWay_step hd h.toOnItsWay hs registers, ?_, ?_⟩
  · cases hs with
    | quiet t' fifo setup => rw [setup]; exact h.register
    | sample was setup =>
      rw [setup, setupfwRule, h.loop]
      simp only [Setup.sample]
      split <;> exact h.register
    | judge setup => rw [setup]; exact h.register
    | update setup => rw [← registers, setup]; rfl
    | edge clean setup => rw [setup]; exact h.register
  · cases hs with
    | quiet t' fifo setup pc ingress arrived ready =>
      rw [setup, ready _ (Or.inl rfl)]
      exact h.sampling
    | sample was setup =>
      right
      rw [setup, setupfwRule, h.loop]
      simp only [Setup.sample]
      split
      · exact congrArg Triple.r h.register
      next seen => rw [← not_not.mp seen, h.register]
    | judge setup pc ingress ready => rw [setup, ready]; exact h.sampling
    | update setup pc ingress rest =>
      right
      rw [setup]
      exact h.sampling.resolve_left (rest _ (Or.inl rfl))
    | edge clean setup pc ingress rest woken => exact Or.inl woken.1

/-! ### The packets after the edge -/

/-- How many words have been written to `in_p`. -/
def arrived (d : Device) (p : Port) : Nat :=
  (d.ingress p).taken.length + (d.ingress p).in_.contents.length

/-- The words after the first `n` are judged by `t`: those taken have been, and until the
rule has arrived, only the first `n` can be taken. -/
structure Governs (t : Triple) (n : Nat) (d : Device) (p : Port) : Prop extends
    PastEdge t d p where
  judged : ∀ j ∈ (d.ingress p).taken.drop n, j.rule = t
  later : (d.setup p).fwRange = t ∨
    (d.ingress p).taken.length + (d.ingress p).in_.readable.length ≤ n

/-- Right after the edge, the words that have arrived so far are the first `n`. -/
theorem governs_of_pastEdge {t : Triple} {d : Device} {p : Port} (h : PastEdge t d p) :
    Governs t (d.arrived p) d p := by
  refine ⟨h, ?_, Or.inr ?_⟩
  · -- none of the words judged so far is a later one
    rw [List.drop_of_length_le (by simp [arrived])]
    simp
  · simp [arrived, Fifo.contents]

/-- Where the samples show `t`, the word that is taken is judged by `t`. -/
private theorem PastEdge.fwRead_of_seen {t : Triple} {d : Device} {p : Port} (h : PastEdge t d p)
    (shown : (d.setup p).fwRange = t) (seen : (d.setup p).fwRange.r = (d.ingress p).preReadR) :
    (d.ingress p).fwRead = t := by
  cases h.travel with
  | written unseen => exact absurd (congrArg Triple.r shown) unseen.shown
  | visible r c s => exact absurd (congrArg Triple.r shown) s
  | woken r c s => exact absurd (congrArg Triple.r shown) s
  | sampled r c n s => exact absurd (congrArg Triple.r shown) s
  | arrived r c n s l => exact l.resolve_left fun other => other (by rw [← seen, shown])

/-- At the end of the evaluation phase `setupfw_rule` has sampled `t`. -/
private theorem PastEdge.sample_of_rest {t : Triple} {d : Device} {p : Port} (h : PastEdge t d p)
    (rest : ∀ q, InPipeline p q → q ∉ d.ready) : (d.setup p).fwNext = t := by
  have asleep : Proc.setupfwRule ∉ d.ready := rest _ (Or.inl rfl)
  have sampled : (d.setup p).precommand = t.r := h.sampling.resolve_left asleep
  cases h.travel with
  | written unseen => exact absurd (congrArg Triple.r h.register) unseen.register
  | visible r c => exact absurd sampled c
  | woken r c s l awake => exact absurd awake asleep
  | sampled r c n => exact n
  | arrived r c n => exact n

theorem governs_step {t : Triple} {n : Nat} {d e : Device} {p : Port}
    (hd : openMachine.Reachable d) (h : Governs t n d p) (hs : PortStep p d e)
    (registers : (e.setup p).setupNext = t) : Governs t n e p := by
  have past := pastEdge_step hd h.toPastEdge hs registers
  cases hs with
  | quiet t' fifo setup pc ingress arrived ready =>
    -- a word that arrives is not readable before the update
    have readable : fifo.readable = (d.ingress p).in_.readable := by
      rcases arrived with rfl | ⟨w, rfl⟩ <;> rfl
    refine ⟨past, by rw [ingress]; exact h.judged, ?_⟩
    have shown : (e.setup p).fwRange = (d.setup p).fwRange := by rw [setup]; rfl
    rw [shown, ingress, readable]
    exact h.later
  | sample was setup pc ingress ready =>
    refine ⟨past, by rw [ingress]; exact h.judged, ?_⟩
    have shown : (e.setup p).fwRange = (d.setup p).fwRange := by
      rw [setup, setupfwRule, h.loop]
      simp only [Setup.sample]
      split <;> rfl
    rw [shown, ingress]
    exact h.later
  | judge setup pc ingress ready gone =>
    have latching := d.latching_judged p
    rw [← ingress] at latching
    cases latching with
    | reset start => exact absurd start h.started
    | latch loop new result => exact ⟨past, by rw [result]; exact h.judged, by
        rw [setup, result]; exact h.later⟩
    | take w rest outcome seen read passed fwRead preReadR in_ taken =>
      obtain ⟨-, readable, -⟩ := Fifo.contents_of_nbRead read
      -- the word taken moves from the readable ones to those judged
      have length : (e.ingress p).taken.length + (e.ingress p).in_.readable.length =
          (d.ingress p).taken.length + (d.ingress p).in_.readable.length := by
        rw [taken, in_, readable]
        simp only [List.length_append, List.length_cons, List.length_nil]
        omega
      refine ⟨past, ?_, by rw [length, setup]; exact h.later⟩
      intro j member
      rcases h.later with shown | few
      · rw [taken] at member
        rcases List.mem_append.mp (List.drop_append ▸ member) with old | new
        · exact h.judged j old
        · rw [List.mem_singleton.mp (List.mem_of_mem_drop new)]
          exact h.fwRead_of_seen shown seen
      · -- the word is still one of the first `n`
        rw [List.drop_of_length_le (by omega)] at member
        cases member
    | stay loop keeps =>
      exact ⟨past, by rw [keeps.taken]; exact h.judged, by
        rw [setup, keeps.taken, keeps.in_]; exact h.later⟩
  | update setup pc ingress rest ready =>
    obtain ⟨total, droped, hits, ingress⟩ := ingress
    -- the update shows the sample, so the rule has arrived
    refine ⟨past, by rw [ingress]; exact h.judged, Or.inl ?_⟩
    have shown : (e.setup p).fwRange = (d.setup p).fwNext := by rw [setup]; rfl
    exact shown.trans (h.sample_of_rest rest)
  | edge clean setup pc ingress rest woken =>
    exact ⟨past, by rw [ingress]; exact h.judged, by rw [setup, ingress]; exact h.later⟩

/-! ### Runs without another setup -/

/-- The run rule while port `p`'s registers are not written. -/
theorem run_of_kept {Q : Device → Prop} {p : Port} {t : Triple} {d e : Device}
    {as : List (Action ⊕ (Port × Word))}
    (step : ∀ f g, openMachine.Reachable f → Q f → PortStep p f g →
      (g.setup p).setupNext = t → Q g)
    (hd : openMachine.Reachable d) (registers : (d.setup p).setupNext = t) (start : Q d)
    (hr : openMachine.run d as = some e)
    (kept : setupEntries p e.bus.served = setupEntries p d.bus.served) : Q e := by
  have served : setupEntries p e.bus.served = setupEntries p d.bus.served ++ [] := by simp [kept]
  refine @run_of_registers (· = t) Q p d e as [] step hd start hr served fun part within => ?_
  rw [List.prefix_nil.mp within]
  exact registers

theorem registers_of_kept {p : Port} {d e : Device} {as : List (Action ⊕ (Port × Word))}
    (hr : openMachine.run d as = some e)
    (kept : setupEntries p e.bus.served = setupEntries p d.bus.served) :
    (e.setup p).setupNext = (d.setup p).setupNext := by
  obtain ⟨more, entries, registers⟩ := setupEntries_of_run hr p
  have none : more = [] := by simpa [kept] using entries.symm
  rw [registers, none]
  rfl

/-- If a run ends without another setup, so do its two parts. -/
theorem kept_of_run {p : Port} {d e f : Device} {as bs : List (Action ⊕ (Port × Word))}
    (first : openMachine.run d as = some e) (second : openMachine.run e bs = some f)
    (kept : setupEntries p f.bus.served = setupEntries p d.bus.served) :
    setupEntries p e.bus.served = setupEntries p d.bus.served ∧
      setupEntries p f.bus.served = setupEntries p e.bus.served := by
  obtain ⟨more, entries, -⟩ := setupEntries_of_run first p
  obtain ⟨rest, entries', -⟩ := setupEntries_of_run second p
  have none : more = [] ∧ rest = [] := by simpa [entries, kept] using entries'.symm
  rw [entries', entries, none.1, none.2]
  simp

/-- After a call's four writes the registers hold its triple. -/
theorem registers_of_served {d : Device} (h : openMachine.Reachable d) {p : Port} {t : Triple}
    {before : List (BitVec 64 × Word)}
    (served : setupEntries p d.bus.served = before ++ scSetupFW (inport p) t) :
    (d.setup p).setupNext = t := by
  obtain ⟨as, hr⟩ := h
  obtain ⟨more, entries, registers⟩ := setupEntries_of_run hr p
  have same : more = before ++ scSetupFW (inport p) t := entries.symm.trans served
  rw [registers, same, registersAfter_append]
  exact (registersAfter_scSetupFW p _ t).2.2.2

/-- When the rule value is written, no place of the pipeline takes it for one it has seen; then a
clock edge falls; and from there on every packet that arrives is judged by the new rule. -/
theorem acknowledged_rule_in_force {s u e : Device} {as bs : List (Action ⊕ (Port × Word))}
    {p : Port} {t : Triple} (hs : openMachine.Reachable s)
    (acknowledged : ∃ before, setupEntries p s.bus.served = before ++ scSetupFW (inport p) t)
    (fresh : s.Fresh p t) (hu : openMachine.run s as = some u)
    (edge : Sum.inl Action.edge ∈ as) (he : openMachine.run u bs = some e)
    (noLater : setupEntries p e.bus.served = setupEntries p s.bus.served) :
    ∀ j ∈ (e.ingress p).taken.drop (u.arrived p), j.rule = t := by
  obtain ⟨before, served⟩ := acknowledged
  have registers : (s.setup p).setupNext = t := registers_of_served hs served
  -- the run is split at the edge
  obtain ⟨as₁, as₂, rfl⟩ := List.append_of_mem edge
  obtain ⟨f, hf, rest⟩ := (openMachine.run_append_iff _ _ _ _).mp hu
  obtain ⟨g, tick, hu'⟩ := (openMachine.run_cons_iff _ _ _ _).mp rest
  have hg : openMachine.run f [.inl .edge] = some g := by simpa using tick
  -- no part of the run writes a register of the port
  obtain ⟨kept, keptE⟩ := kept_of_run hu he noLater
  obtain ⟨keptF, kept'⟩ := kept_of_run hf rest kept
  obtain ⟨keptG, keptU⟩ := kept_of_run hg hu' kept'
  have reachF := hs.run hf
  have reachG := reachF.run hg
  have registersF := (registers_of_kept hf keptF).trans registers
  have registersG := (registers_of_kept hg keptG).trans registersF
  have registersU := (registers_of_kept hu' keptU).trans registersG
  have start : OnItsWay t s p := onItsWay_of_fresh fresh
  -- up to the edge the rule is on its way, and after it the registers show it
  have way : OnItsWay t f p :=
    run_of_kept (fun _ _ reach h port next => onItsWay_step reach h port next)
      hs registers start hf keptF
  have past : PastEdge t g p := pastEdge_of_edge reachF way tick registersG
  have past' : PastEdge t u p :=
    run_of_kept (fun _ _ reach h port next => pastEdge_step reach h port next)
      reachG registersG past hu' keptU
  -- the words that arrive from `u` on are judged by it
  have governs : Governs t (u.arrived p) e p :=
    run_of_kept (fun _ _ reach h port next => governs_step reach h port next)
      (reachG.run hu') registersU (governs_of_pastEdge past') he keptE
  exact governs.judged

/-- Two cycles and the writes of one call up to the moment the rule value is written. -/
def justWritten : List Action :=
  cycle [] ++ cycle [] ++ ((scSetupFW (inport 0) denyAll).take 3).flatMap setupWrite ++
    [call .write (fRP 0) denyAll.r, .run .executeWriteThread]

/-- The client goes on, and one cycle passes. -/
def thenCycle : List Action := [.run .client, .delta] ++ cycle []

/-- A packet, and two cycles in which it is taken. -/
def thenPacket : List Action := packetWrite 0 writeSeven ++ cycle [] ++ cycle [.client]

private theorem run_justWritten :
    machine.run (after justWritten) thenCycle = some (after (justWritten ++ thenCycle)) ∧
      machine.run (after (justWritten ++ thenCycle)) thenPacket =
        some (after (justWritten ++ thenCycle ++ thenPacket)) :=
  ⟨run_after (by decide +kernel), run_after (by decide +kernel)⟩

/-- The packet is taken, and judged by the acknowledged rule. -/
theorem acknowledged_rule_in_force_of_justWritten :
    ((after (justWritten ++ thenCycle ++ thenPacket)).ingress 0).taken.length = 1 ∧
      ∀ j ∈ ((after (justWritten ++ thenCycle ++ thenPacket)).ingress 0).taken.drop
        ((after (justWritten ++ thenCycle)).arrived 0), j.rule = denyAll :=
  ⟨by decide +kernel,
    acknowledged_rule_in_force (open_of_reachable (reachable_after (by decide +kernel)))
      ⟨[], by decide +kernel⟩
      ⟨by decide +kernel, by decide +kernel, Or.inl (by decide +kernel), by decide +kernel,
        by decide +kernel, by decide +kernel⟩
      (open_of_run run_justWritten.1) (List.mem_map_of_mem (by decide))
      (open_of_run run_justWritten.2) (by decide +kernel)⟩

/-- `denyAll` is in force, and a call that takes it away comes between two edges. -/
def removing : List Action :=
  denied ++ ((scSetupFW (inport 0) ⟨0, 0, 0⟩).take 3).flatMap setupWrite ++
    [call .write (fRP 0) 0, .run .executeWriteThread]

example : (after removing).Fresh 0 ⟨0, 0, 0⟩ :=
  ⟨by decide +kernel, by decide +kernel,
    Or.inr ⟨by decide +kernel, by rintro q (rfl | rfl) <;> decide +kernel⟩,
    by decide +kernel, by decide +kernel, by decide +kernel⟩

/-- One call and a packet with no clock edge between. -/
def noEdge : List Action :=
  cycle [] ++ cycle [] ++ (scSetupFW (inport 0) denyAll).flatMap setupWrite

/-- The initiator has the acknowledgements of a whole call, and its next packet is judged by
the rule before. -/
theorem acknowledged_rule_not_yet_in_force :
    ¬ ∀ (s e : Device) (bs : List Action) (p : Port) (t : Triple),
      machine.Reachable s → s.bus.client = .idle →
      (∃ before, setupEntries p s.bus.served = before ++ scSetupFW (inport p) t) →
      machine.run s bs = some e →
      setupEntries p e.bus.served = setupEntries p s.bus.served →
      ∀ j ∈ (e.ingress p).taken.drop (s.arrived p), j.rule = t := by
  intro claim
  have judged := claim (after noEdge) (after (noEdge ++ (packetWrite 0 writeSeven ++ cycle []))) _
    0 denyAll (reachable_after (by decide +kernel)) (by decide +kernel)
    ⟨[], by decide +kernel⟩ (run_after (by decide +kernel)) (by decide +kernel)
  exact absurd judged (by decide +kernel)

/-- `denyAll` is in force, and a call that reuses its rule value comes between two edges. -/
def reusing : List Action := denied ++ (scSetupFW (inport 0) denyHalf).flatMap setupWrite

/-- Nor is an edge enough by itself: a rule value that the pipeline still holds goes unseen. -/
theorem reused_rule_unseen :
    ¬ ∀ (s u e : Device) (as bs : List Action) (p : Port) (t : Triple),
      machine.Reachable s →
      (∃ before, setupEntries p s.bus.served = before ++ scSetupFW (inport p) t) →
      machine.run s as = some u → Action.edge ∈ as → machine.run u bs = some e →
      setupEntries p e.bus.served = setupEntries p s.bus.served →
      ∀ j ∈ (e.ingress p).taken.drop (u.arrived p), j.rule = t := by
  intro claim
  have judged := claim (after reusing) (after (reusing ++ cycle [] ++ cycle []))
    (after (reusing ++ cycle [] ++ cycle [] ++ (packetWrite 0 writeSeven ++ cycle [.client])))
    (cycle [] ++ cycle []) _ 0 denyHalf (reachable_after (by decide +kernel))
    ⟨scSetupFW (inport 0) denyAll, by decide +kernel⟩
    (by rw [List.append_assoc]; exact run_after (by decide +kernel)) (by decide)
    (run_after (by decide +kernel)) (by decide +kernel)
  exact absurd judged (by decide +kernel)

end Device

end ScCosim.Firewall
