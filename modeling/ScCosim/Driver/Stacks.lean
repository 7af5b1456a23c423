import ScCosim.Driver.Board
import ScCosim.Driver.Virtual

/-!
# The two stacks side by side

Given the same values by reads of the device, the virtual driver requests the writes that the
kernel driver makes. The word `0x80000000` is requested as a call to leave, and the group of
an output port is recorded at an input port's place.
-/
namespace ScCosim.Driver

open Kernel Program Async Firewall Kern

/-! ### What a run shows -/

/-- The values of the reads that have a reply. -/
def readValues (run : Run SimpleAsyncPacket Reply) : List Word :=
  ((run.done.zip run.heard).filter fun x => isRead x.1).map fun x => x.2.value

namespace Hardware

/-- The registers read, and whether a value is for the log only: that of a direct register
that has just been written. -/
def reads : List Event → List (Register × Bool)
  | .iowrite32 _ w :: .ioread32 r :: es => (r, isDirect r && w = r) :: reads es
  | .ioread32 r :: es => (r, false) :: reads es
  | _ :: es => reads es
  | [] => []

/-- The values of the reads that have a reply, without those for the log. -/
def readValues (run : Run Event Contents) : List Word :=
  ((reads run.done).zip run.heard).filterMap fun x => if x.1.2 then none else some (x.2 x.1.1)

/-- The words written, with their byte addresses. -/
def writes (es : List Event) : List (Word × BitVec 32) :=
  es.filterMap fun e => match e with
    | .iowrite32 value r => some (value, byteAddress r)
    | _ => none

end Hardware

/-- The reads of the device have given the same values, and if a run waits for a reply it is
that of such a read. -/
structure SameReads (sim : Run SimpleAsyncPacket Reply) (board : Run Event Contents) : Prop where
  values : readValues sim = Hardware.readValues board
  answered : ∀ q ∈ sim.done.drop sim.heard.length, isRead q = true
  logged : ∀ x ∈ (Hardware.reads board.done).drop board.heard.length, x.2 = false

/-! ### Conversations -/

theorem isRead_content {q : SimpleAsyncPacket} {address : BitVec 32}
    (content : q.content = (Access.read address).content) : isRead q = true :=
  decide_eq_true (congrArg Prod.fst content)

theorem Requested.uncut {phase : Phase} {qs : List SimpleAsyncPacket} {rs : List Reply}
    {u : List Access} {v : List Word} (h : Requested phase qs rs u v)
    (answered : ∀ q ∈ qs.drop rs.length, isRead q = true) : phase ≠ .cut := by
  induction h with
  | nil | waits => exact nofun
  | unanswered other =>
    have read := answered _ List.mem_cons_self
    rw [other] at read
    cases read
  | written _ _ _ ih | answered _ _ _ ih => exact ih answered

theorem Requested.values {phase : Phase} {qs : List SimpleAsyncPacket} {rs : List Reply}
    {u : List Access} {v : List Word} (h : Requested phase qs rs u v) (uncut : phase ≠ .cut) :
    readValues ⟨qs, rs⟩ = v := by
  induction h with
  | nil | waits => rfl
  | unanswered => exact absurd rfl uncut
  | written r content _ ih =>
    simpa [readValues, isRead_writeContent content] using ih uncut
  | answered r content _ ih =>
    simpa [readValues, isRead_content content] using ih uncut

theorem Requested.writes {phase : Phase} {qs : List SimpleAsyncPacket} {rs : List Reply}
    {u : List Access} {v : List Word} (h : Requested phase qs rs u v) (uncut : phase ≠ .cut) :
    sentWrites qs = (u.filterMap Access.written).map writeContent := by
  induction h with
  | nil => rfl
  | waits content => simp [sentWrites, isRead_content content, Access.written]
  | unanswered => exact absurd rfl uncut
  | written r content _ ih =>
    have sent := ih uncut
    simp only [sentWrites] at sent
    simp [sentWrites, isRead_writeContent content, Access.written, sent, content, Access.content]
  | answered r content _ ih =>
    have sent := ih uncut
    simp only [sentWrites] at sent
    simp [sentWrites, isRead_content content, List.filterMap_cons, Access.written, sent]

namespace Hardware

/-- A write to another register leaves the reads as they are. -/
theorem reads_written {r : Register} (other : isDirect r = false) (value : Word)
    (es : List Event) : reads (.iowrite32 value r :: es) = reads es := by
  cases es with
  | nil => rfl
  | cons e es =>
    cases e with
    | iowrite32 | copyToUser => rfl
    | ioread32 r' =>
      have same : (isDirect r' && decide (r = r')) = false := by
        by_cases same : r = r'
        · rw [← same, other, Bool.false_and]
        · rw [decide_eq_false same, Bool.and_false]
      simp only [reads, same]

theorem Accessed.uncut {phase : Phase} {es : List Event} {cs : List Contents} {u : List Access}
    {v : List Word} (h : Accessed phase es cs u v)
    (logged : ∀ x ∈ (reads es).drop cs.length, x.2 = false) : phase ≠ .cut := by
  induction h with
  | nil | waits => exact nofun
  | @unlogged r direct =>
    have log := logged (r, isDirect r && decide (r = r)) List.mem_cons_self
    simp [direct] at log
  | written value other _ ih => exact ih (by rwa [reads_written other] at logged)
  | logged _ _ _ _ ih | answered _ _ _ ih | copied _ _ ih => exact ih logged

theorem Accessed.values {phase : Phase} {es : List Event} {cs : List Contents} {u : List Access}
    {v : List Word} (h : Accessed phase es cs u v) (uncut : phase ≠ .cut) :
    readValues ⟨es, cs⟩ = v := by
  induction h with
  | nil | waits => rfl
  | unlogged => exact absurd rfl uncut
  | written value other _ ih =>
    simpa only [readValues, reads_written other] using ih uncut
  | logged value c direct _ ih => simpa [readValues, reads, direct] using ih uncut
  | answered r c _ ih => simpa [readValues, reads] using ih uncut
  | copied words _ ih => exact ih uncut

theorem Accessed.writes {phase : Phase} {es : List Event} {cs : List Contents} {u : List Access}
    {v : List Word} (h : Accessed phase es cs u v) (uncut : phase ≠ .cut) :
    writes es = u.filterMap Access.written := by
  induction h with
  | nil | waits => rfl
  | unlogged => exact absurd rfl uncut
  | written value _ _ ih | logged value _ _ _ ih =>
    have rest := ih uncut
    simp only [Hardware.writes] at rest
    simp [Hardware.writes, Access.written, rest]
  | answered _ _ _ ih | copied _ _ ih => exact ih uncut

end Hardware

/-! ### The result -/

/-- A sequence of calls, until one ends the process. -/
def Sim.calls (c : Caller) (unset : Word) (calls : List UserCall) : Io Unit :=
  calls.forM (Sim.perform c unset)

def Hardware.calls (init : InitStat) (c : Caller) (unset : Word) (calls : List UserCall) :
    Kern.Io Unit :=
  calls.forM (Hardware.perform init c unset)

/-- A root caller makes corresponding calls in both worlds, none of which gets as far as
recording the group of an output port, and the device reads give the same values. Then the
requests other than reads are the writes of the kernel driver, each with its value and byte
address, and only the word `0x80000000` makes a request to leave. -/
theorem same_writes (root : Root) (init : InitStat) (unset unset' : Word) {calls : List UserCall}
    (short : ∀ call ∈ calls, ¬ call.MapsOutport root.toCaller) (id : Nat) (rs : List Reply)
    (cs : List Contents)
    (same : SameReads (run (Sim.calls root.toCaller unset calls) id rs)
      (run (Hardware.calls init root.toCaller unset' calls) () cs)) :
    sentWrites (run (Sim.calls root.toCaller unset calls) id rs).done =
      (Hardware.writes (run (Hardware.calls init root.toCaller unset' calls) () cs).done).map
        writeContent := by
  have sim : Realises requestView (Sim.calls root.toCaller unset calls)
      (calls.forM (Spec.perform root.toCaller)) :=
    realises_forM fun call member => realises_sim _ unset (short call member)
  have board : Realises Hardware.registerView (Hardware.calls init root.toCaller unset' calls)
      (calls.forM (Spec.perform root.toCaller)) :=
    realises_forM fun call _ => Hardware.realises_hardware root.root unset' call
  obtain ⟨phase, u, v, requested, follows⟩ := sim.shows id rs
  obtain ⟨phase', u', v', accessed, follows'⟩ := board.shows () cs
  have uncut : phase ≠ .cut := Requested.uncut requested same.answered
  have uncut' : phase' ≠ .cut := Hardware.Accessed.uncut accessed same.logged
  -- the same values, so the same accesses
  have values : v = v' := by
    rw [← Requested.values requested uncut, ← Hardware.Accessed.values accessed uncut']
    exact same.values
  have accesses : u = u' := by
    rw [← follows uncut, ← follows' uncut', values]
  rw [Requested.writes requested uncut, Hardware.Accessed.writes accessed uncut', accesses]

/-- The administrator of a machine that knows the group `root`. -/
def administrator : Root where
  gid := 0
  groups := [0]
  getgrnam := fun name => if name = ['r', 'o', 'o', 't'] then some 0 else none
  longMax := 0x7fffffff
  root := rfl
  admin := by decide

/-- A rule, a packet read that is answered at the second poll, a direct write and the group of
an input port. -/
def callsOfAdministrator : List UserCall :=
  [.setupSFW 2 0x40000000 0x40000fff 1 1 0, .accessBramFW 1 2 3 5 0, .accessBram 0 1 2 7,
    .setGidPerNoCInport (some ['7']) 1]

def okReplies (words : List Word) : List Reply := words.map fun w => ⟨.okResponse, w⟩

theorem same_writes_of_administrator :
    sentWrites (run (Sim.calls administrator.toCaller 0 callsOfAdministrator) 0
        (okReplies [0, 0, 0, 0, 0, 0x80000000, 0x55, 0, 0])).done =
      (Hardware.writes (run (Hardware.calls ⟨fun _ => 0, fun _ => 0, fun _ => 0⟩
        administrator.toCaller 0 callsOfAdministrator) ()
        [fun _ => 0x80000000, fun _ => 0x55, fun _ => 7]).done).map writeContent := by
  refine same_writes administrator _ 0 0 ?_ 0 _ _
    ⟨by decide +kernel, by decide +kernel, by decide +kernel⟩
  simp [callsOfAdministrator, UserCall.MapsOutport]

/-- The data words and addresses of the requests to write. -/
def deviceWrites (qs : List SimpleAsyncPacket) : List (Word × BitVec 32) :=
  (qs.filter fun q => q.command = AsyncCommand.write.code).map fun q => (q.data, q.address)

/-- A packet write of the word `0x80000000` is no write to the simulated device; and the group
of output port 1 is written to another place of the table. -/
theorem writes_differ :
    (¬ ∀ (root : Root) (init : InitStat) (unset unset' : Word) (calls : List UserCall) (id : Nat)
      (rs : List Reply) (cs : List Contents),
      (∀ call ∈ calls, ¬ call.MapsOutport root.toCaller) →
      SameReads (run (Sim.calls root.toCaller unset calls) id rs)
        (run (Hardware.calls init root.toCaller unset' calls) () cs) →
      deviceWrites (run (Sim.calls root.toCaller unset calls) id rs).done =
        Hardware.writes (run (Hardware.calls init root.toCaller unset' calls) () cs).done) ∧
    ¬ ∀ (root : Root) (init : InitStat) (unset unset' : Word) (calls : List UserCall) (id : Nat)
      (rs : List Reply) (cs : List Contents),
      SameReads (run (Sim.calls root.toCaller unset calls) id rs)
        (run (Hardware.calls init root.toCaller unset' calls) () cs) →
      sentWrites (run (Sim.calls root.toCaller unset calls) id rs).done =
        (Hardware.writes (run (Hardware.calls init root.toCaller unset' calls) () cs).done).map
          writeContent := by
  constructor
  · intro claim
    have same := claim administrator ⟨fun _ => 0, fun _ => 0, fun _ => 0⟩ 0 0
      [.accessBramFW 0 1 1 0x80 0] 0 (okReplies [0]) []
      (by simp [UserCall.MapsOutport]) ⟨by decide, by decide, by decide⟩
    exact absurd same (by decide)
  · intro claim
    have same := claim administrator ⟨fun _ => 0, fun _ => 0, fun _ => 0⟩ 0 0
      [.setGidPerNoCOutport (some ['7']) 1] 0 (okReplies [0]) []
      ⟨by decide, by decide, by decide⟩
    exact absurd same (by decide)

end ScCosim.Driver
