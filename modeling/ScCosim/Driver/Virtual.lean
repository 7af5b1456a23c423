import ScCosim.Driver.Accesses

/-!
# The virtual driver's accesses

Over TCP every request takes one reply, so a request with its reply shows one access. A
request that is not a read and has no reply yet cuts a run short.
-/
namespace ScCosim.Driver

open Kernel Program Async Firewall

/-- Requests and replies, and the accesses and values they show. -/
inductive Requested :
    Phase → List SimpleAsyncPacket → List Reply → List Access → List Word → Prop where
  | nil : Requested .whole [] [] [] []
  | waits {q : SimpleAsyncPacket} {address : BitVec 32}
      (content : q.content = (Access.read address).content) :
      Requested .waiting [q] [] [.read address] []
  | unanswered {q : SimpleAsyncPacket} (other : isRead q = false) (u : List Access) (v : List Word) :
      Requested .cut [q] [] u v
  | written {phase : Phase} {q : SimpleAsyncPacket} {qs : List SimpleAsyncPacket} {rs : List Reply}
      {w : Word × BitVec 32} {u : List Access} {v : List Word} (r : Reply)
      (content : q.content = (Access.write w).content) (rest : Requested phase qs rs u v) :
      Requested phase (q :: qs) (r :: rs) (.write w :: u) v
  | answered {phase : Phase} {q : SimpleAsyncPacket} {qs : List SimpleAsyncPacket} {rs : List Reply}
      {address : BitVec 32} {u : List Access} {v : List Word} (r : Reply)
      (content : q.content = (Access.read address).content) (rest : Requested phase qs rs u v) :
      Requested phase (q :: qs) (r :: rs) (.read address :: u) (r.value :: v)

theorem Requested.append {phase : Phase} {qs qs' : List SimpleAsyncPacket} {rs rs' : List Reply}
    {u u' : List Access} {v v' : List Word} (h : Requested .whole qs rs u v)
    (h' : Requested phase qs' rs' u' v') :
    Requested phase (qs ++ qs') (rs ++ rs') (u ++ u') (v ++ v') := by
  generalize whole : Phase.whole = first at h
  induction h with
  | nil => exact h'
  | waits | unanswered => cases whole
  | written r content _ ih => exact .written r content (ih whole)
  | answered r content _ ih => exact .answered r content (ih whole)

def requestView : View SimpleAsyncPacket Reply Access Word :=
  ⟨Requested, .nil, .append⟩

/-! ### The requests -/

theorem isRead_writeContent {q : SimpleAsyncPacket} {w : Word × BitVec 32}
    (content : q.content = writeContent w) : isRead q = false := by
  have command : q.command = (writeContent w).1 := congrArg Prod.fst content
  rw [isRead, command, writeContent]
  split <;> rfl

theorem realises_scIowrite32 (w : Word × BitVec 32) :
    Realises requestView (scIowrite32 .tcp w.1 w.2) (Spec.write w) := by
  rintro ⟨id, done, replies⟩
  let q : SimpleAsyncPacket := ⟨id, (writeContent w).1, .incompleteResponse, w.2, w.1⟩
  have content : q.content = writeContent w := rfl
  cases replies with
  | nil =>
    exact ⟨[q], [], rfl, rfl,
      .stopped (.unanswered (isRead_writeContent content) [] []) fun uncut => absurd rfl uncut⟩
  | cons r rest =>
    exact ⟨[q], [r], rfl, rfl, .returned (.written r content .nil) fun _ _ => rfl⟩

theorem realises_scIoread32 (address : BitVec 32) :
    Realises requestView (scIoread32 address) (Spec.read address) := by
  rintro ⟨id, done, replies⟩
  let q : SimpleAsyncPacket := ⟨id, AsyncCommand.read.code, .incompleteResponse, address, 0⟩
  cases replies with
  | nil => exact ⟨[q], [], rfl, rfl, .stopped (.waits rfl) fun _ _ => rfl⟩
  | cons r rest => exact ⟨[q], [r], rfl, rfl, .returned (.answered r rfl .nil) fun _ _ => rfl⟩

/-! ### The driver's functions -/

theorem realises_scSetupFW (a : ScFwDs) :
    Realises requestView (scSetupFW .tcp a) (Spec.setupFW a) :=
  realises_after (realises_modify fun _ => 1) (realises_forM fun w _ => realises_scIowrite32 w)

theorem realises_writePacket (a : ScAccessDs) :
    Realises requestView (writePacket .tcp a) (Spec.writePacket a) := by
  unfold writePacket Spec.writePacket
  cases iobram a.inputPort with
  | none => exact realises_pure ()
  | some base => exact realises_scIowrite32 (writeValue a, base + 5 * 4)

theorem realises_poll (port : Word) :
    Realises requestView (untilSome (pollResponce port)) (untilSome (Spec.pollResponce port)) := by
  unfold pollResponce Spec.pollResponce
  cases iobram port with
  | none =>
    simp only [untilSome_none]
    exact realises_stop
  | some base =>
    refine realises_untilSome ?_ (takes_of_read fun _ _ _ => fewer_of_scIoread32)
      (takes_of_read fun _ _ _ => Spec.fewer_of_read)
    exact realises_bind (realises_scIoread32 _) fun _ => realises_pure _

theorem realises_scAccessBramFW (a : ScAccessDs) :
    Realises requestView (scAccessBramFW .tcp a) (Spec.accessBramFW a) := by
  refine realises_bind (realises_writePacket a) fun _ => ?_
  split
  · exact realises_pure a
  · exact realises_bind (realises_poll _) fun _ => realises_pure _

theorem realises_scAccessBram (a : ScDirectAccessDs) :
    Realises requestView (scAccessBram .tcp a) (Spec.accessBram a) := by
  unfold scAccessBram Spec.accessBram
  cases iobramDirect a.bramNo with
  | none => exact realises_pure a
  | some base =>
    by_cases write : a.opCode = 0x0
    · simp only [if_pos write]
      exact realises_bind (realises_scIowrite32 (a.data, _)) fun _ => realises_pure a
    · simp only [if_neg write]
      exact realises_bind (realises_scIoread32 _) fun _ => realises_pure _

/-! ### The user calls -/

theorem realises_scUserAccessBramFW (opCode inport outport addrReg data : Word) :
    Realises requestView (Sim.scUserAccessBramFW opCode inport outport addrReg data)
      (Spec.userAccessBramFW opCode inport outport addrReg data) :=
  realises_orExit (m := id) (congrFun Except.map_id _).symm fun a =>
    realises_bind (realises_scAccessBramFW a) fun _ => realises_pure _

theorem realises_scUserAccessBram (opCode bramNo addrReg data : Word) :
    Realises requestView (Sim.scUserAccessBram opCode bramNo addrReg data)
      (Spec.userAccessBram opCode bramNo addrReg data) :=
  realises_orExit (m := id) (congrFun Except.map_id _).symm fun a =>
    realises_bind (realises_scAccessBram a) fun _ => realises_pure _

/-- What the output port of a simple setup holds makes no difference. -/
theorem realises_scUserSetupSFW (unset inport : Word) (l h : BitVec 64)
    (rule writeOps readOps : Word) :
    Realises requestView (Sim.scUserSetupSFW unset inport l h rule writeOps readOps) (do
      let a ← orExit (scUserSetupSFW 0 inport l h rule writeOps readOps)
      Spec.setupFW a) := by
  have same (a : ScFwDs) : Spec.setupFW { a with outputPort := unset } = Spec.setupFW a := rfl
  refine realises_orExit (m := fun a => { a with outputPort := unset }) ?_ fun a => ?_
  · simp only [scUserSetupSFW, map_refuseIf_bind]
    rfl
  · rw [← same]
    exact realises_scSetupFW _

/-- A call that gets as far as recording the group of an output port. -/
def UserCall.MapsOutport (c : Caller) : UserCall → Prop
  | .setGidPerNoCOutport groupName outport =>
    0 < outport.toInt ∧ outport.toInt ≤ userNocOutputPorts.toInt ∧
      0 ≤ (c.groupIdFromName groupName).toInt
  | _ => False

theorem realises_scSetGidPerNoCInport (c : Caller) (groupName : Option (List Char))
    (inport : Word) :
    Realises requestView (Sim.scSetGidPerNoCInport c groupName inport)
      (Spec.setGidPerNoCInport c groupName inport) := by
  refine realises_bind (realises_exitIf _) fun _ => ?_
  unfold Spec.setGid
  split
  · exact realises_bind (realises_exitIf _) fun _ =>
      realises_bind (realises_scUserAccessBramFW _ _ _ _ _) fun _ => realises_pure ()
  · exact realises_pure ()

/-- Short of the write, the offset makes no difference. -/
theorem realises_scSetGidPerNoCOutport (c : Caller) {groupName : Option (List Char)}
    {outport : Word} (short : ¬ (UserCall.setGidPerNoCOutport groupName outport).MapsOutport c) :
    Realises requestView (Sim.scSetGidPerNoCOutport c groupName outport)
      (Spec.setGidPerNoCOutport c groupName outport) := by
  unfold Sim.scSetGidPerNoCOutport Spec.setGidPerNoCOutport Spec.setGid
  split
  · exact realises_pure ()
  next inside =>
    split
    · -- an administrator's call for one of the ports can only fail on its group
      have invalid : (c.groupIdFromName groupName).slt 0 = true := by
        by_contra valid
        simp only [BitVec.sle_eq_decide, BitVec.slt_eq_decide, Bool.or_eq_true, decide_eq_true_eq,
          not_or, not_le, not_lt] at inside valid
        exact short ⟨inside.1, inside.2, valid⟩
      simp only [invalid]
      exact realises_stop
    · exact realises_pure ()

theorem realises_sim (c : Caller) (unset : Word) {call : UserCall} (short : ¬ call.MapsOutport c) :
    Realises requestView (Sim.perform c unset call) (Spec.perform c call) := by
  cases call with
  | setupSFW inport l h rule writeOps readOps => 
    exact realises_scUserSetupSFW unset inport l h rule writeOps readOps
  | setupCFW inport l h rule writeOps readOps outport =>
    exact realises_orExit (m := id) (congrFun Except.map_id _).symm realises_scSetupFW
  | accessBramFW opCode inport outport addrReg data =>
    exact realises_bind (realises_scUserAccessBramFW _ _ _ _ _) fun _ => realises_pure ()
  | accessBram opCode bramNo addrReg data =>
    exact realises_bind (realises_scUserAccessBram _ _ _ _) fun _ => realises_pure ()
  | setGidPerNoCInport groupName inport => exact realises_scSetGidPerNoCInport c _ _
  | setGidPerNoCOutport groupName outport => exact realises_scSetGidPerNoCOutport c short

end ScCosim.Driver
