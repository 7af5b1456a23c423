import ScCosim.Firewall.Switching

/-!
# What the switch delivers

Every packet goes to the output that its destination field names, as it was sent, at most
once, and in order among the packets of one source for one output. None is lost as long as the
switch processes find room for what they move.
-/
namespace ScCosim.Firewall

open Kernel

/-! ### The route of a packet -/

/-- The packets from port `s` for port `k`. -/
def classOf (s k : Port) (f : Flit) : Bool := f.origin.port = s ∧ portOf (dest f.word) = k

theorem leads_classOf {s k : Port} {f : Flit} (c : classOf s k f = true) :
    switchRoutes.entry f = .inFifo s ∧
      switchRoutes.Leads f (.inFifo s) [.stage (stageOf s) (stageOf k), .outFifo k] := by
  obtain ⟨rfl, rfl⟩ : f.origin.port = s ∧ portOf (dest f.word) = k := by simpa [classOf] using c
  rw [portOf_dest]
  -- the two bits pick the switch of the second stage and its exit
  refine ⟨rfl, ?_, ?_, rfl⟩
  · cases high : nextPosition f.word <;> cases nextPosition (rotateDest f.word) <;>
      simp only [switchRoutes, high] <;> rfl
  · cases nextPosition f.word <;> cases low : nextPosition (rotateDest f.word) <;>
      simp only [switchRoutes, low] <;> rfl

namespace Device

/-- The packets from `s` to `k` in order, given what has been written and taken. -/
def Orderly (d : Device) (s k : Port) (written taken : List Flit) : Prop :=
  Routes.InOrder (classOf s k) [.inFifo s, .stage (stageOf s) (stageOf k), .outFifo k]
    d.switch.hold written taken

theorem atDest_of_orderly {d : Device} {written taken : Port → List Flit}
    (h : ∀ s k, d.Orderly s k (written s) (taken k)) : d.AtDest := by
  intro k f member
  by_contra other
  -- the packet would be off the route of its class
  have off := (h f.origin.port (portOf (dest f.word))).off (.outFifo k) (by simp [Ne.symm other])
  have kept : f ∈ (d.switch.hold (.outFifo k)).filter (classOf f.origin.port (portOf (dest f.word))) :=
    List.mem_filter.mpr ⟨member, by simp [classOf]⟩
  simp [off] at kept

/-- What has been seen of the switch after a run, and what it holds. -/
structure Delivering (d : Device) (written taken : Port → List Flit) : Prop where
  ready : d.ready.Nodup
  forwarding : d.OwnForwarding
  orderly : ∀ s k, d.Orderly s k (written s) (taken k)
  taken : ∀ k, ∀ f ∈ taken k, portOf (dest f.word) = k

theorem ownForwarding_step {d e : Device} {a : (Action ⊕ (Port × Word)) ⊕ (Port × Word)}
    (ready : d.ready.Nodup) (own : d.OwnForwarding) (h : fedMachine.step d a = some e) :
    e.ready.Nodup ∧ e.OwnForwarding := by
  cases fedTransition_of_step h with
  | feed s w free => exact ⟨ready, own⟩
  | own a e step =>
    have transition := transition_of_openStep step
    refine ⟨nodup_step ready transition, ?_⟩
    intro i f at_
    cases portStep_of_transition ready transition i with
    | quiet t fifo setup pc ingress => exact own i f (by simpa [ingress] using at_)
    | sample was setup pc ingress => exact own i f (ingress ▸ at_)
    | edge clean setup pc ingress => exact own i f (ingress ▸ at_)
    | update setup pc ingress =>
      obtain ⟨total, droped, hits, ingress⟩ := ingress
      exact own i f (by simpa [ingress] using at_)
    | judge setup pc ingress =>
      rw [ingress] at at_
      -- a packet it is blocked with now was there before, or is of the word just taken
      rcases (IngressStep.run_flits i (portBits i) (d.setup i).fwRange (d.responces.responceS i).cur
        ⟨d.ingress i, d.switch.inFifo i, d.responces.initResponceFifo i, false⟩).2 f at_ with
        old | ⟨⟨w, rfl, -⟩, -⟩
      · exact own i f old
      · rfl

theorem delivering_step {d e : Device} {a : (Action ⊕ (Port × Word)) ⊕ (Port × Word)}
    {writtenSo takenSo : Port → List Flit} (h : d.Delivering writtenSo takenSo)
    (hs : fedMachine.step d a = some e) :
    e.Delivering (fun s => writtenSo s ++ fed s d a e) fun k => takenSo k ++ taken k d a e := by
  obtain ⟨ready, forwarding⟩ := ownForwarding_step h.ready h.forwarding hs
  obtain ⟨more, out, gone, move⟩ :=
    switchMove_of_step h.forwarding (atDest_of_orderly h.orderly) hs
  refine ⟨ready, forwarding, fun s k => ?_, fun k f member => ?_⟩
  · have next := (h.orderly s k).move (by simp) (fun f => leads_classOf) move.move
    -- of what comes in, the packets from `s` are those written to `in_fifo_s`
    have comes : (more.filter fun f => f.origin.port = s).filter (classOf s k) =
        more.filter (classOf s k) := by
      rw [List.filter_filter]
      exact List.filter_congr fun f _ => by by_cases from_ : f.origin.port = s <;> simp [classOf, from_]
    have goes : (out.filter fun f => portOf (dest f.word) = k).filter (classOf s k) =
        out.filter (classOf s k) := by
      rw [List.filter_filter]
      exact List.filter_congr fun f _ => by
        by_cases for_ : portOf (dest f.word) = k <;> simp [classOf, for_]
    refine next.relabel ?_ ?_
    · rw [List.filter_append, List.filter_append, move.written, comes]
    · rw [List.filter_append, List.filter_append, move.taken, goes]
  · rcases List.mem_append.mp member with old | new
    · exact h.taken k f old
    · rw [move.taken] at new
      simpa using (List.mem_filter.mp new).2

theorem delivering_of_run {d : Device} {as : List ((Action ⊕ (Port × Word)) ⊕ (Port × Word))}
    (hr : fedMachine.run new as = some d) :
    d.Delivering (fun s => fedMachine.trace (fed s) new as)
      fun k => fedMachine.trace (taken k) new as := by
  refine fedMachine.run_history (I := fun as d =>
    d.Delivering (fun s => fedMachine.trace (fed s) new as)
      fun k => fedMachine.trace (taken k) new as) ?_ ?_ hr
  · exact ⟨List.nodup_nil, by simp [OwnForwarding, fedMachine, new, Ingress.new],
      fun s k => ⟨fun p _ => by cases p <;> rfl, List.Sublist.refl _⟩, by simp⟩
  · intro as d a e (before : fedMachine.run new as = some d) h step
    simpa only [Machine.trace_snoc _ before step] using delivering_step h step

/-! ### The memory access -/

/-- The address ranges of `bus_mem0` to `bus_mem3`. -/
def busMem : Port → Word × Word
  | 0 => (0x40000000, 0x40000FFF)
  | 1 => (0x40001000, 0x40001FFF)
  | 2 => (0x40002000, 0x40002FFF)
  | 3 => (0x40003000, 0x40003FFF)

/-- The address of the cell that a word names at port `k`. -/
def cellAddress (k : Port) (w : Word) : Word := memBase k + (addrOffset w).zeroExtend 32

theorem cellAddress_inside (k : Port) (w : Word) :
    (busMem k).1 ≤ cellAddress k w ∧ cellAddress k w ≤ (busMem k).2 := by
  unfold cellAddress memBase
  have bound := (addrOffset w).isLt
  match k with
  | 0 | 1 | 2 | 3 => constructor <;> simp [busMem, BitVec.le_def] <;> omega

/-- Between `d` and `e` port `k` has accessed the memory for this packet, and no other cell. -/
structure Accesses (k : Port) (d e : Device) (f : Flit) : Prop where
  write : opcode f.word ≠ 1 →
    e.mem = Function.update d.mem k (Function.update (d.mem k)
      (cellAddress k f.word - (busMem k).1) (pack 0 0 0 0 (data f.word))) ∧
    (e.egress k).handshake.outAddrToRead.next = cellAddress k f.word
  read : opcode f.word = 1 → e.mem = d.mem ∧ ∃ g : Flit, g.origin = f.origin ∧
    g.word = EgressStep.answer f.word (d.mem k (cellAddress k f.word - (busMem k).1)) ∧
    (e.responces.responceFifo k = (d.responces.responceFifo k).push g ∨
      (e.egress k).pc = .writeResponce g)

theorem busMem_start (k : Port) : (busMem k).1 = memBase k := by
  match k with
  | 0 | 1 | 2 | 3 => rfl

theorem accesses_interfaceOut (d : Device) (k : Port) {f : Flit}
    (member : f ∈ (d.switch.outFifo k).readOff ((d.exec (.interfaceOut k)).switch.outFifo k)) :
    Accesses k d (d.exec (.interfaceOut k)) f := by
  have spec := EgressStep.run_spec (memBase k)
    ⟨d.egress k, d.switch.outFifo k, d.responces.responceFifo k, d.mem k, false⟩
  have result : d.exec (.interfaceOut k) =
      { d.interfaceOut k (memBase k) with ready := d.ready.erase (.interfaceOut k), dirty := true } := by
    rw [exec, process_interfaceOut]
  rw [result] at member ⊢
  simp only [interfaceOut, Function.update_self] at member
  -- the run that takes a packet either answers it or writes it
  have taken : ∀ {g : Flit} {rest : Fifo Flit}, (d.switch.outFifo k).nbRead = some (g, rest) →
      f ∈ (d.switch.outFifo k).readOff rest → f = g := by
    intro g rest read member
    simpa [Fifo.readOff_of_nbRead read] using member
  generalize same : EgressStep.run (memBase k)
    ⟨d.egress k, d.switch.outFifo k, d.responces.responceFifo k, d.mem k, false⟩ = t at spec member
  cases spec with
  | start | init | rest | lower => simp at member
  | resume g => simp [(EgressStep.writeResponce_flits _ _).2.2.1] at member
  | write g rest pc free read op =>
    obtain rfl := taken read (by simpa [EgressStep.write] using member)
    refine ⟨fun _ => ⟨?_, ?_⟩, fun read => absurd read op⟩
    · simp [interfaceOut, same, EgressStep.write, cellAddress, busMem_start]
    · simp [interfaceOut, same, EgressStep.write, cellAddress, Handshake.raise]
  | read g rest cell pc free read op value =>
    obtain rfl := taken read (by simpa [(EgressStep.writeResponce_flits _ _).2.2.1] using member)
    refine ⟨fun other => absurd op other, fun _ => ?_⟩
    have value : cell = d.mem k (cellAddress k f.word - (busMem k).1) := by
      rw [value, busMem_start]
      rfl
    rcases EgressStep.writeResponce_spec
      { (⟨d.egress k, d.switch.outFifo k, d.responces.responceFifo k, d.mem k, false⟩ : EgressStep)
        with outFifo := rest, egress.isWriteOp := false }
      { f with word := EgressStep.answer f.word cell } with room | full
    · rw [room] at same
      refine ⟨by simp [interfaceOut, same], { f with word := EgressStep.answer f.word cell }, rfl,
        by rw [← value], Or.inl ?_⟩
      simp [interfaceOut, same]
    · rw [full] at same
      refine ⟨by simp [interfaceOut, same], { f with word := EgressStep.answer f.word cell }, rfl,
        by rw [← value], Or.inr ?_⟩
      simp [interfaceOut, same]

theorem accesses_of_step {d e : Device} {a : (Action ⊕ (Port × Word)) ⊕ (Port × Word)}
    (h : fedMachine.step d a = some e) {k : Port} {f : Flit} (member : f ∈ taken k d a e) :
    Accesses k d e f := by
  -- a step that leaves the output alone takes nothing from it
  have still : e.switch.outFifo k = d.switch.outFifo k → Accesses k d e f := by
    intro same
    simp [taken, same] at member
  cases fedTransition_of_step h with
  | feed s w free => exact still rfl
  | own a e step =>
    cases transition_of_openStep step with
    | request | edge | arrive => exact still rfl
    | delta => simp [taken, update] at member
    | run q runnable =>
      by_cases own : q = .interfaceOut k
      · subst own
        exact d.accesses_interfaceOut k member
      by_cases switch : ∃ j, q = .entrySw j
      · obtain ⟨j, rfl⟩ := switch
        have none := (d.switchMove_entrySw j).taken k
        rw [taken] at none member
        simp [none] at member
      by_cases ingress : ∃ i, q = .interfaceIn i
      · obtain ⟨i, rfl⟩ := ingress
        exact still (by simp [exec, interfaceIn])
      by_cases egress : ∃ j, q = .interfaceOut j
      · obtain ⟨j, rfl⟩ := egress
        have apart : k ≠ j := fun same => own (by rw [same])
        exact still (by simp [exec, interfaceOut, apart])
      · simp only [not_exists] at switch ingress egress
        exact still (congrFun (congrArg Switch.outFifo (d.process_switch ingress egress switch)) k)

/-! ### Delivery -/

theorem dest_eq_iff (w : Word) (k : Port) : dest w = portBits k ↔ portOf (dest w) = k := by
  constructor
  · intro same
    rw [same, portOf_portBits]
  · rintro rfl
    generalize dest w = b
    match b with
    | 0 | 1 | 2 | 3 => rfl

/-- What the outputs take has the output's number as its destination, is accessed at the cell
the word names, and is among the words written to the inputs: as it was written, each at most
once, and for one source and one output in the order of the writes. -/
theorem switch_delivers {d : Device} {as : List ((Action ⊕ (Port × Word)) ⊕ (Port × Word))}
    (hr : fedMachine.run new as = some d) :
    (∀ k, ∀ f ∈ fedMachine.trace (taken k) new as, dest f.word = portBits k) ∧
      (∀ s k, (((fedMachine.trace (taken k) new as).filter fun f => f.origin.port = s).map
        Flit.word).Sublist (((fedMachine.trace (fed s) new as).map Flit.word).filter
          fun w => dest w = portBits k)) ∧
      ∀ a e, fedMachine.step d a = some e → ∀ k, ∀ f ∈ taken k d a e,
        Accesses k d e f ∧ (busMem k).1 ≤ cellAddress k f.word ∧
          cellAddress k f.word ≤ (busMem k).2 := by
  have h := delivering_of_run hr
  refine ⟨fun k f member => (dest_eq_iff _ _).mpr (h.taken k f member), fun s k => ?_,
    fun a e hs k f member => ⟨accesses_of_step hs member, cellAddress_inside k f.word⟩⟩
  have order := (List.sublist_append_left _ _).trans (h.orderly s k).order
  have mine : (fedMachine.trace (taken k) new as).filter (classOf s k) =
      (fedMachine.trace (taken k) new as).filter fun f => f.origin.port = s :=
    List.filter_congr fun f member => by simp [classOf, h.taken k f member]
  rw [mine] at order
  refine (order.map Flit.word).trans ?_
  rw [List.filter_map]
  refine List.Sublist.map _ (List.monotone_filter_right _ fun f c => ?_)
  have at_ : portOf (dest f.word) = k := (by simpa [classOf] using c : _ ∧ _).2
  simpa using (dest_eq_iff f.word k).mpr at_

/-- One clock cycle in which words are written to the inputs. -/
def fedCycle (put : List (Port × Word)) : List ((Action ⊕ (Port × Word)) ⊕ (Port × Word)) :=
  .inl (.inl .edge) :: put.map .inr ++ clocked.map (fun p => .inl (.inl (.run p))) ++
    [.inl (.inl .delta)]

/-- Ports 0 and 2 send a write to BRAM 3, and port 2 a second one. -/
def crossing : List ((Action ⊕ (Port × Word)) ⊕ (Port × Word)) :=
  fedCycle [] ++ fedCycle [(0, pack 1 0 0 3 7), (2, pack 2 0 0 3 8), (2, pack 3 0 0 3 9)] ++
    fedCycle [] ++ fedCycle [] ++ fedCycle []

theorem switch_delivers_of_crossing : ∃ d, fedMachine.run new crossing = some d ∧
    (fedMachine.trace (taken 3) new crossing).map Flit.word = [pack 1 0 0 3 7] ∧
    (∀ s k, (((fedMachine.trace (taken k) new crossing).filter fun f => f.origin.port = s).map
      Flit.word).Sublist (((fedMachine.trace (fed s) new crossing).map Flit.word).filter
        fun w => dest w = portBits k)) := by
  have possible : (fedMachine.run new crossing).isSome = true := by decide +kernel
  obtain ⟨d, run⟩ := Option.isSome_iff_exists.mp possible
  exact ⟨d, run, by decide +kernel, (switch_delivers run).2.1⟩

/-! ### Conservation -/

/-- What has come in is what has gone out, what is held and what the switches have lost; they
have lost nothing exactly if they have always found room. -/
theorem balanced_of_run {d : Device} {as : List ((Action ⊕ (Port × Word)) ⊕ (Port × Word))}
    (hr : fedMachine.run new as = some d) : ∃ lost,
    Routes.Balanced d.switch.hold
      (∑ s, (fedMachine.trace (fed s) new as : Multiset Flit))
      (∑ k, (fedMachine.trace (taken k) new as : Multiset Flit)) lost ∧
      (lost = 0 ↔ fedMachine.Along HasRoom new as) := by
  refine fedMachine.run_history (I := fun as d => ∃ lost,
    Routes.Balanced d.switch.hold
      (∑ s, (fedMachine.trace (fed s) new as : Multiset Flit))
      (∑ k, (fedMachine.trace (taken k) new as : Multiset Flit)) lost ∧
      (lost = 0 ↔ fedMachine.Along HasRoom new as)) ?_ ?_ hr
  · have empty : Routes.total fedMachine.init.switch.hold = 0 :=
      Finset.sum_eq_zero fun r _ => by cases r <;> rfl
    exact ⟨0, by simp [Routes.Balanced, empty], by simp [Machine.Along]⟩
  · rintro as d a e (before : fedMachine.run new as = some d) ⟨lost, balance, room⟩ step
    have h := delivering_of_run before
    obtain ⟨more, out, gone, move⟩ :=
      switchMove_of_step h.forwarding (atDest_of_orderly h.orderly) step
    refine ⟨lost + gone, ?_, ?_⟩
    · have next := balance.move move.move
      have comes : (∑ s, (fedMachine.trace (fed s) new (as ++ [a]) : Multiset Flit)) =
          (∑ s, (fedMachine.trace (fed s) new as : Multiset Flit)) + more := by
        simp only [Machine.trace_snoc _ before step, move.written, ← Multiset.coe_add,
          Finset.sum_add_distrib, Routes.sum_filter fun f : Flit => f.origin.port]
      have goes : (∑ k, (fedMachine.trace (taken k) new (as ++ [a]) : Multiset Flit)) =
          (∑ k, (fedMachine.trace (taken k) new as : Multiset Flit)) + out := by
        simp only [Machine.trace_snoc _ before step, move.taken, ← Multiset.coe_add,
          Finset.sum_add_distrib, Routes.sum_filter fun f : Flit => portOf (dest f.word)]
      rw [comes, goes]
      exact next
    · rw [Machine.along_snoc before, ← room, ← move.room, ← Multiset.card_eq_zero,
        Multiset.card_add, Nat.add_eq_zero_iff, Multiset.card_eq_zero, Multiset.card_eq_zero,
        Multiset.coe_eq_zero]

/-- The words written to the inputs are those taken by the outputs and those still held, each
as often as it occurs. -/
def Conserves (d : Device) (as : List ((Action ⊕ (Port × Word)) ⊕ (Port × Word))) : Prop :=
  (∑ s, (fedMachine.trace (fed s) new as : Multiset Flit)).map Flit.word =
    (∑ k, (fedMachine.trace (taken k) new as : Multiset Flit)).map Flit.word +
      (Routes.total d.switch.hold).map Flit.word

/-- The switch keeps every packet exactly if each packet that a switch process moves finds a
free place. -/
theorem switch_conserves_iff {d : Device}
    {as : List ((Action ⊕ (Port × Word)) ⊕ (Port × Word))}
    (hr : fedMachine.run new as = some d) :
    Conserves d as ↔ fedMachine.Along HasRoom new as := by
  obtain ⟨lost, balance, room⟩ := balanced_of_run hr
  rw [Routes.Balanced] at balance
  rw [← room, Conserves, balance, Multiset.map_add, Multiset.map_add]
  constructor
  · intro conserved
    have sizes := congrArg Multiset.card conserved
    simp only [Multiset.card_add, Multiset.card_map] at sizes
    exact Multiset.card_eq_zero.mp (by omega)
  · rintro rfl
    rw [Multiset.map_zero, add_zero]

theorem switch_conserves_iff_of_crossing : ∃ d, fedMachine.run new crossing = some d ∧
    (Conserves d crossing ↔ fedMachine.Along HasRoom new crossing) := by
  have possible : (fedMachine.run new crossing).isSome = true := by decide +kernel
  obtain ⟨d, run⟩ := Option.isSome_iff_exists.mp possible
  exact ⟨d, run, switch_conserves_iff run⟩

/-- Ten words from port 0 and ten from port 2, all for BRAM 0, whose receiver takes four cycles
for each. -/
def congestion : List ((Action ⊕ (Port × Word)) ⊕ (Port × Word)) :=
  fedCycle (List.replicate 10 (0, pack 0 0 0 0 1) ++ List.replicate 10 (2, pack 0 0 2 0 2)) ++
    (List.replicate 16 (fedCycle [])).flatten

/-- The output FIFO is full, and a packet is lost. -/
theorem switch_loses_packet : ¬ ∀ (d : Device) (as : List ((Action ⊕ (Port × Word)) ⊕ (Port × Word))),
    fedMachine.run new as = some d → Conserves d as := by
  intro claim
  have possible : (fedMachine.run new congestion).isSome = true := by decide +kernel
  obtain ⟨d, run⟩ := Option.isSome_iff_exists.mp possible
  have sizes := congrArg Multiset.card (claim d congestion run)
  simp only [Multiset.card_add, Multiset.card_map, Multiset.card_sum, Multiset.coe_card,
    Routes.total] at sizes
  have held : ((fedMachine.run new congestion).map fun d => ∑ r, (d.switch.hold r).length) =
      some 15 := by decide +kernel
  have comes : (∑ s, (fedMachine.trace (fed s) new congestion).length) = 20 := by
    decide +kernel
  have goes : (∑ k, (fedMachine.trace (taken k) new congestion).length) = 4 := by
    decide +kernel
  rw [run, Option.map_some, Option.some.injEq] at held
  omega

end Device

end ScCosim.Firewall
