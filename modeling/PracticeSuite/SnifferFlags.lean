import PracticeSuite.Sniffer

/-! Two runs of the sniffer on packets that differ only in the PSH, URG, ECE and CWR
bits. Closing packets are told by single bits, opening packets by the whole flag
byte, so the runs part where an opening packet carries one of the other bits. -/
namespace PracticeSuite.Sniffer
open PacketBytes SnifferQueue

def relevant : UInt8 := 0x17

def flagsOffset (packet : Packet) : Nat := sizeEthernet + ipHl (packetIp packet)*4 + 13

structure SameButFlags (p p' : Packet) : Prop where
  elsewhere : ∀ i, i ≠ flagsOffset p → p' i = p i
  flags : p' (flagsOffset p) &&& relevant = p (flagsOffset p) &&& relevant

theorem load16Same {p p' : Packet} {offset} (same : ∀ i, offset ≤ i → i ≤ offset+1 → p' i = p i) :
    load16 p' offset = load16 p offset := by
  unfold load16
  rw [same offset (by omega) (by omega),same (offset+1) (by omega) (by omega)]

theorem load32Same {p p' : Packet} {offset} (same : ∀ i, offset ≤ i → i ≤ offset+3 → p' i = p i) :
    load32 p' offset = load32 p offset := by
  unfold load32
  rw [same offset (by omega) (by omega),same (offset+1) (by omega) (by omega),
    same (offset+2) (by omega) (by omega),same (offset+3) (by omega) (by omega)]

theorem sameShape {p p'} (same : SameButFlags p p') : ipHl (packetIp p') = ipHl (packetIp p) ∧
    (packetIp p').ipP = (packetIp p).ipP ∧ thOff (packetTcp p') = thOff (packetTcp p) := by
  have vhl : ipHl (packetIp p') = ipHl (packetIp p) := by
    simp only [ipHl,packetIp,sniffIp]
    rw [same.elsewhere sizeEthernet (by unfold flagsOffset; omega)]
  refine ⟨vhl,same.elsewhere _ (by simp only [flagsOffset,sizeEthernet]; omega),?_⟩
  simp only [thOff,packetTcp,sniffTcp,vhl]
  rw [same.elsewhere _ (by unfold flagsOffset; omega)]

theorem sameAccepted {p p'} (same : SameButFlags p p') : Accepted p' ↔ Accepted p := by
  obtain ⟨vhl,proto,off⟩ := sameShape same
  unfold Accepted
  rw [vhl,proto,off]

theorem sameTuple {p p'} (same : SameButFlags p p') (accepted : Accepted p) : packetTuple p' = packetTuple p := by
  have long := accepted.1
  have vhl := (sameShape same).1
  have src : load32 p' (sizeEthernet+12) = load32 p (sizeEthernet+12) :=
    load32Same (fun i _ high => same.elsewhere i (by unfold flagsOffset; omega))
  have dst : load32 p' (sizeEthernet+16) = load32 p (sizeEthernet+16) :=
    load32Same (fun i _ high => same.elsewhere i (by unfold flagsOffset; omega))
  have sport : load16 p' (sizeEthernet + ipHl (packetIp p)*4) = load16 p (sizeEthernet + ipHl (packetIp p)*4) :=
    load16Same (fun i _ high => same.elsewhere i (by unfold flagsOffset; omega))
  have dport : load16 p' (sizeEthernet + ipHl (packetIp p)*4 + 2) = load16 p (sizeEthernet + ipHl (packetIp p)*4 + 2) :=
    load16Same (fun i _ high => same.elsewhere i (by unfold flagsOffset; omega))
  simp only [packetTuple,packetTcp,sniffTcp,vhl,sport,dport]
  simp only [packetIp,sniffIp,src,dst]

theorem sameFlags {p p'} (same : SameButFlags p p') : packetFlags p' &&& relevant = packetFlags p &&& relevant := by
  have flags := same.flags
  simp only [packetFlags,packetTcp,sniffTcp,(sameShape same).1]
  exact flags

theorem closingMasked (flags : UInt8) : finOrRst (flags &&& relevant) = finOrRst flags := by
  have each : ∀ n < 256, finOrRst (UInt8.ofNat n &&& relevant) = finOrRst (UInt8.ofNat n) := by decide +kernel
  simpa using each flags.toNat flags.toNat_lt

theorem sameClosing {p p'} (same : SameButFlags p p') : finOrRst (packetFlags p') = finOrRst (packetFlags p) := by
  rw [← closingMasked,sameFlags same,closingMasked]

def OpenAlike (p p' : Packet) : Prop :=
  Accepted p → (packetFlags p = 0x02 ↔ packetFlags p' = 0x02) ∧ (packetFlags p = 0x12 ↔ packetFlags p' = 0x12)

theorem gotPacketAlike {p p'} (same : SameButFlags p p') (alike : OpenAlike p p') (now q) :
    gotPacket now p q = gotPacket now p' q := by
  by_cases accepted : Accepted p
  · obtain ⟨syn,synAck⟩ := alike accepted
    rw [gotPacketAccepted now q accepted,gotPacketAccepted now q ((sameAccepted same).mpr accepted)]
    simp only [sameTuple same accepted,sameClosing same,syn,synAck]
  · rw [gotPacketRejected now q accepted,gotPacketRejected now q (fun h => accepted ((sameAccepted same).mp h))]

theorem gotPacketOpens {p} (now) (accepted : Accepted p) :
    ((gotPacket now p initial).waitQueue ≠ [] ↔ packetFlags p = 0x02) ∧
    ((gotPacket now p initial).connectedQueue ≠ [] ↔ packetFlags p = 0x12) := by
  have handled := gotPacketHandled now p initial
  generalize gotPacket now p initial = q at handled
  have notSyn : (¬ Syn (packetTuple p) p) → packetFlags p ≠ 0x02 := fun no flags => no ⟨accepted,flags,rfl⟩
  have notAck : (¬ SynAck (packetTuple p) p) → packetFlags p ≠ 0x12 := fun no flags => no ⟨accepted,flags,rfl⟩
  cases handled with
  | ignored quiet =>
    obtain ⟨noSyn,noAck,_⟩ := quiet (packetTuple p)
    exact ⟨iff_of_false (by simp [initial]) (notSyn noSyn),iff_of_false (by simp [initial]) (notAck noAck)⟩
  | syn k seen other =>
    refine ⟨iff_of_true ?_ seen.2.1,iff_of_false (by simp [initial]) (notAck (other _).1)⟩
    simp [initial,KeyedList.pushNew,KeyedList.lookup]
  | synAck k seen other =>
    refine ⟨iff_of_false ?_ (notSyn (other _).1),iff_of_true ?_ seen.2.1⟩
    · simp [initial,KeyedList.eraseKey]
    · simp [initial,KeyedList.pushNew,KeyedList.lookup]
  | closing k seen other =>
    obtain ⟨noSyn,noAck⟩ := other (packetTuple p)
    exact ⟨iff_of_false (by simp [initial]) (notSyn noSyn),
      iff_of_false (by simp [initial,KeyedList.eraseKey]) (notAck noAck)⟩

inductive StepAlike : Step → Step → Prop where
  | gotPacket (now : Int) {p p' : Packet} (same : SameButFlags p p') (alike : OpenAlike p p') :
      StepAlike (.gotPacket now p) (.gotPacket now p')
  | checkTimeout (now : Int) : StepAlike (.checkTimeout now) (.checkTimeout now)

theorem flagsIgnoredExactly (p p' : Packet) (steps steps' : List Step) :
    (SameButFlags p p' → ((∀ now q, gotPacket now p q = gotPacket now p' q) ↔ OpenAlike p p')) ∧
    (List.Forall₂ StepAlike steps steps' → ∀ q, Trace.run step q steps = Trace.run step q steps') := by
  refine ⟨fun same => ⟨fun equal accepted => ?_,gotPacketAlike same⟩,fun paired q => ?_⟩
  · obtain ⟨syn,ack⟩ := gotPacketOpens 0 accepted
    obtain ⟨syn',ack'⟩ := gotPacketOpens 0 ((sameAccepted same).mpr accepted)
    rw [← syn,← ack,← syn',← ack',equal]
    exact ⟨Iff.rfl,Iff.rfl⟩
  · refine Trace.runAlike (fun s e d alike => ?_) paired q
    cases alike with
    | gotPacket now same alike => exact gotPacketAlike same alike now s
    | checkTimeout now => rfl

def segment (flags : UInt8) : Packet := frame
  ([0,0,0,0,0,0,0,0,0,0,0,0,8,0] ++ [0x45,0,0,40,0,0,0,0,64,6,0,0,10,0,0,1,10,0,0,2] ++
    [4,1,0,80,0,0,0,0,0,0,0,0,0x50,flags,0,0,0,0,0,0])

theorem ecnSynIgnored : SameButFlags (segment 0x02) (segment 0xc2) ∧ Accepted (segment 0x02) ∧
    Trace.run step initial [.gotPacket 0 (segment 0x02)] ≠ Trace.run step initial [.gotPacket 0 (segment 0xc2)] := by
  refine ⟨⟨fun i other => ?_,by decide +kernel⟩,by decide +kernel,by decide +kernel⟩
  by_cases inside : i < 54
  · have each : ∀ i < 54, i ≠ flagsOffset (segment 0x02) → segment 0xc2 i = segment 0x02 i := by decide +kernel
    exact each i inside other
  · have beyond : ∀ flags, segment flags i = 0 := by
      intro flags
      exact List.getD_eq_default _ _ (by simp; omega)
    rw [beyond,beyond]

end PracticeSuite.Sniffer
