import PracticeSuite.PacketBytes
import PracticeSuite.SnifferQueue
import PracticeSuite.Trace

/-! The sniffer as a machine over its two queues. A packet handler call and a
timeout call are each one step; the threads that issue them may alternate in any
order. Only the TCP case of the handler touches the queues. -/
namespace PracticeSuite.Sniffer
open PacketBytes SnifferQueue

structure Queues where
  waitQueue : Queue
  connectedQueue : Queue
  deriving DecidableEq, Repr

def initial : Queues := ⟨[],[]⟩

def finOrRst (flags : UInt8) : Bool := flags &&& 0x01 ≠ 0 || (flags >>> 2) &&& 0x01 ≠ 0

def gotPacket (now : Int) (packet : Packet) (q : Queues) : Queues :=
  let ip := sniffIp packet sizeEthernet
  let sizeIp := ipHl ip*4
  if sizeIp < 20 then q
  else if ip.ipP = ipprotoTcp then
    let tcp := sniffTcp packet (sizeEthernet + sizeIp)
    let sizeTcp := thOff tcp*4
    if sizeTcp < 20 then q
    else
      let conn := elementCreate ip.ipSrc ip.ipDst tcp.thSport tcp.thDport now
      let q :=
        if tcp.thFlags = 0x02 then {q with waitQueue := elementPush q.waitQueue conn}
        else if tcp.thFlags = 0x12 then
          ⟨elementRemove q.waitQueue ip.ipDst ip.ipSrc tcp.thDport tcp.thSport,
            elementPush q.connectedQueue conn⟩
        else q
      if finOrRst tcp.thFlags then
        let removed := elementRemove q.connectedQueue ip.ipSrc ip.ipDst tcp.thSport tcp.thDport
        {q with connectedQueue := elementRemove removed ip.ipDst ip.ipSrc tcp.thDport tcp.thSport}
      else q
  else q

inductive Step where
  | gotPacket (now : Int) (packet : Packet)
  | checkTimeout (now : Int)

def step (q : Queues) : Step → Queues
  | .gotPacket now packet => gotPacket now packet q
  | .checkTimeout now => {q with waitQueue := checkTimeout (fun _ => now) q.waitQueue}

def run (steps : List Step) : Queues := Trace.run step initial steps

def packetIp (packet : Packet) : SniffIp := sniffIp packet sizeEthernet
def packetTcp (packet : Packet) : SniffTcp := sniffTcp packet (sizeEthernet + ipHl (packetIp packet)*4)

def Accepted (packet : Packet) : Prop :=
  20 ≤ ipHl (packetIp packet)*4 ∧ (packetIp packet).ipP = ipprotoTcp ∧ 20 ≤ thOff (packetTcp packet)*4
instance (packet) : Decidable (Accepted packet) := by unfold Accepted; infer_instance

def packetTuple (packet : Packet) : Tuple :=
  ⟨(packetIp packet).ipSrc,(packetIp packet).ipDst,(packetTcp packet).thSport,(packetTcp packet).thDport⟩

def packetFlags (packet : Packet) : UInt8 := (packetTcp packet).thFlags

def Syn (k : Tuple) (packet : Packet) : Prop :=
  Accepted packet ∧ packetFlags packet = 0x02 ∧ packetTuple packet = k
def SynAck (k : Tuple) (packet : Packet) : Prop :=
  Accepted packet ∧ packetFlags packet = 0x12 ∧ packetTuple packet = k
def Closing (k : Tuple) (packet : Packet) : Prop :=
  Accepted packet ∧ finOrRst (packetFlags packet) = true ∧ packetTuple packet = k
instance (k packet) : Decidable (Syn k packet) := by unfold Syn; infer_instance
instance (k packet) : Decidable (SynAck k packet) := by unfold SynAck; infer_instance
instance (k packet) : Decidable (Closing k packet) := by unfold Closing; infer_instance

/- Everything one handler call can do, guards included. Later proofs use these
four cases and never unfold the handler. -/
inductive Handled (now : Int) (packet : Packet) (q : Queues) : Queues → Prop
  | ignored (quiet : ∀ k, ¬ Syn k packet ∧ ¬ SynAck k packet ∧ ¬ Closing k packet) :
      Handled now packet q q
  | syn (k : Tuple) (seen : Syn k packet) (other : ∀ k, ¬ SynAck k packet ∧ ¬ Closing k packet) :
      Handled now packet q
        ⟨KeyedList.pushNew Address.tuple (k.address now) q.waitQueue,q.connectedQueue⟩
  | synAck (k : Tuple) (seen : SynAck k packet) (other : ∀ k, ¬ Syn k packet ∧ ¬ Closing k packet) :
      Handled now packet q
        ⟨KeyedList.eraseKey Address.tuple k.reverse q.waitQueue,
          KeyedList.pushNew Address.tuple (k.address now) q.connectedQueue⟩
  | closing (k : Tuple) (seen : Closing k packet) (other : ∀ k, ¬ Syn k packet ∧ ¬ SynAck k packet) :
      Handled now packet q
        ⟨q.waitQueue,KeyedList.eraseKey Address.tuple k.reverse
          (KeyedList.eraseKey Address.tuple k q.connectedQueue)⟩

theorem gotPacketRejected (now q) {packet} (rejected : ¬ Accepted packet) :
    gotPacket now packet q = q := by
  simp only [Accepted,packetTcp,packetIp,not_and_or,Nat.not_le] at rejected
  unfold gotPacket
  dsimp only
  split
  · rfl
  · split
    · split
      · rfl
      · rename_i long tcp data
        rcases rejected with short | other | short
        · exact absurd short long
        · exact absurd tcp other
        · exact absurd short data
    · rfl

theorem gotPacketAccepted (now q) {packet} (accepted : Accepted packet) :
    gotPacket now packet q =
      (let k := packetTuple packet
       let conn := k.address now
       let q : Queues :=
        if packetFlags packet = 0x02 then ⟨KeyedList.pushNew Address.tuple conn q.waitQueue,q.connectedQueue⟩
        else if packetFlags packet = 0x12 then
          ⟨KeyedList.eraseKey Address.tuple k.reverse q.waitQueue,
            KeyedList.pushNew Address.tuple conn q.connectedQueue⟩
        else q
       if finOrRst (packetFlags packet) then
        ⟨q.waitQueue,KeyedList.eraseKey Address.tuple k.reverse
          (KeyedList.eraseKey Address.tuple k q.connectedQueue)⟩
       else q) := by
  obtain ⟨ipLong,tcp,tcpLong⟩ := accepted
  simp only [packetIp,packetTcp] at ipLong tcp tcpLong
  simp only [gotPacket,if_neg (Nat.not_lt.mpr ipLong),if_pos tcp,if_neg (Nat.not_lt.mpr tcpLong),
    pushEq,removeEq]
  rfl

theorem gotPacketHandled (now packet q) : Handled now packet q (gotPacket now packet q) := by
  by_cases accepted : Accepted packet
  case neg =>
    rw [gotPacketRejected now q accepted]
    exact .ignored (fun k => ⟨fun h => accepted h.1,fun h => accepted h.1,fun h => accepted h.1⟩)
  rw [gotPacketAccepted now q accepted]
  -- The bare SYN and SYN-ACK flag bytes carry neither FIN nor RST.
  by_cases syn : packetFlags packet = 0x02
  · have closed : finOrRst (packetFlags packet) = false := by rw [syn]; decide
    have ack : packetFlags packet ≠ 0x12 := by rw [syn]; decide
    simp only [if_pos syn,closed,Bool.false_eq_true,if_false]
    exact .syn _ ⟨accepted,syn,rfl⟩ (fun k => ⟨fun h => ack h.2.1,fun h => by simp [h.2.1] at closed⟩)
  by_cases ack : packetFlags packet = 0x12
  · have closed : finOrRst (packetFlags packet) = false := by rw [ack]; decide
    simp only [if_neg syn,if_pos ack,closed,Bool.false_eq_true,if_false]
    exact .synAck _ ⟨accepted,ack,rfl⟩ (fun k => ⟨fun h => syn h.2.1,fun h => by simp [h.2.1] at closed⟩)
  · simp only [if_neg syn,if_neg ack]
    split
    · rename_i closed
      exact .closing _ ⟨accepted,closed,rfl⟩ (fun k => ⟨fun h => syn h.2.1,fun h => ack h.2.1⟩)
    · rename_i closed
      exact .ignored (fun k => ⟨fun h => syn h.2.1,fun h => ack h.2.1,fun h => closed h.2.1⟩)

end PracticeSuite.Sniffer
