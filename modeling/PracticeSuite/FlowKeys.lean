import PracticeSuite.FlowTable
import PracticeSuite.PacketBytes

/-! The two sides that spell a flow key. The capture stores raw packet words; the
socket listing decodes the hexadecimal text of /proc/net/tcp and looks the result
up in the same table. -/
namespace PracticeSuite.FlowKeys
open PacketBytes FlowTable

def ipprotoUdp : UInt8 := 17

structure SniffUdp where
  uhSport : UInt16
  uhDport : UInt16
  deriving DecidableEq, Repr

def sniffUdp (packet : Packet) (offset : Nat) : SniffUdp := ⟨load16 packet offset,load16 packet (offset+2)⟩

def ntohs (word : UInt16) : UInt16 := UInt16.ofNat (word.toNat / 256 + 256*(word.toNat % 256))

/- `size_payload` is an int that may be negative; the call converts it to uint32_t. -/
def gotPacket (table : Table) (packet : Packet) : Table :=
  let ip := sniffIp packet sizeEthernet
  let sizeIp := ipHl ip*4
  if sizeIp < 20 then table
  else if ip.ipP = ipprotoTcp then
    let tcp := sniffTcp packet (sizeEthernet + sizeIp)
    let sizeTcp := thOff tcp*4
    if sizeTcp < 20 then table
    else
      let sizePayload : Int := (ntohs ip.ipLen).toNat - (sizeIp + sizeTcp)
      (addBandwidth table ip.ipSrc ip.ipDst tcp.thSport tcp.thDport (UInt32.ofInt sizePayload)).1
  else if ip.ipP = ipprotoUdp then
    let udp := sniffUdp packet (sizeEthernet + sizeIp)
    let sizeUdp := 8
    let sizePayload : Int := (ntohs ip.ipLen).toNat - (sizeIp + sizeUdp)
    (addBandwidth table ip.ipSrc ip.ipDst udp.uhSport udp.uhDport (UInt32.ofInt sizePayload)).1
  else table

def capture (packets : List Packet) : Table := Trace.run gotPacket none packets

def packetFlow (packet : Packet) : FlowKey :=
  let ip := sniffIp packet sizeEthernet
  let udp := sniffUdp packet (sizeEthernet + ipHl ip*4)
  ⟨ip.ipSrc,ip.ipDst,udp.uhSport,udp.uhDport⟩

theorem gotPacketAdds (table packet) :
    gotPacket table packet = table ∨ ∃ data, gotPacket table packet = add table ⟨packetFlow packet,data⟩ := by
  unfold gotPacket
  dsimp only
  split
  · exact .inl rfl
  · split
    · split
      · exact .inl rfl
      · exact .inr ⟨_,rfl⟩
    · split
      · exact .inr ⟨_,rfl⟩
      · exact .inl rfl

theorem captureCalls (packets : List Packet) : ∃ calls, capture packets = FlowTable.run calls ∧
    ∀ c ∈ calls, ∃ packet ∈ packets, c.flow = packetFlow packet := by
  induction packets using List.reverseRecOn with
  | nil => exact ⟨[],rfl,fun c mem => by cases mem⟩
  | append_singleton packets packet ih =>
    obtain ⟨calls,same,raw⟩ := ih
    have earlier : ∀ c ∈ calls, ∃ p ∈ packets ++ [packet], c.flow = packetFlow p := by
      intro c mem
      obtain ⟨p,inside,key⟩ := raw c mem
      exact ⟨p,List.mem_append_left _ inside,key⟩
    have next : capture (packets ++ [packet]) = gotPacket (capture packets) packet :=
      Trace.runSnoc gotPacket none packets packet
    rw [next,same]
    rcases gotPacketAdds (FlowTable.run calls) packet with kept | ⟨data,added⟩
    · exact ⟨calls,kept,earlier⟩
    · have longer : FlowTable.run (calls ++ [⟨packetFlow packet,data⟩]) =
          add (FlowTable.run calls) ⟨packetFlow packet,data⟩ := Trace.runSnoc add none calls _
      exact ⟨calls ++ [⟨packetFlow packet,data⟩],added.trans longer.symm,fun c mem => by
        rcases List.mem_append.mp mem with old | new
        · exact earlier c old
        · cases List.mem_singleton.mp new
          exact ⟨packet,List.mem_append_right _ (List.mem_singleton.mpr rfl),rfl⟩⟩

abbrev Text := Nat → Char

def hexStep (value : UInt32) : Char → UInt32
  | '0' => value*16
  | '1' => value*16 + 1
  | '2' => value*16 + 2
  | '3' => value*16 + 3
  | '4' => value*16 + 4
  | '5' => value*16 + 5
  | '6' => value*16 + 6
  | '7' => value*16 + 7
  | '8' => value*16 + 8
  | '9' => value*16 + 9
  | 'A' => value*16 + 10
  | 'B' => value*16 + 11
  | 'C' => value*16 + 12
  | 'D' => value*16 + 13
  | 'E' => value*16 + 14
  | 'F' => value*16 + 15
  | _ => value

structure Decoder where
  source : UInt32
  dest : UInt32
  reS : UInt32
  reD : UInt32
  deriving DecidableEq, Repr

def weight (i : Nat) : UInt32 :=
  if i = 7 then 16*16*16 else if i = 5 then 16*16 else if i = 3 then 16 else 1

def decodeStep (remAddr localAddr : Text) (s : Decoder) (i : Nat) : Decoder :=
  let dest := hexStep s.dest (remAddr i)
  let source := hexStep s.source (localAddr i)
  if i % 2 ≠ 0 then ⟨0,0,s.reS + source*weight i,s.reD + dest*weight i⟩
  else ⟨source,dest,s.reS,s.reD⟩

def decode (remAddr localAddr : Text) : Decoder :=
  (List.range 8).foldl (decodeStep remAddr localAddr) ⟨0,0,0,0⟩

def findNode (table : Table) (remAddr localAddr : Text) (remPort localPort : Int) : Option Bandwidth :=
  let s := decode remAddr localAddr
  lookupBandwidth table s.reS s.reD (UInt16.ofInt localPort) (UInt16.ofInt remPort)

/- The conversion of uint32_t to float: 24 significant bits, ties to even. Every
such float is an integer, so its value is a natural number. -/
def toFloat (data : UInt32) : Nat :=
  let n := data.toNat
  if n < 2^24 then n
  else
    let unit := 2^(Nat.log2 n - 23)
    let low := n / unit
    let rest := n % unit
    if 2*rest < unit ∨ (2*rest = unit ∧ low % 2 = 0) then low*unit else (low + 1)*unit

def findBandwidth (table : Table) (remAddr localAddr : Text) (remPort localPort : Int) : Nat :=
  match findNode table remAddr localAddr remPort localPort with
  | some temp => toFloat temp.data
  | none => 0

/- What a little-endian kernel prints in /proc/net/tcp: an address as the eight
digits of its in-memory word, most significant first; a port in host order, which
sscanf reads back as that number. -/
def upperHex (digit : Nat) : Char :=
  ['0','1','2','3','4','5','6','7','8','9','A','B','C','D','E','F'].getD digit '0'

def procAddress (addr : UInt32) : Text := fun i =>
  if i < 8 then upperHex (addr.toNat / 16^(7-i) % 16) else '\x00'

def procPort (port : UInt16) : Int := (ntohs port).toNat

def textByte (addr : UInt32) (i : Nat) : Nat := addr.toNat / 256^(3-i) % 256

def folded (addr : UInt32) : UInt32 :=
  UInt32.ofNat (textByte addr 0 + 16*textByte addr 1 + 256*textByte addr 2 + 4096*textByte addr 3)

theorem hexStepDigit (value : UInt32) {digit : Nat} (small : digit < 16) :
    hexStep value (upperHex digit) = value*16 + UInt32.ofNat digit := by
  interval_cases digit <;> first | rfl | simp [hexStep,upperHex]

theorem hexStepPair (n : Nat) :
    hexStep (hexStep 0 (upperHex (n / 16 % 16))) (upperHex (n % 16)) = UInt32.ofNat (n % 256) := by
  rw [hexStepDigit 0 (Nat.mod_lt _ (by omega)),hexStepDigit _ (Nat.mod_lt _ (by omega))]
  have split : n % 256 = n / 16 % 16*16 + n % 16 := by omega
  rw [split,UInt32.ofNat_add,UInt32.ofNat_mul]
  simp

theorem procAddressPair (addr : UInt32) {i : Nat} (inside : i < 4) :
    hexStep (hexStep 0 (procAddress addr (2*i))) (procAddress addr (2*i+1)) = UInt32.ofNat (textByte addr i) := by
  have square : 256 = 16^2 := rfl
  have high : addr.toNat / 16^(7-2*i) = addr.toNat / 256^(3-i) / 16 := by
    have exponent : 7-2*i = 2*(3-i) + 1 := by omega
    rw [exponent,square,pow_succ,pow_mul,Nat.div_div_eq_div_mul]
  have low : addr.toNat / 16^(7-(2*i+1)) = addr.toNat / 256^(3-i) := by
    have exponent : 7-(2*i+1) = 2*(3-i) := by omega
    rw [exponent,square,pow_mul]
  have first : 2*i < 8 := by omega
  have second : 2*i+1 < 8 := by omega
  simp only [procAddress,if_pos first,if_pos second,high,low]
  exact hexStepPair _

theorem decodePair (local_ rem : UInt32) (reS reD : UInt32) {i : Nat} (inside : i < 4) :
    let step := decodeStep (procAddress rem) (procAddress local_)
    step (step ⟨0,0,reS,reD⟩ (2*i)) (2*i+1) =
      ⟨0,0,reS + UInt32.ofNat (textByte local_ i)*weight (2*i+1),
        reD + UInt32.ofNat (textByte rem i)*weight (2*i+1)⟩ := by
  have even : ¬ 2*i % 2 ≠ 0 := by omega
  have odd : (2*i+1) % 2 ≠ 0 := by omega
  simp only [decodeStep,if_neg even,if_pos odd,procAddressPair _ inside]

theorem decodeProc (local_ rem : UInt32) :
    decode (procAddress rem) (procAddress local_) = ⟨0,0,folded local_,folded rem⟩ := by
  have unrolled : decode (procAddress rem) (procAddress local_) =
      let step := decodeStep (procAddress rem) (procAddress local_)
      step (step (step (step (step (step (step (step ⟨0,0,0,0⟩ (2*0)) (2*0+1)) (2*1)) (2*1+1)) (2*2)) (2*2+1))
        (2*3)) (2*3+1) := rfl
  rw [unrolled]
  simp only [decodePair _ _ _ _ (show 0 < 4 by omega),decodePair _ _ _ _ (show 1 < 4 by omega),
    decodePair _ _ _ _ (show 2 < 4 by omega),decodePair _ _ _ _ (show 3 < 4 by omega)]
  simp [folded,weight,UInt32.ofNat_add,UInt32.ofNat_mul,mul_comm]

def shownFlow (f : FlowKey) : FlowKey := ⟨folded f.source,folded f.dest,ntohs f.sport,ntohs f.dport⟩

theorem procPortShort (port : UInt16) : UInt16.ofInt (procPort port) = ntohs port := by
  have bound := (ntohs port).toNat_lt
  have short : ((procPort port) % 2^16).toNat = (ntohs port).toNat := by unfold procPort; omega
  unfold UInt16.ofInt
  rw [short,UInt16.ofNat_toNat]

def shownNode (table : Table) (f : FlowKey) : Option Bandwidth :=
  findNode table (procAddress f.dest) (procAddress f.source) (procPort f.dport) (procPort f.sport)

def shownBandwidth (table : Table) (f : FlowKey) : Nat :=
  findBandwidth table (procAddress f.dest) (procAddress f.source) (procPort f.dport) (procPort f.sport)

theorem shownNodeEq (table f) : shownNode table f = lookup table (shownFlow f) := by
  simp only [shownNode,findNode,decodeProc,procPortShort]
  rfl

theorem toFloatZero (data : UInt32) : toFloat data = 0 ↔ data = 0 := by
  have zero : data = 0 ↔ data.toNat = 0 := UInt32.toNat_inj.symm
  rw [zero]
  unfold toFloat
  dsimp only
  split
  · exact Iff.rfl
  · rename_i large
    have nonzero : data.toNat ≠ 0 := by omega
    have power : 2^(Nat.log2 data.toNat - 23) ≤ data.toNat :=
      (Nat.pow_le_pow_right (by omega) (Nat.sub_le _ _)).trans (Nat.log2_self_le nonzero)
    have unit : 0 < 2^(Nat.log2 data.toNat - 23) := Nat.two_pow_pos _
    have low : 0 < data.toNat / 2^(Nat.log2 data.toNat - 23) := Nat.div_pos power unit
    have rounded := Nat.mul_pos low unit
    have above := Nat.mul_pos (Nat.succ_pos (data.toNat / 2^(Nat.log2 data.toNat - 23))) unit
    simp only [nonzero,iff_false]
    split
    · exact rounded.ne'
    · exact above.ne'

theorem shownBandwidthZero (table f) :
    shownBandwidth table f = 0 ↔ ∀ b, lookup table (shownFlow f) = some b → b.data = 0 := by
  rw [← shownNodeEq]
  unfold shownBandwidth findBandwidth shownNode
  cases findNode table (procAddress f.dest) (procAddress f.source) (procPort f.dport) (procPort f.sport) with
  | none => simp
  | some temp =>
    exact ⟨fun h b same => Option.some.inj same ▸ (toFloatZero temp.data).mp h,
      fun h => (toFloatZero temp.data).mpr (h temp rfl)⟩

def AddressKept (addr : UInt32) : Prop := textByte addr 0 = 0 ∧ textByte addr 3 = 16*textByte addr 1
def PortKept (port : UInt16) : Prop := port.toNat / 256 = port.toNat % 256
instance (addr) : Decidable (AddressKept addr) := by unfold AddressKept; infer_instance
instance (port) : Decidable (PortKept port) := by unfold PortKept; infer_instance

def Kept (f : FlowKey) : Prop := AddressKept f.source ∧ AddressKept f.dest ∧ PortKept f.sport ∧ PortKept f.dport

theorem textByteBound (addr i) : textByte addr i < 256 := Nat.mod_lt _ (by omega)

theorem textBytes (addr : UInt32) : addr.toNat =
    2^24*textByte addr 0 + 2^16*textByte addr 1 + 2^8*textByte addr 2 + textByte addr 3 := by
  have bound := addr.toNat_lt
  simp only [textByte,Nat.reduceSub,Nat.reducePow,Nat.div_one]
  omega

theorem foldedEq (addr : UInt32) : folded addr = addr ↔ AddressKept addr := by
  have b0 := textByteBound addr 0
  have b1 := textByteBound addr 1
  have b2 := textByteBound addr 2
  have b3 := textByteBound addr 3
  have value := textBytes addr
  have small : textByte addr 0 + 16*textByte addr 1 + 256*textByte addr 2 + 4096*textByte addr 3 < 2^32 := by omega
  unfold folded AddressKept
  rw [← UInt32.toNat_inj,UInt32.toNat_ofNat_of_lt' small,value]
  omega

theorem ntohsEq (port : UInt16) : ntohs port = port ↔ PortKept port := by
  have bound := port.toNat_lt
  unfold ntohs PortKept
  rw [← UInt16.toNat_inj,UInt16.toNat_ofNat']
  omega

theorem shownFlowEq (f : FlowKey) : shownFlow f = f ↔ Kept f := by
  cases f
  simp only [shownFlow,Kept,FlowKey.mk.injEq,foldedEq,ntohsEq]

theorem lookupStored {calls : List Call} {k} (stored : k ∈ calls.map Call.flow) :
    lookup (FlowTable.run calls) k = some (k.node (UInt32.ofNat (amounts k calls).sum)) := by
  rw [lookupRun,if_pos stored]

theorem lookupZero (calls : List Call) (k : FlowKey) :
    (∀ b, lookup (FlowTable.run calls) k = some b → b.data = 0) ↔ 2^32 ∣ (amounts k calls).sum := by
  rw [lookupRun]
  split
  · have zero : UInt32.ofNat (amounts k calls).sum = 0 ↔ 2^32 ∣ (amounts k calls).sum := by
      rw [← UInt32.toNat_inj,UInt32.toNat_ofNat',Nat.dvd_iff_mod_eq_zero]
      rfl
    rw [← zero]
    exact ⟨fun h => h _ rfl,fun h b same => Option.some.inj same ▸ h⟩
  · rename_i never
    simp only [amountsNever never,List.sum_nil,dvd_zero,iff_true]
    exact fun b h => by cases h

def Agrees (calls : List Call) (f : FlowKey) : Prop :=
  (f ∈ calls.map Call.flow → ∃ node, lookup (FlowTable.run calls) f = some node ∧
    shownNode (FlowTable.run calls) f = some node) ∧
  (f ∉ calls.map Call.flow → shownBandwidth (FlowTable.run calls) f = 0)

theorem agreesExactly (calls : List Call) (f : FlowKey) :
    Agrees calls f ↔ (AddressKept f.source ∧ AddressKept f.dest ∧ PortKept f.sport ∧ PortKept f.dport) ∨
      (f ∉ calls.map Call.flow ∧ 2^32 ∣ (amounts (shownFlow f) calls).sum) := by
  change Agrees calls f ↔ Kept f ∨ _
  unfold Agrees
  rw [shownNodeEq,shownBandwidthZero,lookupZero,← shownFlowEq]
  by_cases stored : f ∈ calls.map Call.flow
  · simp only [stored,not_true_eq_false,false_and,or_false,true_implies,false_implies,and_true]
    constructor
    · intro h
      obtain ⟨node,here,shown⟩ := h
      rw [lookupEq] at here shown
      exact (KeyedList.lookupSound shown).2.symm.trans (KeyedList.lookupSound here).2
    · intro same
      rw [same]
      exact ⟨_,lookupStored stored,lookupStored stored⟩
  · simp only [stored,not_false_eq_true,false_implies,true_implies,true_and]
    constructor
    · exact .inr
    · intro h
      rcases h with same | zero
      · rw [same,amountsNever stored]
        exact dvd_zero _
      · exact zero

def loopback : FlowKey := ⟨0x0100007F,0x0100007F,0x5000,0x3412⟩

theorem storedFlowNotFound : ¬ ∀ calls f, Agrees calls f := by
  intro all
  obtain ⟨node,_,shown⟩ := (all [⟨loopback,100⟩] loopback).1 (by decide)
  have missing : shownNode (FlowTable.run [⟨loopback,100⟩]) loopback = none := by decide +kernel
  rw [missing] at shown
  cases shown

end PracticeSuite.FlowKeys
