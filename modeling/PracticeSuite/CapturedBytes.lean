import PracticeSuite.FlowKeys
import PracticeSuite.Sniffer

/-! The two packet handlers on the bytes that were really captured. Each field is
read where the handler reads it, and a read at or past `caplen` has no result. -/
namespace PracticeSuite.CapturedBytes
open PacketBytes SnifferQueue

def snapLen : Nat := 1518

/- What pcap hands over under the filter "ip": at most SNAP_LEN bytes, the Ethernet type
at its place and anything else behind it. -/
def Captured (bytes : List UInt8) : Prop :=
  bytes.length ≤ snapLen ∧ bytes[12]? = some 0x08 ∧ bytes[13]? = some 0x00

def read8 (bytes : List UInt8) (offset : Nat) : Option UInt8 := bytes[offset]?

def read16 (bytes : List UInt8) (offset : Nat) : Option UInt16 :=
  if offset + 1 < bytes.length then some (load16 (frame bytes) offset) else none

def read32 (bytes : List UInt8) (offset : Nat) : Option UInt32 :=
  if offset + 3 < bytes.length then some (load32 (frame bytes) offset) else none

def readTuple (bytes : List UInt8) (tcp : Nat) : Option Tuple := do
  let ipSrc ← read32 bytes (sizeEthernet+12)
  let ipDst ← read32 bytes (sizeEthernet+16)
  let thSport ← read16 bytes tcp
  let thDport ← read16 bytes (tcp+2)
  some ⟨ipSrc,ipDst,thSport,thDport⟩

def snifferPacket (now : Int) (bytes : List UInt8) (q : Sniffer.Queues) : Option Sniffer.Queues := do
  let ipVhl ← read8 bytes sizeEthernet
  let sizeIp := (ipVhl &&& 0x0f).toNat*4
  if sizeIp < 20 then some q
  else
    let ipP ← read8 bytes (sizeEthernet+9)
    if ipP = ipprotoTcp then
      let tcp := sizeEthernet + sizeIp
      let thOffx2 ← read8 bytes (tcp+12)
      if ((thOffx2 &&& 0xf0) >>> 4).toNat*4 < 20 then some q
      else
        let _ipLen ← read16 bytes (sizeEthernet+2)
        let thFlags ← read8 bytes (tcp+13)
        let q ← (if thFlags = 0x02 then do
            let k ← readTuple bytes tcp
            some {q with waitQueue := elementPush q.waitQueue (elementCreate k.ipSrc k.ipDst k.thSport k.thDport now)}
          else if thFlags = 0x12 then do
            let k ← readTuple bytes tcp
            some ⟨elementRemove q.waitQueue k.ipDst k.ipSrc k.thDport k.thSport,
              elementPush q.connectedQueue (elementCreate k.ipSrc k.ipDst k.thSport k.thDport now)⟩
          else some q)
        if Sniffer.finOrRst thFlags then
          let k ← readTuple bytes tcp
          let removed := elementRemove q.connectedQueue k.ipSrc k.ipDst k.thSport k.thDport
          some {q with connectedQueue := elementRemove removed k.ipDst k.ipSrc k.thDport k.thSport}
        else some q
    else some q

def readAdd (bytes : List UInt8) (table : FlowTable.Table) (transport headers : Nat) : Option FlowTable.Table := do
  let ipLen ← read16 bytes (sizeEthernet+2)
  let sizePayload : Int := (FlowKeys.ntohs ipLen).toNat - headers
  let k ← readTuple bytes transport
  some (FlowTable.addBandwidth table k.ipSrc k.ipDst k.thSport k.thDport (UInt32.ofInt sizePayload)).1

def capturePacket (bytes : List UInt8) (table : FlowTable.Table) : Option FlowTable.Table := do
  let ipVhl ← read8 bytes sizeEthernet
  let sizeIp := (ipVhl &&& 0x0f).toNat*4
  if sizeIp < 20 then some table
  else
    let ipP ← read8 bytes (sizeEthernet+9)
    if ipP = ipprotoTcp then
      let tcp := sizeEthernet + sizeIp
      let thOffx2 ← read8 bytes (tcp+12)
      let sizeTcp := ((thOffx2 &&& 0xf0) >>> 4).toNat*4
      if sizeTcp < 20 then some table else readAdd bytes table tcp (sizeIp + sizeTcp)
    else if ipP = FlowKeys.ipprotoUdp then readAdd bytes table (sizeEthernet + sizeIp) (sizeIp + 8)
    else some table

/- A computation that has its value exactly when what it reads was captured. The rules
below follow the handlers, one for each construct they are made of. -/
structure Reads {α : Type} (result : Option α) (covered : Prop) (value : α) : Prop where
  inside : covered → result = some value
  outside : ¬ covered → result = none

theorem Reads.value {α : Type} {result : Option α} {value : α} (known : result = some value) :
    Reads result True value :=
  ⟨fun _ => known,fun never => absurd trivial never⟩

theorem Reads.bind {α β : Type} {first : Option α} {next : α → Option β} {P Q : Prop} {a : α} {b : β}
    (here : Reads first P a) (later : P → Reads (next a) Q b) : Reads (first.bind next) (P ∧ Q) b := by
  refine ⟨fun covered => ?_,fun uncovered => ?_⟩
  · rw [here.inside covered.1]
    exact (later covered.1).inside covered.2
  · by_cases reached : P
    · rw [here.inside reached]
      exact (later reached).outside (fun rest => uncovered ⟨reached,rest⟩)
    · rw [here.outside reached]
      rfl

theorem Reads.branch {α : Type} {c : Prop} [Decidable c] {yes no : Option α} {P Q : Prop} {x y : α}
    (taken : c → Reads yes P x) (passed : ¬ c → Reads no Q y) :
    Reads (if c then yes else no) ((c → P) ∧ (¬ c → Q)) (if c then x else y) := by
  by_cases here : c
  · simp only [here,if_true,true_implies,not_true_eq_false,false_implies,and_true]
    exact taken here
  · simp only [here,if_false,false_implies,not_false_eq_true,true_implies,true_and]
    exact passed here

theorem Reads.convert {α : Type} {result : Option α} {P Q : Prop} {x y : α} (reads : Reads result P x)
    (covered : P ↔ Q) (value : x = y) : Reads result Q y := by
  subst value
  exact ⟨fun q => reads.inside (covered.mpr q),fun no => reads.outside (fun p => no (covered.mp p))⟩

theorem reads8 (bytes : List UInt8) (offset : Nat) :
    Reads (read8 bytes offset) (offset < bytes.length) (frame bytes offset) := by
  unfold read8 frame
  exact ⟨fun inside => by simp [inside],fun outside => List.getElem?_eq_none (Nat.not_lt.mp outside)⟩

theorem reads16 (bytes : List UInt8) (offset : Nat) :
    Reads (read16 bytes offset) (offset + 1 < bytes.length) (load16 (frame bytes) offset) :=
  ⟨fun inside => if_pos inside,fun outside => if_neg outside⟩

theorem reads32 (bytes : List UInt8) (offset : Nat) :
    Reads (read32 bytes offset) (offset + 3 < bytes.length) (load32 (frame bytes) offset) :=
  ⟨fun inside => if_pos inside,fun outside => if_neg outside⟩

def tupleOf (packet : Packet) (transport : Nat) : Tuple :=
  ⟨load32 packet (sizeEthernet+12),load32 packet (sizeEthernet+16),load16 packet transport,load16 packet (transport+2)⟩

theorem readsTuple (bytes : List UInt8) {transport : Nat} (behind : sizeEthernet + 20 ≤ transport) :
    Reads (readTuple bytes transport) (transport + 3 < bytes.length) (tupleOf (frame bytes) transport) := by
  refine Reads.convert (Reads.bind (reads32 bytes (sizeEthernet+12)) (fun _ =>
    Reads.bind (reads32 bytes (sizeEthernet+16)) (fun _ => Reads.bind (reads16 bytes transport) (fun _ =>
      Reads.bind (reads16 bytes (transport+2)) (fun _ => Reads.value rfl))))) ?_ rfl
  simp only [and_true]
  omega

def sizeIpOf (bytes : List UInt8) : Nat := ipHl (sniffIp (frame bytes) sizeEthernet)*4
def sizeTcpOf (bytes : List UInt8) : Nat := thOff (sniffTcp (frame bytes) (sizeEthernet + sizeIpOf bytes))*4
def protocolOf (bytes : List UInt8) : UInt8 := (sniffIp (frame bytes) sizeEthernet).ipP

/- The frame reaches as far as the sniffer reads it: to the header length; unless that
is too small, to the protocol; for TCP to th_offx2 and, unless that is too small, to
th_flags. -/
def SnifferCovered (bytes : List UInt8) : Prop :=
  sizeEthernet < bytes.length ∧ (20 ≤ sizeIpOf bytes → sizeEthernet + 9 < bytes.length ∧
    (protocolOf bytes = ipprotoTcp → sizeEthernet + sizeIpOf bytes + 12 < bytes.length ∧
      (20 ≤ sizeTcpOf bytes → sizeEthernet + sizeIpOf bytes + 13 < bytes.length)))

def CaptureCovered (bytes : List UInt8) : Prop :=
  sizeEthernet < bytes.length ∧ (20 ≤ sizeIpOf bytes → sizeEthernet + 9 < bytes.length ∧
    (protocolOf bytes = ipprotoTcp → sizeEthernet + sizeIpOf bytes + 12 < bytes.length) ∧
    (protocolOf bytes = FlowKeys.ipprotoUdp → sizeEthernet + sizeIpOf bytes + 3 < bytes.length))

theorem readsAdd (bytes : List UInt8) (table) {transport : Nat} (behind : sizeEthernet + 20 ≤ transport) (headers) :
    Reads (readAdd bytes table transport headers) (transport + 3 < bytes.length)
      (let k := tupleOf (frame bytes) transport
       (FlowTable.addBandwidth table k.ipSrc k.ipDst k.thSport k.thDport
        (UInt32.ofInt ((FlowKeys.ntohs (load16 (frame bytes) (sizeEthernet+2))).toNat - headers))).1) := by
  refine Reads.convert (Reads.bind (reads16 bytes (sizeEthernet+2)) (fun _ =>
    Reads.bind (readsTuple bytes behind) (fun _ => Reads.value rfl))) ?_ rfl
  simp only [and_true]
  omega

theorem sizeIpRead (bytes) : (frame bytes sizeEthernet &&& 0x0f).toNat*4 = sizeIpOf bytes := rfl
theorem protocolRead (bytes) : frame bytes (sizeEthernet+9) = protocolOf bytes := rfl
theorem sizeTcpRead (bytes) :
    ((frame bytes (sizeEthernet + sizeIpOf bytes + 12) &&& 0xf0) >>> 4).toNat*4 = sizeTcpOf bytes := rfl

theorem captureReads (bytes table) :
    Reads (capturePacket bytes table) (CaptureCovered bytes) (FlowKeys.gotPacket table (frame bytes)) := by
  refine Reads.convert (Reads.bind (reads8 bytes sizeEthernet) (fun _ => Reads.branch (fun _ => Reads.value rfl)
    (fun long => Reads.bind (reads8 bytes (sizeEthernet+9)) (fun _ => Reads.branch
      (fun _ => Reads.bind (reads8 bytes _) (fun _ => Reads.branch (fun _ => Reads.value rfl)
        (fun _ => readsAdd bytes table (by omega) _)))
      (fun _ => Reads.branch (fun _ => readsAdd bytes table (by omega) _) (fun _ => Reads.value rfl)))))) ?_ rfl
  simp only [sizeIpRead,protocolRead,sizeTcpRead,implies_true,true_and,and_true,Nat.not_lt]
  unfold CaptureCovered
  refine and_congr_right (fun _ => forall_congr' (fun long => and_congr_right (fun _ => ?_)))
  constructor
  · rintro ⟨tcp,udp⟩
    exact ⟨fun proto => (tcp proto).1,fun proto => udp (by rw [proto]; decide) proto⟩
  · rintro ⟨tcp,udp⟩
    refine ⟨fun proto => ⟨tcp proto,fun _ => ?_⟩,fun _ => udp⟩
    have offset := tcp proto
    omega

theorem snifferReads (now bytes q) :
    Reads (snifferPacket now bytes q) (SnifferCovered bytes) (Sniffer.gotPacket now (frame bytes) q) := by
  refine Reads.convert (Reads.bind (reads8 bytes sizeEthernet) (fun _ => Reads.branch (fun _ => Reads.value rfl)
    (fun long => Reads.bind (reads8 bytes (sizeEthernet+9)) (fun _ => Reads.branch
      (fun _ => Reads.bind (reads8 bytes _) (fun _ => Reads.branch (fun _ => Reads.value rfl)
        (fun _ => Reads.bind (reads16 bytes (sizeEthernet+2)) (fun _ => Reads.bind (reads8 bytes _) (fun _ =>
          Reads.bind (Reads.branch (fun _ => Reads.bind (readsTuple bytes (by omega)) (fun _ => Reads.value rfl))
            (fun _ => Reads.branch (fun _ => Reads.bind (readsTuple bytes (by omega)) (fun _ => Reads.value rfl))
              (fun _ => Reads.value rfl)))
          (fun _ => Reads.branch (fun _ => Reads.bind (readsTuple bytes (by omega)) (fun _ => Reads.value rfl))
            (fun _ => Reads.value rfl)))))))
      (fun _ => Reads.value rfl))))) ?_ rfl
  simp only [sizeIpRead,protocolRead,sizeTcpRead,implies_true,true_and,and_true,Nat.not_lt]
  unfold SnifferCovered
  refine and_congr_right (fun _ => forall_congr' (fun long => and_congr_right (fun _ =>
    forall_congr' (fun _ => and_congr_right (fun _ => forall_congr' (fun _ => ?_))))))
  constructor
  · rintro ⟨-,flags,-⟩
    exact flags
  · intro flags
    have length : sizeEthernet + 2 + 1 < bytes.length := by omega
    have ports : sizeEthernet + sizeIpOf bytes + 3 < bytes.length := by omega
    simp only [length,flags,ports,implies_true,and_self]

/- Each handler stays inside the captured bytes exactly when the frame reaches as far as
its own header lengths say that the handler reads; neither looks at caplen. -/
theorem insideExactly (bytes : List UInt8) :
    ((∀ now q, (snifferPacket now bytes q).isSome) ↔ SnifferCovered bytes) ∧
    ((∀ table, (capturePacket bytes table).isSome) ↔ CaptureCovered bytes) := by
  refine ⟨⟨fun inside => ?_,fun covered now q => ?_⟩,fun inside => ?_,fun covered table => ?_⟩
  · by_contra uncovered
    have read := inside 0 ⟨[],[]⟩
    rw [(snifferReads 0 bytes ⟨[],[]⟩).outside uncovered] at read
    cases read
  · rw [(snifferReads now bytes q).inside covered]
    rfl
  · by_contra uncovered
    have read := inside none
    rw [(captureReads bytes none).outside uncovered] at read
    cases read
  · rw [(captureReads bytes table).inside covered]
    rfl

def longHeader : List UInt8 :=
  List.replicate 12 0 ++ [0x08,0x00,0x4f] ++ List.replicate 8 0 ++ [ipprotoTcp] ++ List.replicate 36 0

theorem longHeaderReadPast : Captured longHeader ∧
    snifferPacket 0 longHeader ⟨[],[]⟩ = none ∧ capturePacket longHeader none = none := by
  refine ⟨⟨by decide,by decide,by decide⟩,by decide,by decide⟩

end PracticeSuite.CapturedBytes
