import PracticeSuite.FlowKeys

/-! What one captured packet adds to its flow. The payload size is the total length
less the headers, three fields of the packet itself, computed as an int and handed
on as an unsigned amount. -/
namespace PracticeSuite.FlowKeys
open PacketBytes FlowTable

def headerBytes (packet : Packet) : Option Nat :=
  let ip := sniffIp packet sizeEthernet
  let sizeIp := ipHl ip*4
  if sizeIp < 20 then none
  else if ip.ipP = ipprotoTcp then
    let sizeTcp := thOff (sniffTcp packet (sizeEthernet + sizeIp))*4
    if sizeTcp < 20 then none else some (sizeIp + sizeTcp)
  else if ip.ipP = ipprotoUdp then some (sizeIp + 8)
  else none

def totalLength (packet : Packet) : Nat := (ntohs (sniffIp packet sizeEthernet).ipLen).toNat

theorem gotPacketHeaders (table packet) : gotPacket table packet = match headerBytes packet with
    | none => table
    | some headers => add table ⟨packetFlow packet,UInt32.ofInt (totalLength packet - headers)⟩ := by
  unfold gotPacket headerBytes
  dsimp only
  split
  · rfl
  · split
    · split
      · rfl
      · rfl
    · split
      · rfl
      · rfl

theorem headerBound {packet headers} (accepted : headerBytes packet = some headers) : headers < 4096 := by
  have ip : ipHl (sniffIp packet sizeEthernet) < 2^8 := UInt8.toNat_lt _
  unfold headerBytes at accepted
  dsimp only at accepted
  split at accepted <;> try contradiction
  split at accepted
  · have tcp : thOff (sniffTcp packet (sizeEthernet + ipHl (sniffIp packet sizeEthernet)*4)) < 2^8 := UInt8.toNat_lt _
    split at accepted <;> try contradiction
    cases Option.some.inj accepted
    omega
  · split at accepted <;> try contradiction
    cases Option.some.inj accepted
    omega

def dataOf (table : Table) (k : FlowKey) : UInt32 := ((lookup table k).map Bandwidth.data).getD 0

theorem dataAdd (table c k) :
    dataOf (add table c) k = if k = c.flow then dataOf table k + c.data else dataOf table k := by
  unfold dataOf
  rw [lookupAdd]
  split
  · rename_i same
    subst same
    cases lookup table c.flow with
    | none => simp
    | some b => rfl
  · rfl

/- The flow of the packet is listed and has grown by the payload, every other flow is
as before; a total length below the headers changes nothing at all. -/
def GrowsByPayload (table : Table) (packet : Packet) : Prop :=
  ∀ headers, headerBytes packet = some headers →
    (headers ≤ totalLength packet →
      (lookup (gotPacket table packet) (packetFlow packet)).isSome ∧
      dataOf (gotPacket table packet) (packetFlow packet) =
        dataOf table (packetFlow packet) + UInt32.ofNat (totalLength packet - headers) ∧
      ∀ k, k ≠ packetFlow packet → lookup (gotPacket table packet) k = lookup table k) ∧
    (totalLength packet < headers → gotPacket table packet = table)

def Sized (packet : Packet) : Prop := ∀ headers, headerBytes packet = some headers → headers ≤ totalLength packet

theorem ofIntValue (x : Int) : (UInt32.ofInt x).toNat = (x % 2^32).toNat := by
  unfold UInt32.ofInt
  rw [UInt32.toNat_ofNat']
  omega

theorem ofIntNonneg {n m : Nat} (le : m ≤ n) : UInt32.ofInt (n - m) = UInt32.ofNat (n - m) := by
  rw [← UInt32.toNat_inj,ofIntValue,UInt32.toNat_ofNat']
  omega

theorem ofIntNegative {n m : Nat} (less : n < m) (small : m < 4096) : UInt32.ofInt (n - m) ≠ 0 := by
  rw [ne_eq,← UInt32.toNat_inj,ofIntValue,UInt32.toNat_zero]
  omega

theorem addChanges {table c} (some_ : c.data ≠ 0) : add table c ≠ table := by
  intro same
  have data := dataAdd table c c.flow
  rw [same,if_pos rfl] at data
  exact some_ (by simpa using data)

theorem growsByPayloadIff (table packet) : GrowsByPayload table packet ↔ Sized packet := by
  refine ⟨fun grows headers accepted => ?_,fun sized headers accepted => ?_⟩
  · by_contra short
    have less := Nat.not_le.mp short
    have same := (grows headers accepted).2 less
    rw [gotPacketHeaders,accepted] at same
    exact addChanges (ofIntNegative less (headerBound accepted)) same
  · have enough := sized headers accepted
    refine ⟨fun _ => ?_,fun less => absurd enough (Nat.not_le.mpr less)⟩
    rw [gotPacketHeaders,accepted]
    dsimp only
    refine ⟨?_,?_,fun k other => ?_⟩
    · rw [lookupAdd,if_pos rfl]
      split <;> rfl
    · rw [dataAdd,if_pos rfl,ofIntNonneg enough]
    · rw [lookupAdd,if_neg other]

def payload (packet : Packet) : Nat := ((headerBytes packet).map (totalLength packet - ·)).getD 0

def flowTotal (k : FlowKey) (packets : List Packet) : Nat := ((packets.filter (packetFlow · = k)).map payload).sum

theorem flowTotalSnoc (k packets packet) : flowTotal k (packets ++ [packet]) =
    flowTotal k packets + if packetFlow packet = k then payload packet else 0 := by
  unfold flowTotal
  rw [List.filter_append,List.map_append,List.sum_append]
  by_cases hit : packetFlow packet = k <;> simp [hit]

theorem flowTotalPrefix (k before after) : flowTotal k before ≤ flowTotal k (before ++ after) := by
  unfold flowTotal
  rw [List.filter_append,List.map_append,List.sum_append]
  exact Nat.le_add_right _ _

theorem gotPacketData {packet} (sized : Sized packet) (table k) : dataOf (gotPacket table packet) k =
    dataOf table k + UInt32.ofNat (if packetFlow packet = k then payload packet else 0) := by
  rw [gotPacketHeaders]
  unfold payload
  cases accepted : headerBytes packet with
  | none => simp
  | some headers =>
    rw [dataAdd,ofIntNonneg (sized headers accepted)]
    by_cases hit : packetFlow packet = k
    · rw [if_pos hit.symm,if_pos hit]
      rfl
    · rw [if_neg (fun same => hit same.symm),if_neg hit]
      simp

theorem captureSnoc (packets packet) : capture (packets ++ [packet]) = gotPacket (capture packets) packet :=
  Trace.runSnoc gotPacket none packets packet

theorem captureData {packets} (sized : ∀ packet ∈ packets, Sized packet) (k) :
    dataOf (capture packets) k = UInt32.ofNat (flowTotal k packets) := by
  induction packets using List.reverseRecOn with
  | nil => rfl
  | append_singleton packets packet ih =>
    rw [captureSnoc,gotPacketData (sized packet (by simp)),
      ih (fun p mem => sized p (List.mem_append_left _ mem)),flowTotalSnoc,UInt32.ofNat_add]

def CountersGrow (packets : List Packet) : Prop :=
  (∀ before packet after, packets = before ++ packet :: after → GrowsByPayload (capture before) packet) ∧
  ((∀ k, flowTotal k packets < 2^32) → ∀ before packet after, packets = before ++ packet :: after →
    ∀ k, dataOf (capture before) k ≤ dataOf (capture (before ++ [packet])) k)

theorem captureGrows {before packet after} (sized : ∀ p ∈ before ++ packet :: after, Sized p)
    (small : ∀ k, flowTotal k (before ++ packet :: after) < 2^32) (k) :
    dataOf (capture before) k ≤ dataOf (capture (before ++ [packet])) k := by
  have whole : before ++ packet :: after = (before ++ [packet]) ++ after := by simp
  rw [whole] at sized small
  have later := flowTotalPrefix k (before ++ [packet]) after
  have here := flowTotalPrefix k before [packet]
  have bound := small k
  rw [captureData (fun p mem => sized p (by simp [mem])),captureData (fun p mem => sized p (List.mem_append_left _ mem)),
    UInt32.le_iff_toNat_le,UInt32.toNat_ofNat',UInt32.toNat_ofNat']
  omega

theorem countersGrowExactly (table : Table) (packet : Packet) (packets : List Packet) :
    (GrowsByPayload table packet ↔ Sized packet) ∧ (CountersGrow packets ↔ ∀ p ∈ packets, Sized p) := by
  refine ⟨growsByPayloadIff table packet,fun grow packet mem => ?_,fun sized => ⟨?_,?_⟩⟩
  · obtain ⟨before,after,split⟩ := List.append_of_mem mem
    exact (growsByPayloadIff _ _).mp (grow.1 before packet after split)
  · intro before packet after split
    exact (growsByPayloadIff _ _).mpr (sized packet (by rw [split]; simp))
  · intro small before packet after split
    rw [split] at sized small
    exact captureGrows sized small

def segmentOf (high low : UInt8) : Packet := frame
  ([0,0,0,0,0,0,0,0,0,0,0,0,8,0] ++ [0x45,0,high,low,0,0,0,0,64,6,0,0,10,0,0,1,10,0,0,2] ++
    [4,1,0,80,0,0,0,0,0,0,0,0,0x50,0x10,0,0,0,0,0,0])

/- 100 bytes are counted; a packet with total length 0, as segmentation offload leaves
it, takes 40 of them away again. -/
theorem offloadedPacketSubtracts :
    dataOf (capture [segmentOf 0 140]) (packetFlow (segmentOf 0 140)) = 100 ∧
    dataOf (capture [segmentOf 0 140,segmentOf 0 0]) (packetFlow (segmentOf 0 140)) = 60 ∧
    ¬ CountersGrow [segmentOf 0 140,segmentOf 0 0] := by
  have first : dataOf (capture [segmentOf 0 140]) (packetFlow (segmentOf 0 140)) = 100 := by decide +kernel
  have second : dataOf (capture [segmentOf 0 140,segmentOf 0 0]) (packetFlow (segmentOf 0 140)) = 60 := by
    decide +kernel
  refine ⟨first,second,fun grow => ?_⟩
  have unchanged := (grow.1 [segmentOf 0 140] (segmentOf 0 0) [] rfl 40 (by decide +kernel)).2 (by decide +kernel)
  have same : capture [segmentOf 0 140,segmentOf 0 0] = capture [segmentOf 0 140] := unchanged
  rw [same,first] at second
  contradiction

end PracticeSuite.FlowKeys
