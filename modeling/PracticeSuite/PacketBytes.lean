import Mathlib

/-! Captured frames as the packet handlers read them: raw header fields at fixed
offsets behind the `packet` pointer, loaded in the byte order of a little-endian
host. Nothing here compares an offset with the captured length, as the handlers
do not. -/
namespace PracticeSuite.PacketBytes

/- `const u_char *packet`. A read past the captured bytes yields whatever the
memory holds there, so the pointer denotes a total function. -/
abbrev Packet := Nat → UInt8

def frame (bytes : List UInt8) : Packet := fun i => bytes.getD i 0

def load16 (packet : Packet) (offset : Nat) : UInt16 :=
  UInt16.ofNat ((packet offset).toNat + 256*(packet (offset+1)).toNat)

def load32 (packet : Packet) (offset : Nat) : UInt32 :=
  UInt32.ofNat ((packet offset).toNat + 256*(packet (offset+1)).toNat +
    256^2*(packet (offset+2)).toNat + 256^3*(packet (offset+3)).toNat)

def sizeEthernet : Nat := 14
def ipprotoTcp : UInt8 := 6

structure SniffIp where
  ipVhl : UInt8
  ipLen : UInt16
  ipP : UInt8
  ipSrc : UInt32
  ipDst : UInt32
  deriving DecidableEq, Repr

def sniffIp (packet : Packet) (offset : Nat) : SniffIp :=
  ⟨packet offset,load16 packet (offset+2),packet (offset+9),load32 packet (offset+12),load32 packet (offset+16)⟩

def ipHl (ip : SniffIp) : Nat := (ip.ipVhl &&& 0x0f).toNat

structure SniffTcp where
  thSport : UInt16
  thDport : UInt16
  thOffx2 : UInt8
  thFlags : UInt8
  deriving DecidableEq, Repr

def sniffTcp (packet : Packet) (offset : Nat) : SniffTcp :=
  ⟨load16 packet offset,load16 packet (offset+2),packet (offset+12),packet (offset+13)⟩

def thOff (tcp : SniffTcp) : Nat := ((tcp.thOffx2 &&& 0xf0) >>> 4).toNat

end PracticeSuite.PacketBytes
