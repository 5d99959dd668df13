import Mathlib

/-! The address columns of the socket listing. Two programs of the repository turn the
eight hexadecimal digits of /proc/net/tcp into a dotted quad, digit by digit and into a buffer
of the caller; they differ in where each group of three digits goes. -/
namespace PracticeSuite.SocketAddress

abbrev Chars := Nat → Char

def hexDigits : List Char := ['0','1','2','3','4','5','6','7','8','9','A','B','C','D','E','F']

structure AddressText where
  char : Chars
  upper : ∀ i < 8, char i ∈ hexDigits

def digitParser (other : Char) : Nat → Char
  | 0 => '0'
  | 1 => '1'
  | 2 => '2'
  | 3 => '3'
  | 4 => '4'
  | 5 => '5'
  | 6 => '6'
  | 7 => '7'
  | 8 => '8'
  | 9 => '9'
  | _ => other

def hexStep (temp : Nat) (c : Char) : Nat :=
  if c = '0' then 16*temp + 0
  else if c = '1' then 16*temp + 1
  else if c = '2' then 16*temp + 2
  else if c = '3' then 16*temp + 3
  else if c = '4' then 16*temp + 4
  else if c = '5' then 16*temp + 5
  else if c = '6' then 16*temp + 6
  else if c = '7' then 16*temp + 7
  else if c = '8' then 16*temp + 8
  else if c = '9' then 16*temp + 9
  else if c = 'A' then 16*temp + 10
  else if c = 'B' then 16*temp + 11
  else if c = 'C' then 16*temp + 12
  else if c = 'D' then 16*temp + 13
  else if c = 'E' then 16*temp + 14
  else if c = 'F' then 16*temp + 15
  else temp

structure Layout where
  group : Nat → Nat
  dot : Nat → Nat

def addressRound (digit : Nat → Char) (layout : Layout) (addr : Chars) (s : Nat × Chars) (i : Nat) : Nat × Chars :=
  let temp := hexStep s.1 (addr i)
  if i%2 ≠ 0 then
    let output := Function.update s.2 (layout.group i) (if temp > 99 then digit (temp/100) else '0')
    let output := Function.update output (layout.group i + 1) (if temp > 9 then digit (temp/10%10) else '0')
    let output := Function.update output (layout.group i + 2) (digit (temp%100%10))
    let output := if i ≠ 7 then Function.update output (layout.dot i) '.' else output
    (0,output)
  else (temp,s.2)

def addressLoop (digit : Nat → Char) (layout : Layout) (addr output : Chars) : Chars :=
  ((List.range 8).foldl (addressRound digit layout addr) (0,output)).2

def reversing : Layout := ⟨fun i => 12 - i/2*4,fun i => 11 - i/2*4⟩
def addressParser (addr output : Chars) : Chars := addressLoop (digitParser '\x00') reversing addr output

/- ultis.c, whose digitParser returns nothing for a number above nine. -/
def inOrder : Layout := ⟨fun i => 0 + i/2*4,fun i => 3 + i/2*4⟩
def ultisParser (other : Char) (addr output : Chars) : Chars := addressLoop (digitParser other) inOrder addr output

def hexValue (c : Char) : Nat := hexStep 0 c

def AddressText.byte (h : AddressText) (k : Nat) : Nat := 16*hexValue (h.char (2*k)) + hexValue (h.char (2*k+1))

def decimal3 (b : Nat) : List Char := [Nat.digitChar (b/100),Nat.digitChar (b/10%10),Nat.digitChar (b%10)]

def dottedQuad (a b c d : Nat) : List Char :=
  decimal3 a ++ '.' :: (decimal3 b ++ '.' :: (decimal3 c ++ '.' :: decimal3 d))

theorem hexStepValue {c : Char} (digit : c ∈ hexDigits) (temp : Nat) : hexStep temp c = 16*temp + hexValue c := by
  simp only [hexDigits,List.mem_cons,List.not_mem_nil,or_false] at digit
  rcases digit with rfl | rfl | rfl | rfl | rfl | rfl | rfl | rfl | rfl | rfl | rfl | rfl | rfl | rfl | rfl | rfl <;>
    simp [hexStep,hexValue]

theorem hexValues : hexDigits.map hexValue = List.range 16 := by decide +kernel

theorem hexValueSmall {c : Char} (digit : c ∈ hexDigits) : hexValue c < 16 := by
  have mem := List.mem_map_of_mem (f := hexValue) digit
  rw [hexValues] at mem
  exact List.mem_range.mp mem

theorem hexValueInjective {c d : Char} (first : c ∈ hexDigits) (second : d ∈ hexDigits) (same : hexValue c = hexValue d) :
    c = d := by
  have distinct : (hexDigits.map hexValue).Nodup := by
    rw [hexValues]
    exact List.nodup_range
  exact List.inj_on_of_nodup_map distinct first second same

theorem byteSmall (h : AddressText) {k : Nat} (inside : k < 4) : h.byte k < 256 := by
  have high := hexValueSmall (h.upper (2*k) (by omega))
  have low := hexValueSmall (h.upper (2*k+1) (by omega))
  unfold AddressText.byte
  omega

theorem digitParserTen (other : Char) {x : Nat} (small : x < 10) : digitParser other x = Nat.digitChar x := by
  interval_cases x <;> rfl

theorem digitsWritten (other : Char) {b : Nat} (small : b < 256) :
    (if b > 99 then digitParser other (b/100) else '0') = Nat.digitChar (b/100) ∧
    (if b > 9 then digitParser other (b/10%10) else '0') = Nat.digitChar (b/10%10) ∧
    digitParser other (b%100%10) = Nat.digitChar (b%10) := by
  refine ⟨?_,?_,?_⟩
  · split
    · exact digitParserTen other (by omega)
    · rw [show b/100 = 0 by omega]
      rfl
  · split
    · exact digitParserTen other (by omega)
    · rw [show b/10%10 = 0 by omega]
      rfl
  · rw [digitParserTen other (by omega),show b%100%10 = b%10 by omega]

def putByte (layout : Layout) (i b : Nat) (output : Chars) : Chars :=
  let output := Function.update output (layout.group i) (Nat.digitChar (b/100))
  let output := Function.update output (layout.group i + 1) (Nat.digitChar (b/10%10))
  let output := Function.update output (layout.group i + 2) (Nat.digitChar (b%10))
  if i ≠ 7 then Function.update output (layout.dot i) '.' else output

theorem byteRounds (other : Char) (layout : Layout) (h : AddressText) {k : Nat} (inside : k < 4) (output : Chars) :
    addressRound (digitParser other) layout h.char
      (addressRound (digitParser other) layout h.char (0,output) (2*k)) (2*k+1) =
    (0,putByte layout (2*k+1) (h.byte k) output) := by
  have even : ¬ (2*k)%2 ≠ 0 := by omega
  have odd : (2*k+1)%2 ≠ 0 := by omega
  have high := hexStepValue (h.upper (2*k) (by omega)) 0
  have low := hexStepValue (h.upper (2*k+1) (by omega)) (hexValue (h.char (2*k)))
  obtain ⟨hundreds,tens,ones⟩ := digitsWritten other (byteSmall h inside)
  rw [Nat.mul_zero,Nat.zero_add] at high
  simp only [addressRound,if_neg even,if_pos odd,high,low]
  unfold AddressText.byte at hundreds tens ones
  simp only [hundreds,tens,ones]
  rfl

theorem addressBytes (other : Char) (layout : Layout) (h : AddressText) (output : Chars) :
    addressLoop (digitParser other) layout h.char output =
      putByte layout 7 (h.byte 3) (putByte layout 5 (h.byte 2)
        (putByte layout 3 (h.byte 1) (putByte layout 1 (h.byte 0) output))) := by
  have round := fun (k : Nat) (inside : k < 4) => byteRounds other layout h inside
  have rounds : List.range 8 = [2*0,2*0+1,2*1,2*1+1,2*2,2*2+1,2*3,2*3+1] := by decide
  unfold addressLoop
  rw [rounds]
  simp only [List.foldl_cons,List.foldl_nil,round 0 (by decide),round 1 (by decide),round 2 (by decide),round 3 (by decide)]

def shown (output : Chars) : List Char := (List.range 15).map output

theorem reversedShown (h : AddressText) (output : Chars) :
    shown (addressParser h.char output) = dottedQuad (h.byte 3) (h.byte 2) (h.byte 1) (h.byte 0) := by
  unfold shown addressParser
  rw [addressBytes]
  have places : List.range 15 = [0,1,2,3,4,5,6,7,8,9,10,11,12,13,14] := by decide
  rw [places]
  simp [putByte,reversing,dottedQuad,decimal3]

theorem orderedShown (other : Char) (h : AddressText) (output : Chars) :
    shown (ultisParser other h.char output) = dottedQuad (h.byte 0) (h.byte 1) (h.byte 2) (h.byte 3) := by
  unfold shown ultisParser
  rw [addressBytes]
  have places : List.range 15 = [0,1,2,3,4,5,6,7,8,9,10,11,12,13,14] := by decide
  rw [places]
  simp [putByte,inOrder,dottedQuad,decimal3]

theorem putByteElsewhere {layout : Layout} {i j : Nat} (group : layout.group i + 2 < j) (dot : layout.dot i < j) (b : Nat)
    (output : Chars) : putByte layout i b output j = output j := by
  have digits : Function.update (Function.update (Function.update output (layout.group i) (Nat.digitChar (b/100)))
      (layout.group i + 1) (Nat.digitChar (b/10%10))) (layout.group i + 2) (Nat.digitChar (b%10)) j = output j := by
    rw [Function.update_of_ne (by omega),Function.update_of_ne (by omega),Function.update_of_ne (by omega)]
  simp only [putByte]
  split
  · rw [Function.update_of_ne (by omega),digits]
  · exact digits

theorem reversedBehind (h : AddressText) (output : Chars) {j : Nat} (behind : 15 ≤ j) :
    addressParser h.char output j = output j := by
  have elsewhere : ∀ i b output, putByte reversing i b output j = output j := by
    intro i b output
    apply putByteElsewhere
    · simp only [reversing]
      omega
    · simp only [reversing]
      omega
  unfold addressParser
  rw [addressBytes,elsewhere,elsewhere,elsewhere,elsewhere]

def cString : Nat → Chars → Option (List Char)
  | 0,_ => none
  | size+1,m => if m 0 = '\x00' then some [] else (cString size fun i => m (i+1)).map (m 0 :: ·)

theorem cStringPassed : ∀ (n size : Nat) (m : Chars), (∀ i < n, m i ≠ '\x00') →
    cString (n+size) m = (cString size fun i => m (i+n)).map ((List.range n).map m ++ ·)
  | 0,size,m,_ => by simp
  | n+1,size,m,solid => by
    have rest := cStringPassed n size (fun i => m (i+1)) fun i inside => solid (i+1) (by omega)
    rw [show n+1+size = n+size+1 by omega,cString,if_neg (solid 0 (by omega)),rest,Option.map_map,
      List.range_succ_eq_map,List.map_cons,List.map_map]
    rfl

theorem digitCharSolid {x : Nat} (small : x < 10) : Nat.digitChar x ≠ '\x00' := by
  interval_cases x <;> decide

theorem dottedQuadSolid {a b c d : Nat} (first : a < 256) (second : b < 256) (third : c < 256) (fourth : d < 256) :
    '\x00' ∉ dottedQuad a b c d := by
  have solid : ∀ x < 256, '\x00' ∉ decimal3 x := by
    intro x small
    have hundreds := digitCharSolid (x := x/100) (by omega)
    have tens := digitCharSolid (x := x/10%10) (by omega)
    have ones := digitCharSolid (x := x%10) (by omega)
    simp only [decimal3,List.mem_cons,List.not_mem_nil,or_false,not_or]
    exact ⟨hundreds.symm,tens.symm,ones.symm⟩
  have dot : '\x00' ≠ '.' := by decide
  simp only [dottedQuad,List.mem_append,List.mem_cons,not_or]
  exact ⟨solid a first,dot,solid b second,dot,solid c third,dot,solid d fourth⟩

theorem terminatedExactly (h : AddressText) (output : Chars) :
    cString 16 (addressParser h.char output) = some (dottedQuad (h.byte 3) (h.byte 2) (h.byte 1) (h.byte 0)) ↔
      output 15 = '\x00' := by
  have quad := reversedShown h output
  have solid : ∀ i < 15, addressParser h.char output i ≠ '\x00' := by
    intro i inside nul
    apply dottedQuadSolid (byteSmall h (k := 3) (by omega)) (byteSmall h (k := 2) (by omega)) (byteSmall h (k := 1) (by omega))
      (byteSmall h (k := 0) (by omega))
    rw [← quad,← nul]
    exact List.mem_map_of_mem (List.mem_range.mpr inside)
  have last : addressParser h.char output (0+15) = output 15 := reversedBehind h output le_rfl
  rw [cStringPassed 15 1 _ solid]
  change (cString 1 fun i => addressParser h.char output (i+15)).map (shown (addressParser h.char output) ++ ·) = _ ↔ _
  rw [quad,cString,last]
  by_cases nul : output 15 = '\x00'
  · simp [nul]
  · simp [nul,cString]

def loopback : AddressText where
  char i := ['0','1','0','0','0','0','7','F'].getD i '\x00'
  upper := by decide

theorem staleByteFollows :
    Function.update (fun _ => 'x') 0 '\x00' 0 = '\x00' ∧
      cString 16 (addressParser loopback.char (Function.update (fun _ => 'x') 0 '\x00')) ≠
        some (dottedQuad (loopback.byte 3) (loopback.byte 2) (loopback.byte 1) (loopback.byte 0)) := by
  decide +kernel

theorem digitCharInjective {x y : Nat} (first : x < 10) (second : y < 10) (same : Nat.digitChar x = Nat.digitChar y) : x = y := by
  have value := congrArg Char.toNat same
  rw [Nat.toNat_digitChar_of_lt_ten first,Nat.toNat_digitChar_of_lt_ten second] at value
  omega

theorem decimal3Injective {x y : Nat} (first : x < 256) (second : y < 256) (same : decimal3 x = decimal3 y) : x = y := by
  simp only [decimal3,List.cons.injEq,and_true] at same
  obtain ⟨hundreds,tens,ones⟩ := same
  have hundreds := digitCharInjective (by omega) (by omega) hundreds
  have tens := digitCharInjective (by omega) (by omega) tens
  have ones := digitCharInjective (by omega) (by omega) ones
  omega

theorem dottedQuadInjective {a b c d a' b' c' d' : Nat} (small : ∀ x ∈ [a,b,c,d,a',b',c',d'], x < 256)
    (same : dottedQuad a b c d = dottedQuad a' b' c' d') : a = a' ∧ b = b' ∧ c = c' ∧ d = d' := by
  have width : ∀ x y : Nat, (decimal3 x).length = (decimal3 y).length := fun _ _ => rfl
  simp only [List.mem_cons,List.not_mem_nil,or_false,forall_eq_or_imp,forall_eq] at small
  obtain ⟨sa,sb,sc,sd,sa',sb',sc',sd'⟩ := small
  obtain ⟨first,same⟩ := List.append_inj same (width a a')
  obtain ⟨second,same⟩ := List.append_inj (List.cons.inj same).2 (width b b')
  obtain ⟨third,same⟩ := List.append_inj (List.cons.inj same).2 (width c c')
  exact ⟨decimal3Injective sa sa' first,decimal3Injective sb sb' second,decimal3Injective sc sc' third,
    decimal3Injective sd sd' (List.cons.inj same).2⟩

theorem byteSame (h : AddressText) {j k : Nat} (first : j < 4) (second : k < 4) :
    h.byte j = h.byte k ↔ h.char (2*j) = h.char (2*k) ∧ h.char (2*j+1) = h.char (2*k+1) := by
  have upper := fun i (inside : i < 8) => hexValueSmall (h.upper i inside)
  constructor
  · intro same
    unfold AddressText.byte at same
    have lowj := upper (2*j+1) (by omega)
    have lowk := upper (2*k+1) (by omega)
    exact ⟨hexValueInjective (h.upper _ (by omega)) (h.upper _ (by omega)) (by omega),
      hexValueInjective (h.upper _ (by omega)) (h.upper _ (by omega)) (by omega)⟩
  · rintro ⟨high,low⟩
    unfold AddressText.byte
    rw [high,low]

theorem formattersAgreeExactly (other : Char) (h : AddressText) (output output' : Chars) :
    (shown (addressParser h.char output) = dottedQuad (h.byte 3) (h.byte 2) (h.byte 1) (h.byte 0) ∧
      shown (ultisParser other h.char output') = shown (addressParser h.char output)) ↔
    h.char 0 = h.char 6 ∧ h.char 1 = h.char 7 ∧ h.char 2 = h.char 4 ∧ h.char 3 = h.char 5 := by
  have small := fun k (inside : k < 4) => byteSmall h inside
  have outer := byteSame h (j := 0) (k := 3) (by omega) (by omega)
  have inner := byteSame h (j := 1) (k := 2) (by omega) (by omega)
  rw [orderedShown,reversedShown]
  constructor
  · rintro ⟨-,same⟩
    have bytes := dottedQuadInjective (by simp [small]) same
    exact ⟨(outer.mp bytes.1).1,(outer.mp bytes.1).2,(inner.mp bytes.2.1).1,(inner.mp bytes.2.1).2⟩
  · rintro ⟨zero,one,two,three⟩
    rw [outer.mpr ⟨zero,one⟩,inner.mpr ⟨two,three⟩]
    exact ⟨rfl,rfl⟩

theorem loopbackReversed :
    shown (addressParser loopback.char fun _ => '\x00') = "127.000.000.001".toList ∧
      shown (ultisParser '\x00' loopback.char fun _ => '\x00') = "001.000.000.127".toList ∧
      shown (ultisParser '\x00' loopback.char fun _ => '\x00') ≠ shown (addressParser loopback.char fun _ => '\x00') := by
  decide +kernel

end PracticeSuite.SocketAddress
