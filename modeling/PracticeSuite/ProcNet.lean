import PracticeSuite.ProcStat
import PracticeSuite.ScanfPattern

/-! Proc::scanTcp and Proc::scanUdp, which look for the sockets of the process in the tables
under /proc/net. Both keep the results of sscanf in variables that all lines share, and hand
the address texts to inet_pton. -/
namespace PracticeSuite.ProcNet
open Scanf (CType Value)
open ScanfPattern
open Agent (Str isspace)
open ProcStat (toInteger toUnsigned)

inductive Local where
  | d | localAddr | localPort | remAddr | remPort | state | txq | rxq | timerRun | timeLen | retr | uid | timeout | inode
  deriving DecidableEq, Repr

def hexDigit (c : Char) : Bool := c.isDigit || ('A' ≤ c && c ≤ 'F') || ('a' ≤ c && c ≤ 'f')

def decimalInt : Conversion := .plain (.number .int)

/- "%d: %64[0-9A-Fa-f]:%X %64[0-9A-Fa-f]:%X %X %lX:%lX %X:%lX %lX %d %d %lu %*s\n". The ports are
read into variables of type int, which holds the same bits. -/
def format : List (Directive Local) :=
  [.convert .d decimalInt,.literal ':',.white,.convert .localAddr (.set 64 hexDigit),.literal ':',
    .convert .localPort (.hex .uint),.white,.convert .remAddr (.set 64 hexDigit),.literal ':',.convert .remPort (.hex .uint),
    .white,.convert .state (.hex .uint),.white,.convert .txq (.hex .ulong),.literal ':',.convert .rxq (.hex .ulong),.white,
    .convert .timerRun (.hex .uint),.literal ':',.convert .timeLen (.hex .ulong),.white,.convert .retr (.hex .ulong),.white,
    .convert .uid decimalInt,.white,.convert .timeout decimalInt,.white,.convert .inode (.plain (.number .ulong)),.white,
    .skip (.plain .word),.white]

structure Connection where
  remoteAddr : Nat
  localAddr : Nat
  remotePort : Nat
  localPort : Nat
  deriving DecidableEq, Repr

def addressByte (text : Str) : Option Nat :=
  if text.length ≤ 3 ∧ text ≠ [] ∧ text.all Char.isDigit = true ∧ Nat.ofDigitChars 10 text 0 ≤ 255 then
    some (Nat.ofDigitChars 10 text 0)
  else none

/- inet_pton for AF_INET: ddd.ddd.ddd.ddd and nothing else. The first byte is the lowest of the
word in memory. -/
def inetPton (src : Str) : Option Nat :=
  match src.splitOn '.' with
  | [a,b,c,d] => do
    let a ← addressByte a
    let b ← addressByte b
    let c ← addressByte c
    let d ← addressByte d
    some (a + 2^8*b + 2^16*c + 2^24*d)
  | _ => none

def toText : Value → Str
  | .text s => s
  | _ => []

def inodeOf (locals : Local → Value) : UInt64 := .ofNat (toUnsigned (locals .inode))

def toPort (v : Value) : Nat := (toInteger v % 2^16).toNat

def connection (locals : Local → Value) (junk : Connection) : Connection where
  localAddr := (inetPton (toText (locals .localAddr))).getD junk.localAddr
  remoteAddr := (inetPton (toText (locals .remAddr))).getD junk.remoteAddr
  localPort := toPort (locals .localPort)
  remotePort := toPort (locals .remPort)

abbrev Connections := UInt64 → Option Connection

structure Scan where
  locals : Local → Value
  nodetoprocess : Connections

section
variable (other : CType → Int → Int) (inodes : List UInt64)

def lineStep (junk : Connection) (s : Scan) (buffer : Str) : Scan :=
  let locals := sscanf isspace other format buffer s.locals
  if inodeOf locals ∈ inodes then
    ⟨locals,Function.update s.nodetoprocess (inodeOf locals) (some (connection locals junk))⟩
  else ⟨locals,s.nodetoprocess⟩

def lineLoop (junk : Nat → Connection) : Nat → List Str → Scan → Scan
  | _,[],s => s
  | i,buffer::rest,s => lineLoop junk (i+1) rest (lineStep other inodes (junk i) s buffer)

/- What a scan meets: the lines as fgets returns them, or no file, and what its variables hold:
those of the function, and the connection of each round of the loop. -/
structure Table where
  procinfo : Option (List Str)
  locals : Local → Value
  junk : Nat → Connection

def scanTable (t : Table) (nodetoprocess : Connections) : Connections :=
  match t.procinfo with
  | none => nodetoprocess
  | some lines => (lineLoop other inodes t.junk 0 lines ⟨t.locals,nodetoprocess⟩).nodetoprocess

def scanTcp (tcp : Table) (nodetoprocess : Connections) : Connections := scanTable other inodes tcp nodetoprocess
def scanUdp (udp : Table) (nodetoprocess : Connections) : Connections := scanTable other inodes udp nodetoprocess

def Matches (line : Str) : Prop := count isspace other format line = 14

def fields (line : Str) : Local → Value := sscanf isspace other format line (fun _ => .number 0)

def Names (line : Str) (k : UInt64) : Prop := Matches other line ∧ inodeOf (fields other line) = k

def word (v : Value) : Nat := Strtoul.ofDigits 16 (toText v) % 2^32

def encoded (line : Str) : Connection where
  localAddr := word (fields other line .localAddr)
  remoteAddr := word (fields other line .remAddr)
  localPort := toPort (fields other line .localPort)
  remotePort := toPort (fields other line .remPort)

structure Maps (lines : List Str) (nodetoprocess : Connections) : Prop where
  keys : ∀ k, nodetoprocess k ≠ none ↔ k ∈ inodes ∧ ∃ line ∈ lines, Names other line k
  connections : ∀ line ∈ lines, ∀ k ∈ inodes, Names other line k → nodetoprocess k = some (encoded other line)

end

def beforeInode : List Local :=
  [.d,.localAddr,.localPort,.remAddr,.remPort,.state,.txq,.rxq,.timerRun,.timeLen,.retr,.uid,.timeout]

theorem formatTargets : targets format = beforeInode ++ [.inode] := rfl

theorem inodeKept (other) {line : Str} (missed : ¬ Matches other line) (locals : Local → Value) :
    sscanf isspace other format line locals .inode = locals .inode :=
  Scanf.assignOther (lastUntouched isspace other formatTargets (by decide) missed) locals

theorem matchedField (other) {line : Str} (whole : Matches other line) (a : Local) (locals : Local → Value) :
    sscanf isspace other format line locals a = fields other line a := by
  refine assignDetermined ?_ _ _
  rw [scanAll isspace other whole,formatTargets]
  cases a <;> decide

def Dotless (v : Value) : Prop := '.' ∉ toText v

theorem hexDotless {text : Str} (hex : ∀ c ∈ text, hexDigit c = true) : Dotless (.text text) := by
  intro dot
  exact absurd (hex '.' dot) (by decide)

theorem addressRead (other) {line : Str} {value : Value} (mem : (Local.localAddr,value) ∈ scan isspace other format line) :
    Dotless value := by
  obtain ⟨conversion,listed,text,rest,read⟩ := scanSource isspace other mem
  have only : conversion = .set 64 hexDigit := by
    simpa [format] using listed
  subst only
  obtain ⟨text,rfl,hex⟩ := setMember isspace other read
  exact hexDotless hex

theorem addressKept (other) (line : Str) {locals : Local → Value} (dotless : Dotless (locals .localAddr)) :
    Dotless (sscanf isspace other format line locals .localAddr) := by
  rcases assignCases locals (scan isspace other format line) .localAddr with kept | read
  · rw [sscanf,kept]
    exact dotless
  · exact addressRead other read

theorem fieldsDotless (other) (line : Str) : Dotless (fields other line .localAddr) := by
  unfold fields
  apply addressKept
  intro dot
  cases dot

theorem inetPtonDotless {v : Value} (dotless : Dotless v) : inetPton (toText v) = none := by
  have undotted : ∀ c ∈ toText v, (c == '.') = false := by
    intro c mem
    rw [beq_eq_false_iff_ne]
    rintro rfl
    exact dotless mem
  have single : (toText v).splitOn '.' = [toText v] := List.splitOnP_eq_singleton undotted
  rw [inetPton,single]

structure Stale (inodes : List UInt64) (held : Nat) (s : Scan) : Prop where
  text : inodeOf s.locals ∈ inodes → Dotless (s.locals .localAddr)
  entries : ∀ k c, s.nodetoprocess k = some c → c.localAddr = held

section
variable {other : CType → Int → Int} {inodes : List UInt64}

theorem lineStepKnown (junk : Connection) {s : Scan} {buffer : Str}
    (known : inodeOf (sscanf isspace other format buffer s.locals) ∈ inodes) :
    lineStep other inodes junk s buffer = ⟨sscanf isspace other format buffer s.locals,
      Function.update s.nodetoprocess (inodeOf (sscanf isspace other format buffer s.locals))
        (some (connection (sscanf isspace other format buffer s.locals) junk))⟩ := if_pos known

theorem lineStepUnknown (junk : Connection) {s : Scan} {buffer : Str}
    (unknown : inodeOf (sscanf isspace other format buffer s.locals) ∉ inodes) :
    lineStep other inodes junk s buffer = ⟨sscanf isspace other format buffer s.locals,s.nodetoprocess⟩ := if_neg unknown

theorem staleStep {held : Nat} {junk : Connection} (same : junk.localAddr = held) {s : Scan} (stale : Stale inodes held s)
    (buffer : Str) : Stale inodes held (lineStep other inodes junk s buffer) := by
  have text : inodeOf (sscanf isspace other format buffer s.locals) ∈ inodes →
      Dotless (sscanf isspace other format buffer s.locals .localAddr) := by
    intro known
    by_cases whole : Matches other buffer
    · rw [matchedField other whole]
      exact fieldsDotless other buffer
    · rw [inodeOf,inodeKept other whole] at known
      exact addressKept other buffer (stale.text known)
  by_cases known : inodeOf (sscanf isspace other format buffer s.locals) ∈ inodes
  · rw [lineStepKnown junk known]
    refine ⟨text,fun k c entry => ?_⟩
    by_cases here : k = inodeOf (sscanf isspace other format buffer s.locals)
    · subst here
      simp only [Function.update_self,Option.some.injEq] at entry
      subst entry
      simp only [connection,inetPtonDotless (text known),Option.getD_none,same]
    · simp only [Function.update_of_ne here] at entry
      exact stale.entries k c entry
  · rw [lineStepUnknown junk known]
    exact ⟨text,stale.entries⟩

theorem staleLoop {held : Nat} {junk : Nat → Connection} (same : ∀ i, (junk i).localAddr = held) (i : Nat) (lines : List Str)
    {s : Scan} (stale : Stale inodes held s) : Stale inodes held (lineLoop other inodes junk i lines s) := by
  induction lines generalizing i s with
  | nil => exact stale
  | cons buffer rest ih => exact ih (i+1) (staleStep (same i) stale buffer)

theorem quietLoop (junk : Nat → Connection) (i : Nat) {lines : List Str}
    (unnamed : ∀ line ∈ lines, ∀ k ∈ inodes, ¬ Names other line k) {s : Scan} (unknown : inodeOf s.locals ∉ inodes) :
    (lineLoop other inodes junk i lines s).nodetoprocess = s.nodetoprocess := by
  induction lines generalizing i s with
  | nil => rfl
  | cons buffer rest ih =>
    have absent : inodeOf (sscanf isspace other format buffer s.locals) ∉ inodes := by
      by_cases whole : Matches other buffer
      · rw [inodeOf,matchedField other whole]
        exact fun known => unnamed buffer List.mem_cons_self _ known ⟨whole,rfl⟩
      · rwa [inodeOf,inodeKept other whole]
    rw [lineLoop,lineStepUnknown (junk i) absent]
    exact ih (i+1) (fun line mem => unnamed line (List.mem_cons_of_mem _ mem)) absent

theorem entriesKept (junk : Nat → Connection) (i : Nat) (lines : List Str) {s : Scan} {k : UInt64}
    (entered : s.nodetoprocess k ≠ none) : (lineLoop other inodes junk i lines s).nodetoprocess k ≠ none := by
  induction lines generalizing i s with
  | nil => exact entered
  | cons buffer rest ih =>
    refine ih (i+1) ?_
    by_cases known : inodeOf (sscanf isspace other format buffer s.locals) ∈ inodes
    · rw [lineStepKnown (junk i) known]
      by_cases here : k = inodeOf (sscanf isspace other format buffer s.locals)
      · subst here
        simp
      · simpa [Function.update_of_ne here] using entered
    · rw [lineStepUnknown (junk i) known]
      exact entered

end

def scanned (other : CType → Int → Int) (inodes : List UInt64) (tcp udp : Table) : Connections :=
  scanUdp other inodes udp (scanTcp other inodes tcp fun _ => none)

theorem scannedStale (other) {inodes : List UInt64} {held : Nat} {tcp udp : Table}
    (tcpText : inodeOf tcp.locals ∈ inodes → Dotless (tcp.locals .localAddr))
    (udpText : inodeOf udp.locals ∈ inodes → Dotless (udp.locals .localAddr))
    (tcpJunk : ∀ i, (tcp.junk i).localAddr = held) (udpJunk : ∀ i, (udp.junk i).localAddr = held) :
    ∀ k c, scanned other inodes tcp udp k = some c → c.localAddr = held := by
  have table : ∀ {t : Table} {nodetoprocess : Connections}, (inodeOf t.locals ∈ inodes → Dotless (t.locals .localAddr)) →
      (∀ i, (t.junk i).localAddr = held) → (∀ k c, nodetoprocess k = some c → c.localAddr = held) →
      ∀ k c, scanTable other inodes t nodetoprocess k = some c → c.localAddr = held := by
    intro t nodetoprocess text junk entries
    cases present : t.procinfo with
    | none => simpa only [scanTable,present] using entries
    | some lines =>
      simp only [scanTable,present]
      exact (staleLoop junk 0 lines ⟨text,entries⟩).entries
  exact table udpText udpJunk (table tcpText tcpJunk (fun _ _ none => by cases none))

section
variable {other : CType → Int → Int} {inodes : List UInt64} {tcp udp : List Str} {locals locals' : Local → Value}

theorem namedMismatch (tcpText : inodeOf locals ∈ inodes → Dotless (locals .localAddr))
    (udpText : inodeOf locals' ∈ inodes → Dotless (locals' .localAddr))
    (maps : ∀ junk junk', Maps other inodes (tcp ++ udp) (scanned other inodes ⟨some tcp,locals,junk⟩ ⟨some udp,locals',junk'⟩)) :
    ∀ line ∈ tcp ++ udp, ∀ k ∈ inodes, ¬ Names other line k := by
  intro line mem k known named
  let junk : Nat → Connection := fun _ => ⟨0,(encoded other line).localAddr + 1,0,0⟩
  have entry := (maps junk junk).connections line mem k known named
  have stale : ∀ k c, scanned other inodes ⟨some tcp,locals,junk⟩ ⟨some udp,locals',junk⟩ k = some c →
      c.localAddr = (encoded other line).localAddr + 1 := scannedStale other tcpText udpText (fun _ => rfl) (fun _ => rfl)
  have held := stale k _ entry
  omega

theorem scannedQuiet (unnamed : ∀ line ∈ tcp ++ udp, ∀ k ∈ inodes, ¬ Names other line k) (tcpInode : inodeOf locals ∉ inodes)
    (udpInode : inodeOf locals' ∉ inodes) (junk junk' : Nat → Connection) :
    Maps other inodes (tcp ++ udp) (scanned other inodes ⟨some tcp,locals,junk⟩ ⟨some udp,locals',junk'⟩) := by
  have first : scanTcp other inodes ⟨some tcp,locals,junk⟩ (fun _ => none) = fun _ => none :=
    quietLoop junk 0 (fun line mem => unnamed line (List.mem_append_left _ mem)) tcpInode
  have second : scanned other inodes ⟨some tcp,locals,junk⟩ ⟨some udp,locals',junk'⟩ = fun _ => none := by
    rw [scanned,first]
    exact quietLoop junk' 0 (fun line mem => unnamed line (List.mem_append_right _ mem)) udpInode
  rw [second]
  refine ⟨fun k => ⟨fun entered => absurd rfl entered,?_⟩,fun line mem k known named => absurd named (unnamed line mem k known)⟩
  rintro ⟨known,line,mem,named⟩
  exact absurd named (unnamed line mem k known)

end

def holding (k : UInt64) : Local → Value
  | .inode => .number k.toNat
  | _ => .text []

theorem inodeHeld (k : UInt64) : inodeOf (holding k) = k := by
  have small := k.toNat_lt
  have value : ((k.toNat : Int) % 2^64).toNat = k.toNat := by omega
  have value : toUnsigned (.number k.toNat) = k.toNat := value
  rw [inodeOf,holding,value,UInt64.ofNat_toNat]

theorem heldEntered {other} {inodes : List UInt64} {k : UInt64} (known : k ∈ inodes) {header : Str} (headed : ¬ Matches other header)
    (tcp udp : List Str) (locals' : Local → Value) (junk junk' : Nat → Connection) :
    scanned other inodes ⟨some (header::tcp),holding k,junk⟩ ⟨some udp,locals',junk'⟩ k ≠ none := by
  have held : inodeOf (sscanf isspace other format header (holding k)) = k := by
    rw [inodeOf,inodeKept other headed]
    exact inodeHeld k
  have first : (lineStep other inodes (junk 0) ⟨holding k,fun _ => none⟩ header).nodetoprocess k ≠ none := by
    rw [lineStepKnown (junk 0) (held.symm ▸ known),held]
    simp
  have table : scanTcp other inodes ⟨some (header::tcp),holding k,junk⟩ (fun _ => none) k ≠ none := entriesKept junk 1 tcp first
  exact entriesKept (s := ⟨locals',_⟩) junk' 0 udp table

theorem connectionsExactly (other : CType → Int → Int) (inodes : List UInt64) {header : Str} (headed : ¬ Matches other header)
    (tcp udp : List Str) :
    ((∀ locals locals' junk junk', Maps other inodes (header::tcp ++ udp)
      (scanned other inodes ⟨some (header::tcp),locals,junk⟩ ⟨some udp,locals',junk'⟩)) ↔ inodes = []) ∧
    ∀ locals locals', inodeOf locals ∉ inodes → inodeOf locals' ∉ inodes →
      ((∀ junk junk', Maps other inodes (header::tcp ++ udp)
        (scanned other inodes ⟨some (header::tcp),locals,junk⟩ ⟨some udp,locals',junk'⟩)) ↔
      ∀ line ∈ header::tcp ++ udp, ∀ k ∈ inodes, ¬ Names other line k) := by
  constructor
  · constructor
    · intro maps
      by_contra nonempty
      obtain ⟨k,known⟩ := List.exists_mem_of_ne_nil inodes nonempty
      have entered := heldEntered known headed tcp udp (holding k) (fun _ => ⟨0,0,0,0⟩) (fun _ => ⟨0,0,0,0⟩)
      obtain ⟨-,line,mem,named⟩ := ((maps _ _ _ _).keys k).mp entered
      have text : inodeOf (holding k) ∈ inodes → Dotless (holding k .localAddr) := fun _ dot => by cases dot
      exact namedMismatch text text (maps _ _) line mem k known named
    · rintro rfl locals locals' junk junk'
      exact scannedQuiet (by simp) (by simp) (by simp) junk junk'
  · intro locals locals' tcpInode udpInode
    constructor
    · exact namedMismatch (fun known => absurd known tcpInode) (fun known => absurd known udpInode)
    · exact fun unnamed junk junk' => scannedQuiet unnamed tcpInode udpInode junk junk'

def header : Str := "  sl  local_address rem_address   st tx_queue rx_queue tr tm->when retrnsmt   uid  timeout inode\n".toList

def listening : Str := "   0: 0100007F:1F90 00000000:0000 0A 00000000:00000000 00:00000000 00000000  1000        0 5 1 0\n".toList

def cutShort : Str := "   1: 0100007F:0050 rubbish\n".toList

def cleared : Local → Value := fun _ => .number 0

theorem headerUnmatched : ¬ Matches (fun _ n => n) header := by
  unfold Matches
  decide +kernel

instance (other line k) : Decidable (Names other line k) := by unfold Names Matches; infer_instance

theorem clearedInode : inodeOf cleared = 0 := rfl

theorem listeningNamed : Names (fun _ n => n) listening 5 := by decide +kernel

theorem strangerAbsent : ∀ line ∈ [header,listening,header], ¬ Names (fun _ n => n) line 7 := by
  intro line mem named
  simp only [List.mem_cons,List.not_mem_nil,or_false] at mem
  rcases mem with same | same | same
  · exact headerUnmatched (same ▸ named.1)
  · exact absurd ((same ▸ named).2.symm.trans listeningNamed.2) (by decide)
  · exact headerUnmatched (same ▸ named.1)

theorem strangerNotEntered : Maps (fun _ n => n) [7] (header::[listening] ++ [header]) (scanned (fun _ n => n) [7]
    ⟨some [header,listening],cleared,fun _ => ⟨1,2,3,4⟩⟩ ⟨some [header],cleared,fun _ => ⟨5,6,7,8⟩⟩) := by
  have absent : inodeOf cleared ∉ [7] := by
    rw [clearedInode]
    decide
  refine ((connectionsExactly _ [7] headerUnmatched [listening] [header]).2 cleared cleared absent absent).mpr ?_ _ _
  intro line mem k known
  rw [List.mem_singleton.mp known]
  exact strangerAbsent line mem

/- The line of socket 5 is entered with whatever the connection held for an address, and a line that
does not match changes its port. -/
theorem addressesNotRead :
    ¬ Maps (fun _ n => n) [5] ([header,listening] ++ [header]) (scanned (fun _ n => n) [5]
      ⟨some [header,listening],cleared,fun _ => ⟨0,0,0,0⟩⟩ ⟨some [header],cleared,fun _ => ⟨0,0,0,0⟩⟩) ∧
    scanned (fun _ n => n) [5] ⟨some [header,listening,cutShort],cleared,fun _ => ⟨0,0,0,0⟩⟩
      ⟨some [header],cleared,fun _ => ⟨0,0,0,0⟩⟩ 5 = some ⟨0,0,0,80⟩ := by
  constructor
  · intro maps
    have entry := maps.connections listening (by simp) 5 (by simp) listeningNamed
    have absent : inodeOf cleared ∉ [5] := by
      rw [clearedInode]
      decide
    have held := scannedStale _ (fun known => absurd known absent) (fun known => absurd known absent) (fun _ => rfl) (fun _ => rfl) 5 _ entry
    revert held
    decide +kernel
  · decide +kernel

end PracticeSuite.ProcNet
