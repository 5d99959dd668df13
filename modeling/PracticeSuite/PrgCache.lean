import PracticeSuite.Trace
import PracticeSuite.CInt
import PracticeSuite.ChainedTable

/-! The cache of program names by socket inode: 211 chains of nodes, filled by
prg_cache_add, searched by prg_cache_get and emptied by prg_cache_clear. The name
of a node is a buffer of 20 bytes; what a caller reads of it ends at the first
zero byte. -/
namespace PracticeSuite.PrgCache

structure CString where
  bytes : List UInt8
  terminated : 0 ∉ bytes

def prgHashSize : Nat := 211
def prognameWidth : Nat := 20
def selinuxWidth : Nat := 50

structure PrgNode where
  inode : UInt64
  name : List UInt8
  scon : List UInt8
  deriving DecidableEq, Repr

structure Cache where
  prgHash : Fin prgHashSize → List PrgNode
  prgCacheLoaded : UInt8

def empty : Cache := ⟨fun _ => [],0⟩

def prgHashit (x : UInt64) : Fin prgHashSize := ⟨x.toNat % prgHashSize,Nat.mod_lt _ (by decide)⟩

/- strncpy pads the rest of the buffer with zero bytes; its last byte is set
beforehand. -/
def safeStrncpy (src : List UInt8) (size : Nat) : List UInt8 :=
  src.take (size-1) ++ List.replicate (size-1 - src.length) 0 ++ [0]

def text (buffer : List UInt8) : List UInt8 := buffer.takeWhile (· ≠ 0)

def sconCopy (scon : CString) : List UInt8 :=
  let len := CInt.toInt ((((scon.bytes.length : Int) - selinuxWidth) % 2^64 + 1) % 2^64)
  if 0 < len then safeStrncpy (scon.bytes.drop (len.toNat+1)) selinuxWidth
  else safeStrncpy scon.bytes selinuxWidth

/- The walk through the chain: it stops at a node of the inode, or appends where
the chain ends. `malloc` tells whether the allocation succeeds. -/
def chainAdd (malloc : Bool) (inode : UInt64) (name scon : CString) : List PrgNode → List PrgNode
  | [] => if malloc then [⟨inode,safeStrncpy name.bytes prognameWidth,sconCopy scon⟩] else []
  | pn::next => if pn.inode = inode then pn::next else pn :: chainAdd malloc inode name scon next

def prgCacheAdd (malloc : Bool) (c : Cache) (inode : UInt64) (name scon : CString) : Cache :=
  let hi := prgHashit inode
  ⟨Function.update c.prgHash hi (chainAdd malloc inode name scon (c.prgHash hi)),2⟩

def dash : List UInt8 := [0x2d]

def chainGet (inode : UInt64) : List PrgNode → List UInt8
  | [] => dash
  | pn::next => if pn.inode = inode then text pn.name else chainGet inode next

def prgCacheGet (c : Cache) (inode : UInt64) : List UInt8 := chainGet inode (c.prgHash (prgHashit inode))

def chainFree : List PrgNode → List PrgNode
  | [] => []
  | _::next => chainFree next

def prgCacheClear (c : Cache) : Cache :=
  if c.prgCacheLoaded = 2 then ⟨fun h => chainFree (c.prgHash h),0⟩ else ⟨c.prgHash,0⟩

inductive Operation where
  | add (malloc : Bool) (inode : UInt64) (name scon : CString)
  | get (inode : UInt64)
  | clear

def operate (c : Cache) : Operation → Cache
  | .add malloc inode name scon => prgCacheAdd malloc c inode name scon
  | .get _ => c
  | .clear => prgCacheClear c

def run (ops : List Operation) : Cache := Trace.run operate empty ops

theorem textCopy (src : CString) (size : Nat) : text (safeStrncpy src.bytes size) = src.bytes.take (size-1) := by
  have nonzero : ∀ b ∈ src.bytes.take (size-1), decide (b ≠ 0) = true := by
    intro b mem
    have inside := List.mem_of_mem_take mem
    exact decide_eq_true (fun zero => src.terminated (zero ▸ inside))
  unfold text safeStrncpy
  rw [List.append_assoc,List.takeWhile_append_of_pos nonzero]
  cases size-1 - src.bytes.length with
  | zero => simp
  | succ k => simp [List.replicate_succ]

def node (inode : UInt64) (name scon : CString) : PrgNode :=
  ⟨inode,safeStrncpy name.bytes prognameWidth,sconCopy scon⟩

theorem chainAddEq (inode name scon) (chain : List PrgNode) :
    chainAdd true inode name scon chain = KeyedList.pushNew PrgNode.inode (node inode name scon) chain := by
  induction chain with
  | nil => rfl
  | cons pn next ih =>
    rw [KeyedList.pushNewCons,chainAdd,ih]
    rfl

theorem chainGetEq (inode) (chain : List PrgNode) :
    chainGet inode chain =
      ((KeyedList.lookup PrgNode.inode inode chain).map (fun pn => text pn.name)).getD dash := by
  induction chain with
  | nil => rfl
  | cons pn next ih =>
    simp only [chainGet,KeyedList.lookup,List.find?_cons] at ih ⊢
    by_cases same : pn.inode = inode
    · simp [same]
    · simpa [same] using ih

theorem chainFreeEq (chain : List PrgNode) : chainFree chain = [] := by
  induction chain with
  | nil => rfl
  | cons pn next ih => exact ih

def find (c : Cache) (inode : UInt64) : Option PrgNode :=
  ChainedTable.find PrgNode.inode prgHashit inode c.prgHash

theorem addTable (c : Cache) (inode name scon) :
    (prgCacheAdd true c inode name scon).prgHash =
      ChainedTable.insert PrgNode.inode prgHashit (node inode name scon) c.prgHash := by
  simp only [prgCacheAdd,chainAddEq]
  rfl

structure Valid (c : Cache) : Prop where
  table : ChainedTable.Valid PrgNode.inode prgHashit c.prgHash
  loaded : c.prgCacheLoaded ≠ 2 → c.prgHash = fun _ => []

theorem clearTable {c : Cache} (valid : Valid c) : (prgCacheClear c).prgHash = fun _ => [] := by
  unfold prgCacheClear
  split
  · simp only [chainFreeEq]
  · rename_i unloaded
    exact valid.loaded unloaded

def Operation.Allocated : Operation → Prop
  | .add malloc _ _ _ => malloc = true
  | _ => True

theorem operateValid {c : Cache} {op : Operation} (allocated : op.Allocated) (valid : Valid c) :
    Valid (operate c op) := by
  cases op with
  | add malloc inode name scon =>
    cases allocated
    refine ⟨?_,fun unloaded => absurd rfl unloaded⟩
    simp only [operate,addTable]
    exact ChainedTable.insertValid valid.table
  | get inode => exact valid
  | clear =>
    have cleared := clearTable valid
    refine ⟨?_,fun _ => cleared⟩
    simp only [operate,cleared]
    exact ChainedTable.emptyValid

def Operation.isClear : Operation → Bool
  | .clear => true
  | _ => false

def Operation.named (inode : UInt64) : Operation → Option PrgNode
  | .add _ i name scon => if i = inode then some (node i name scon) else none
  | _ => none

def sinceClear (ops : List Operation) : List Operation := ops.rtakeWhile (fun op => !op.isClear)

theorem operateFind {c : Cache} {op : Operation} (allocated : op.Allocated) (valid : Valid c) (inode : UInt64) :
    find (operate c op) inode =
      if op.isClear then none else (find c inode).or (op.named inode) := by
  cases op with
  | add malloc i name scon =>
    cases allocated
    unfold find
    simp only [operate,addTable,ChainedTable.findInsert,Operation.isClear,Operation.named]
    by_cases same : i = inode
    · subst same
      cases ChainedTable.find PrgNode.inode prgHashit i c.prgHash <;> simp [node]
    · simp [node,same,Ne.symm same]
  | get i => simp [operate,Operation.isClear,Operation.named]
  | clear =>
    unfold find
    simp only [operate,clearTable valid]
    rfl

theorem runSpec {ops : List Operation} (allocated : ∀ op ∈ ops, op.Allocated) :
    Valid (run ops) ∧ ∀ inode, find (run ops) inode = (sinceClear ops).findSome? (Operation.named inode) := by
  induction ops using List.reverseRecOn with
  | nil => exact ⟨⟨ChainedTable.emptyValid,fun _ => rfl⟩,fun inode => rfl⟩
  | append_singleton ops op ih =>
    obtain ⟨valid,found⟩ := ih (fun x mem => allocated x (List.mem_append_left _ mem))
    have here : op.Allocated := allocated op (by simp)
    have step : run (ops ++ [op]) = operate (run ops) op := Trace.runSnoc operate empty ops op
    rw [step]
    refine ⟨operateValid here valid,fun inode => ?_⟩
    rw [operateFind here valid,found,sinceClear,sinceClear,List.rtakeWhile_concat]
    cases op.isClear with
    | true => rfl
    | false => simp [List.findSome?_append]

def firstName (inode : UInt64) : List Operation → Option CString
  | [] => none
  | .add _ i name _::rest => if i = inode then some name else firstName inode rest
  | _::rest => firstName inode rest

theorem namedFirst (inode : UInt64) (ops : List Operation) :
    (ops.findSome? (Operation.named inode)).map (fun pn => text pn.name) =
      (firstName inode ops).map (fun name => name.bytes.take 19) := by
  induction ops with
  | nil => rfl
  | cons op rest ih =>
    cases op with
    | add malloc i name scon =>
      simp only [List.findSome?_cons,Operation.named,firstName]
      by_cases same : i = inode
      · simp only [same,if_true,Option.map_some,node,textCopy]
        rfl
      · simp only [same,if_false]
        exact ih
    | get i => exact ih
    | clear => exact ih

theorem cacheFirstWins (ops : List Operation) (allocated : ∀ op ∈ ops, op.Allocated) :
    (∀ h, ∀ pn ∈ (run ops).prgHash h, pn.inode.toNat % 211 = h.val) ∧
    (((List.finRange prgHashSize).flatMap (run ops).prgHash).map PrgNode.inode).Nodup ∧
    (∀ inode, prgCacheGet (run ops) inode = match firstName inode (sinceClear ops) with
      | some name => name.bytes.take 19
      | none => dash) ∧
    ∀ inode, prgCacheGet (prgCacheClear (run ops)) inode = dash := by
  obtain ⟨valid,found⟩ := runSpec allocated
  refine ⟨fun h pn mem => ?_,ChainedTable.distinctNodes valid.table,fun inode => ?_,fun inode => ?_⟩
  · exact congrArg Fin.val (valid.table.placed h pn mem)
  · have names := namedFirst inode (sinceClear ops)
    rw [← found inode,find,ChainedTable.find] at names
    rw [prgCacheGet,chainGetEq,names]
    cases firstName inode (sinceClear ops) <;> rfl
  · unfold prgCacheGet
    rw [clearTable valid]
    rfl

def collidingAdds : List Operation :=
  [.add true 5 ⟨[1,2,3],by decide⟩ ⟨[],by decide⟩,.clear,
    .add true 5 ⟨List.replicate 21 7,by decide⟩ ⟨[],by decide⟩,.add true 216 ⟨[8],by decide⟩ ⟨[],by decide⟩,
    .get 5,.add true 5 ⟨[9],by decide⟩ ⟨[],by decide⟩]

theorem cacheFirstWinsColliding :
    prgCacheGet (run collidingAdds) 5 = List.replicate 19 7 ∧ prgCacheGet (run collidingAdds) 216 = [8] := by
  have allocated : ∀ op ∈ collidingAdds, op.Allocated := by
    intro op mem
    simp only [collidingAdds,List.mem_cons,List.not_mem_nil,or_false] at mem
    rcases mem with rfl | rfl | rfl | rfl | rfl | rfl <;> trivial
  have get := (cacheFirstWins collidingAdds allocated).2.2.1
  rw [get 5,get 216]
  exact ⟨rfl,rfl⟩

end PracticeSuite.PrgCache
