import Mathlib
import PracticeSuite.KeyedList
import PracticeSuite.Trace

/-! The per-flow byte counters shared by the packet capture and the socket
listing: a linked list with one node for each flow, prepended to and updated in
place. Allocation is taken to succeed. -/
namespace PracticeSuite.FlowTable

structure FlowKey where
  source : UInt32
  dest : UInt32
  sport : UInt16
  dport : UInt16
  deriving DecidableEq, Repr

structure Bandwidth where
  source : UInt32
  dest : UInt32
  sport : UInt16
  dport : UInt16
  data : UInt32
  deriving DecidableEq, Repr

def Bandwidth.flow (b : Bandwidth) : FlowKey := ⟨b.source,b.dest,b.sport,b.dport⟩

def Bandwidth.grow (data : UInt32) (temp : Bandwidth) : Bandwidth := {temp with data := temp.data + data}

theorem flowGrow (data temp) : (Bandwidth.grow data temp).flow = temp.flow := rfl

abbrev Table := Option (List Bandwidth)

def lookupBandwidth (table : Table) (source dest : UInt32) (sport dport : UInt16) : Option Bandwidth :=
  match table with
  | none => none
  | some nodes => nodes.find? (fun temp =>
      temp.source = source && temp.dest = dest && temp.dport = dport && temp.sport = sport)

/- The node found is the one `temp` points to, so `temp->data += data` changes the
first matching node of the chain. -/
def addBandwidth (table : Table) (source dest : UInt32) (sport dport : UInt16) (data : UInt32) : Table × Int :=
  match lookupBandwidth table source dest sport dport,table with
  | some _,some nodes =>
      (some (KeyedList.modifyKey Bandwidth.flow ⟨source,dest,sport,dport⟩ (Bandwidth.grow data) nodes),1)
  | _,none => (some [⟨source,dest,sport,dport,data⟩],1)
  | none,some nodes => (some (⟨source,dest,sport,dport,data⟩ :: nodes),1)

structure Call where
  flow : FlowKey
  data : UInt32
  deriving DecidableEq, Repr

def add (table : Table) (c : Call) : Table :=
  (addBandwidth table c.flow.source c.flow.dest c.flow.sport c.flow.dport c.data).1

def run (calls : List Call) : Table := Trace.run add none calls

def Table.nodes (table : Table) : List Bandwidth := table.getD []

def lookup (table : Table) (k : FlowKey) : Option Bandwidth :=
  lookupBandwidth table k.source k.dest k.sport k.dport

theorem matchesIff (b : Bandwidth) (k : FlowKey) :
    (b.source = k.source && b.dest = k.dest && b.dport = k.dport && b.sport = k.sport) = decide (b.flow = k) := by
  cases k
  simp only [Bandwidth.flow,FlowKey.mk.injEq,Bool.decide_and,Bool.and_assoc]
  rw [Bool.and_comm (decide (b.dport = _))]

theorem lookupEq (table k) : lookup table k = KeyedList.lookup Bandwidth.flow k (Table.nodes table) := by
  cases table with
  | none => rfl
  | some nodes =>
    simp only [lookup,lookupBandwidth,matchesIff]
    rfl

theorem addKnown {table c b} (known : lookup table c.flow = some b) :
    Table.nodes (add table c) =
      KeyedList.modifyKey Bandwidth.flow c.flow (Bandwidth.grow c.data) (Table.nodes table) := by
  cases table with
  | none => cases known
  | some nodes =>
    simp only [lookup] at known
    simp only [add,addBandwidth,known]
    rfl

theorem addFresh {table c} (fresh : lookup table c.flow = none) :
    Table.nodes (add table c) =
      ⟨c.flow.source,c.flow.dest,c.flow.sport,c.flow.dport,c.data⟩ :: Table.nodes table := by
  simp only [lookup] at fresh
  cases table with
  | none => simp only [add,addBandwidth,fresh,Table.nodes]; rfl
  | some nodes => simp only [add,addBandwidth,fresh,Table.nodes]; rfl

def Distinct (table : Table) : Prop := KeyedList.Distinct Bandwidth.flow (Table.nodes table)

theorem addDistinct (table c) (distinct : Distinct table) : Distinct (add table c) := by
  unfold Distinct KeyedList.Distinct at *
  cases found : lookup table c.flow with
  | some b => rw [addKnown found,KeyedList.keysModify (flowGrow c.data)]; exact distinct
  | none =>
    rw [lookupEq] at found
    rw [addFresh (by rw [lookupEq]; exact found),List.map_cons,List.nodup_cons]
    exact ⟨KeyedList.lookupNone.mp found,distinct⟩

theorem runDistinct (calls) : Distinct (run calls) :=
  Trace.runInvariant addDistinct (show Distinct none from List.nodup_nil) calls

theorem lookupAdd (table c k) :
    lookup (add table c) k = if k = c.flow then
      match lookup table c.flow with
      | some b => some (b.grow c.data)
      | none => some ⟨c.flow.source,c.flow.dest,c.flow.sport,c.flow.dport,c.data⟩
    else lookup table k := by
  cases found : lookup table c.flow with
  | some b =>
    rw [lookupEq,addKnown found,KeyedList.lookupModify (flowGrow c.data)]
    split
    · rw [← lookupEq,found]; rfl
    · rw [lookupEq]
  | none =>
    rw [lookupEq,addFresh found,lookupEq]
    split
    · rename_i same
      simp [KeyedList.lookup,Bandwidth.flow,same]
    · rename_i other
      have miss : c.flow ≠ k := fun h => other h.symm
      simp [KeyedList.lookup,Bandwidth.flow,miss]

def amounts (k : FlowKey) (calls : List Call) : List Nat :=
  (calls.filter (fun c => c.flow = k)).map (fun c => c.data.toNat)

def FlowKey.node (k : FlowKey) (data : UInt32) : Bandwidth := ⟨k.source,k.dest,k.sport,k.dport,data⟩

theorem sumAmountsSnoc (calls c) :
    (amounts c.flow (calls ++ [c])).sum = (amounts c.flow calls).sum + c.data.toNat := by
  simp [amounts,List.filter_append]

theorem amountsNever {calls : List Call} {k} (never : k ∉ calls.map Call.flow) : amounts k calls = [] := by
  simp only [amounts,List.map_eq_nil_iff,List.filter_eq_nil_iff,decide_eq_true_eq]
  exact fun c mem hit => never (List.mem_map.mpr ⟨c,mem,hit⟩)

theorem growNode (k : FlowKey) (n : Nat) (data : UInt32) :
    (k.node (UInt32.ofNat n)).grow data = k.node (UInt32.ofNat (n + data.toNat)) := by
  rw [UInt32.ofNat_add,UInt32.ofNat_toNat]
  rfl

theorem lookupRun (calls : List Call) (k : FlowKey) :
    lookup (run calls) k = if k ∈ calls.map Call.flow then
      some (k.node (UInt32.ofNat (amounts k calls).sum)) else none := by
  induction calls using List.reverseRecOn with
  | nil => rfl
  | append_singleton calls c ih =>
    rw [run,Trace.runSnoc,← run,lookupAdd,List.map_append,List.map_singleton]
    by_cases same : k = c.flow
    · subst same
      rw [if_pos rfl,ih,if_pos (List.mem_append_right _ (List.mem_singleton.mpr rfl)),sumAmountsSnoc]
      by_cases known : c.flow ∈ calls.map Call.flow
      · simp only [if_pos known,growNode]
      · simp only [if_neg known,amountsNever known,List.sum_nil,Nat.zero_add,UInt32.ofNat_toNat]
        rfl
    · have other : c.flow ≠ k := fun h => same h.symm
      have total : amounts k (calls ++ [c]) = amounts k calls := by
        simp [amounts,List.filter_append,other]
      rw [if_neg same,ih,total]
      simp [same]

theorem exactAccumulator (calls : List Call) :
    ((run calls).getD []).Pairwise (fun a b => a.flow ≠ b.flow) ∧
    (∀ k, lookup (run calls) k = none ↔ ∀ c ∈ calls, c.flow ≠ k) ∧
    (∀ k b, lookup (run calls) k = some b → b.flow = k ∧
      b.data.toNat = ((calls.filter (fun c => c.flow = k)).map (fun c => c.data.toNat)).sum % 2^32) ∧
    ∀ other : List Call, calls.Perm other → ∀ k, lookup (run other) k = lookup (run calls) k := by
  refine ⟨List.pairwise_map.mp (runDistinct calls),fun k => ?_,fun k b found => ?_,fun other perm k => ?_⟩
  · rw [lookupRun]
    split
    · rename_i mem
      obtain ⟨c,inside,hit⟩ := List.mem_map.mp mem
      simp only [reduceCtorEq,false_iff]
      exact fun none_ => none_ c inside hit
    · rename_i absent
      simp only [true_iff]
      exact fun c inside hit => absent (List.mem_map.mpr ⟨c,inside,hit⟩)
  · rw [lookupRun] at found
    split at found <;> try contradiction
    cases Option.some.inj found
    exact ⟨rfl,UInt32.toNat_ofNat⟩
  · have total : (amounts k other).sum = (amounts k calls).sum :=
      ((perm.filter _).map _).sum_eq.symm
    have seen : k ∈ other.map Call.flow ↔ k ∈ calls.map Call.flow := (perm.map _).mem_iff.symm
    simp only [lookupRun,seen,total]

end PracticeSuite.FlowTable
