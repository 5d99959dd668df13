import PracticeSuite.PrgCache
import PracticeSuite.SocketLink

/-! How prg_cache_load fills the cache from /proc: for each process the links of its descriptors are
read, and those that name a socket are recorded with the PID and the name of the program. -/
namespace PracticeSuite.PrgLoad
open PrgCache SocketLink
open Agent (Str isspace)
open Strtoul (strtoul maximum)

def isdigit (c : UInt8) : Bool := 48 ≤ c && c ≤ 57
def lineMax : Nat := 2048

def prgSocketPfx2 : Str := ['[','0','0','0','0',']',':']

/- An entry of a directory /proc/[pid]/fd, what readlink says of it, what reading the command line gives
at that moment, and whether malloc succeeds then. -/
structure Descriptor where
  dName : CString
  readlink : Option Str
  cmdline : Option (List UInt8)
  malloc : Bool

structure Process where
  dName : CString
  fd : Option (List Descriptor)

def extractType2SocketInode (lname : Str) (inode : Nat) : Int × Nat :=
  if lname.length < prgSocketPfx2.length + 1 then (-1,inode)
  else if lname.take prgSocketPfx2.length ≠ prgSocketPfx2 then (-1,inode)
  else
    let read := strtoul isspace (lname.drop prgSocketPfx2.length)
    if read.2 ≠ [] ∨ read.1 = maximum then (-1,read.1) else (0,read.1)

def socketInode (lname : Str) (inode : Nat) : Option (Option Nat) := do
  let (found,inode) ← extractType1SocketInode lname inode
  if found < 0 then
    let (found,inode) := extractType2SocketInode lname inode
    if found < 0 then some none else some (some inode)
  else some (some inode)

theorem textTerminated (buffer : List UInt8) : 0 ∉ text buffer := by
  intro mem
  simpa using List.mem_takeWhile_imp mem

/- cmdlbuf: up to 511 bytes of the command line, of which string functions see the first argument -/
def cmdlbuf (read : List UInt8) : CString := ⟨text (read.take 511),textTerminated _⟩

def cmdlp (s : CString) : CString :=
  if s.bytes.head? = some 47 then
    ⟨s.bytes.rtakeWhile (· ≠ 47),fun mem => s.terminated ((List.rtakeWhile_suffix _ _).subset mem)⟩
  else s

def finbuf (pid program : CString) : CString :=
  ⟨(pid.bytes ++ 47 :: program.bytes).take (prognameWidth-1),fun mem => by
    rcases List.mem_append.mp (List.mem_of_mem_take mem) with left | right
    · exact pid.terminated left
    · exact program.terminated ((List.mem_cons.mp right).resolve_left (by decide))⟩

def noContext : CString := ⟨[0x2d],by decide⟩

def digitFirst (name : CString) : Bool := (name.bytes.head?.map isdigit).getD false

/- The entries of one fd directory; `program` is cmdlp, not set before a command line has been read.
What inode held before an entry is never used. -/
def walkFd (pid : CString) (procfdlen : Nat) : List Descriptor → Option CString → Cache → Option Cache
  | [],_,c => some c
  | d::rest,program,c =>
    if !digitFirst d.dName then walkFd pid procfdlen rest program c
    else if lineMax < procfdlen + 1 + d.dName.bytes.length + 1 then walkFd pid procfdlen rest program c
    else match d.readlink with
    | none => walkFd pid procfdlen rest program c
    | some target => do
      match ← socketInode (target.take 29) 0 with
      | none => walkFd pid procfdlen rest program c
      | some inode =>
        match program.or (if lineMax - 5 ≤ procfdlen - 2 + 7 then none else d.cmdline.map (fun read => cmdlp (cmdlbuf read))) with
        | none => walkFd pid procfdlen rest none c
        | some program =>
          walkFd pid procfdlen rest (some program) (prgCacheAdd d.malloc c (UInt64.ofNat inode) (finbuf pid program) noContext)

def walkProc : List Process → Cache → Option Cache
  | [],c => some c
  | p::rest,c =>
    if !p.dName.bytes.all isdigit then walkProc rest c
    else
      let procfdlen := 6 + p.dName.bytes.length + 3
      if lineMax - 5 ≤ procfdlen then walkProc rest c
      else match p.fd with
      | none => walkProc rest c
      | some fds => do
        let c ← walkFd p.dName procfdlen fds none c
        walkProc rest c

def prgCacheLoad (c : Cache) (proc : Option (List Process)) : Option Cache :=
  if c.prgCacheLoaded ≠ 0 then some c
  else walkProc (proc.getD []) ⟨c.prgHash,1⟩

def other (target : Str) : Prop := target.take 8 ≠ prgSocketPfx ∧ target.take 7 ≠ prgSocketPfx2

theorem otherLink {target : Str} (plain : other target) (inode : Nat) : socketInode (target.take 29) inode = some none := by
  have front (n : Nat) (small : n ≤ 29) : (target.take 29).take n = target.take n := by rw [List.take_take,Nat.min_eq_left small]
  have first : extractType1SocketInode (target.take 29) inode = some (-1,inode) := by
    unfold extractType1SocketInode
    split
    · rfl
    · rw [if_pos]
      exact (front 8 (by decide)).symm ▸ plain.1
  have second : extractType2SocketInode (target.take 29) inode = (-1,inode) := by
    unfold extractType2SocketInode
    split
    · rfl
    · rw [if_pos]
      exact (front 7 (by decide)).symm ▸ plain.2
  simp only [socketInode,first,second,bind,Option.bind_some]
  rfl

theorem documentedFits {n : Nat} (small : n < maximum) : (documented n).take 29 = documented n := by
  refine List.take_of_length_le ?_
  have digits := documentedLength small
  simp only [documented,link,List.length_append,List.length_singleton]
  have count : prgSocketPfx.length = 8 := rfl
  omega

theorem socketLong {n : Nat} (small : n < maximum) (long : 10 ≤ n) (inode : Nat) :
    socketInode ((documented n).take 29) inode = some (some n) := by
  have digits : 2 ≤ (Nat.toDigits 10 n).length := by
    by_contra short
    have single : (Nat.toDigits 10 n).length ≤ 1 := by omega
    have below : n < 10^1 := (Nat.length_toDigits_le_iff (by decide) (by decide)).mp single
    omega
  have bound := documentedLength small
  obtain ⟨fits,whole⟩ := copiedShort (w := Nat.toDigits 10 n) (by omega)
  have found : extractType1SocketInode (documented n) inode = some (0,n) :=
    (acceptedExactly _ inode small).mpr ⟨_,rfl,digits,by omega,Or.inr (whole.symm ▸ (documentedReads digits small).1)⟩
  simp only [documentedFits small,socketInode,found,bind,Option.bind_some]
  rfl

theorem socketShort {n : Nat} (small : n < 10) (inode : Nat) : socketInode ((documented n).take 29) inode = some none := by
  have below : n < maximum := small.trans (by decide)
  have single : (Nat.toDigits 10 n).length ≤ 1 := (Nat.length_toDigits_le_iff (by decide) (by decide)).mpr small
  have notLink : ¬ ∃ w, documented n = link w ∧ 2 ≤ w.length := by
    rintro ⟨w,same,long⟩
    rw [← linkInjective same] at long
    omega
  have second : extractType2SocketInode (documented n) inode = (-1,inode) := by
    unfold extractType2SocketInode
    split
    · rfl
    · exact if_pos (by simp [documented,link,prgSocketPfx,prgSocketPfx2])
  simp only [documentedFits below,socketInode,extractOther notLink,second,bind,Option.bind_some]
  rfl

def isSocket (d : Descriptor) : Bool := d.readlink.any (fun t => prgSocketPfx.isPrefixOf t && decide (11 ≤ t.length))

/- What the kernel puts into an fd directory: numbers, and links to sockets and to other things. -/
def Written (d : Descriptor) : Prop := ∀ target ∈ d.readlink,
  digitFirst d.dName = true ∧ d.dName.bytes.length ≤ 255 ∧ ((∃ n < maximum, target = documented n) ∨ other target)

def known (fds : List Descriptor) : List Descriptor := (fds.filter isSocket).dropWhile (fun d => d.cmdline.isNone)

def programOf (fds : List Descriptor) : CString :=
  cmdlp (cmdlbuf (((known fds).head?.bind Descriptor.cmdline).getD []))

def holds (n : Nat) (d : Descriptor) : Bool := decide (d.readlink = some (documented n)) && d.malloc

def owner (n : Nat) (p : Process) : Option CString :=
  let fds := p.fd.getD []
  if p.dName.bytes.all isdigit && (known fds).any (holds n) then
    some (finbuf p.dName (programOf fds))
  else none

def named (n : Nat) (c : Cache) : Option (List UInt8) := (find c (UInt64.ofNat n)).map (fun pn => text pn.name)

theorem getNamed (c : Cache) (n : Nat) : prgCacheGet c (UInt64.ofNat n) = (named n c).getD dash := chainGetEq _ _

theorem ofNatInjective {m n : Nat} (left : m < maximum) (right : n < maximum) : UInt64.ofNat m = UInt64.ofNat n ↔ m = n := by
  unfold maximum at left right
  refine ⟨fun same => ?_,congrArg _⟩
  have values := congrArg UInt64.toNat same
  rwa [UInt64.toNat_ofNat',UInt64.toNat_ofNat',Nat.mod_eq_of_lt (by omega),Nat.mod_eq_of_lt (by omega)] at values

theorem namedAdd {m n : Nat} (left : m < maximum) (right : n < maximum) (malloc : Bool) (c : Cache) (name scon : CString) :
    named n (prgCacheAdd malloc c (UInt64.ofNat m) name scon) =
      (named n c).or (if m = n ∧ malloc = true then some (name.bytes.take 19) else none) := by
  cases malloc with
  | true =>
    simp only [named,find,addTable,ChainedTable.findInsert,node,eq_comm,ofNatInjective left right,and_true]
    by_cases same : m = n
    · subst same
      cases ChainedTable.find PrgNode.inode prgHashit (UInt64.ofNat m) c.prgHash with
      | none => simp [textCopy,prognameWidth]
      | some pn => simp
    · simp [same]
  | false =>
    have kept : ∀ chain, chainAdd false (UInt64.ofNat m) name scon chain = chain := by
      intro chain
      induction chain with
      | nil => rfl
      | cons pn next ih => simp only [chainAdd,ih,ite_self]
    have table : (prgCacheAdd false c (UInt64.ofNat m) name scon).prgHash = c.prgHash := by
      simp only [prgCacheAdd,kept]
      exact Function.update_eq_self _ _
    simp only [named,find,table,Bool.false_eq_true,and_false,if_false,Option.or_none]

theorem documentedInjective {m n : Nat} (same : documented m = documented n) : m = n := by
  have values := congrArg (fun ds => Nat.ofDigitChars 10 ds 0) (linkInjective same)
  simpa only [Nat.ofDigitChars_toDigits (b := 10) (by decide) (by decide)] using values

theorem documentedSocket (n : Nat) : (prgSocketPfx.isPrefixOf (documented n) && decide (11 ≤ (documented n).length)) = decide (10 ≤ n) := by
  have front : prgSocketPfx.isPrefixOf (documented n) = true := List.isPrefixOf_iff_prefix.mpr (List.prefix_append _ _)
  have digits : (Nat.toDigits 10 n).length ≤ 1 ↔ n < 10^1 := Nat.length_toDigits_le_iff (by decide) (by decide)
  have count : prgSocketPfx.length = 8 := rfl
  rw [front,Bool.true_and,decide_eq_decide]
  simp only [documented,link,List.length_append,List.length_singleton]
  omega

theorem writtenCases {d : Descriptor} (written : Written d) :
    isSocket d = false ∧ (d.readlink = none ∨ ∃ target, d.readlink = some target ∧ socketInode (target.take 29) 0 = some none) ∨
      isSocket d = true ∧ ∃ n < maximum, d.readlink = some (documented n) ∧ socketInode ((documented n).take 29) 0 = some (some n) := by
  cases there : d.readlink with
  | none => exact Or.inl ⟨by simp [isSocket,there],Or.inl rfl⟩
  | some target =>
    obtain ⟨-,-,⟨n,small,rfl⟩ | plain⟩ := written target there
    · have socket : isSocket d = decide (10 ≤ n) := by rw [isSocket,there,Option.any_some,documentedSocket]
      by_cases long : 10 ≤ n
      · exact Or.inr ⟨by rw [socket,decide_eq_true long],n,small,rfl,socketLong small long 0⟩
      · exact Or.inl ⟨by rw [socket,decide_eq_false long],Or.inr ⟨_,rfl,socketShort (Nat.not_le.mp long) 0⟩⟩
    · refine Or.inl ⟨?_,Or.inr ⟨_,rfl,otherLink plain 0⟩⟩
      have front : prgSocketPfx.isPrefixOf target = false := by
        rw [Bool.eq_false_iff,ne_eq,List.isPrefixOf_iff_prefix]
        exact fun isPrefix => plain.1 (List.prefix_iff_eq_take.mp isPrefix).symm
      rw [isSocket,there,Option.any_some,front,Bool.false_and]

def label (pid : CString) (program : CString) : List UInt8 := (finbuf pid program).bytes

theorem labelShort (pid program : CString) : (finbuf pid program).bytes.take 19 = label pid program := by
  simp [label,finbuf,prognameWidth]

/- Of the entries that are left, those that are recorded when the program is told already, or is not yet. -/
def remaining (told : Option CString) (fds : List Descriptor) : List Descriptor :=
  if told.isSome then fds.filter isSocket else known fds

def recordable (pid : CString) (told : Option CString) (fds : List Descriptor) (n : Nat) : Option (List UInt8) :=
  if (remaining told fds).any (holds n) then some (label pid (told.getD (programOf fds))) else none

section
variable {pid : CString} {procfdlen : Nat} {d : Descriptor} {rest : List Descriptor} {told : Option CString} {c : Cache}

theorem walkSkip (skipped : d.readlink = none ∨ ∃ target, d.readlink = some target ∧ socketInode (target.take 29) 0 = some none) :
    walkFd pid procfdlen (d::rest) told c = walkFd pid procfdlen rest told c := by
  rw [walkFd]
  rcases skipped with nothing | ⟨target,there,other⟩
  · simp only [nothing,ite_self]
  · simp only [there,other,bind,Option.bind_some,ite_self]

theorem recordableSkip (plain : isSocket d = false) : recordable pid told (d::rest) = recordable pid told rest := by
  have less : (d::rest).filter isSocket = rest.filter isSocket := List.filter_cons_of_neg (by simp [plain])
  have same : known (d::rest) = known rest := by rw [known,less,known]
  unfold recordable
  simp only [remaining,less,same,programOf]
  rfl

theorem recordableTold (socket : isSocket d = true) (program : CString) (n : Nat) :
    recordable pid (some program) (d::rest) n = (if holds n d then some (label pid program) else none).or
      (recordable pid (some program) rest n) := by
  have more : (d::rest).filter isSocket = d :: rest.filter isSocket := List.filter_cons_of_pos socket
  simp only [recordable,remaining,Option.isSome_some,if_true,more,List.any_cons,Option.getD_some]
  cases holds n d <;> simp

theorem recordableFirst (socket : isSocket d = true) : recordable pid none (d::rest) =
    match d.cmdline with
    | none => recordable pid none rest
    | some read => recordable pid (some (cmdlp (cmdlbuf read))) (d::rest) := by
  have more : (d::rest).filter isSocket = d :: rest.filter isSocket := List.filter_cons_of_pos socket
  cases line : d.cmdline with
  | none =>
    have same : known (d::rest) = known rest := by rw [known,more,List.dropWhile_cons_of_pos (by simp [line]),known]
    unfold recordable
    simp only [remaining,same,programOf]
    rfl
  | some read =>
    have all : known (d::rest) = d :: rest.filter isSocket := by rw [known,more,List.dropWhile_cons_of_neg (by simp [line])]
    unfold recordable
    simp only [remaining,all,more,programOf,Option.isSome_none,Option.isSome_some,if_true,Bool.false_eq_true,if_false,
      List.head?_cons,Option.bind_some,line,Option.getD_none,Option.getD_some]

theorem walkRecord (room : procfdlen ≤ 1000) (written : Written d) {n : Nat} (there : d.readlink = some (documented n))
    (found : socketInode ((documented n).take 29) 0 = some (some n)) :
    walkFd pid procfdlen (d::rest) told c = match told.or (d.cmdline.map (fun read => cmdlp (cmdlbuf read))) with
      | none => walkFd pid procfdlen rest none c
      | some program => walkFd pid procfdlen rest (some program) (prgCacheAdd d.malloc c (UInt64.ofNat n) (finbuf pid program) noContext) := by
  obtain ⟨digit,short,-⟩ := written _ there
  rw [walkFd,digit,if_neg (by simp),if_neg (by unfold lineMax; omega),there,if_neg (by unfold lineMax; omega)]
  simp only [found,bind,Option.bind_some]

end

theorem walkFdEq {pid : CString} {procfdlen : Nat} (room : procfdlen ≤ 1000) {fds : List Descriptor} (written : ∀ d ∈ fds, Written d)
    (told : Option CString) (c : Cache) : ∃ e, walkFd pid procfdlen fds told c = some e ∧ (c.prgCacheLoaded ≠ 0 → e.prgCacheLoaded ≠ 0) ∧
      ∀ n < maximum, named n e = (named n c).or (recordable pid told fds n) := by
  induction fds generalizing told c with
  | nil => exact ⟨c,rfl,id,fun n _ => by cases told <;> simp [recordable,remaining,known]⟩
  | cons d rest ih =>
    have later := fun told c => ih (fun x mem => written x (List.mem_cons_of_mem d mem)) told c
    rcases writtenCases (written d List.mem_cons_self) with ⟨plain,skipped⟩ | ⟨socket,m,small,there,found⟩
    · rw [walkSkip skipped,recordableSkip plain]
      exact later told c
    · rw [walkRecord room (written d List.mem_cons_self) there found]
      have recorded : ∀ program, ∃ e, walkFd pid procfdlen rest (some program)
          (prgCacheAdd d.malloc c (UInt64.ofNat m) (finbuf pid program) noContext) = some e ∧ (c.prgCacheLoaded ≠ 0 → e.prgCacheLoaded ≠ 0) ∧
          ∀ n < maximum, named n e = (named n c).or (recordable pid (some program) (d::rest) n) := by
        intro program
        obtain ⟨e,went,loaded,names⟩ := later (some program) (prgCacheAdd d.malloc c (UInt64.ofNat m) (finbuf pid program) noContext)
        refine ⟨e,went,fun _ => loaded (by simp [prgCacheAdd]),fun n bound => ?_⟩
        have same : (m = n ∧ d.malloc = true) = (holds n d = true) := by
          simp [holds,there,(⟨documentedInjective,congrArg _⟩ : documented m = documented n ↔ m = n)]
        rw [names n bound,namedAdd small bound,recordableTold socket,Option.or_assoc,labelShort,if_congr (iff_of_eq same) rfl rfl]
      cases told with
      | some program => exact recorded program
      | none =>
        cases line : d.cmdline with
        | none =>
          rw [recordableFirst socket,line]
          exact later none c
        | some read =>
          rw [recordableFirst socket,line]
          exact recorded _

theorem ownerRecorded (n : Nat) (p : Process) :
    (owner n p).map CString.bytes = if p.dName.bytes.all isdigit then recordable p.dName none (p.fd.getD []) n else none := by
  simp only [owner,recordable,remaining,Option.isSome_none,Bool.false_eq_true,if_false,Option.getD_none,label]
  cases p.dName.bytes.all isdigit
  · rfl
  · simp only [Bool.true_and,if_true]
    split <;> rfl

theorem walkProcEq {ps : List Process} (written : ∀ p ∈ ps, p.dName.bytes.length ≤ 255 ∧ ∀ d ∈ p.fd.getD [], Written d) (c : Cache) :
    ∃ e, walkProc ps c = some e ∧ (c.prgCacheLoaded ≠ 0 → e.prgCacheLoaded ≠ 0) ∧
      ∀ n < maximum, named n e = (named n c).or ((ps.findSome? (owner n)).map CString.bytes) := by
  induction ps generalizing c with
  | nil => exact ⟨c,rfl,id,fun n _ => by simp⟩
  | cons p rest ih =>
    obtain ⟨short,links⟩ := written p List.mem_cons_self
    have later := ih (fun x mem => written x (List.mem_cons_of_mem p mem))
    have step : ∃ e, (c.prgCacheLoaded ≠ 0 → e.prgCacheLoaded ≠ 0) ∧ walkProc (p::rest) c = walkProc rest e ∧
        ∀ n < maximum, named n e = (named n c).or ((owner n p).map CString.bytes) := by
      by_cases number : p.dName.bytes.all isdigit = true
      · cases listed : p.fd with
        | none => exact ⟨c,id,by simp only [walkProc,listed,ite_self],fun n _ => by simp [ownerRecorded,listed,recordable,remaining,known]⟩
        | some fds =>
          rw [listed,Option.getD_some] at links
          obtain ⟨e,went,loaded,names⟩ := @walkFdEq p.dName (6 + p.dName.bytes.length + 3) (by omega) fds links none c
          refine ⟨e,loaded,?_,fun n bound => by rw [names n bound,ownerRecorded,if_pos number,listed,Option.getD_some]⟩
          rw [walkProc,number,if_neg (by simp),if_neg (by unfold lineMax; omega),listed]
          simp only [went,bind,Option.bind_some]
      · exact ⟨c,id,by rw [walkProc,if_pos (by simpa using number)],fun n _ => by simp [ownerRecorded,number]⟩
    obtain ⟨e,loaded,same,names⟩ := step
    obtain ⟨f,went,loaded',names'⟩ := later e
    refine ⟨f,same.trans went,fun nonzero => loaded' (loaded nonzero),fun n bound => ?_⟩
    rw [names' n bound,names n bound,Option.or_assoc,List.findSome?_cons]
    cases owner n p <;> simp

theorem ownerShort {n : Nat} (small : n < 10) (p : Process) : owner n p = none := by
  have none_ : (known (p.fd.getD [])).any (holds n) = false := by
    rw [List.any_eq_false]
    intro d mem held
    have socket := (List.mem_filter.mp ((List.dropWhile_suffix _).subset mem)).2
    have there : d.readlink = some (documented n) := of_decide_eq_true (Bool.and_eq_true_iff.mp held).1
    rw [isSocket,there,Option.any_some,documentedSocket,decide_eq_true_eq] at socket
    omega
  simp only [owner,none_,Bool.and_false,Bool.false_eq_true,if_false]

/- What prg_cache_get says after prg_cache_load, and still says after any number of further loads: the
first process in the order of /proc that holds a link to the socket, from the first of its sockets on at
which its command line could be read. Inodes below ten are never found. -/
theorem loadNames (proc : Option (List Process)) (later : List (Option (List Process)))
    (written : ∀ p ∈ proc.getD [], p.dName.bytes.length ≤ 255 ∧ ∀ d ∈ p.fd.getD [], Written d) :
    ∃ c, Trace.attempt prgCacheLoad empty (proc::later) = some c ∧ ∀ n < maximum,
      prgCacheGet c (UInt64.ofNat n) = (((proc.getD []).findSome? (owner n)).map CString.bytes).getD dash ∧
      (n < 10 → prgCacheGet c (UInt64.ofNat n) = dash) := by
  obtain ⟨c,went,loaded,names⟩ := walkProcEq written ⟨empty.prgHash,1⟩
  have kept : ∀ later, Trace.attempt prgCacheLoad c later = some c := by
    intro later
    induction later with
    | nil => rfl
    | cons next rest ih =>
      simp only [Trace.attempt,prgCacheLoad,if_pos (loaded (by decide)),Option.bind_some]
      exact ih
  have get : ∀ n < maximum, prgCacheGet c (UInt64.ofNat n) = (((proc.getD []).findSome? (owner n)).map CString.bytes).getD dash := by
    intro n bound
    rw [getNamed,names n bound]
    simp [named,find,ChainedTable.find,KeyedList.lookup,empty]
  refine ⟨c,?_,fun n bound => ⟨get n bound,fun small => ?_⟩⟩
  · simp only [Trace.attempt]
    rw [prgCacheLoad,if_neg (by simp [empty]),went,Option.bind_some,kept]
  · rw [get n bound,List.findSome?_eq_none_iff.mpr (fun p _ => ownerShort small p)]
    rfl

def sshd : Process :=
  ⟨⟨[0x31,0x32],by decide⟩,some [⟨⟨[0x33],by decide⟩,some (documented 4000),none,true⟩,
    ⟨⟨[0x34],by decide⟩,some (documented 5000),some [0x2f,0x62,0x2f,0x64,0,0x2d],true⟩,⟨⟨[0x35],by decide⟩,some (documented 6),none,true⟩]⟩
def child : Process :=
  ⟨⟨[0x34,0x35],by decide⟩,some [⟨⟨[0x33],by decide⟩,some (documented 4000),some [0x65],true⟩,
    ⟨⟨[0x34],by decide⟩,some (documented 5000),none,true⟩]⟩

theorem treeWritten : ∀ p ∈ [sshd,child], p.dName.bytes.length ≤ 255 ∧ ∀ d ∈ p.fd.getD [], Written d := by
  have link : ∀ (name : CString) n cmdline malloc, digitFirst name = true → name.bytes.length ≤ 255 → n < maximum →
      Written ⟨name,some (documented n),cmdline,malloc⟩ := by
    rintro name n cmdline malloc digit short small target ⟨⟩
    exact ⟨digit,short,Or.inl ⟨n,small,rfl⟩⟩
  simp only [sshd,child,List.forall_mem_cons,Option.getD_some,List.not_mem_nil,IsEmpty.forall_iff,implies_true,and_true]
  exact ⟨⟨by decide,link _ _ _ _ rfl (by decide) (by decide),link _ _ _ _ rfl (by decide) (by decide),link _ _ _ _ rfl (by decide) (by decide)⟩,
    by decide,link _ _ _ _ rfl (by decide) (by decide),link _ _ _ _ rfl (by decide) (by decide)⟩

theorem loadNamesShared : ∃ c, Trace.attempt prgCacheLoad empty [some [sshd,child],some []] = some c ∧
    prgCacheGet c 5000 = [0x31,0x32,0x2f,0x64] ∧ prgCacheGet c 4000 = [0x34,0x35,0x2f,0x65] ∧ prgCacheGet c 6 = dash := by
  obtain ⟨c,went,names⟩ := loadNames (some [sshd,child]) [some []] treeWritten
  refine ⟨c,went,(names 5000 (by decide)).1.trans ?_,(names 4000 (by decide)).1.trans ?_,(names 6 (by decide)).2 (by decide)⟩
  · decide +kernel
  · decide +kernel

end PracticeSuite.PrgLoad
