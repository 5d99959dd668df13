import PracticeSuite.StructLayout

/-! The raw log: a header, then for each sample a record of fixed size with the compressed system and
task statistics behind it. rawwrite appends a sample, and takes back what it wrote if a write fails. -/
namespace PracticeSuite.RawLog
open StructLayout

def mymagic : Nat := 0xfeedbeef
def rawheadlen : Nat := 480
def rawreclen : Nat := 96

/- The program that writes and reads: the sizes of struct sstat and struct tstat, its version number, and
two fields of a struct tstat. -/
structure Build where
  sstatlen : Nat
  tstatlen : Nat
  version : Nat
  isproc : Bytes → Bool
  wasinactive : Bytes → Bool
  sstatSmall : sstatlen < 2^31
  tstatSmall : 0 < tstatlen ∧ tstatlen < 2^31
  versionSmall : version < 2^15

/- zlib: what is compressed is never empty and is got back -/
structure Zlib where
  compress : Bytes → Bytes
  uncompress : Bytes → Option Bytes
  inverse : ∀ x, uncompress (compress x) = some x
  nonempty : ∀ x, compress x ≠ []

structure Support where
  acctactive : Bool
  iostat : Bool
  netatop : Bool
  netatopd : Bool
  dockstat : Bool
  deriving DecidableEq, Repr

def Support.bits (s : Support) : Nat :=
  s.acctactive.toNat + s.iostat.toNat*4 + s.netatop.toNat*16 + s.netatopd.toNat*32 + s.dockstat.toNat*64
def Support.ofBits (n : Nat) : Support := ⟨n.testBit 0,n.testBit 2,n.testBit 4,n.testBit 5,n.testBit 6⟩

def rawlogng (s : Support) : Support := {s with acctactive := true, iostat := true, netatop := true, netatopd := true}
def isRawlogng (s : Support) : Bool := s.acctactive && s.iostat && s.netatop && s.netatopd

structure System where
  hertz : UInt16
  utsname : Bytes
  pagesize : UInt32
  support : Support
  osrel : UInt32
  osvers : UInt32
  ossub : UInt32
  named : utsname.length = 390

structure Sample (b : Build) where
  curtime : UInt64
  numsecs : UInt32
  taskall : List Bytes
  nprocall : UInt32
  nprocactive : UInt32
  totrun : UInt32
  totslpi : UInt32
  totslpu : UInt32
  totzombie : UInt32
  sstat : Bytes
  nexit : UInt32
  noverflow : UInt32
  boot : Bool
  sstatWhole : sstat.length = b.sstatlen
  tasksWhole : ∀ t ∈ taskall, t.length = b.tstatlen
  few : b.tstatlen*taskall.length < 2^31
  processes : taskall.countP b.isproc ≤ nprocall.toNat
  active : taskall.countP (fun t => b.isproc t && !b.wasinactive t) ≤ nprocactive.toNat

structure RawHeader where
  magic : Nat
  aversion : Nat
  rawheadlen : Nat
  rawreclen : Nat
  hertz : Nat
  sstatlen : Nat
  tstatlen : Nat
  utsname : Bytes
  pagesize : Nat
  supportflags : Nat
  osrel : Nat
  osvers : Nat
  ossub : Nat

def headerFront (b : Build) (s : System) : List (Nat × Nat) :=
  [(4,mymagic),(2,b.version + 2^15),(2,0),(2,0),(2,rawheadlen),(2,rawreclen),(2,s.hertz.toNat),(12,0),(4,b.sstatlen),(4,b.tstatlen)]
def headerBack (s : System) : List (Nat × Nat) :=
  [(8,0),(2,0),(4,s.pagesize.toNat),(4,(rawlogng s.support).bits),(4,s.osrel.toNat),(4,s.osvers.toNat),(4,s.ossub.toNat),(24,0)]

def header (b : Build) (s : System) : Bytes := pack (headerFront b s) ++ (s.utsname ++ pack (headerBack s))

def getHeader (file : Bytes) : RawHeader :=
  let front := unpack [4,2,2,2,2,2,2,12,4,4] file
  let back := unpack [8,2,4,4,4,4,4,24] (file.drop 426)
  ⟨front.getD 0 0,front.getD 1 0,front.getD 4 0,front.getD 5 0,front.getD 6 0,front.getD 8 0,front.getD 9 0,
    (file.drop 36).take 390,back.getD 2 0,back.getD 3 0,back.getD 4 0,back.getD 5 0,back.getD 6 0⟩

/- The tests of an existing file; none where the program stops with a message. -/
def checkHeader (b : Build) (file : Bytes) : Option RawHeader :=
  let rh := getHeader file
  if file.length < rawheadlen then none
  else if rh.magic ≠ mymagic then none
  else if rh.sstatlen ≠ b.sstatlen ∨ rh.tstatlen ≠ b.tstatlen ∨ rh.rawheadlen ≠ rawheadlen ∨ rh.rawreclen ≠ rawreclen then none
  else some rh

structure RawRecord where
  curtime : UInt64
  flags : UInt16
  scomplen : UInt32
  pcomplen : UInt32
  interval : UInt32
  ndeviat : UInt32
  nactproc : UInt32
  ntask : UInt32
  totproc : UInt32
  totrun : UInt32
  totslpi : UInt32
  totslpu : UInt32
  totzomb : UInt32
  nexit : UInt32
  noverflow : UInt32
  deriving DecidableEq

def RawRecord.fields (r : RawRecord) : List (Nat × Nat) :=
  [(8,r.curtime.toNat),(2,r.flags.toNat),(6,0),(4,r.scomplen.toNat),(4,r.pcomplen.toNat),(4,r.interval.toNat),(4,r.ndeviat.toNat),
    (4,r.nactproc.toNat),(4,r.ntask.toNat),(4,r.totproc.toNat),(4,r.totrun.toNat),(4,r.totslpi.toNat),(4,r.totslpu.toNat),
    (4,r.totzomb.toNat),(4,r.nexit.toNat),(4,r.noverflow.toNat),(24,0),(4,0)]

def recordWidths : List Nat := [8,2,6,4,4,4,4,4,4,4,4,4,4,4,4,4,24,4]

def RawRecord.ofValues (v : List Nat) : RawRecord :=
  let word (n : Nat) : UInt32 := UInt32.ofNat (v.getD n 0)
  ⟨UInt64.ofNat (v.getD 0 0),UInt16.ofNat (v.getD 1 0),word 3,word 4,word 5,word 6,word 7,word 8,word 9,word 10,word 11,word 12,word 13,
    word 14,word 15⟩

def getRecord (bs : Bytes) : RawRecord := .ofValues (unpack recordWidths bs)

def sampleFlags (boot : Bool) (s : Support) : Nat :=
  boot.toNat + s.netatop.toNat*4 + s.netatopd.toNat*8 + s.acctactive.toNat*16 + s.iostat.toNat*32 + s.dockstat.toNat*64

/- compress into a buffer of the given size; none for Z_BUF_ERROR, after which the program stops -/
def Zlib.into (z : Zlib) (room : Nat) (x : Bytes) : Option Bytes := if (z.compress x).length ≤ room then some (z.compress x) else none

inductive Written where
  | whole
  | short (n : Nat)
  | failed
  deriving DecidableEq

structure Write (b : Build) where
  sample : Sample b
  system : System
  results : Fin 3 → Written

def Write.Uncut {b : Build} (w : Write b) : Prop := ∀ i n, w.results i ≠ .short n

/- The log, and the offset of the static rawfd of the program that runs, none for -1. -/
structure Disk where
  file : Option Bytes
  rawfd : Option Nat

def writeAt (file : Bytes) (pos : Nat) (bs : Bytes) : Bytes := file.take pos ++ (bs ++ file.drop (pos + bs.length))

/- A write that is short is not noticed. After one that fails ftruncate goes back to the size before the
call, and the program stops. -/
def writes (size : Nat) : List (Bytes × Written) → Bytes → Nat → Bytes × Option Nat
  | [],file,pos => (file,some pos)
  | (bs,.whole)::rest,file,pos => writes size rest (writeAt file pos bs) (pos + bs.length)
  | (bs,.short n)::rest,file,pos => writes size rest (writeAt file pos (bs.take n)) (pos + (bs.take n).length)
  | (_,.failed)::_,file,_ => (file.take size,none)

section
variable {b : Build} (z : Zlib)

def rawRecord (s : Sample b) (support : Support) (scomp pcomp : Bytes) : RawRecord :=
  ⟨s.curtime,UInt16.ofNat (sampleFlags s.boot support),UInt32.ofNat scomp.length,UInt32.ofNat pcomp.length,s.numsecs,
    UInt32.ofNat s.taskall.length,s.nprocactive,UInt32.ofNat s.taskall.length,s.nprocall,s.totrun,s.totslpi,s.totslpu,s.totzombie,
    s.nexit,s.noverflow⟩

def rawwopen (b : Build) (system : System) : Option Bytes → Option Bytes
  | some file => (checkHeader b file).map (fun _ => file)
  | none => some (header b system)

def parts (w : Write b) : Option (List Bytes) := do
  let scomp ← z.into b.sstatlen w.sample.sstat
  let pcomp ← z.into (b.tstatlen*w.sample.taskall.length) w.sample.taskall.flatten
  some [pack (rawRecord w.sample w.system.support scomp pcomp).fields,scomp,pcomp]

def opened (b : Build) (system : System) (d : Disk) : Option (Bytes × Nat) :=
  match d.rawfd with
  | none => (rawwopen b system d.file).map (fun file => (file,file.length))
  | some pos => d.file.map (fun file => (file,pos))

def rawwrite (d : Disk) (w : Write b) : Disk :=
  match opened b w.system d with
  | none => {d with rawfd := none}
  | some (file,pos) =>
    match parts z w with
    | none => ⟨some file,none⟩
    | some parts =>
      let (file,rawfd) := writes file.length (parts.zip (List.ofFn w.results)) file pos
      ⟨some file,rawfd⟩

def runProgram : Disk → List (Write b) → Option Bytes
  | d,[] => d.file
  | d,w::rest =>
    let d := rawwrite z d w
    if d.rawfd = none then d.file else runProgram d rest

def runPrograms (file : Option Bytes) (programs : List (List (Write b))) : Option Bytes :=
  programs.foldl (fun file calls => runProgram z ⟨file,none⟩ calls) file

end

theorem supportBits (s : Support) : s.bits < 128 ∧ Support.ofBits s.bits = s := by
  obtain ⟨acctactive,iostat,netatop,netatopd,dockstat⟩ := s
  revert acctactive iostat netatop netatopd dockstat
  decide

theorem sampleFlagBits (boot : Bool) (s : Support) : sampleFlags boot s < 128 ∧ (sampleFlags boot s).testBit 0 = boot ∧
    (⟨(sampleFlags boot s).testBit 4,(sampleFlags boot s).testBit 5,(sampleFlags boot s).testBit 2,(sampleFlags boot s).testBit 3,
      (sampleFlags boot s).testBit 6⟩ : Support) = s := by
  obtain ⟨acctactive,iostat,netatop,netatopd,dockstat⟩ := s
  revert boot acctactive iostat netatop netatopd dockstat
  decide

theorem recordLength (r : RawRecord) : (pack r.fields).length = rawreclen := by
  simp [packLength,RawRecord.fields,rawreclen]

theorem fieldsFit (r : RawRecord) : ∀ f ∈ r.fields, f.2 < 256^f.1 := by
  have words : ∀ n : UInt32, n.toNat < 256^4 := fun n => by have := n.toNat_lt; omega
  have time : r.curtime.toNat < 256^8 := by have := r.curtime.toNat_lt; omega
  have flags : r.flags.toNat < 256^2 := by have := r.flags.toNat_lt; omega
  have zero : ∀ n, 0 < 256^n := fun n => Nat.pow_pos (by decide)
  simp only [RawRecord.fields,List.forall_mem_cons,words,time,flags,zero,true_and]
  exact fun f mem => absurd mem List.not_mem_nil

theorem ofValuesFields (r : RawRecord) : RawRecord.ofValues (r.fields.map Prod.snd) = r := by
  simp only [RawRecord.ofValues,RawRecord.fields,List.map_cons,List.getD_cons_zero,List.getD_cons_succ,UInt64.ofNat_toNat,UInt16.ofNat_toNat,
    UInt32.ofNat_toNat]

theorem getRecordPack (r : RawRecord) (behind : Bytes) : getRecord (pack r.fields ++ behind) = r := by
  have widths : recordWidths = r.fields.map Prod.fst := rfl
  rw [getRecord,widths,unpackPack (fieldsFit r) behind,ofValuesFields]

theorem headerLength (b : Build) (s : System) : (header b s).length = rawheadlen := by
  have front : (pack (headerFront b s)).length = 36 := by simp [packLength,headerFront]
  have back : (pack (headerBack s)).length = 54 := by simp [packLength,headerBack]
  rw [header,List.length_append,List.length_append,front,back,s.named]
  rfl

theorem headerFits (b : Build) (s : System) : (∀ f ∈ headerFront b s, f.2 < 256^f.1) ∧ ∀ f ∈ headerBack s, f.2 < 256^f.1 := by
  have words : ∀ n : UInt32, n.toNat < 256^4 := fun n => by have := n.toNat_lt; omega
  have hertz : s.hertz.toNat < 256^2 := by have := s.hertz.toNat_lt; omega
  have version : b.version + 2^15 < 256^2 := by have := b.versionSmall; omega
  have sizes : b.sstatlen < 256^4 ∧ b.tstatlen < 256^4 := by have := b.sstatSmall; have := b.tstatSmall; omega
  have support : (rawlogng s.support).bits < 256^4 := by have := (supportBits (rawlogng s.support)).1; omega
  have zero : ∀ n, 0 < 256^n := fun n => Nat.pow_pos (by decide)
  constructor
  · have magic : mymagic < 256^4 := by unfold mymagic; omega
    have lengths : rawheadlen < 256^2 ∧ rawreclen < 256^2 := by unfold rawheadlen rawreclen; omega
    simp only [headerFront,List.forall_mem_cons,magic,hertz,version,sizes,lengths,zero,true_and]
    exact fun f mem => absurd mem List.not_mem_nil
  · simp only [headerBack,List.forall_mem_cons,words,support,zero,true_and]
    exact fun f mem => absurd mem List.not_mem_nil

theorem getHeaderPack (b : Build) (s : System) (body : Bytes) : getHeader (header b s ++ body) =
    ⟨mymagic,b.version + 2^15,rawheadlen,rawreclen,s.hertz.toNat,b.sstatlen,b.tstatlen,s.utsname,s.pagesize.toNat,
      (rawlogng s.support).bits,s.osrel.toNat,s.osvers.toNat,s.ossub.toNat⟩ := by
  obtain ⟨frontFits,backFits⟩ := headerFits b s
  have frontLength : (pack (headerFront b s)).length = 36 := by simp [packLength,headerFront]
  have whole : header b s ++ body = pack (headerFront b s) ++ (s.utsname ++ (pack (headerBack s) ++ body)) := by
    rw [header,List.append_assoc,List.append_assoc]
  have front : unpack [4,2,2,2,2,2,2,12,4,4] (header b s ++ body) = (headerFront b s).map Prod.snd := by
    rw [whole]
    exact unpackPack frontFits _
  have behind : (header b s ++ body).drop 36 = s.utsname ++ (pack (headerBack s) ++ body) := by
    rw [whole]
    exact List.drop_left' frontLength
  have further : (header b s ++ body).drop 426 = pack (headerBack s) ++ body := by
    have twice : (header b s ++ body).drop 426 = ((header b s ++ body).drop 36).drop 390 := by rw [List.drop_drop]
    rw [twice,behind]
    exact List.drop_left' s.named
  have back : unpack [8,2,4,4,4,4,4,24] ((header b s ++ body).drop 426) = (headerBack s).map Prod.snd := by
    rw [further]
    exact unpackPack backFits _
  have name : ((header b s ++ body).drop 36).take 390 = s.utsname := by
    rw [behind]
    exact List.take_left' s.named
  simp only [getHeader,front,back,name,headerFront,headerBack,List.map_cons,List.getD_cons_zero,List.getD_cons_succ]

theorem checkHeaderPack (b : Build) (s : System) (body : Bytes) :
    checkHeader b (header b s ++ body) = some (getHeader (header b s ++ body)) := by
  have long : ¬ (header b s ++ body).length < rawheadlen := by
    rw [List.length_append,headerLength]
    omega
  simp only [checkHeader,getHeaderPack,if_neg long,ne_eq,not_true_eq_false,or_false,if_false]

structure Entry (b : Build) (z : Zlib) where
  sample : Sample b
  support : Support
  sstatFits : (z.compress sample.sstat).length ≤ b.sstatlen
  tasksFit : (z.compress sample.taskall.flatten).length ≤ b.tstatlen*sample.taskall.length

variable {b : Build} {z : Zlib}

def Entry.record (e : Entry b z) : RawRecord :=
  rawRecord e.sample e.support (z.compress e.sample.sstat) (z.compress e.sample.taskall.flatten)

def Entry.frame (e : Entry b z) : Bytes :=
  pack e.record.fields ++ (z.compress e.sample.sstat ++ z.compress e.sample.taskall.flatten)

def entry (z : Zlib) (w : Write b) : Option (Entry b z) :=
  if fits : ((z.compress w.sample.sstat).length ≤ b.sstatlen ∧
      (z.compress w.sample.taskall.flatten).length ≤ b.tstatlen*w.sample.taskall.length) ∧ ∀ i, w.results i = .whole then
    some ⟨w.sample,w.system.support,fits.1.1,fits.1.2⟩
  else none

def made (z : Zlib) : List (Write b) → List (Entry b z)
  | [] => []
  | w::rest => match entry z w with
    | none => []
    | some e => e::made z rest

def log (b : Build) (s : System) (entries : List (Entry b z)) : Bytes := (header b s :: entries.map Entry.frame).flatten

theorem logHeader (s : System) (entries : List (Entry b z)) : log b s entries = header b s ++ (entries.map Entry.frame).flatten :=
    List.flatten_cons

theorem logSnoc (s : System) (entries : List (Entry b z)) (e : Entry b z) : log b s (entries ++ [e]) = log b s entries ++ e.frame := by
  rw [logHeader,logHeader,List.map_append,List.flatten_append,List.append_assoc]
  simp

theorem writesEnd {size : Nat} {file : Bytes} (within : size ≤ file.length) {l : List (Bytes × Written)} (uncut : ∀ x ∈ l, ∀ n, x.2 ≠ .short n) :
    writes size l file file.length = if ∀ x ∈ l, x.2 = .whole then
    (file ++ (l.map Prod.fst).flatten,some (file ++ (l.map Prod.fst).flatten).length)
      else (file.take size,none) := by
  induction l generalizing file with
  | nil => simp [writes]
  | cons x rest ih =>
    obtain ⟨bs,result⟩ := x
    cases result with
    | whole =>
      have atEnd : writeAt file file.length bs = file ++ bs := by simp [writeAt]
      have longer : size ≤ (file ++ bs).length := by
        rw [List.length_append]
        omega
      have later := ih longer (fun x mem => uncut x (List.mem_cons_of_mem _ mem))
      rw [List.length_append] at later
      rw [writes,atEnd,later,List.take_append_of_le_length within,List.map_cons,List.flatten_cons,← List.append_assoc]
      exact if_congr (by rw [List.forall_mem_cons,eq_self_iff_true,true_and]) rfl rfl
    | short n => exact absurd rfl (uncut _ List.mem_cons_self n)
    | failed => simp [writes]

theorem rawwriteLog (s : System) (entries : List (Entry b z)) {d : Disk} (file : d.file = some (log b s entries))
    (atEnd : ∀ pos ∈ d.rawfd, pos = (log b s entries).length) {w : Write b} (uncut : w.Uncut) :
    rawwrite z d w = match entry z w with
      | none => ⟨some (log b s entries),none⟩
      | some e => ⟨some (log b s (entries ++ [e])),some (log b s (entries ++ [e])).length⟩ := by
  have open_ : opened b w.system d = some (log b s entries,(log b s entries).length) := by
    unfold opened
    rw [file]
    cases fd : d.rawfd with
    | none =>
      simp only
      rw [logHeader,rawwopen,checkHeaderPack]
      rfl
    | some pos => simp only [Option.map_some,atEnd pos fd]
  simp only [rawwrite,open_]
  by_cases fits : (z.compress w.sample.sstat).length ≤ b.sstatlen ∧
      (z.compress w.sample.taskall.flatten).length ≤ b.tstatlen*w.sample.taskall.length
  · simp only [parts,Zlib.into,if_pos fits.1,if_pos fits.2,bind,Option.bind_some]
    rw [writesEnd le_rfl (by simp [uncut 0,uncut 1,uncut 2])]
    by_cases whole : ∀ i, w.results i = .whole
    · have adds : entry z w = some ⟨w.sample,w.system.support,fits.1,fits.2⟩ := dif_pos ⟨fits,whole⟩
      rw [adds,if_pos (by simp [whole])]
      simp only [logSnoc]
      simp [Entry.frame,Entry.record]
    · have adds : entry z w = none := dif_neg (fun both => whole both.2)
      rw [adds,if_neg,List.take_length]
      intro all
      refine whole ?_
      simpa [Fin.forall_fin_succ] using all
  · have adds : entry z w = none := dif_neg (fun both => fits both.1)
    have stops : parts z w = none := by
      simp only [parts,Zlib.into]
      by_cases first : (z.compress w.sample.sstat).length ≤ b.sstatlen
      · rw [if_pos first,if_neg (fun second => fits ⟨first,second⟩)]
        rfl
      · rw [if_neg first]
        rfl
    rw [adds,stops]

theorem programLog (s : System) (entries : List (Entry b z)) {d : Disk} (file : d.file = some (log b s entries))
    (atEnd : ∀ pos ∈ d.rawfd, pos = (log b s entries).length) {calls : List (Write b)} (uncut : ∀ w ∈ calls, w.Uncut) :
    runProgram z d calls = some (log b s (entries ++ made z calls)) := by
  induction calls generalizing entries d with
  | nil => rw [runProgram,file,made,List.append_nil]
  | cons w rest ih =>
    have called := rawwriteLog s entries file atEnd (uncut w List.mem_cons_self)
    rw [runProgram,made]
    cases adds : entry z w with
    | none =>
      rw [adds] at called
      simp only [called,if_true,List.append_nil]
    | some e =>
      rw [adds] at called
      have later := ih (entries ++ [e]) (d := rawwrite z d w) (by rw [called]) (by simp [called])
        (fun x mem => uncut x (List.mem_cons_of_mem w mem))
      simp only [called,reduceCtorEq,if_false] at later ⊢
      rw [later,List.append_assoc]
      rfl

theorem programsLog (s : System) (entries : List (Entry b z)) {programs : List (List (Write b))}
    (uncut : ∀ program ∈ programs, ∀ x ∈ program, x.Uncut) :
    runPrograms z (some (log b s entries)) programs = some (log b s (entries ++ programs.flatMap (made z))) := by
  induction programs generalizing entries with
  | nil => rw [List.flatMap_nil,List.append_nil]; rfl
  | cons calls rest ih =>
    rw [runPrograms,List.foldl_cons,programLog s entries rfl (by simp) (uncut calls List.mem_cons_self),← runPrograms,
      ih _ (fun x mem => uncut x (List.mem_cons_of_mem calls mem)),List.append_assoc,List.flatMap_cons]

theorem writesLog {w : Write b} {calls : List (Write b)} {programs : List (List (Write b))}
    (uncut : ∀ program ∈ (w::calls)::programs, ∀ x ∈ program, x.Uncut) :
    runPrograms z none ((w::calls)::programs) = some (log b w.system (((w::calls)::programs).flatMap (made z))) := by
  have created : rawwrite z ⟨none,none⟩ w = rawwrite z ⟨some (log b w.system ([] : List (Entry b z))),none⟩ w := by
    have there : rawwopen b w.system (some (header b w.system)) = some (header b w.system) := by
      have checked := checkHeaderPack b w.system []
      rw [List.append_nil] at checked
      rw [rawwopen,checked]
      rfl
    have same : opened b w.system ⟨none,none⟩ = opened b w.system ⟨some (header b w.system),none⟩ := by
      simp only [opened,there]
      rfl
    rw [logHeader,List.map_nil,List.flatten_nil,List.append_nil,rawwrite,rawwrite,same]
    simp only [opened,there,Option.map_some]
  have same : runPrograms z none ((w::calls)::programs) = runPrograms z (some (log b w.system ([] : List (Entry b z))))
    ((w::calls)::programs) := by
    rw [runPrograms,runPrograms,List.foldl_cons,List.foldl_cons,runProgram,runProgram,created]
  rw [same,programsLog w.system [] uncut]
  rfl

end PracticeSuite.RawLog
