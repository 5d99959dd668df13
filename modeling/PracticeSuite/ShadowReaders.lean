import PracticeSuite.ShadowFiles
import PracticeSuite.Trace

/-! The clients of the shadow files: a client registers, counts the records written since its last
sample, reads some of them and skips the others, while atopacctd goes on and other clients come and go. -/
namespace PracticeSuite.ShadowReaders
open SegmentedLog ShadowFiles
open Trace (attempt EachStep)

variable {β ι : Type}

/- Where a client stands between two accesses. `full`, `newest`, `counted`: acctprocnt; `record`,
`status`, `read`, `photographed`: acctphotoproc, with the records left to read and those to skip;
`skip`: acctrepos, with the switches left. -/
inductive Sample where
  | idle
  | full (numrecs : Int) (stSize : Nat)
  | newest (numrecs : Int) (newseq stSize : Nat)
  | counted (numrecs : Int)
  | record (left rest stSize : Nat)
  | status (left rest : Nat)
  | read (left rest stSize : Nat)
  | photographed (rest : Nat)
  | skip (switches : Nat)
  deriving DecidableEq, Repr

/- `acctfd` is the number of the open file, `unlinked` what it holds once it was removed, `offset` its
seek pointer. `delivered` holds what was read for each task, none where the read came too short; `start`
and `began` are how much had been passed when the client registered and when its last count began. -/
structure Reader (β : Type) where
  curshadowseq : Nat
  acctfd : Nat
  unlinked : Option (List β)
  offset : Nat
  acctsize : Nat
  sample : Sample
  delivered : List (Option (List β))
  skipped : Nat
  start : Nat
  began : Nat

def Reader.file (d : Daemon β) (r : Reader β) : Option (List β) :=
  match r.unlinked with
  | some file => some file
  | none => d.shadows r.acctfd

/- The lock on the old file is kept until there is one on the new file, which atopacctd may be testing. -/
def switchshadow (d : Daemon β) (r : Reader β) : Reader β :=
  let r := {r with curshadowseq := r.curshadowseq + 1}
  match d.shadows r.curshadowseq with
  | some _ => if d.tests r.curshadowseq then r else {r with acctfd := r.curshadowseq, unlinked := none, offset := 0}
  | none => r

def readRecord (c : Config) (file : List β) (r : Reader β) : Reader β :=
  let acctrec := slice file r.offset c.arecsize
  {r with
    offset := r.offset + acctrec.length
    acctsize := r.acctsize + c.arecsize
    delivered := r.delivered ++ [if acctrec.length < c.arecsize then none else some acctrec]}

/- The next access of a client. A client that has counted reads at most nrprocs of the records and
passes the number of the others to acctrepos. -/
def Reader.next (c : Config) (d : Daemon β) (nrprocs : Nat) (r : Reader β) : Option (Reader β) := do
  match r.sample with
  | .idle =>
    let statacc ← r.file d
    let numrecs := ((statacc.length : Int) - r.acctsize).tdiv c.arecsize
    some {r with
      began := d.passed.length
      sample := if statacc.length / c.arecsize < c.maxshadowrec then .counted numrecs else .full numrecs statacc.length}
  | .full numrecs stSize =>
    match d.current with
    | none => some {r with sample := .counted numrecs}
    | some newseq => some {r with sample := if newseq = r.curshadowseq then .counted numrecs else .newest numrecs newseq stSize}
  | .newest numrecs newseq stSize =>
    let stSize := match d.shadows newseq with
      | some file => file.length
      | none => stSize
    some {r with sample := .counted (numrecs + (((newseq : Int) - r.curshadowseq - 1) * c.maxshadowrec + (stSize / c.arecsize : Nat)))}
  | .counted numrecs =>
    let statacc ← r.file d
    let left := min nrprocs numrecs.toNat
    some {r with sample := .record left (numrecs.toNat - left) statacc.length}
  | .record 0 rest _ => some {r with sample := .photographed rest}
  | .record (left+1) rest stSize =>
    if stSize ≤ r.acctsize then some {switchshadow d r with sample := .status (left+1) rest}
    else
      let file ← r.file d
      some {readRecord c file r with sample := .record left rest stSize}
  | .status left rest =>
    let statacc ← r.file d
    some {r with acctsize := 0, sample := .read left rest statacc.length}
  | .read left rest stSize =>
    let file ← r.file d
    some {readRecord c file r with sample := .record (left-1) rest stSize}
  | .photographed rest =>
    if rest = 0 then some {r with sample := .idle}
    else
      -- noverflow * acctrecsz is an unsigned int
      let virtoffset := r.acctsize + rest * c.arecsize % 2^32
      some {r with
        acctsize := virtoffset % c.maxshadowsz
        sample := .skip (virtoffset / c.maxshadowsz)
        skipped := r.skipped + rest}
  | .skip 0 => some {r with offset := r.acctsize, sample := .idle}
  | .skip (switches+1) => some {switchshadow d r with sample := .skip switches}

/- acctswon claims the semaphore, reads the file current, opens the file it names, reads the first record
of it and counts (acctvers, with acctprocnt), and locks it. acctswoff closes the file; when a process
ends otherwise, its claim on the semaphore is undone before its files are closed. -/
inductive Client (β : Type) where
  | absent
  | claimed
  | looked (curshadowseq : Nat)
  | opened (r : Reader β)
  | counting (r : Reader β)
  | sized (r : Reader β)
  | reading (r : Reader β)
  | closed
  | exiting (lock : Option Nat)

def Client.present : Client β → Bool
  | .absent | .exiting _ => false
  | _ => true

/- A lock on a file that was removed keeps nothing in place. -/
def Client.lock : Client β → Option Nat
  | .reading r => if r.unlinked.isNone then some r.acctfd else none
  | .exiting lock => lock
  | _ => none

inductive Access where
  | register
  | giveUp
  | next (nrprocs : Nat)
  | acctswoff
  | undo
  | close
  deriving DecidableEq, Repr

def acctswon (c : Config) (d : Daemon β) : Client β → Option (Client β)
  | .absent => some .claimed
  | .claimed => some (match d.current with
    | some seq => .looked seq
    | none => .absent)
  | .looked seq => some (match d.shadows seq with
    | some _ => .opened ⟨seq,seq,none,0,0,.idle,[],0,0,0⟩
    | none => .absent)
  | .opened r => (r.file d).map (fun file =>
    let tmprec := slice file r.offset c.arecsize
    let r := {r with offset := r.offset + tmprec.length}
    if tmprec.length < c.arecsize then .opened r else .counting r)
  | .counting r =>
    match r.sample with
    | .counted numrecs => some (.sized {r with acctsize := numrecs.toNat * c.arecsize, offset := numrecs.toNat * c.arecsize, sample := .idle})
    | _ => (r.next c d 0).map .counting
  | .sized r => some (if r.unlinked.isNone && d.tests r.acctfd then .absent else .reading {r with start := r.began})
  | _ => none

def Client.access (c : Config) (d : Daemon β) : Client β → Access → Option (Client β)
  | k,.register => acctswon c d k
  | .opened _,.giveUp => some .absent
  | .reading r,.next nrprocs => (r.next c d nrprocs).map .reading
  | .reading _,.acctswoff => some .closed
  | k,.undo => if k.present then some (.exiting k.lock) else none
  | .exiting _,.close => some .absent
  | _,_ => none

def Reader.follow (d t : Daemon β) (r : Reader β) : Reader β :=
  if r.unlinked.isNone && (t.shadows r.acctfd).isNone then {r with unlinked := d.shadows r.acctfd} else r

def Client.follow (d t : Daemon β) : Client β → Client β
  | .opened r => .opened (r.follow d t)
  | .counting r => .counting (r.follow d t)
  | .sized r => .sized (r.follow d t)
  | .reading r => .reading (r.follow d t)
  | .exiting lock => .exiting (lock.filter (fun n => (t.shadows n).isSome))
  | k => k

structure State (β ι : Type) where
  daemon : Daemon β
  clients : ι → Client β

def State.initial : State β ι := ⟨ShadowFiles.initial,fun _ => .absent⟩

inductive Event (c : Config) (β ι : Type) where
  | daemon (a : Action c β)
  | client (i : ι) (a : Access)

section
variable [DecidableEq ι] [Fintype ι]

def numclients (s : State β ι) : Nat := (Finset.univ.filter (fun i => (s.clients i).present)).card
def locked (s : State β ι) (n : Nat) : Bool := decide (∃ i, (s.clients i).lock = some n)

def step (c : Config) (s : State β ι) : Event c β ι → Option (State β ι)
  | .daemon a => (s.daemon.step c (numclients s != 0) (locked s) a).map (fun d => ⟨d,fun i => (s.clients i).follow s.daemon d⟩)
  | .client i a => ((s.clients i).access c s.daemon a).map (fun k => {s with clients := Function.update s.clients i k})

end

def Reader.early (d : Daemon β) (r : Reader β) : Bool :=
  match r.sample with
  | .skip (_+1) => d.curshadow ≤ r.acctfd
  | _ => false

def Reader.wide (c : Config) (r : Reader β) : Bool :=
  match r.sample with
  | .photographed rest => 2^32 ≤ rest * c.arecsize
  | _ => false

def Reader.position (c : Config) (r : Reader β) : Nat :=
  match r.sample with
  | .skip switches => c.maxshadowsz*(r.acctfd + switches) + r.acctsize
  | _ => c.maxshadowsz*r.acctfd + r.offset

def Reader.Ahead (c : Config) (d : Daemon β) (r : Reader β) (numrecs : Nat) : Prop :=
  r.acctsize = r.offset ∧ r.offset ≤ c.maxshadowsz ∧ c.maxshadowsz*r.acctfd + r.offset + c.arecsize*numrecs ≤ d.passed.length

def Reader.Sized (c : Config) (d : Daemon β) (r : Reader β) (numrecs stSize : Nat) : Prop :=
  r.Ahead c d numrecs ∧ stSize ≤ c.maxshadowsz ∧ (stSize = c.maxshadowsz ∨ r.offset + c.arecsize*numrecs ≤ stSize)

def SampleValid (c : Config) (d : Daemon β) (r : Reader β) : Prop :=
  match r.sample with
  | .idle => r.Ahead c d 0
  | .full numrecs _ => ∃ k : Nat, numrecs = k ∧ r.Ahead c d k ∧ r.offset + c.arecsize*k = c.maxshadowsz
  | .newest numrecs newseq _ => ∃ k : Nat, numrecs = k ∧ r.Ahead c d k ∧ r.offset + c.arecsize*k = c.maxshadowsz ∧
      r.acctfd < newseq ∧ newseq ≤ d.curshadow
  | .counted numrecs => ∃ k : Nat, numrecs = k ∧ r.Ahead c d k
  | .record left rest stSize => r.Sized c d (left + rest) stSize
  | .status left rest => r.offset = 0 ∧ 0 < left ∧ c.maxshadowsz*r.acctfd + c.arecsize*(left + rest) ≤ d.passed.length
  | .read left rest stSize => r.offset = 0 ∧ 0 < left ∧ r.Sized c d (left + rest) stSize
  | .photographed rest => r.Ahead c d rest
  | .skip switches => r.acctsize ≤ c.maxshadowsz ∧ c.maxshadowsz*(r.acctfd + switches) + r.acctsize ≤ d.passed.length

/- Its file is there, and what it was handed are the records passed since it registered, in their
order and without those it chose to skip. -/
structure Reader.Valid (c : Config) (d : Daemon β) (r : Reader β) : Prop where
  settled : d.restarting = false
  held : d.oldest ≤ r.acctfd ∧ r.acctfd ≤ d.curshadow
  same : r.curshadowseq = r.acctfd
  linked : r.unlinked = none
  whole : c.arecsize ∣ r.start
  consumed : r.position c = r.start + c.arecsize*(r.delivered.length + r.skipped)
  handed : r.delivered.Sublist ((records c.arecsize d.passed r.start (r.delivered.length + r.skipped)).map some)
  sample : SampleValid c d r

theorem Reader.Valid.inside {c : Config} {d : Daemon β} {r : Reader β} (valid : r.Valid c d) : r.position c ≤ d.passed.length := by
  have sample := valid.sample
  unfold SampleValid at sample
  unfold Reader.position
  split at sample <;> rename_i here <;> simp only [here]
  · exact sample.2.2
  · obtain ⟨k,-,ahead,-⟩ := sample
    exact (Nat.le_add_right _ _).trans ahead.2.2
  · obtain ⟨k,-,ahead,-⟩ := sample
    exact (Nat.le_add_right _ _).trans ahead.2.2
  · obtain ⟨k,-,ahead⟩ := sample
    exact (Nat.le_add_right _ _).trans ahead.2.2
  · exact (Nat.le_add_right _ _).trans sample.1.2.2
  · omega
  · exact (Nat.le_add_right _ _).trans sample.2.2.1.2.2
  · exact (Nat.le_add_right _ _).trans sample.2.2
  · exact sample.2

theorem aheadGrown {c : Config} {d t : Daemon β} {locked : Nat → Bool} {r : Reader β} {n : Nat} (grown : Grown locked d t)
    (ahead : r.Ahead c d n) : r.Ahead c t n :=
  ⟨ahead.1,ahead.2.1,ahead.2.2.trans grown.length⟩

theorem readerGrown {c : Config} {d t : Daemon β} {locked : Nat → Bool} {r : Reader β} (valid : r.Valid c d) (grown : Grown locked d t)
    (lock : locked r.acctfd = true) : r.Valid c t := by
  refine ⟨grown.settled,⟨grown.kept _ lock valid.held.1,valid.held.2.trans grown.newest⟩,valid.same,valid.linked,valid.whole,valid.consumed,
    ?_,?_⟩
  · obtain ⟨more,passed⟩ := grown.passed
    rw [← passed,recordsAppend (valid.consumed ▸ valid.inside)]
    exact valid.handed
  · have sample := valid.sample
    have length := grown.length
    have newest := grown.newest
    unfold SampleValid at sample ⊢
    split at sample
    · exact aheadGrown grown sample
    · exact sample.imp fun k h => ⟨h.1,aheadGrown grown h.2.1,h.2.2⟩
    · exact sample.imp fun k h => ⟨h.1,aheadGrown grown h.2.1,h.2.2.1,h.2.2.2.1,h.2.2.2.2.trans newest⟩
    · exact sample.imp fun k h => ⟨h.1,aheadGrown grown h.2⟩
    · exact ⟨aheadGrown grown sample.1,sample.2⟩
    · exact ⟨sample.1,sample.2.1,sample.2.2.trans length⟩
    · exact ⟨sample.1,sample.2.1,aheadGrown grown sample.2.2.1,sample.2.2.2⟩
    · exact aheadGrown grown sample
    · exact ⟨sample.1,sample.2.trans length⟩

section
variable {c : Config} {d : Daemon β} {r : Reader β}

theorem Reader.Valid.present (valid : r.Valid c d) (daemon : ShadowFiles.Valid c d) :
    d.shadows r.acctfd = some (segment c.maxshadowsz d.passed r.acctfd) := daemon.held ((oldestLe d).trans valid.held.1) valid.held.2

theorem Reader.Valid.opened (valid : r.Valid c d) (daemon : ShadowFiles.Valid c d) :
    r.file d = some (segment c.maxshadowsz d.passed r.acctfd) := by
  simp only [Reader.file,valid.linked,valid.present daemon]

theorem Reader.Valid.resample (valid : r.Valid c d) {s : Sample} {acctsize began : Nat}
    (position : {r with sample := s, acctsize := acctsize, began := began}.position c = r.position c)
    (sample : SampleValid c d {r with sample := s, acctsize := acctsize, began := began}) :
    {r with sample := s, acctsize := acctsize, began := began}.Valid c d :=
  ⟨valid.settled,valid.held,valid.same,valid.linked,valid.whole,position.trans valid.consumed,valid.handed,sample⟩

theorem Reader.Valid.offsetWhole (valid : r.Valid c d) (position : r.position c = c.maxshadowsz*r.acctfd + r.offset) :
    c.arecsize ∣ r.offset := by
  have consumed := valid.consumed
  rw [position] at consumed
  have both : c.arecsize ∣ c.maxshadowsz*r.acctfd + r.offset := by
    rw [consumed]
    exact Nat.dvd_add valid.whole (Nat.dvd_mul_right _ _)
  exact (Nat.dvd_add_right ((wholeMax c).mul_right _)).mp both

theorem numrecsEq {size offset : Nat} (le : offset ≤ size) (first : c.arecsize ∣ size) (second : c.arecsize ∣ offset) :
    ∃ k : Nat, ((size : Int) - offset).tdiv c.arecsize = k ∧ offset + c.arecsize*k = size := by
  obtain ⟨k,eq⟩ := Nat.dvd_sub first second
  refine ⟨k,?_,by omega⟩
  have positive : (c.arecsize : Int) ≠ 0 := by
    have := c.recorded
    omega
  have value : (size : Int) - offset = c.arecsize * k := by
    rw [← Int.ofNat_sub le,eq]
    push_cast
    rfl
  rw [value,Int.mul_tdiv_cancel_left _ positive]

theorem fileSize (daemon : ShadowFiles.Valid c d) {n : Nat} (new : n ≤ d.curshadow) :
    c.maxshadowsz*n + (segment c.maxshadowsz d.passed n).length ≤ d.passed.length ∧
      (segment c.maxshadowsz d.passed n).length ≤ c.maxshadowsz ∧
      ((segment c.maxshadowsz d.passed n).length = c.maxshadowsz ∨
        c.maxshadowsz*n + (segment c.maxshadowsz d.passed n).length = d.passed.length) ∧
      c.arecsize ∣ (segment c.maxshadowsz d.passed n).length := by
  have begun : c.maxshadowsz*n ≤ d.passed.length := (Nat.mul_le_mul_left _ new).trans daemon.extent.1
  rw [segmentLength]
  refine ⟨by omega,by omega,by omega,?_⟩
  rcases Nat.le_total c.maxshadowsz (d.passed.length - c.maxshadowsz*n) with le | le
  · rw [Nat.min_eq_left le]
    exact wholeMax c
  · rw [Nat.min_eq_right le]
    exact Nat.dvd_sub daemon.whole ((wholeMax c).mul_right _)

theorem idleNext (daemon : ShadowFiles.Valid c d) (valid : r.Valid c d) (here : r.sample = .idle) (nrprocs : Nat) :
    ∃ t, r.next c d nrprocs = some t ∧ t.Valid c d := by
  have position : r.position c = c.maxshadowsz*r.acctfd + r.offset := by simp only [Reader.position,here]
  have sample := valid.sample
  simp only [SampleValid,here] at sample
  obtain ⟨same,small,ahead⟩ := sample
  obtain ⟨inside,atMost,full,whole⟩ := fileSize daemon valid.held.2
  have file := valid.opened daemon
  revert inside atMost full whole file
  generalize segment c.maxshadowsz d.passed r.acctfd = statacc
  intro inside atMost full whole file
  obtain ⟨k,count,reach⟩ := numrecsEq (show r.offset ≤ statacc.length by omega) whole (valid.offsetWhole position)
  refine ⟨_,by simp only [Reader.next,here,file,bind,Option.bind_some]; rfl,valid.resample ?_ ?_⟩
  · split <;> simp only [Reader.position,here]
  · have ready : r.Ahead c d k := ⟨same,small,by omega⟩
    rw [← same] at count
    rw [count]
    split
    · exact ⟨k,rfl,ready⟩
    · rename_i reached
      have most : c.maxshadowsz ≤ statacc.length := by
        exact (Nat.le_div_iff_mul_le c.recorded).mp (Nat.not_lt.mp reached)
      exact ⟨k,rfl,ready,reach.trans (Nat.le_antisymm atMost most)⟩

theorem fullNext (daemon : ShadowFiles.Valid c d) (valid : r.Valid c d) {numrecs : Int} {stSize : Nat} (here : r.sample = .full numrecs stSize)
    (nrprocs : Nat) : ∃ t, r.next c d nrprocs = some t ∧ t.Valid c d := by
  have sample := valid.sample
  simp only [SampleValid,here] at sample
  obtain ⟨k,count,ahead,reach⟩ := sample
  obtain ⟨extent,known⟩ := daemon.announcedExtent valid.settled
  cases current : d.current with
  | none =>
    refine ⟨_,by simp only [Reader.next,here,current]; rfl,valid.resample ?_ ?_⟩
    · simp only [Reader.position,here]
    · exact ⟨k,count,ahead⟩
  | some newseq =>
    refine ⟨_,by simp only [Reader.next,here,current]; rfl,valid.resample ?_ ?_⟩
    · split <;> simp only [Reader.position,here]
    · split
      · exact ⟨k,count,ahead⟩
      · rename_i other
        have told := known newseq current
        -- the own file is full, so the announced one is at least as new
        have notOlder : r.acctfd ≤ newseq := by
          by_contra older
          have below : c.maxshadowsz*(newseq+1) ≤ c.maxshadowsz*r.acctfd := Nat.mul_le_mul_left _ (by omega)
          have := ahead.2.2
          have := roomyPositive c
          rw [← told] at extent
          omega
        have := valid.same
        exact ⟨k,count,ahead,reach,by simp only; omega,told.trans_le (announcedLe d)⟩

theorem countNewest (same : r.curshadowseq = r.acctfd) {k size : Nat} (between : Nat) (reach : r.offset + c.arecsize*k = c.maxshadowsz)
    (whole : c.arecsize ∣ size) :
    (k : Int) + ((((r.acctfd + 1 + between : Nat) : Int) - r.curshadowseq - 1)*c.maxshadowrec + (size / c.arecsize : Nat)) =
        (k + (between*c.maxshadowrec + size / c.arecsize) : Nat) ∧
      c.maxshadowsz*r.acctfd + r.offset + c.arecsize*(k + (between*c.maxshadowrec + size / c.arecsize)) =
        c.maxshadowsz*(r.acctfd + 1 + between) + size := by
  constructor
  · rw [same]
    push_cast
    ring
  · have files : c.maxshadowsz*(r.acctfd + 1 + between) = c.maxshadowsz*r.acctfd + c.maxshadowsz + c.arecsize*(between*c.maxshadowrec) := by
      unfold Config.maxshadowsz
      ring
    have last : c.arecsize*(size / c.arecsize) = size := Nat.mul_div_cancel' whole
    rw [files,Nat.mul_add c.arecsize k,Nat.mul_add c.arecsize _ (size / c.arecsize)]
    omega

theorem newestNext (daemon : ShadowFiles.Valid c d) (valid : r.Valid c d) {numrecs : Int} {newseq stSize : Nat}
    (here : r.sample = .newest numrecs newseq stSize) (nrprocs : Nat) : ∃ t, r.next c d nrprocs = some t ∧ t.Valid c d := by
  have sample := valid.sample
  simp only [SampleValid,here] at sample
  obtain ⟨k,rfl,ahead,reach,later,newest⟩ := sample
  have held := daemon.held ((oldestLe d).trans (valid.held.1.trans later.le)) newest
  obtain ⟨inside,-,-,whole⟩ := fileSize daemon newest
  refine ⟨_,by simp only [Reader.next,here,held]; rfl,valid.resample ?_ ?_⟩
  · simp only [Reader.position,here]
  · obtain ⟨between,rfl⟩ : ∃ between, newseq = r.acctfd + 1 + between := ⟨newseq - r.acctfd - 1,by omega⟩
    obtain ⟨count,counted⟩ := countNewest valid.same between reach whole
    exact ⟨_,count,ahead.1,ahead.2.1,counted.trans_le inside⟩

theorem countedNext (daemon : ShadowFiles.Valid c d) (valid : r.Valid c d) {numrecs : Int} (here : r.sample = .counted numrecs)
    (nrprocs : Nat) : ∃ t, r.next c d nrprocs = some t ∧ t.Valid c d := by
  have sample := valid.sample
  simp only [SampleValid,here] at sample
  obtain ⟨k,rfl,ahead⟩ := sample
  obtain ⟨-,atMost,full,-⟩ := fileSize daemon valid.held.2
  refine ⟨_,by simp only [Reader.next,here,valid.opened daemon,bind,Option.bind_some]; rfl,valid.resample ?_ ?_⟩
  · simp only [Reader.position,here]
  · have shared : min nrprocs (k : Int).toNat + ((k : Int).toNat - min nrprocs (k : Int).toNat) = k := by omega
    have reaches := ahead.2.2
    simp only [SampleValid,shared]
    exact ⟨ahead,atMost,full.imp_right (fun _ => show r.offset + c.arecsize*k ≤ _ by omega)⟩

theorem switchValid (daemon : ShadowFiles.Valid c d) (valid : r.Valid c d) (later : r.acctfd < d.curshadow) :
    switchshadow d r = {r with curshadowseq := r.acctfd + 1, acctfd := r.acctfd + 1, offset := 0} := by
  have old : d.oldshadow ≤ r.acctfd + 1 := ((oldestLe d).trans valid.held.1).trans (Nat.le_succ _)
  have free : d.tests (r.acctfd + 1) = false := untested (valid.held.1.trans (Nat.le_succ _))
  simp only [switchshadow,valid.same,valid.linked,daemon.held old later,free,Bool.false_eq_true,if_false]

theorem nextFits (valid : r.Valid c d) (position : r.position c = c.maxshadowsz*r.acctfd + r.offset) (room : r.offset < c.maxshadowsz) :
    r.offset + c.arecsize ≤ c.maxshadowsz := by
  have gap : c.arecsize ∣ c.maxshadowsz - r.offset := Nat.dvd_sub (wholeMax c) (valid.offsetWhole position)
  have := Nat.le_of_dvd (by omega) gap
  omega

theorem readRecordValid (valid : r.Valid c d) (position : r.position c = c.maxshadowsz*r.acctfd + r.offset)
    (ahead : c.maxshadowsz*r.acctfd + r.offset + c.arecsize ≤ d.passed.length) (room : r.offset < c.maxshadowsz) {s : Sample}
    (behind : ∀ t : Reader β, t.sample = s → t.position c = c.maxshadowsz*t.acctfd + t.offset)
    (sample : SampleValid c d {r with offset := r.offset + c.arecsize, acctsize := r.acctsize + c.arecsize, sample := s}) :
    {readRecord c (segment c.maxshadowsz d.passed r.acctfd) r with sample := s}.Valid c d := by
  have fits := nextFits valid position room
  have acctrec : slice (segment c.maxshadowsz d.passed r.acctfd) r.offset c.arecsize = slice d.passed (r.position c) c.arecsize := by
    rw [segmentRead fits,position]
  have length : (slice d.passed (r.position c) c.arecsize).length = c.arecsize := sliceFull (by omega)
  simp only [readRecord,acctrec,length,Nat.lt_irrefl,if_false]
  refine ⟨valid.settled,valid.held,valid.same,valid.linked,valid.whole,?_,?_,sample⟩
  · rw [behind _ rfl]
    have consumed := valid.consumed
    rw [position] at consumed
    simp only [List.length_append,List.length_singleton]
    rw [Nat.add_right_comm r.delivered.length,Nat.mul_add_one]
    omega
  · simp only [List.length_append,List.length_singleton]
    rw [Nat.add_right_comm r.delivered.length,recordsSucc,List.map_append,← valid.consumed]
    exact valid.handed.append (List.Sublist.refl _)

theorem recordNext (daemon : ShadowFiles.Valid c d) (valid : r.Valid c d) {left rest stSize : Nat}
    (here : r.sample = .record left rest stSize) (nrprocs : Nat) : ∃ t, r.next c d nrprocs = some t ∧ t.Valid c d := by
  have position : r.position c = c.maxshadowsz*r.acctfd + r.offset := by simp only [Reader.position,here]
  have sample := valid.sample
  simp only [SampleValid,here] at sample
  obtain ⟨⟨same,small,ahead⟩,atMost,sized⟩ := sample
  cases left with
  | zero =>
    rw [Nat.zero_add] at ahead
    refine ⟨_,by simp only [Reader.next,here]; rfl,valid.resample ?_ ?_⟩
    · simp only [Reader.position,here]
    · exact ⟨same,small,ahead⟩
  | succ left =>
    have more : c.arecsize*(left + 1 + rest) = c.arecsize*(left + rest) + c.arecsize := by ring
    have recorded := c.recorded
    by_cases done : stSize ≤ r.acctsize
    · -- only a full file is read to its end with records still to come
      have full : r.offset = c.maxshadowsz := by omega
      have later : r.acctfd < d.curshadow := by
        by_contra last
        have newest : d.curshadow = r.acctfd := Nat.le_antisymm (Nat.not_lt.mp last) valid.held.2
        have extent := daemon.extent.2
        have next := Nat.mul_add_one c.maxshadowsz r.acctfd
        rw [newest] at extent
        omega
      refine ⟨_,by simp only [Reader.next,here,if_pos done,switchValid daemon valid later]; rfl,?_⟩
      refine ⟨valid.settled,⟨Nat.le_succ_of_le valid.held.1,later⟩,rfl,valid.linked,valid.whole,?_,valid.handed,?_⟩
      · rw [← valid.consumed,position]
        simp only [Reader.position,Nat.mul_add_one]
        omega
      · have next := Nat.mul_add_one c.maxshadowsz r.acctfd
        exact ⟨rfl,Nat.succ_pos left,by simp only; omega⟩
    · refine ⟨_,by simp only [Reader.next,here,if_neg done,valid.opened daemon,bind,Option.bind_some]; rfl,?_⟩
      refine readRecordValid valid position (by omega) (by omega) (fun t at_ => by simp only [Reader.position,at_]) ?_
      refine ⟨⟨by simp only; omega,?_,by simp only; omega⟩,atMost,sized.imp_right fun _ => by simp only; omega⟩
      exact nextFits valid position (by omega)

theorem statusNext (daemon : ShadowFiles.Valid c d) (valid : r.Valid c d) {left rest : Nat} (here : r.sample = .status left rest)
    (nrprocs : Nat) : ∃ t, r.next c d nrprocs = some t ∧ t.Valid c d := by
  have sample := valid.sample
  simp only [SampleValid,here] at sample
  obtain ⟨zero,some_,ahead⟩ := sample
  obtain ⟨-,atMost,full,-⟩ := fileSize daemon valid.held.2
  refine ⟨_,by simp only [Reader.next,here,valid.opened daemon,bind,Option.bind_some]; rfl,valid.resample ?_ ?_⟩
  · simp only [Reader.position,here]
  · refine ⟨zero,some_,⟨zero.symm,by simp only [zero]; exact Nat.zero_le _,by simp only [zero]; omega⟩,atMost,full.imp_right fun _ => ?_⟩
    simp only [zero]
    omega

theorem readNext (daemon : ShadowFiles.Valid c d) (valid : r.Valid c d) {left rest stSize : Nat} (here : r.sample = .read left rest stSize)
    (nrprocs : Nat) : ∃ t, r.next c d nrprocs = some t ∧ t.Valid c d := by
  have position : r.position c = c.maxshadowsz*r.acctfd + r.offset := by simp only [Reader.position,here]
  have sample := valid.sample
  simp only [SampleValid,here] at sample
  obtain ⟨zero,some_,⟨same,small,ahead⟩,atMost,sized⟩ := sample
  obtain ⟨left,rfl⟩ : ∃ n, left = n + 1 := ⟨left - 1,by omega⟩
  have more : c.arecsize*(left + 1 + rest) = c.arecsize*(left + rest) + c.arecsize := by ring
  have room := roomyPositive c
  refine ⟨_,by simp only [Reader.next,here,valid.opened daemon,bind,Option.bind_some]; rfl,?_⟩
  refine readRecordValid valid position (by omega) (by omega) (fun t at_ => by simp only [Reader.position,at_]) ?_
  refine ⟨⟨by simp only; omega,?_,?_⟩,atMost,sized.imp_right fun _ => ?_⟩
  · exact nextFits valid position (by omega)
  · simp only [Nat.add_sub_cancel]
    omega
  · simp only [Nat.add_sub_cancel]
    omega

theorem photographedNext (valid : r.Valid c d) {rest : Nat} (here : r.sample = .photographed rest) (narrow : rest*c.arecsize < 2^32)
    (nrprocs : Nat) :
    ∃ t, r.next c d nrprocs = some t ∧ t.Valid c d := by
  have position : r.position c = c.maxshadowsz*r.acctfd + r.offset := by simp only [Reader.position,here]
  have sample := valid.sample
  simp only [SampleValid,here] at sample
  obtain ⟨same,small,ahead⟩ := sample
  by_cases none : rest = 0
  · subst none
    refine ⟨_,by simp only [Reader.next,here,if_true]; rfl,valid.resample ?_ ?_⟩
    · simp only [Reader.position,here]
    · exact ⟨same,small,ahead⟩
  · have target : c.maxshadowsz*(r.acctfd + (r.acctsize + rest*c.arecsize)/c.maxshadowsz) + (r.acctsize + rest*c.arecsize)%c.maxshadowsz =
        c.maxshadowsz*r.acctfd + r.offset + c.arecsize*rest := by
      rw [Nat.mul_add,Nat.add_assoc,Nat.div_add_mod,same,Nat.mul_comm rest,Nat.add_assoc]
    have consumed := valid.consumed
    rw [position] at consumed
    have total : r.delivered.length + (r.skipped + rest) = r.delivered.length + r.skipped + rest := (Nat.add_assoc _ _ _).symm
    refine ⟨_,by simp only [Reader.next,here,if_neg none,Nat.mod_eq_of_lt narrow]; rfl,?_⟩
    refine ⟨valid.settled,valid.held,valid.same,valid.linked,valid.whole,?_,?_,?_⟩
    · simp only [Reader.position,target,total,Nat.mul_add c.arecsize _ rest]
      omega
    · simp only [total]
      exact valid.handed.trans (((recordsPrefix (Nat.le_add_right _ _)).map some).sublist)
    · simp only [SampleValid,target]
      exact ⟨(Nat.mod_lt _ (roomyPositive c)).le,ahead⟩

theorem skipNext (daemon : ShadowFiles.Valid c d) (valid : r.Valid c d) {switches : Nat} (here : r.sample = .skip switches)
    (timely : 0 < switches → r.acctfd < d.curshadow) (nrprocs : Nat) : ∃ t, r.next c d nrprocs = some t ∧ t.Valid c d := by
  have consumed := valid.consumed
  have sample := valid.sample
  simp only [SampleValid,Reader.position,here] at sample consumed
  cases switches with
  | zero =>
    refine ⟨_,by simp only [Reader.next,here]; rfl,?_⟩
    exact ⟨valid.settled,valid.held,valid.same,valid.linked,valid.whole,consumed,valid.handed,rfl,sample.1,sample.2⟩
  | succ switches =>
    refine ⟨_,by simp only [Reader.next,here,switchValid daemon valid (timely (Nat.succ_pos _))]; rfl,?_⟩
    have reach : r.acctfd + 1 + switches = r.acctfd + (switches + 1) := by omega
    refine ⟨valid.settled,⟨Nat.le_succ_of_le valid.held.1,timely (Nat.succ_pos _)⟩,rfl,valid.linked,valid.whole,?_,valid.handed,?_⟩
    · simp only [Reader.position,reach]
      exact consumed
    · simp only [SampleValid,reach]
      exact sample

theorem nextValid (daemon : ShadowFiles.Valid c d) (valid : r.Valid c d) (timely : r.early d = false) (narrow : r.wide c = false)
    (nrprocs : Nat) :
    ∃ t, r.next c d nrprocs = some t ∧ t.Valid c d := by
  cases here : r.sample with
  | idle => exact idleNext daemon valid here nrprocs
  | full => exact fullNext daemon valid here nrprocs
  | newest => exact newestNext daemon valid here nrprocs
  | counted => exact countedNext daemon valid here nrprocs
  | record => exact recordNext daemon valid here nrprocs
  | status => exact statusNext daemon valid here nrprocs
  | read => exact readNext daemon valid here nrprocs
  | photographed => exact photographedNext valid here (by simpa [Reader.wide,here] using narrow) nrprocs
  | skip switches =>
    refine skipNext daemon valid here (fun positive => ?_) nrprocs
    obtain ⟨k,rfl⟩ := Nat.exists_eq_succ_of_ne_zero positive.ne'
    simpa [Reader.early,here] using timely

end

/- It has not read anything yet, and the file current still names its file. -/
structure Registers (d : Daemon β) (r : Reader β) : Prop where
  settled : d.restarting = false
  current : d.current = some r.curshadowseq
  same : r.curshadowseq = r.acctfd
  linked : r.unlinked = none
  fresh : r.delivered = [] ∧ r.skipped = 0

def CountedTo (c : Config) (d : Daemon β) (r : Reader β) (numrecs : Int) : Prop :=
  ∃ k : Nat, numrecs = k ∧ c.arecsize*k ≤ c.maxshadowsz ∧ r.began = c.maxshadowsz*r.acctfd + c.arecsize*k ∧ r.began ≤ d.passed.length

def Counting (c : Config) (d : Daemon β) (r : Reader β) : Prop :=
  match r.sample with
  | .idle => r.acctsize = 0
  | .full numrecs _ | .counted numrecs => CountedTo c d r numrecs
  | _ => False

structure Sized (c : Config) (d : Daemon β) (r : Reader β) : Prop where
  idle : r.sample = .idle
  behind : r.acctsize = r.offset
  small : r.offset ≤ c.maxshadowsz
  whole : c.arecsize ∣ r.offset
  began : r.began = c.maxshadowsz*r.acctfd + r.offset
  inside : r.began ≤ d.passed.length

def Client.Valid (c : Config) (d : Daemon β) : Client β → Prop
  | .looked seq => d.restarting = false ∧ d.current = some seq
  | .opened r => Registers d r ∧ r.acctsize = 0 ∧ r.sample = .idle
  | .counting r => Registers d r ∧ Counting c d r
  | .sized r => Registers d r ∧ Sized c d r
  | .reading r => r.Valid c d
  | _ => True

section
variable {c : Config} {d t : Daemon β} {r u : Reader β} {locked : Nat → Bool}

theorem Registers.held (registers : Registers d r) (daemon : ShadowFiles.Valid c d) :
    d.oldest ≤ r.acctfd ∧ r.acctfd ≤ d.curshadow ∧ c.maxshadowsz*r.acctfd + (segment c.maxshadowsz d.passed r.acctfd).length =
    d.passed.length := by
  obtain ⟨extent,told⟩ := daemon.announcedExtent registers.settled
  have seq := told _ registers.current
  rw [registers.same] at seq
  have new : r.acctfd ≤ d.curshadow := seq.trans_le (announcedLe d)
  rw [← seq,Nat.mul_add_one] at extent
  obtain ⟨inside,-,full,-⟩ := fileSize daemon new
  exact ⟨(daemon.named registers.settled).trans_eq seq.symm,new,by omega⟩

theorem Registers.present (registers : Registers d r) (daemon : ShadowFiles.Valid c d) :
    d.shadows r.acctfd = some (segment c.maxshadowsz d.passed r.acctfd) := by
  obtain ⟨old,new,-⟩ := registers.held daemon
  exact daemon.held ((oldestLe d).trans old) new

theorem countingNext (daemon : ShadowFiles.Valid c d) (registers : Registers d r) (counting : Counting c d r)
    (uncounted : ∀ numrecs, r.sample ≠ .counted numrecs) (went : r.next c d 0 = some u) : Registers d u ∧ Counting c d u := by
  unfold Counting at counting
  split at counting
  · rename_i here
    obtain ⟨-,new,ended⟩ := registers.held daemon
    obtain ⟨-,atMost,-,whole⟩ := fileSize daemon new
    have file : r.file d = some (segment c.maxshadowsz d.passed r.acctfd) := by
      simp only [Reader.file,registers.linked,registers.present daemon]
    revert ended atMost whole file
    generalize segment c.maxshadowsz d.passed r.acctfd = statacc
    intro ended atMost whole file
    obtain ⟨k,count,reach⟩ := numrecsEq (c := c) (Nat.zero_le statacc.length) whole (Nat.dvd_zero _)
    rw [← counting] at count
    simp only [Reader.next,here,file,bind,Option.bind_some] at went
    cases Option.some.inj went
    refine ⟨⟨registers.settled,registers.current,registers.same,registers.linked,registers.fresh⟩,?_⟩
    have ready : CountedTo c d {r with began := d.passed.length} (((statacc.length : Int) - r.acctsize).tdiv c.arecsize) :=
      ⟨k,count,by omega,by simp only; omega,le_rfl⟩
    simp only [Counting]
    by_cases room : statacc.length / c.arecsize < c.maxshadowrec
    · simp only [if_pos room]
      exact ready
    · simp only [if_neg room]
      exact ready
  · rename_i here
    simp only [Reader.next,here,registers.current,if_true] at went
    cases Option.some.inj went
    exact ⟨⟨registers.settled,registers.current,registers.same,registers.linked,registers.fresh⟩,counting⟩
  · rename_i here
    exact absurd here (uncounted _)
  · cases counting

theorem lockedValid (daemon : ShadowFiles.Valid c d) (registers : Registers d r) (sized : Sized c d r) :
    ({r with start := r.began} : Reader β).Valid c d := by
  obtain ⟨old,new,-⟩ := registers.held daemon
  have inside := sized.inside
  rw [sized.began] at inside
  refine ⟨registers.settled,⟨old,new⟩,registers.same,registers.linked,?_,?_,?_,?_⟩
  · simp only [sized.began]
    exact Nat.dvd_add ((wholeMax c).mul_right _) sized.whole
  · simp only [Reader.position,sized.idle,sized.began,registers.fresh,List.length_nil,Nat.add_zero,Nat.mul_zero]
  · simp only [registers.fresh]
    exact List.nil_sublist _
  · simp only [SampleValid,sized.idle]
    exact ⟨sized.behind,sized.small,inside⟩

theorem acctswonValid (daemon : ShadowFiles.Valid c d) {k l : Client β} (valid : k.Valid c d)
    (settled : (∃ seq, l = .looked seq) → d.restarting = false) (went : acctswon c d k = some l) : l.Valid c d := by
  unfold acctswon at went
  split at went <;> try contradiction
  · cases Option.some.inj went
    trivial
  · cases Option.some.inj went
    split
    · rename_i seq current
      exact ⟨settled ⟨seq,by simp only [current]⟩,current⟩
    · trivial
  · cases Option.some.inj went
    split
    · exact ⟨⟨valid.1,valid.2,rfl,rfl,rfl,rfl⟩,rfl,rfl⟩
    · trivial
  · obtain ⟨file,-,made⟩ := Option.map_eq_some_iff.mp went
    obtain ⟨registers,acctsize,sample⟩ := valid
    subst made
    dsimp only
    split
    · exact ⟨⟨registers.settled,registers.current,registers.same,registers.linked,registers.fresh⟩,acctsize,sample⟩
    · exact ⟨⟨registers.settled,registers.current,registers.same,registers.linked,registers.fresh⟩,
        by simpa only [Counting,sample] using acctsize⟩
  · rename_i r
    obtain ⟨registers,counting⟩ := valid
    split at went
    · rename_i here
      simp only [Counting,here] at counting
      obtain ⟨k,rfl,small,began,inside⟩ := counting
      cases Option.some.inj went
      refine ⟨⟨registers.settled,registers.current,registers.same,registers.linked,registers.fresh⟩,rfl,rfl,?_,?_,?_,inside⟩
      · simpa only [Int.toNat_natCast,Nat.mul_comm k] using small
      · exact Nat.dvd_mul_left _ _
      · simpa only [Int.toNat_natCast,Nat.mul_comm k] using began
    · rename_i uncounted
      obtain ⟨u,moved,rfl⟩ := Option.map_eq_some_iff.mp went
      exact countingNext daemon registers counting uncounted moved
  · cases Option.some.inj went
    split
    · trivial
    · exact lockedValid daemon valid.1 valid.2

theorem followHeld {file : List β} (held : t.shadows r.acctfd = some file) : r.follow d t = r := by
  simp [Reader.follow,held]

theorem registersGrown (after : ShadowFiles.Valid c t) (registers : Registers d r) (grown : Grown locked d t)
    (current : t.current = some r.curshadowseq) :
    Registers t r ∧ r.follow d t = r := by
  have kept : Registers t r := ⟨grown.settled,current,registers.same,registers.linked,registers.fresh⟩
  exact ⟨kept,followHeld (kept.present after)⟩

theorem countingGrown (grown : Grown locked d t) (counting : Counting c d r) : Counting c t r := by
  have longer : ∀ {numrecs}, CountedTo c d r numrecs → CountedTo c t r numrecs :=
    fun ⟨k,count,small,began,inside⟩ => ⟨k,count,small,began,inside.trans grown.length⟩
  unfold Counting at counting ⊢
  split at counting
  · exact counting
  · exact longer counting
  · exact longer counting
  · exact counting

def Client.registering : Client β → Bool
  | .looked _ | .opened _ | .counting _ | .sized _ => true
  | _ => false

theorem clientGrown (daemon : ShadowFiles.Valid c d) {k : Client β} (valid : k.Valid c d) (lock : ∀ n, k.lock = some n → locked n = true)
    {a : Action c β} (still : k.registering = true → a.wipes d = false) (there : k.present = true)
    (went : d.step c true locked a = some t) : (k.follow d t).Valid c t := by
  have after := ShadowFiles.stepValid daemon went
  cases k with
  | looked seq =>
    obtain ⟨settled,current⟩ := valid
    exact ⟨(stepGrown settled went).settled,currentKept daemon settled current (still rfl) went⟩
  | opened r =>
    obtain ⟨registers,fresh⟩ := valid
    obtain ⟨kept,same⟩ := registersGrown after registers (stepGrown registers.settled went)
      (currentKept daemon registers.settled registers.current (still rfl) went)
    simp only [Client.follow,same]
    exact ⟨kept,fresh⟩
  | counting r =>
    obtain ⟨registers,counting⟩ := valid
    have grown := stepGrown registers.settled went
    obtain ⟨kept,same⟩ := registersGrown after registers grown (currentKept daemon registers.settled registers.current (still rfl) went)
    simp only [Client.follow,same]
    exact ⟨kept,countingGrown grown counting⟩
  | sized r =>
    obtain ⟨registers,sized⟩ := valid
    have grown := stepGrown registers.settled went
    obtain ⟨kept,same⟩ := registersGrown after registers grown (currentKept daemon registers.settled registers.current (still rfl) went)
    simp only [Client.follow,same]
    exact ⟨kept,{sized with inside := sized.inside.trans grown.length}⟩
  | reading r =>
    have kept := readerGrown valid (stepGrown valid.settled went) (lock _ (by simp [Client.lock,valid.linked]))
    simp only [Client.follow,followHeld (kept.present after)]
    exact kept
  | _ => trivial

end

structure Served (c : Config) (i : ι) (s : State β ι) : Prop where
  daemon : ShadowFiles.Valid c s.daemon
  client : (s.clients i).Valid c s.daemon

theorem initialServed {c : Config} (i : ι) : Served c i (State.initial : State β ι) := ⟨ShadowFiles.initialValid c,trivial⟩

section
variable [DecidableEq ι] {c : Config}

def undisturbed (i : ι) (s : State β ι) : Event c β ι → Bool
  | .daemon a => !((s.clients i).registering && a.wipes s.daemon)
  | .client j .register => !(decide (j = i) && s.daemon.restarting)
  | .client _ _ => true

def whenNext (i : ι) (test : Daemon β → Reader β → Bool) (s : State β ι) : Event c β ι → Bool
  | .client j (.next _) =>
    match s.clients i with
    | .reading r => if j = i then test s.daemon r else true
    | _ => true
  | _ => true

def timely (i : ι) (s : State β ι) (e : Event c β ι) : Bool := whenNext i (fun d r => !r.early d && !r.wide c) s e

variable [Fintype ι] {s t : State β ι} {i : ι}

omit [DecidableEq ι] in
theorem presentClients (present : (s.clients i).present = true) : (numclients s != 0) = true := by
  have among : i ∈ Finset.univ.filter (fun i => (s.clients i).present) := Finset.mem_filter.mpr ⟨Finset.mem_univ i,present⟩
  simpa [numclients] using Finset.card_ne_zero_of_mem among

omit [DecidableEq ι] in
theorem lockedFile {n : Nat} (lock : (s.clients i).lock = some n) : locked s n = true := decide_eq_true ⟨i,lock⟩

theorem stepClient {e : Event c β ι} (went : step c s e = some t) (i : ι) :
    (∃ a, e = .daemon a ∧ s.daemon.step c (numclients s != 0) (locked s) a = some t.daemon ∧
    t.clients i = (s.clients i).follow s.daemon t.daemon) ∨
      (∃ j a, e = .client j a ∧ j ≠ i ∧ t.daemon = s.daemon ∧ t.clients i = s.clients i) ∨
      (∃ a, e = .client i a ∧ t.daemon = s.daemon ∧ (s.clients i).access c s.daemon a = some (t.clients i)) := by
  cases e with
  | daemon a =>
    obtain ⟨d,moved,rfl⟩ := Option.map_eq_some_iff.mp went
    exact Or.inl ⟨a,rfl,moved,rfl⟩
  | client j a =>
    obtain ⟨k,moved,rfl⟩ := Option.map_eq_some_iff.mp went
    by_cases own : j = i
    · subst own
      exact Or.inr (Or.inr ⟨a,rfl,rfl,by simpa only [Function.update_self] using moved⟩)
    · exact Or.inr (Or.inl ⟨j,a,rfl,own,rfl,Function.update_of_ne (Ne.symm own) _ _⟩)

theorem stepDaemon (valid : ShadowFiles.Valid c s.daemon) {e : Event c β ι} (went : step c s e = some t) : ShadowFiles.Valid c t.daemon := by
  cases e with
  | daemon a =>
    obtain ⟨d,moved,rfl⟩ := Option.map_eq_some_iff.mp went
    exact ShadowFiles.stepValid valid moved
  | client j a =>
    obtain ⟨k,-,rfl⟩ := Option.map_eq_some_iff.mp went
    exact valid

omit [Fintype ι] in
theorem accessValid (daemon : ShadowFiles.Valid c s.daemon) {k l : Client β} (here : s.clients i = k) (valid : k.Valid c s.daemon) {a : Access}
    (calm : undisturbed (c := c) i s (.client i a) = true) (prompt : timely (c := c) i s (.client i a) = true)
    (went : k.access c s.daemon a = some l) : l.Valid c s.daemon := by
  unfold Client.access at went
  split at went <;> try contradiction
  · refine acctswonValid daemon valid (fun _ => ?_) went
    simpa [undisturbed] using calm
  · cases Option.some.inj went
    trivial
  · rename_i r nrprocs
    obtain ⟨u,moved,rfl⟩ := Option.map_eq_some_iff.mp went
    obtain ⟨early,wide⟩ : r.early s.daemon = false ∧ r.wide c = false := by simpa [timely,whenNext,here] using prompt
    obtain ⟨v,first,kept⟩ := nextValid daemon valid early wide nrprocs
    cases Option.some.inj (moved.symm.trans first)
    exact kept
  · cases Option.some.inj went
    trivial
  · split at went <;> try contradiction
    cases Option.some.inj went
    trivial
  · cases Option.some.inj went
    trivial

theorem absentValid {d t : Daemon β} {k : Client β} (gone : k.present = false) : (k.follow d t).Valid c t := by
  cases k with
  | absent => trivial
  | exiting => trivial
  | _ => cases gone

theorem stepServed (served : Served c i s) {e : Event c β ι} (calm : undisturbed i s e = true) (prompt : timely i s e = true)
    (went : step c s e = some t) : Served c i t := by
  refine ⟨stepDaemon served.daemon went,?_⟩
  rcases stepClient went i with ⟨a,rfl,moved,follows⟩ | ⟨j,a,rfl,-,same,still⟩ | ⟨a,rfl,same,moved⟩
  · rw [follows]
    cases there : (s.clients i).present with
    | true =>
      rw [presentClients there] at moved
      refine clientGrown served.daemon served.client (fun n lock => lockedFile lock) (fun registering => ?_) there moved
      simpa [undisturbed,registering] using calm
    | false => exact absentValid there
  · rw [same,still]
    exact served.client
  · rw [same]
    exact accessValid served.daemon rfl served.client calm prompt moved

end

end PracticeSuite.ShadowReaders
