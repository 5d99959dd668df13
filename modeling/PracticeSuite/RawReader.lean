import PracticeSuite.RawLog

/-! rawread: the loop that shows the samples of a raw log and moves about in it as it is told. The offsets
of the records that were read are kept in a list, so that it can go back. -/
namespace PracticeSuite.RawReader
open StructLayout RawLog

structure Shown where
  curtime : UInt64
  interval : UInt32
  taskall : List Bytes
  procall : List Bytes
  procactive : List Bytes
  ntaskactive : Nat
  totrun : UInt32
  totslpi : UInt32
  totslpu : UInt32
  totzombie : UInt32
  sstat : Bytes
  nexit : UInt32
  noverflow : UInt32
  boot : Bool
  last : Bool
  support : Support
  deriving DecidableEq

/- What show_samp returns, and what it leaves in the global begintime. -/
structure Answer where
  lastcmd : Char
  begintime : Nat

def msampprev : Char := 'T'
def mreset : Char := 'r'
def msampbranch : Char := 'b'

structure Reader where
  pos : Nat
  offlist : Nat → Nat
  offcur : Nat
  begintime : Nat
  lastcmd : Char
  support : Support

inductive Outcome where
  | goOn (r : Reader)
  | shown (s : Shown) (next : Answer → Reader)
  | ended
  | stopped

structure Settings where
  endtime : Nat
  daysecs : UInt64 → Nat

def outOf (z : Zlib) (room : Nat) (x : Bytes) : Option Bytes := (z.uncompress x).filter (fun y => y.length ≤ room)

def readPart (z : Zlib) (file : Bytes) (pos room : Nat) (complen : UInt32) : Option (Bytes × Nat) :=
  let compbuf := (file.drop pos).take complen.toNat
  if compbuf.length < complen.toNat then none
  else (outOf z room compbuf).map (fun x => (x,pos + complen.toNat))

def setSupport (ng : Bool) (flags : UInt16) (s : Support) : Support :=
  let bit (n : Nat) : Bool := flags.toNat.testBit n
  ⟨if ng then bit 4 else s.acctactive,if ng then bit 5 else s.iostat,bit 2,bit 3,bit 6⟩

section
variable (b : Build) (z : Zlib) (c : Settings) (ng : Bool)

/- The statistics behind a record; none where the program stops, or writes behind procall or procactive. -/
def getSample (file : Bytes) (rr : RawRecord) (pos : Nat) (support : Support) : Option (Shown × Nat) := do
  let (sstat,pos) ← readPart z file pos b.sstatlen rr.scomplen
  let (tasks,pos) ← readPart z file pos (b.tstatlen*rr.ndeviat.toNat) rr.pcomplen
  let taskall := pieces b.tstatlen rr.ndeviat.toNat tasks
  let procall := taskall.filter b.isproc
  let procactive := taskall.filter (fun t => b.isproc t && !b.wasinactive t)
  let room := if rr.totproc < rr.nactproc then rr.nactproc else rr.totproc
  if procall.length ≤ room.toNat ∧ procactive.length ≤ rr.nactproc.toNat then
    some (⟨rr.curtime,rr.interval,taskall,procall,procactive,taskall.countP (fun t => !b.wasinactive t),
      rr.totrun,rr.totslpi,rr.totslpu,rr.totzomb,sstat,rr.nexit,rr.noverflow,rr.flags.toNat.testBit 0,
      decide (file.length ≤ pos + rawreclen),setSupport ng rr.flags support⟩,pos)
  else none

def follow (secsinday : Nat) (r : Reader) (a : Answer) : Reader :=
  let r := {r with begintime := a.begintime, lastcmd := a.lastcmd}
  if a.lastcmd = msampprev then
    let offcur := if 2 ≤ r.offcur then r.offcur - 2 else 0
    {r with offcur := offcur, pos := r.offlist offcur}
  else if a.lastcmd = mreset then {r with pos := r.offlist 0, offcur := 1}
  else if a.lastcmd = msampbranch ∧ r.begintime ≠ 0 ∧ r.begintime < secsinday then {r with pos := r.offlist 0, offcur := 1}
  else r

def iterate (file : Bytes) (r : Reader) : Outcome :=
  let read := (file.drop r.pos).take rawreclen
  if read.length = rawreclen then
    let rr := getRecord read
    let secsinday := c.daysecs rr.curtime
    let r := {r with offlist := Function.update r.offlist r.offcur r.pos, offcur := r.offcur + 1, pos := r.pos + rawreclen}
    if r.begintime ≠ 0 ∧ secsinday < r.begintime then
      .goOn {r with lastcmd := '\x01', pos := r.pos + (rr.scomplen + rr.pcomplen).toNat}
    else
      let r := {r with begintime := 0}
      if c.endtime ≠ 0 ∧ c.endtime < secsinday then .ended
      else match getSample b z ng file rr r.pos r.support with
      | none => .stopped
      | some (s,pos) => .shown s (follow secsinday {r with pos := pos, support := s.support})
  else
    let offcur := r.offcur - 1
    if r.lastcmd = '\x00' ∨ r.lastcmd = 'q' then .ended
    else .goOn {r with begintime := 0, offcur := offcur, pos := r.offlist offcur}

inductive Finish where
  | ended
  | stopped
  | waiting
  | running
  deriving DecidableEq, Repr

def rawloop (file : Bytes) : Nat → Reader → List Answer → List Shown × Finish
  | 0,_,_ => ([],.running)
  | fuel+1,r,answers =>
    match iterate b z c ng file r with
    | .goOn r => rawloop file fuel r answers
    | .ended => ([],.ended)
    | .stopped => ([],.stopped)
    | .shown s next =>
      match answers with
      | [] => ([s],.waiting)
      | a::rest =>
        let later := rawloop file fuel (next a) rest
        (s::later.1,later.2)

end

structure Globals where
  utsname : Bytes
  support : Support
  osrel : Nat
  osvers : Nat
  ossub : Nat
  hertz : Nat
  pagesize : Nat
  deriving DecidableEq

def takeOver (hertz pagesize : Nat) (rh : RawHeader) : Globals :=
  ⟨rh.utsname,.ofBits rh.supportflags,rh.osrel,rh.osvers,rh.ossub,if rh.hertz ≠ 0 then rh.hertz else hertz,
    if rh.pagesize ≠ 0 then rh.pagesize else pagesize⟩

/- The list of offsets comes from malloc, and only its first entry is set. -/
def startReader (junk : Nat → Nat) (begintime : Nat) (support : Support) : Reader :=
  ⟨rawheadlen,Function.update junk 0 rawheadlen,1,begintime,'X',support⟩

def rawread (b : Build) (z : Zlib) (c : Settings) (junk : Nat → Nat) (hertz pagesize begintime : Nat) (file : Bytes) (fuel : Nat)
    (answers : List Answer) : Option (Globals × List Shown × Finish) := do
  let rh ← checkHeader b file
  let g := takeOver hertz pagesize rh
  some (g,rawloop b z c (isRawlogng g.support) file fuel (startReader junk begintime g.support) answers)

section
variable {b : Build} {z : Zlib} (c : Settings) (entries : List (Entry b z))

def secs (n : Nat) : Nat := ((entries[n]?).map (fun e => c.daysecs e.sample.curtime)).getD 0

def Entry.shown (e : Entry b z) (last : Bool) : Shown :=
  ⟨e.sample.curtime,e.sample.numsecs,e.sample.taskall,e.sample.taskall.filter b.isproc,
    e.sample.taskall.filter (fun t => b.isproc t && !b.wasinactive t),e.sample.taskall.countP (fun t => !b.wasinactive t),
    e.sample.totrun,e.sample.totslpi,e.sample.totslpu,e.sample.totzombie,e.sample.sstat,e.sample.nexit,e.sample.noverflow,
    e.sample.boot,last,e.support⟩

def seek (begintime : Nat) : Nat → Nat → Option Nat
  | 0,_ => none
  | count+1,p => if begintime ≠ 0 ∧ secs c entries p < begintime then seek begintime count (p+1) else some p

/- The next sample to be shown, none at the end of the session. Behind the last sample it is the last one
again, unless the command was to quit. -/
def target (p begintime : Nat) (lastcmd : Char) : Option Nat :=
  let found := match seek c entries begintime (entries.length - p) p with
    | some n => some n
    | none => if p = entries.length ∧ (lastcmd = '\x00' ∨ lastcmd = 'q') then none else some (entries.length - 1)
  found.filter (fun n => !(decide (c.endtime ≠ 0) && decide (c.endtime < secs c entries n)))

def after (n : Nat) (a : Answer) : Nat :=
  if a.lastcmd = msampprev then n - 1
  else if a.lastcmd = mreset then 0
  else if a.lastcmd = msampbranch ∧ a.begintime ≠ 0 ∧ a.begintime < secs c entries n then 0
  else n + 1

def shownAt (n : Nat) : List Shown := ((entries[n]?).map (fun e => Entry.shown e (decide (n + 1 = entries.length)))).toList

def browse : List Answer → Nat → Nat → Char → List Shown × Finish
  | answers,p,begintime,lastcmd =>
    match target c entries p begintime lastcmd with
    | none => ([],.ended)
    | some n =>
      match answers with
      | [] => (shownAt entries n,.waiting)
      | a::rest =>
        let later := browse rest (after c entries n a) a.begintime a.lastcmd
        (shownAt entries n ++ later.1,later.2)

end

section
variable {b : Build} {z : Zlib} {s : System} {entries : List (Entry b z)} {n : Nat} {e : Entry b z} {torn : Bytes}

def offset (b : Build) (s : System) (entries : List (Entry b z)) (n : Nat) : Nat := place (header b s :: entries.map Entry.frame) (n+1)

theorem offsetFirst : offset b s entries 0 = rawheadlen := by
  rw [offset,place,List.take_succ_cons,List.take_zero,List.flatten_cons,List.flatten_nil,List.append_nil,headerLength]

theorem frameHere (here : entries[n]? = some e) : (header b s :: entries.map Entry.frame)[n+1]? = some e.frame := by
  rw [List.getElem?_cons_succ,List.getElem?_map,here]
  rfl

theorem frameLength (e : Entry b z) :
    e.frame.length = rawreclen + ((z.compress e.sample.sstat).length + (z.compress e.sample.taskall.flatten).length) := by
  rw [Entry.frame,List.length_append,recordLength,List.length_append]

theorem offsetNext (here : entries[n]? = some e) :
    offset b s entries (n+1) = offset b s entries n + (rawreclen +
    ((z.compress e.sample.sstat).length + (z.compress e.sample.taskall.flatten).length)) := by
  rw [offset,placeNext (frameHere here),frameLength,offset]

theorem offsetInside (n : Nat) : offset b s entries n ≤ (log b s entries).length := placeInside _ _

theorem dropOffset (here : entries[n]? = some e) :
    (log b s entries ++ torn).drop (offset b s entries n) = e.frame ++ (log b s entries ++ torn).drop (offset b s entries (n+1)) := by
  rw [List.drop_append_of_le_length (offsetInside n),List.drop_append_of_le_length (offsetInside (n+1)),← List.append_assoc]
  exact congrArg (· ++ torn) (dropPiece (frameHere here))

theorem dropEnd : (log b s entries ++ torn).drop (offset b s entries entries.length) = torn := by
  rw [List.drop_append_of_le_length (offsetInside _),log,offset,dropPlace,List.drop_eq_nil_of_le (by simp),List.flatten_nil,List.nil_append]

theorem lastExactly (short : torn.length < rawreclen) (here : entries[n]? = some e) :
    (log b s entries ++ torn).length ≤ offset b s entries (n+1) + rawreclen ↔ n + 1 = entries.length := by
  obtain ⟨inside,-⟩ := List.getElem?_eq_some_iff.mp here
  constructor
  · intro few
    by_contra more
    obtain ⟨f,next⟩ : ∃ f, entries[n+1]? = some f := ⟨_,List.getElem?_eq_getElem (by omega)⟩
    have same : (log b s entries ++ torn).drop (offset b s entries (n+1)) = f.frame ++ (log b s entries ++ torn).drop
      (offset b s entries (n+1+1)) := dropOffset next
    have behind := congrArg List.length same
    have filled := List.length_pos_of_ne_nil (z.nonempty f.sample.sstat)
    simp only [List.length_drop,List.length_append,frameLength] at behind few
    omega
  · intro last
    have rest : ((log b s entries ++ torn).drop (offset b s entries entries.length)).length = torn.length := congrArg List.length dropEnd
    rw [List.length_drop] at rest
    rw [last]
    omega

theorem recordLengths (e : Entry b z) : e.record.scomplen.toNat = (z.compress e.sample.sstat).length ∧
    e.record.pcomplen.toNat = (z.compress e.sample.taskall.flatten).length ∧ e.record.ndeviat.toNat = e.sample.taskall.length ∧
    (e.record.scomplen + e.record.pcomplen).toNat = (z.compress e.sample.sstat).length + (z.compress e.sample.taskall.flatten).length := by
  have sfits := e.sstatFits
  have pfits := e.tasksFit
  have ssmall := b.sstatSmall
  have few := e.sample.few
  have tasks : e.sample.taskall.length ≤ b.tstatlen*e.sample.taskall.length := Nat.le_mul_of_pos_left _ b.tstatSmall.1
  have first : e.record.scomplen.toNat = (z.compress e.sample.sstat).length := by
    rw [Entry.record,rawRecord,UInt32.toNat_ofNat']
    exact Nat.mod_eq_of_lt (by omega)
  have second : e.record.pcomplen.toNat = (z.compress e.sample.taskall.flatten).length := by
    rw [Entry.record,rawRecord,UInt32.toNat_ofNat']
    exact Nat.mod_eq_of_lt (by omega)
  have third : e.record.ndeviat.toNat = e.sample.taskall.length := by
    rw [Entry.record,rawRecord,UInt32.toNat_ofNat']
    exact Nat.mod_eq_of_lt (by omega)
  refine ⟨first,second,third,?_⟩
  rw [UInt32.toNat_add,first,second]
  exact Nat.mod_eq_of_lt (by omega)

theorem readPartAt {file : Bytes} {pos room : Nat} {complen : UInt32} {x : Bytes} {behind : Bytes}
    (there : file.drop pos = z.compress x ++ behind)
    (length : complen.toNat = (z.compress x).length) (fits : x.length ≤ room) :
    readPart z file pos room complen = some (x,pos + (z.compress x).length) := by
  have read : (file.drop pos).take complen.toNat = z.compress x := by rw [there,length,List.take_left]
  have whole : outOf z room (z.compress x) = some x := by
    rw [outOf,z.inverse]
    simp [Option.filter,fits]
  rw [readPart,read,length]
  simp only [lt_irrefl,if_false,whole,Option.map_some]

theorem setSupportFlags (e : Entry b z) (support : Support) :
    e.record.flags.toNat.testBit 0 = e.sample.boot ∧ setSupport true e.record.flags support = e.support := by
  obtain ⟨small,boot,same⟩ := sampleFlagBits e.sample.boot e.support
  have flags : e.record.flags.toNat = sampleFlags e.sample.boot e.support := by
    rw [Entry.record,rawRecord,UInt16.toNat_ofNat']
    exact Nat.mod_eq_of_lt (by omega)
  exact ⟨by rw [flags,boot],by simp only [setSupport,flags,if_true]; exact same⟩

theorem getSampleAt (short : torn.length < rawreclen) (here : entries[n]? = some e) (support : Support) :
    getSample b z true (log b s entries ++ torn) e.record (offset b s entries n + rawreclen) support =
      some (Entry.shown e (decide (n + 1 = entries.length)),offset b s entries (n+1)) := by
  obtain ⟨scomplen,pcomplen,ndeviat,-⟩ := recordLengths e
  obtain ⟨boot,same⟩ := setSupportFlags e support
  have behind : (log b s entries ++ torn).drop (offset b s entries n + rawreclen) =
      z.compress e.sample.sstat ++ (z.compress e.sample.taskall.flatten ++ (log b s entries ++ torn).drop (offset b s entries (n+1))) := by
    rw [← List.drop_drop,dropOffset here,Entry.frame,List.append_assoc,List.append_assoc]
    exact List.drop_left' (recordLength _)
  have further : (log b s entries ++ torn).drop (offset b s entries n + rawreclen + (z.compress e.sample.sstat).length) =
      z.compress e.sample.taskall.flatten ++ (log b s entries ++ torn).drop (offset b s entries (n+1)) := by
    rw [← List.drop_drop,behind]
    exact List.drop_left
  have end_ : offset b s entries n + rawreclen + (z.compress e.sample.sstat).length + (z.compress e.sample.taskall.flatten).length =
      offset b s entries (n+1) := by
    rw [offsetNext here]
    omega
  have size : e.sample.taskall.flatten.length = b.tstatlen*e.sample.taskall.length := flattenLength e.sample.tasksWhole
  have tasks : pieces b.tstatlen e.sample.taskall.length e.sample.taskall.flatten = e.sample.taskall := piecesFlatten e.sample.tasksWhole
  have room : e.sample.nprocall.toNat ≤ (if e.record.totproc < e.record.nactproc then e.record.nactproc else e.record.totproc).toNat := by
    split
    · rename_i less
      exact (UInt32.lt_iff_toNat_lt.mp less).le
    · exact le_rfl
  have lists : (e.sample.taskall.filter b.isproc).length ≤
        (if e.record.totproc < e.record.nactproc then e.record.nactproc else e.record.totproc).toNat ∧
      (e.sample.taskall.filter (fun t => b.isproc t && !b.wasinactive t)).length ≤ e.record.nactproc.toNat := by
    rw [← List.countP_eq_length_filter,← List.countP_eq_length_filter]
    exact ⟨e.sample.processes.trans room,e.sample.active⟩
  simp only [getSample,readPartAt behind scomplen e.sample.sstatWhole.le,ndeviat,readPartAt further pcomplen size.le,tasks,bind,Option.bind_some,
    if_pos lists,boot,same,end_,lastExactly short here]
  rfl

end

def Kept (place : Nat → Nat) (offlist : Nat → Nat) (offcur p d : Nat) : Prop :=
  d ≤ 1 ∧ offcur = p + d ∧ (∀ i < p, offlist (i + d) = place i) ∧ (d = 1 → offlist 0 = place 0)

section
variable {place offlist : Nat → Nat} {offcur p d : Nat}

theorem keptRead (kept : Kept place offlist offcur p d) : Kept place (Function.update offlist offcur (place p)) (offcur + 1) (p + 1) d := by
  obtain ⟨small,rfl,old,first⟩ := kept
  refine ⟨small,by omega,fun i below => ?_,fun one => ?_⟩
  · by_cases here : i = p
    · subst here
      exact Function.update_self _ _ _
    · rw [Function.update_of_ne (by omega),old i (by omega)]
  · rw [Function.update_of_ne (by omega),first one]

theorem keptFirst (kept : Kept place offlist offcur (p + 1) d) : offlist 0 = place 0 := by
  obtain ⟨small,-,old,first⟩ := kept
  by_cases one : d = 1
  · exact first one
  · have none_ : d = 0 := by omega
    subst none_
    exact old 0 (by omega)

theorem keptReset (kept : Kept place offlist offcur (p + 1) d) : Kept place offlist 1 0 1 :=
  ⟨le_rfl,rfl,fun i below => absurd below (Nat.not_lt_zero i),fun _ => keptFirst kept⟩

theorem keptPrev (kept : Kept place offlist offcur (p + 1) d) :
    offlist (if 2 ≤ offcur then offcur - 2 else 0) = place (p - 1) ∧ ∃ d, Kept place offlist (if 2 ≤ offcur then offcur - 2 else 0)
    (p - 1) d := by
  have begin_ := keptFirst kept
  obtain ⟨small,rfl,old,first⟩ := kept
  cases p with
  | zero =>
    have zero : (if 2 ≤ 0 + 1 + d then 0 + 1 + d - 2 else 0) = 0 := by split <;> omega
    rw [zero]
    exact ⟨begin_,0,Nat.zero_le 1,rfl,fun i below => absurd below (Nat.not_lt_zero i),fun one => absurd one (by decide)⟩
  | succ p =>
    have back : (if 2 ≤ p + 1 + 1 + d then p + 1 + 1 + d - 2 else 0) = p + d := by split <;> omega
    rw [back]
    exact ⟨old p (by omega),d,small,rfl,fun i below => old i (by simp only [Nat.add_sub_cancel] at below; omega),first⟩

theorem keptEnd (kept : Kept place offlist offcur (p + 1) d) : offlist (offcur - 1) = place p ∧ Kept place offlist (offcur - 1) p d := by
  obtain ⟨small,rfl,old,first⟩ := kept
  have back : p + 1 + d - 1 = p + d := by omega
  rw [back]
  exact ⟨old p (by omega),small,rfl,fun i below => old i (by omega),first⟩

end

structure Tracks {b : Build} {z : Zlib} (s : System) (entries : List (Entry b z)) (r : Reader) (p begintime : Nat) (lastcmd : Char) : Prop where
  pos : r.pos = offset b s entries p
  inside : p ≤ entries.length
  begintime : r.begintime = begintime
  lastcmd : r.lastcmd = lastcmd
  kept : ∃ d, Kept (offset b s entries) r.offlist r.offcur p d

section
variable {b : Build} {z : Zlib} {c : Settings} {s : System} {entries : List (Entry b z)} {r : Reader} {p begintime : Nat} {lastcmd : Char}
  {torn : Bytes}

theorem secsHere {e : Entry b z} (here : entries[p]? = some e) : secs c entries p = c.daysecs e.sample.curtime := by
  rw [secs,here]
  rfl

theorem readHere {e : Entry b z} (here : entries[p]? = some e) :
    ((log b s entries ++ torn).drop (offset b s entries p)).take rawreclen = pack e.record.fields := by
  rw [dropOffset here,Entry.frame,List.append_assoc]
  exact List.take_left' (recordLength _)

theorem getRecordHere (e : Entry b z) : getRecord (pack e.record.fields) = e.record := by
  have whole := getRecordPack e.record []
  rwa [List.append_nil] at whole

theorem recordTime (e : Entry b z) : e.record.curtime = e.sample.curtime := rfl

theorem iterateSkip (tracks : Tracks s entries r p begintime lastcmd) (more : p < entries.length)
    (early : begintime ≠ 0 ∧ secs c entries p < begintime) :
    ∃ u, iterate b z c true (log b s entries ++ torn) r = .goOn u ∧ Tracks s entries u (p+1) begintime '\x01' := by
  obtain ⟨pos,-,rfl,-,d,kept⟩ := tracks
  have here := List.getElem?_eq_getElem more
  obtain ⟨-,-,-,lengths⟩ := recordLengths entries[p]
  have keeps := keptRead kept
  rw [secsHere here] at early
  simp only [iterate,pos,readHere here,recordLength,if_true,getRecordHere,recordTime,if_pos early]
  refine ⟨_,rfl,?_,more,rfl,rfl,d,keeps⟩
  dsimp only
  rw [lengths,offsetNext here,Nat.add_assoc]

theorem iterateShow (short : torn.length < rawreclen) (tracks : Tracks s entries r p begintime lastcmd) (more : p < entries.length)
    (late : ¬ (begintime ≠ 0 ∧ secs c entries p < begintime)) :
    if c.endtime ≠ 0 ∧ c.endtime < secs c entries p then iterate b z c true (log b s entries ++ torn) r = .ended
    else ∃ next, iterate b z c true (log b s entries ++ torn) r = .shown (Entry.shown entries[p] (decide (p + 1 = entries.length))) next ∧
      ∀ a, Tracks s entries (next a) (after c entries p a) a.begintime a.lastcmd := by
  obtain ⟨pos,-,rfl,-,d,kept⟩ := tracks
  have here := List.getElem?_eq_getElem more
  have keeps := keptRead kept
  rw [secsHere here] at late ⊢
  by_cases past : c.endtime ≠ 0 ∧ c.endtime < c.daysecs entries[p].sample.curtime
  · rw [if_pos past]
    simp only [iterate,pos,readHere here,recordLength,if_true,getRecordHere,recordTime,if_neg late,if_pos past]
  · rw [if_neg past]
    simp only [iterate,pos,readHere here,recordLength,if_true,getRecordHere,recordTime,if_neg late,if_neg past,getSampleAt short here]
    refine ⟨_,rfl,fun a => ?_⟩
    by_cases prev : a.lastcmd = msampprev
    · obtain ⟨at_,back⟩ := keptPrev keeps
      simp only [follow,after,if_pos prev]
      exact ⟨at_,by omega,rfl,rfl,back⟩
    · by_cases reset : a.lastcmd = mreset
      · simp only [follow,after,if_neg prev,if_pos reset]
        exact ⟨keptFirst keeps,Nat.zero_le _,rfl,rfl,1,keptReset keeps⟩
      · by_cases branch : a.lastcmd = msampbranch ∧ a.begintime ≠ 0 ∧ a.begintime < c.daysecs entries[p].sample.curtime
        · simp only [follow,after,secsHere here,if_neg prev,if_neg reset,if_pos branch]
          exact ⟨keptFirst keeps,Nat.zero_le _,rfl,rfl,1,keptReset keeps⟩
        · simp only [follow,after,secsHere here,if_neg prev,if_neg reset,if_neg branch]
          exact ⟨rfl,more,rfl,rfl,d,keeps⟩

theorem iterateEnd (short : torn.length < rawreclen) (tracks : Tracks s entries r entries.length begintime lastcmd) (some_ : entries ≠ []) :
    if lastcmd = '\x00' ∨ lastcmd = 'q' then iterate b z c true (log b s entries ++ torn) r = .ended
    else ∃ u, iterate b z c true (log b s entries ++ torn) r = .goOn u ∧ Tracks s entries u (entries.length - 1) 0 lastcmd := by
  obtain ⟨pos,-,-,rfl,d,kept⟩ := tracks
  have count : entries.length = (entries.length - 1) + 1 := by have := List.length_pos_of_ne_nil some_; omega
  have nothing : ¬ (torn.take rawreclen).length = rawreclen := by
    rw [List.length_take]
    omega
  rw [count] at kept
  obtain ⟨at_,keeps⟩ := keptEnd kept
  simp only [iterate,pos,dropEnd,if_neg nothing]
  split
  · rfl
  · exact ⟨_,rfl,at_,by omega,rfl,rfl,d,keeps⟩

theorem loopSkip {file : Bytes} {u : Reader} (went : iterate b z c true file r = .goOn u) (fuel : Nat) (answers : List Answer) :
    rawloop b z c true file (fuel+1) r answers = rawloop b z c true file fuel u answers := by
  rw [rawloop,went]

theorem seekReach (count : Nat) (tracks : Tracks s entries r p begintime lastcmd) (left : count = entries.length - p) :
    ∃ steps u, (∀ fuel answers, rawloop b z c true (log b s entries ++ torn) (fuel + steps) r answers =
    rawloop b z c true (log b s entries ++ torn) fuel u answers) ∧
      match seek c entries begintime count p with
      | some n => n < entries.length ∧ ¬ (begintime ≠ 0 ∧ secs c entries n < begintime) ∧ ∃ lastcmd, Tracks s entries u n begintime lastcmd
      | none => Tracks s entries u entries.length begintime (if p = entries.length then lastcmd else '\x01') := by
  induction count generalizing r p lastcmd with
  | zero =>
    have atEnd : p = entries.length := by have := tracks.inside; omega
    refine ⟨0,r,fun _ _ => rfl,?_⟩
    rw [seek,if_pos atEnd]
    subst atEnd
    exact tracks
  | succ count ih =>
    have more : p < entries.length := by omega
    by_cases early : begintime ≠ 0 ∧ secs c entries p < begintime
    · obtain ⟨v,went,tracks'⟩ := iterateSkip tracks more early
      obtain ⟨steps,u,same,reached⟩ := ih tracks' (by omega)
      refine ⟨steps+1,u,fun fuel answers => (loopSkip went _ _).trans (same fuel answers),?_⟩
      rw [seek,if_pos early]
      rw [ite_self] at reached
      rwa [if_neg more.ne]
    · refine ⟨0,r,fun _ _ => rfl,?_⟩
      rw [seek,if_neg early]
      exact ⟨more,early,lastcmd,tracks⟩

theorem targetReach (short : torn.length < rawreclen) (some_ : entries ≠ []) (tracks : Tracks s entries r p begintime lastcmd) :
    ∃ steps u, (∀ fuel answers, rawloop b z c true (log b s entries ++ torn) (fuel + steps) r answers =
    rawloop b z c true (log b s entries ++ torn) fuel u answers) ∧
      match target c entries p begintime lastcmd with
      | none => iterate b z c true (log b s entries ++ torn) u = .ended
      | some n => ∃ e, entries[n]? = some e ∧ ∃ next, iterate b z c true (log b s entries ++ torn) u =
        .shown (Entry.shown e (decide (n + 1 = entries.length))) next ∧
        ∀ a, Tracks s entries (next a) (after c entries n a) a.begintime a.lastcmd := by
  have decided : ∀ {u n begintime lastcmd}, Tracks s entries u n begintime lastcmd → n < entries.length →
    ¬ (begintime ≠ 0 ∧ secs c entries n < begintime) →
      match (some n).filter (fun n => !(decide (c.endtime ≠ 0) && decide (c.endtime < secs c entries n))) with
      | none => iterate b z c true (log b s entries ++ torn) u = .ended
      | some n => ∃ e, entries[n]? = some e ∧ ∃ next, iterate b z c true (log b s entries ++ torn) u =
        .shown (Entry.shown e (decide (n + 1 = entries.length))) next ∧
        ∀ a, Tracks s entries (next a) (after c entries n a) a.begintime a.lastcmd := by
    intro u n begintime lastcmd tracks more late
    have shows := iterateShow (c := c) short tracks more late
    by_cases past : c.endtime ≠ 0 ∧ c.endtime < secs c entries n
    · rw [if_pos past] at shows
      simpa [Option.filter,past] using shows
    · rw [if_neg past] at shows
      have kept : (some n).filter (fun n => !(decide (c.endtime ≠ 0) && decide (c.endtime < secs c entries n))) = some n := by
        simp only [Option.filter,← Bool.decide_and,decide_eq_false past,Bool.not_false,if_true]
      rw [kept]
      exact ⟨entries[n],List.getElem?_eq_getElem more,shows⟩
  obtain ⟨steps,u,same,reached⟩ := seekReach (c := c) _ tracks rfl
  cases found : seek c entries begintime (entries.length - p) p with
  | some n =>
    rw [found] at reached
    obtain ⟨more,late,_,tracks'⟩ := reached
    refine ⟨steps,u,same,?_⟩
    simp only [target,found]
    exact decided tracks' more late
  | none =>
    rw [found] at reached
    have ends := iterateEnd (c := c) short reached some_
    by_cases quits : p = entries.length ∧ (lastcmd = '\x00' ∨ lastcmd = 'q')
    · rw [if_pos quits.1,if_pos quits.2] at ends
      refine ⟨steps,u,same,?_⟩
      simp only [target,found,if_pos quits]
      exact ends
    · have goes : ¬ ((if p = entries.length then lastcmd else '\x01') = '\x00' ∨ (if p = entries.length then lastcmd else '\x01') = 'q') := by
        by_cases atEnd : p = entries.length
        · simp only [if_pos atEnd]
          exact fun quit => quits ⟨atEnd,quit⟩
        · simp only [if_neg atEnd]
          decide
      rw [if_neg goes] at ends
      obtain ⟨v,went,tracks'⟩ := ends
      refine ⟨1 + steps,v,fun fuel answers => ?_,?_⟩
      · rw [← Nat.add_assoc,same,loopSkip went]
      · simp only [target,found,if_neg quits]
        exact decided tracks' (by have := List.length_pos_of_ne_nil some_; omega) (fun early => early.1 rfl)

theorem loopBrowse (short : torn.length < rawreclen) (some_ : entries ≠ []) (answers : List Answer)
    (tracks : Tracks s entries r p begintime lastcmd) :
    ∃ enough, ∀ fuel, rawloop b z c true (log b s entries ++ torn) (fuel + enough) r answers = browse c entries answers p begintime lastcmd := by
  induction answers generalizing r p begintime lastcmd with
  | nil =>
    obtain ⟨steps,u,same,reached⟩ := targetReach (c := c) short some_ tracks
    refine ⟨1 + steps,fun fuel => ?_⟩
    rw [← Nat.add_assoc,same,rawloop,browse]
    cases found : target c entries p begintime lastcmd with
    | none =>
      rw [found] at reached
      rw [reached]
    | some n =>
      rw [found] at reached
      obtain ⟨e,here,next,shows,-⟩ := reached
      simp only [shows,shownAt,here,Option.map_some,Option.toList_some]
  | cons a rest ih =>
    obtain ⟨steps,u,same,reached⟩ := targetReach (c := c) short some_ tracks
    cases found : target c entries p begintime lastcmd with
    | none =>
      rw [found] at reached
      refine ⟨1 + steps,fun fuel => ?_⟩
      rw [← Nat.add_assoc,same,rawloop,browse,reached,found]
    | some n =>
      rw [found] at reached
      obtain ⟨e,here,next,shows,later⟩ := reached
      obtain ⟨enough,goesOn⟩ := ih (later a)
      refine ⟨enough + 1 + steps,fun fuel => ?_⟩
      rw [← Nat.add_assoc,same,← Nat.add_assoc,rawloop,browse,found]
      simp only [shows,shownAt,here,Option.map_some,Option.toList_some,goesOn,List.singleton_append]

end

def zeros : Bytes := List.replicate 40 0
def marked : Bytes := 1 :: List.replicate 39 0
def zerosOut : Bytes := [120,156,99,96,32,14,0,0,0,40,0,1]
def markedOut : Bytes := [120,156,99,100,32,14,0,0,0,80,0,2]

def zlib : Zlib where
  compress x := if x = zeros then zerosOut else if x = marked then markedOut else 0::x
  uncompress y := if y = zerosOut then some zeros else if y = markedOut then some marked else if y.head? = some 0 then some y.tail else none
  inverse x := by
    by_cases first : x = zeros
    · rw [if_pos first,if_pos rfl,first]
    · by_cases second : x = marked
      · rw [if_neg first,if_pos second,if_neg (by decide),if_pos rfl,second]
      · rw [if_neg first,if_neg second,if_neg (by simp [zerosOut]),if_neg (by simp [markedOut])]
        rfl
  nonempty x := by
    split
    · decide
    · split
      · decide
      · exact List.cons_ne_nil 0 x

def build : Build := ⟨40,20,0x203,fun t => t.head? = some 1,fun _ => false,by decide,by decide,by decide⟩
def system : System := ⟨100,List.replicate 390 0,4096,⟨true,false,false,false,false⟩,4,15,0,List.length_replicate⟩
def sampleAt (time : UInt64) : Sample build :=
  ⟨time,600,[1 :: List.replicate 19 0,List.replicate 20 0],1,1,1,1,0,0,zeros,0,0,false,by decide,by decide,by decide,by decide,by decide⟩

def settings : Settings := ⟨0,fun time => time.toNat % 86400⟩
def callAt (time : UInt64) (failing : Option (Fin 3)) : Write build :=
  ⟨sampleAt time,system,fun i => if some i = failing then .failed else .whole⟩
def written : Write build := callAt 600 none
def later : List (List (Write build)) := [[callAt 1800 none,callAt 2400 none]]
def failed : Write build := callAt 600 (some 1)

theorem callUncut (time : UInt64) (failing : Option (Fin 3)) : (callAt time failing).Uncut := by
  intro i n cut
  unfold callAt at cut
  dsimp only at cut
  split at cut <;> cases cut

theorem writtenUncut : ∀ program ∈ [written,callAt 1200 (some 2)]::later, ∀ x ∈ program, x.Uncut := by
  simp only [later,List.forall_mem_cons]
  simp [written,callUncut]

theorem writtenThree : (([written,callAt 1200 (some 2)]::later).flatMap (made zlib)).length = 3 := by decide +kernel

theorem writtenSome : ([written,callAt 1200 (some 2)]::later).flatMap (made zlib) ≠ [] := fun none_ => by
  have three := writtenThree
  rw [none_] at three
  cases three

section
variable {b : Build} {z : Zlib} {torn : Bytes}

def takenOver (hertz pagesize : Nat) (s : System) : Globals :=
  ⟨s.utsname,rawlogng s.support,s.osrel.toNat,s.osvers.toNat,s.ossub.toNat,if s.hertz.toNat ≠ 0 then s.hertz.toNat else hertz,
    if s.pagesize.toNat ≠ 0 then s.pagesize.toNat else pagesize⟩

theorem rawreadLog (c : Settings) (junk : Nat → Nat) (hertz pagesize begintime : Nat) (s : System) (entries : List (Entry b z)) (fuel : Nat)
    (answers : List Answer) : rawread b z c junk hertz pagesize begintime (log b s entries ++ torn) fuel answers =
      some (takenOver hertz pagesize s,
        rawloop b z c true (log b s entries ++ torn) fuel (startReader junk begintime (rawlogng s.support)) answers) := by
  have support := (supportBits (rawlogng s.support)).2
  have whole : log b s entries ++ torn = header b s ++ ((entries.map Entry.frame).flatten ++ torn) := by rw [logHeader,List.append_assoc]
  rw [rawread,whole,checkHeaderPack]
  simp only [bind,Option.bind_some,getHeaderPack,takeOver,takenOver,support]
  rfl

theorem startFirst (junk : Nat → Nat) (begintime : Nat) (support : Support) : (startReader junk begintime support).offlist 0 = rawheadlen := by
  simp [startReader]

theorem readsLog (c : Settings) (junk : Nat → Nat) (hertz pagesize begintime : Nat) (s : System) {entries : List (Entry b z)}
    (short : torn.length < rawreclen) (some_ : entries ≠ []) (answers : List Answer) :
    ∃ enough, ∀ fuel, rawread b z c junk hertz pagesize begintime (log b s entries ++ torn) (fuel + enough) answers =
      some (takenOver hertz pagesize s,browse c entries answers 0 begintime 'X') := by
  have tracks : Tracks s entries (startReader junk begintime (rawlogng s.support)) 0 begintime 'X' :=
    ⟨offsetFirst.symm,Nat.zero_le _,rfl,rfl,1,le_rfl,rfl,fun i below => absurd below (Nat.not_lt_zero i),
      fun _ => (startFirst junk begintime _).trans offsetFirst.symm⟩
  obtain ⟨enough,shows⟩ := loopBrowse (c := c) short some_ answers tracks
  exact ⟨enough,fun fuel => by rw [rawreadLog,shows]⟩

theorem readsWrites (c : Settings) (junk : Nat → Nat) (hertz pagesize begintime : Nat) (w : Write b) (calls : List (Write b))
    (programs : List (List (Write b))) (uncut : ∀ program ∈ (w::calls)::programs, ∀ x ∈ program, x.Uncut) (short : torn.length < rawreclen)
    (some_ : ((w::calls)::programs).flatMap (made z) ≠ []) (answers : List Answer) :
    ∃ file, runPrograms z none ((w::calls)::programs) = some file ∧ ∃ enough, ∀ fuel,
      rawread b z c junk hertz pagesize begintime (file ++ torn) (fuel + enough) answers =
        some (takenOver hertz pagesize w.system,browse c (((w::calls)::programs).flatMap (made z)) answers 0 begintime 'X') :=
  ⟨_,writesLog uncut,readsLog c junk hertz pagesize begintime w.system short some_ answers⟩

theorem readsWritesThree : ∃ file, runPrograms zlib none ([written,callAt 1200 (some 2)]::later) = some file ∧ ∃ enough, ∀ fuel,
    rawread build zlib settings (fun _ => 5) 0 0 0 (file ++ [7,7]) (fuel + enough) [⟨'t',0⟩,⟨'T',0⟩,⟨'b',900⟩] = some (takenOver 0 0 system,
      browse settings (([written,callAt 1200 (some 2)]::later).flatMap (made zlib)) [⟨'t',0⟩,⟨'T',0⟩,⟨'b',900⟩] 0 0 'X') :=
  readsWrites settings _ 0 0 0 written [callAt 1200 (some 2)] later writtenUncut (by decide) writtenSome _

theorem headerOnlyHangs (c : Settings) (junk : Nat → Nat) (hertz pagesize begintime : Nat) (w : Write b) (calls : List (Write b))
    (programs : List (List (Write b))) (uncut : ∀ program ∈ (w::calls)::programs, ∀ x ∈ program, x.Uncut) (short : torn.length < rawreclen)
    (none_ : ((w::calls)::programs).flatMap (made z) = []) (answers : List Answer) :
    ∃ file, runPrograms z none ((w::calls)::programs) = some file ∧ ∀ fuel,
      rawread b z c junk hertz pagesize begintime (file ++ torn) fuel answers = some (takenOver hertz pagesize w.system,[],.running) := by
  have nothing : ¬ (torn.take rawreclen).length = rawreclen := by
    rw [List.length_take]
    omega
  have file : (log b w.system ([] : List (Entry b z)) ++ torn).drop rawheadlen = torn := by
    rw [← show offset b w.system ([] : List (Entry b z)) 0 = rawheadlen from offsetFirst]
    exact dropEnd
  have stays : ∀ fuel (r : Reader), r.pos = rawheadlen → r.offlist 0 = rawheadlen → r.offcur ≤ 1 → r.lastcmd = 'X' →
      rawloop b z c true (log b w.system ([] : List (Entry b z)) ++ torn) fuel r answers = ([],.running) := by
    intro fuel
    induction fuel with
    | zero => exact fun _ _ _ _ _ => rfl
    | succ fuel ih =>
      intro r pos first one last
      have zero : r.offcur - 1 = 0 := by omega
      have again : iterate b z c true (log b w.system ([] : List (Entry b z)) ++ torn) r =
          .goOn {r with begintime := 0, offcur := 0, pos := r.offlist 0} := by
        simp only [iterate,pos,file,if_neg nothing,last,zero]
        exact if_neg (by decide)
      rw [loopSkip again]
      exact ih _ first first (Nat.zero_le 1) last
  refine ⟨_,(writesLog uncut).trans (by rw [none_]),fun fuel => ?_⟩
  rw [rawreadLog,stays fuel _ rfl (startFirst junk begintime _) le_rfl rfl]

theorem headerOnlyHangsFailed : ∃ file, runPrograms zlib none [[failed],[failed,written]] = some file ∧ ∀ fuel,
    rawread build zlib settings (fun _ => 5) 0 0 0 (file ++ []) fuel [⟨'q',0⟩] = some (takenOver 0 0 system,[],.running) :=
  headerOnlyHangs settings _ 0 0 0 failed [] [[failed,written]] (by simp [failed,written,callUncut]) (by decide) rfl _

theorem seekInside {c : Settings} {entries : List (Entry b z)} {begintime count p n : Nat} (found : seek c entries begintime count p = some n)
    (whole : p + count = entries.length) : n < entries.length := by
  induction count generalizing p with
  | zero => cases found
  | succ count ih =>
    rw [seek] at found
    split at found
    · exact ih found (by omega)
    · cases Option.some.inj found
      omega

def quiet : Answer := ⟨'\x00',0⟩

def inTime (c : Settings) (entries : List (Entry b z)) (n : Nat) : Bool := !(decide (c.endtime ≠ 0) && decide (c.endtime < secs c entries n))

theorem targetForward (c : Settings) (entries : List (Entry b z)) {p : Nat} (more : p < entries.length) (lastcmd : Char) :
    target c entries p 0 lastcmd = if inTime c entries p then some p else none := by
  obtain ⟨count,eq⟩ : ∃ count, entries.length - p = count + 1 := ⟨entries.length - p - 1,by omega⟩
  rw [target,eq,seek,if_neg (fun early => early.1 rfl)]
  rfl

theorem afterQuiet (c : Settings) (entries : List (Entry b z)) (n : Nat) : after c entries n quiet = n + 1 := by
  rw [after,if_neg (by decide),if_neg (by decide),if_neg (fun branch => absurd branch.1 (by decide))]

theorem browseForward (c : Settings) (entries : List (Entry b z)) (k p : Nat) (inside : p ≤ entries.length) (enough : entries.length - p ≤ k) :
    browse c entries (List.replicate k quiet) p 0 '\x00' =
      (((List.range' p (entries.length - p)).takeWhile (inTime c entries)).flatMap (shownAt entries),.ended) := by
  induction k generalizing p with
  | zero =>
    have atEnd : p = entries.length := by omega
    subst atEnd
    rw [browse]
    simp [target,seek]
  | succ k ih =>
    by_cases more : p < entries.length
    · obtain ⟨count,eq⟩ : ∃ count, entries.length - p = count + 1 := ⟨entries.length - p - 1,by omega⟩
      rw [browse,targetForward c entries more,eq,List.range'_succ]
      cases time : inTime c entries p with
      | false => simp [time]
      | true =>
        have later := ih (p+1) more (by omega)
        have fewer : entries.length - (p+1) = count := by omega
        rw [fewer] at later
        rw [List.takeWhile_cons_of_pos time,List.flatMap_cons,if_pos rfl]
        simp only [List.replicate_succ,afterQuiet]
        rw [show quiet.begintime = 0 from rfl,show quiet.lastcmd = '\x00' from rfl,later]
    · have atEnd : p = entries.length := by omega
      subst atEnd
      rw [browse]
      simp [target,seek]

theorem browseOnce (c : Settings) (entries : List (Entry b z)) (some_ : entries ≠ []) (begintime k : Nat) (enough : entries.length ≤ k) :
    browse c entries (List.replicate k quiet) 0 begintime 'X' =
      (((List.range' ((seek c entries begintime entries.length 0).getD (entries.length - 1))
        (entries.length - (seek c entries begintime entries.length 0).getD (entries.length - 1))).takeWhile (inTime c entries)).flatMap
          (shownAt entries),.ended) := by
  have positive := List.length_pos_of_ne_nil some_
  obtain ⟨q,first,more⟩ : ∃ q, (seek c entries begintime entries.length 0).getD (entries.length - 1) = q ∧ q < entries.length := by
    refine ⟨_,rfl,?_⟩
    cases found : seek c entries begintime entries.length 0 with
    | none => exact Nat.sub_lt positive Nat.one_pos
    | some n => exact seekInside found (Nat.zero_add _)
  have target_ : target c entries 0 begintime 'X' = if inTime c entries q then some q else none := by
    have away : ¬ (0 = entries.length ∧ ('X' = '\x00' ∨ 'X' = 'q')) := fun both => absurd both.1 positive.ne
    rw [← first,target,Nat.sub_zero]
    cases seek c entries begintime entries.length 0 with
    | none =>
      simp only [if_neg away]
      rfl
    | some n => rfl
  obtain ⟨j,rfl⟩ : ∃ j, k = j + 1 := ⟨k - 1,by omega⟩
  obtain ⟨count,eq⟩ : ∃ count, entries.length - q = count + 1 := ⟨entries.length - q - 1,by omega⟩
  rw [first,browse,target_,eq,List.range'_succ]
  cases time : inTime c entries q with
  | false => simp [time]
  | true =>
    have later := browseForward c entries j (q+1) more (by omega)
    have fewer : entries.length - (q+1) = count := by omega
    rw [fewer] at later
    rw [List.takeWhile_cons_of_pos time,List.flatMap_cons,if_pos rfl]
    simp only [List.replicate_succ,afterQuiet]
    rw [show quiet.begintime = 0 from rfl,show quiet.lastcmd = '\x00' from rfl,later]

theorem printsOnce (c : Settings) (junk : Nat → Nat) (hertz pagesize begintime : Nat) (w : Write b) (calls : List (Write b))
    (programs : List (List (Write b))) (uncut : ∀ program ∈ (w::calls)::programs, ∀ x ∈ program, x.Uncut) (short : torn.length < rawreclen)
    (some_ : ((w::calls)::programs).flatMap (made z) ≠ []) (k : Nat) (enough : (((w::calls)::programs).flatMap (made z)).length ≤ k) :
    ∃ file, runPrograms z none ((w::calls)::programs) = some file ∧ ∃ enough, ∀ fuel,
      let entries := ((w::calls)::programs).flatMap (made z)
      let q := (seek c entries begintime entries.length 0).getD (entries.length - 1)
      rawread b z c junk hertz pagesize begintime (file ++ torn) (fuel + enough) (List.replicate k quiet) =
        some (takenOver hertz pagesize w.system,
          ((List.range' q (entries.length - q)).takeWhile (inTime c entries)).flatMap (shownAt entries),.ended) := by
  obtain ⟨fuel,shows⟩ := readsLog c junk hertz pagesize begintime w.system short some_ (List.replicate k quiet)
  exact ⟨_,writesLog uncut,fuel,fun more => (shows more).trans (by rw [browseOnce c _ some_ begintime k enough])⟩

theorem printsOnceThree : ∃ file, runPrograms zlib none ([written,callAt 1200 (some 2)]::later) = some file ∧ ∃ enough, ∀ fuel,
    let entries := ([written,callAt 1200 (some 2)]::later).flatMap (made zlib)
    let q := (seek settings entries 900 entries.length 0).getD (entries.length - 1)
    rawread build zlib settings (fun _ => 5) 0 0 900 (file ++ [7,7]) (fuel + enough) (List.replicate 3 quiet) = some (takenOver 0 0 system,
      ((List.range' q (entries.length - q)).takeWhile (inTime settings entries)).flatMap (shownAt entries),.ended) :=
  printsOnce settings _ 0 0 900 written [callAt 1200 (some 2)] later writtenUncut (by decide) writtenSome 3 writtenThree.le

end

end PracticeSuite.RawReader
