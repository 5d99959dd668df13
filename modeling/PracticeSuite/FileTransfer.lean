import Mathlib
import PracticeSuite.Trace

/-! The loops that move a file over a TCP connection, 100 bytes at a time: the
server reads and writes to the socket, the client receives and writes to the
output file. Both compute a count of bytes written and neither looks at it. The
system decides how every call splits the bytes and in which order the two loops
advance. -/
namespace PracticeSuite.FileTransfer

abbrev Byte := UInt8

def bufferSize : Nat := 100

/- `buf` is the part of the buffer that the last read or recv filled. -/
inductive Server where
  | reading
  | writing (buf : List Byte)
  | finished
  | failed
  deriving DecidableEq, Repr

inductive Client where
  | receiving
  | writing (buf : List Byte)
  | finished
  | failed
  deriving DecidableEq, Repr

structure Transfer where
  source : List Byte
  server : Server
  stream : List Byte
  client : Client
  output : List Byte
  deriving DecidableEq, Repr

def initial (file : List Byte) : Transfer := ⟨file,.reading,[],.receiving,[]⟩

inductive Call where
  | read (n : Nat)
  | send (n s : Nat)
  | sendError
  | recv (rec : Nat)
  | recvError
  | store (rec w : Nat)
  deriving DecidableEq, Repr

def closed : Server → Bool
  | .finished => true
  | .failed => true
  | _ => false

/- A read or recv returns 0 only at the end; a write is repeated for nothing that
it did not accept. -/
def step (t : Transfer) : Call → Option Transfer
  | .read n =>
    if t.server = .reading then
      if n = 0 then
        if t.source = [] then some {t with server := .finished} else none
      else if n ≤ bufferSize ∧ n ≤ t.source.length then
        some {t with source := t.source.drop n, server := .writing (t.source.take n)}
      else none
    else none
  | .send n s =>
    match t.server with
    | .writing buf =>
      if n = buf.length ∧ 0 < s ∧ s ≤ n then
        some {t with stream := t.stream ++ buf.take s, server := .reading}
      else none
    | _ => none
  | .sendError =>
    match t.server with
    | .writing _ => some {t with server := .failed}
    | _ => none
  | .recv rec =>
    if t.client = .receiving then
      if rec = 0 then
        if t.stream = [] ∧ closed t.server = true then some {t with client := .finished} else none
      else if rec ≤ bufferSize ∧ rec ≤ t.stream.length then
        some {t with stream := t.stream.drop rec, client := .writing (t.stream.take rec)}
      else none
    else none
  | .recvError => if t.client = .receiving then some {t with client := .failed} else none
  | .store rec w =>
    match t.client with
    | .writing buf =>
      if rec = buf.length ∧ 0 < w ∧ w ≤ rec then
        some {t with output := t.output ++ buf.take w, client := .receiving}
      else none
    | _ => none

/- What a call that returns can have done. -/
inductive Went (t : Transfer) : Call → Transfer → Prop where
  | endOfFile (reading : t.server = .reading) (empty : t.source = []) :
      Went t (.read 0) {t with server := .finished}
  | read {n} (reading : t.server = .reading) (fits : n ≤ t.source.length) :
      Went t (.read n) {t with source := t.source.drop n, server := .writing (t.source.take n)}
  | send {buf s} (writing : t.server = .writing buf) (most : s ≤ buf.length) :
      Went t (.send buf.length s) {t with stream := t.stream ++ buf.take s, server := .reading}
  | sendError {buf} (writing : t.server = .writing buf) : Went t .sendError {t with server := .failed}
  | endOfStream (receiving : t.client = .receiving) (drained : t.stream = []) (shut : closed t.server = true) :
      Went t (.recv 0) {t with client := .finished}
  | recv {n} (receiving : t.client = .receiving) (fits : n ≤ t.stream.length) :
      Went t (.recv n) {t with stream := t.stream.drop n, client := .writing (t.stream.take n)}
  | recvError (receiving : t.client = .receiving) : Went t .recvError {t with client := .failed}
  | store {buf w} (writing : t.client = .writing buf) (most : w ≤ buf.length) :
      Went t (.store buf.length w) {t with output := t.output ++ buf.take w, client := .receiving}

theorem stepWent {t c u} (went : step t c = some u) : Went t c u := by
  cases c with
  | read n =>
    simp only [step] at went
    split at went <;> try contradiction
    rename_i reading
    split at went <;> split at went <;> try contradiction
    · rename_i zero empty
      cases Option.some.inj went
      subst zero
      exact .endOfFile reading empty
    · rename_i fits
      cases Option.some.inj went
      exact .read reading fits.2
  | send n s =>
    simp only [step] at went
    split at went <;> try contradiction
    rename_i buf writing
    split at went <;> try contradiction
    rename_i bound
    obtain ⟨rfl,_,most⟩ := bound
    cases Option.some.inj went
    exact .send writing most
  | sendError =>
    simp only [step] at went
    split at went <;> try contradiction
    rename_i buf writing
    cases Option.some.inj went
    exact .sendError writing
  | recv rec =>
    simp only [step] at went
    split at went <;> try contradiction
    rename_i receiving
    split at went <;> split at went <;> try contradiction
    · rename_i zero gone
      cases Option.some.inj went
      subst zero
      exact .endOfStream receiving gone.1 gone.2
    · rename_i fits
      cases Option.some.inj went
      exact .recv receiving fits.2
  | recvError =>
    simp only [step] at went
    split at went <;> try contradiction
    rename_i receiving
    cases Option.some.inj went
    exact .recvError receiving
  | store rec w =>
    simp only [step] at went
    split at went <;> try contradiction
    rename_i buf writing
    split at went <;> try contradiction
    rename_i bound
    obtain ⟨rfl,_,most⟩ := bound
    cases Option.some.inj went
    exact .store writing most

def run (file : List Byte) (calls : List Call) : Option Transfer := Trace.attempt step (initial file) calls

def Call.short : Call → Bool
  | .send n s => s < n
  | .store rec w => w < rec
  | _ => false

def Server.held : Server → List Byte
  | .writing buf => buf
  | _ => []

def Client.held : Client → List Byte
  | .writing buf => buf
  | _ => []

def pending (t : Transfer) : List Byte :=
  t.output ++ t.client.held ++ t.stream ++ t.server.held ++ t.source

structure Ended (t : Transfer) : Prop where
  server : t.server = .finished → t.source = []
  client : t.client = .finished → t.stream = [] ∧ closed t.server = true

theorem stepMoves {t c u} (went : step t c = some u) (sent : c ≠ .sendError) :
    (c.short = false → pending u = pending t) ∧
    (c.short = true → (pending u).length < (pending t).length) := by
  cases stepWent went with
  | endOfFile reading => exact ⟨fun _ => by simp [pending,reading,Server.held],fun short => by contradiction⟩
  | read reading => exact ⟨fun _ => by simp [pending,reading,Server.held],fun short => by contradiction⟩
  | @send buf s writing most =>
    simp only [pending,writing,Server.held,Call.short,decide_eq_false_iff_not,decide_eq_true_eq]
    refine ⟨fun full => ?_,fun short => ?_⟩
    · have all : buf.take s = buf := List.take_of_length_le (by omega)
      simp [all]
    · simp only [List.length_append,List.length_take,List.length_nil]
      omega
  | sendError => contradiction
  | endOfStream receiving => exact ⟨fun _ => by simp [pending,receiving,Client.held],fun short => by contradiction⟩
  | recv receiving => exact ⟨fun _ => by simp [pending,receiving,Client.held],fun short => by contradiction⟩
  | recvError receiving => exact ⟨fun _ => by simp [pending,receiving,Client.held],fun short => by contradiction⟩
  | @store buf w writing most =>
    simp only [pending,writing,Client.held,Call.short,decide_eq_false_iff_not,decide_eq_true_eq]
    refine ⟨fun full => ?_,fun short => ?_⟩
    · have all : buf.take w = buf := List.take_of_length_le (by omega)
      simp [all]
    · simp only [List.length_append,List.length_take,List.length_nil]
      omega

theorem stepEnded (t c u) (ended : Ended t) (went : step t c = some u) : Ended u := by
  have active (running : closed t.server = false) : t.client ≠ .finished := by
    intro gone
    rw [(ended.client gone).2] at running
    contradiction
  cases stepWent went with
  | endOfFile reading empty => exact ⟨fun _ => empty,fun gone => absurd gone (active (by rw [reading]; rfl))⟩
  | read reading => exact ⟨fun gone => by contradiction,fun gone => absurd gone (active (by rw [reading]; rfl))⟩
  | send writing => exact ⟨fun gone => by contradiction,fun gone => absurd gone (active (by rw [writing]; rfl))⟩
  | sendError => exact ⟨fun gone => by contradiction,fun gone => ⟨(ended.client gone).1,rfl⟩⟩
  | endOfStream receiving drained shut => exact ⟨ended.server,fun _ => ⟨drained,shut⟩⟩
  | recv => exact ⟨ended.server,fun gone => by contradiction⟩
  | recvError => exact ⟨ended.server,fun gone => by contradiction⟩
  | store => exact ⟨ended.server,fun gone => by contradiction⟩

theorem stepFailed (t c u) (failed : t.server = .failed) (went : step t c = some u) : u.server = .failed := by
  cases stepWent went with
  | endOfFile reading => rw [failed] at reading; contradiction
  | read reading => rw [failed] at reading; contradiction
  | send writing => rw [failed] at writing; contradiction
  | sendError => rfl
  | endOfStream => exact failed
  | recv => exact failed
  | recvError => exact failed
  | store => exact failed

theorem sentAll {t calls last} (ran : Trace.attempt step t calls = some last)
    (finished : last.server = .finished) : ∀ c ∈ calls, c ≠ .sendError := by
  induction calls generalizing t with
  | nil => simp
  | cons c rest ih =>
    obtain ⟨u,first,later⟩ := Trace.attemptCons ran
    intro x mem
    rcases List.mem_cons.mp mem with rfl | inside
    · intro error
      subst error
      have failed : u.server = .failed := by
        cases stepWent first
        rfl
      have gone := Trace.attemptInvariant stepFailed failed later
      rw [finished] at gone
      contradiction
    · exact ih later x inside

theorem runMoves {t calls last} (ran : Trace.attempt step t calls = some last)
    (sent : ∀ c ∈ calls, c ≠ .sendError) :
    ((∀ c ∈ calls, c.short = false) → pending last = pending t) ∧
    ((∃ c ∈ calls, c.short = true) → (pending last).length < (pending t).length) := by
  induction calls generalizing t with
  | nil =>
    cases Option.some.inj ran
    exact ⟨fun _ => rfl,fun short => by simp at short⟩
  | cons c rest ih =>
    obtain ⟨u,first,later⟩ := Trace.attemptCons ran
    obtain ⟨same,fewer⟩ := stepMoves first (sent c List.mem_cons_self)
    obtain ⟨sameLater,fewerLater⟩ := ih later (fun x mem => sent x (List.mem_cons_of_mem c mem))
    refine ⟨fun full => ?_,fun short => ?_⟩
    · rw [sameLater (fun x mem => full x (List.mem_cons_of_mem c mem)),same (full c List.mem_cons_self)]
    · have before : (pending u).length ≤ (pending t).length := by
        cases here : c.short with
        | false => exact Nat.le_of_eq (congrArg List.length (same here))
        | true => exact Nat.le_of_lt (fewer here)
      by_cases tail : ∃ x ∈ rest, x.short = true
      · exact Nat.lt_of_lt_of_le (fewerLater tail) before
      · have full : ∀ x ∈ rest, x.short = false := by
          intro x mem
          exact Bool.eq_false_iff.mpr (fun h => tail ⟨x,mem,h⟩)
        rw [sameLater full]
        obtain ⟨x,mem,here⟩ := short
        rcases List.mem_cons.mp mem with rfl | inside
        · exact fewer here
        · exact absurd ⟨x,inside,here⟩ tail

theorem endedPending {t : Transfer} (ended : Ended t) (server : t.server = .finished)
    (client : t.client = .finished) : pending t = t.output := by
  simp [pending,server,client,Server.held,Client.held,ended.server server,(ended.client client).1]

theorem losslessExactly {file : List Byte} {calls : List Call} {last : Transfer}
    (ran : run file calls = some last) (server : last.server = .finished) (client : last.client = .finished) :
    last.output = file ↔ ∀ c ∈ calls, c.short = false := by
  have start : Ended (initial file) := ⟨fun gone => by contradiction,fun gone => by contradiction⟩
  have arrived := endedPending (Trace.attemptInvariant stepEnded start ran) server client
  have source : pending (initial file) = file := by simp [pending,initial,Server.held,Client.held]
  obtain ⟨same,fewer⟩ := runMoves ran (sentAll ran server)
  rw [arrived,source] at same fewer
  refine ⟨fun whole c mem => ?_,same⟩
  rw [Bool.eq_false_iff]
  intro short
  have less := fewer ⟨c,mem,short⟩
  rw [whole] at less
  exact Nat.lt_irrefl _ less

def wholeWrites : List Call :=
  [.read 2,.send 2 2,.recv 1,.read 1,.store 1 1,.send 1 1,.read 0,.recv 2,.store 2 2,.recv 0]

theorem losslessWholeWrites :
    ∃ last, run [5,6,7] wholeWrites = some last ∧ last.output = [5,6,7] := by
  have ran : run [5,6,7] wholeWrites = some ⟨[],.finished,[],.finished,[5,6,7]⟩ := by decide
  exact ⟨_,ran,(losslessExactly ran rfl rfl).mpr (by decide)⟩

theorem partialWriteDrops :
    ∃ last, run [5,6,7] [.read 3,.send 3 2,.read 0,.recv 2,.store 2 2,.recv 0] = some last ∧
      last.server = .finished ∧ last.client = .finished ∧ last.output ≠ [5,6,7] :=
  ⟨⟨[],.finished,[],.finished,[5,6]⟩,by decide,rfl,rfl,by decide⟩

end PracticeSuite.FileTransfer
