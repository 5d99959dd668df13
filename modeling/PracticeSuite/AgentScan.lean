import PracticeSuite.CInt
import PracticeSuite.Scanf

/-! The library folder as the agent reads it: file names name-a.b.c.so, each with a
configuration file of its own. -/
namespace PracticeSuite.Agent
open CInt

abbrev Str := List Char

structure Process where
  pPid : Int
  pName : Str
  num1 : Int
  num2 : Int
  num3 : Int
  type : Int
  time : Int
  arg : Str
  status : Int
  timeDeath : Int
  deriving DecidableEq, Repr

def blank : Process := ⟨0,[],0,0,0,0,0,[],0,0⟩

/- How a call can fail to return: std::out_of_range, an exception of the JSON
parser, or an access outside an array or vector. -/
inductive Fault where
  | outOfRange
  | badConfig
  | overrun
  deriving DecidableEq, Repr

inductive Config where
  | blank
  | malformed
  | object (type time : Int) (arg : Str)
  deriving DecidableEq, Repr

/- What one scan meets: the entries in the order of readdir (none when opendir
fails), the configuration files by path, and what the local variable `p` and the
array `v` hold before the round for an entry assigns them. -/
structure Folder where
  entries : Option (List Str)
  config : Str → Option Config
  junk : Nat → Process

def isspace (c : Char) : Bool := c = ' ' || ('\t' ≤ c && c ≤ '\r')

theorem isspaceCode {c : Char} (space : isspace c = true) : c.toNat = 32 ∨ 9 ≤ c.toNat ∧ c.toNat ≤ 13 := by
  unfold isspace at space
  simp only [Bool.or_eq_true,Bool.and_eq_true,decide_eq_true_eq] at space
  rcases space with blank | ⟨low,high⟩
  · exact Or.inl (by rw [blank]; rfl)
  · exact Or.inr ⟨low,high⟩

theorem blankSpace : Scanf.Blank isspace := by
  refine ⟨by decide,fun c digit => ?_,by decide⟩
  by_contra space
  have code := isspaceCode (Bool.not_eq_false _ ▸ space)
  have ten := Scanf.digitCode digit
  omega

def digits (s : Str) : Nat := (s.takeWhile Char.isDigit).foldl (fun n c => 10*n + (c.toNat - '0'.toNat)) 0

def atoi (s : Str) : Int :=
  let value : Int := match s.dropWhile isspace with
    | '-'::rest => -(digits rest : Int)
    | '+'::rest => digits rest
    | rest => digits rest
  toInt (clampLong value)

/- `str.copy(ver, count, pos)` followed by `ver[length] = '\0'`, with char ver[20]. -/
def copyVer (str : Str) (count : Nat) (pos : Int) : Except Fault Str :=
  if pos < 0 ∨ (str.length : Int) < pos then .error .outOfRange
  else
    let piece := (str.drop pos.toNat).take count
    if piece.length < 20 then .ok piece else .error .overrun

structure Version where
  v : List Int
  k : Nat
  count : Nat
  old : Int
  deriving DecidableEq, Repr

def versionStep (str : Str) (s : Version) (i : Nat) : Except Fault Version :=
  let count := s.count + 1
  if str[i]? = some '.' then do
    let ver ← copyVer str (count - 1) (s.old + 1)
    if s.k < 3 then .ok ⟨s.v.set s.k (atoi ver),s.k + 1,0,i⟩ else .error .overrun
  else .ok {s with count := count}

def dash (str : Str) : Int := match str.findIdx? (· = '-') with
  | some n => n
  | none => -1

def nameOf (str : Str) : Str := match str.findIdx? (· = '-') with
  | some n => str.take n
  | none => str

def versionLoop (str : Str) (junk : Process) : Except Fault Version :=
  let start := (dash str + 1).toNat
  (List.range' start (str.length - start)).foldlM (versionStep str)
    ⟨[junk.num1,junk.num2,junk.num3],0,0,dash str⟩

def fileConfig : Str := "/home/tuantu/Desktop/apps/AgentChild/config/".toList

def toText (n : Int) : Str := (toString n).toList

def versionText (p : Process) : Str :=
  p.pName ++ "-".toList ++ toText p.num1 ++ ".".toList ++ toText p.num2 ++ ".".toList ++ toText p.num3

def configPath (p : Process) : Str := fileConfig ++ "config".toList ++ versionText p ++ ".txt".toList

def readConfig (p : Process) : Config → Except Fault Process
  | .blank => .ok p
  | .malformed => .error .badConfig
  | .object type time arg => .ok {p with type := type,time := time,arg := arg,status := 1}

/- What a round of the scan does with its entry: leave it out, stop the whole scan
because the configuration file is missing, or list it. -/
inductive Visit where
  | passed
  | closed
  | listed (p : Process)
  deriving DecidableEq, Repr

def scanEntry (config : Str → Option Config) (junk : Process) (str : Str) : Except Fault Visit :=
  if str.findIdx? (· = '.') = some 0 then .ok .passed
  else do
    let s ← versionLoop str junk
    let p := {junk with
      pName := nameOf str,num1 := s.v.getD 0 0,num2 := s.v.getD 1 0,num3 := s.v.getD 2 0,arg := []}
    match config (configPath p) with
    | none => .ok .closed
    | some file => do
      let p ← readConfig p file
      let suffix ← copyVer str 2 ((str.length : Int) - 2)
      .ok (if suffix = "so".toList then .listed p else .passed)

def scanLoop (folder : Folder) : Nat → List Str → List Process → Except Fault (List Process)
  | _,[],listFiles => .ok listFiles
  | i,str::rest,listFiles => do
    match ← scanEntry folder.config (folder.junk i) str with
    | .passed => scanLoop folder (i+1) rest listFiles
    | .closed => .ok listFiles
    | .listed p => scanLoop folder (i+1) rest (listFiles ++ [p])

def scan (folder : Folder) : Except Fault (List Process) :=
  match folder.entries with
  | none => .ok []
  | some entries => scanLoop folder 0 entries []

end PracticeSuite.Agent
