import PracticeSuite.AgentScan
import PracticeSuite.Strtoul

/-! The inode in the target of a descriptor's link under /proc. zsocket.c, ultis.c and
proc.cpp have the same function for the form socket:[12345]. -/
namespace PracticeSuite.SocketLink
open Agent (Str isspace blankSpace)
open Strtoul (strtoul maximum Reads wholeRead readsPlain toDigitsHead strtoulBound)
open CInt

def prgSocketPfx : Str := ['s','o','c','k','e','t',':','[']

/- The value returned and what *inode_p holds then; nothing where strncpy is given a
negative length and leaves its array. -/
def extractType1SocketInode (lname : Str) (inode : Nat) : Option (Int × Nat) :=
  if lname.length < prgSocketPfx.length + 3 then some (-1,inode)
  else if lname.take prgSocketPfx.length ≠ prgSocketPfx then some (-1,inode)
  else if lname.getLast? ≠ some ']' then some (-1,inode)
  else
    let inodeStrLen := toInt (lname.length - prgSocketPfx.length - 1)
    if inodeStrLen < 0 then none
    else
      let read := strtoul isspace ((lname.drop prgSocketPfx.length).take inodeStrLen.toNat)
      if read.2 ≠ [] ∨ read.1 = maximum then some (-1,read.1) else some (0,read.1)

def link (w : Str) : Str := prgSocketPfx ++ (w ++ [']'])

def documented (n : Nat) : Str := link (Nat.toDigits 10 n)

theorem linkInjective {w w' : Str} (same : link w = link w') : w = w' := by
  unfold link at same
  exact List.append_cancel_right (List.append_cancel_left same)

theorem documentedLength {n : Nat} (small : n < maximum) : (Nat.toDigits 10 n).length ≤ 20 := by
  apply (Nat.length_toDigits_le_iff (by decide) (by decide)).mpr
  unfold maximum at small
  omega

theorem linkOf {lname : Str} (long : ¬ lname.length < prgSocketPfx.length + 3)
    (front : lname.take prgSocketPfx.length = prgSocketPfx) (last : lname.getLast? = some ']') :
    ∃ w, lname = link w ∧ 2 ≤ w.length := by
  have parts := List.take_append_drop prgSocketPfx.length lname
  rw [front] at parts
  have count : prgSocketPfx.length = 8 := rfl
  have behind : lname.drop prgSocketPfx.length ≠ [] := by
    intro none
    have size := List.length_drop (i := prgSocketPfx.length) (l := lname)
    rw [none,List.length_nil] at size
    omega
  have closes : (lname.drop prgSocketPfx.length).getLast behind = ']' := by
    rw [← parts,List.getLast?_append_of_ne_nil _ behind,List.getLast?_eq_getLast_of_ne_nil behind] at last
    exact Option.some.inj last
  have inner := List.dropLast_append_getLast behind
  rw [closes] at inner
  refine ⟨(lname.drop prgSocketPfx.length).dropLast,?_,?_⟩
  · rw [link,inner,parts]
  · rw [List.length_dropLast,List.length_drop]
    omega

def copied (w : Str) : Str := w.take (toInt w.length).toNat

theorem copiedInside (w : Str) : (toInt w.length).toNat ≤ w.length := by
  unfold toInt Int.bmod
  dsimp only
  split <;> omega

theorem extractLink {w : Str} (long : 2 ≤ w.length) (inode : Nat) :
    extractType1SocketInode (link w) inode =
      if toInt w.length < 0 then none
      else if (strtoul isspace (copied w)).2 ≠ [] ∨ (strtoul isspace (copied w)).1 = maximum then
        some (-1,(strtoul isspace (copied w)).1)
      else some (0,(strtoul isspace (copied w)).1) := by
  have count : prgSocketPfx.length = 8 := rfl
  have size : (link w).length = w.length + 9 := by
    simp only [link,List.length_append,List.length_cons,List.length_nil,count]
    omega
  have front : (link w).take prgSocketPfx.length = prgSocketPfx := List.take_left
  have back : (link w).drop prgSocketPfx.length = w ++ [']'] := List.drop_left
  have last : (link w).getLast? = some ']' := by
    simp [link]
  have length : ((link w).length : Int) - prgSocketPfx.length - 1 = w.length := by omega
  unfold extractType1SocketInode
  rw [if_neg (by omega),if_neg (by simp [front]),if_neg (by simp [last]),back,length]
  dsimp only
  rw [List.take_append_of_le_length (copiedInside w)]
  rfl

theorem extractOther {lname : Str} (other : ¬ ∃ w, lname = link w ∧ 2 ≤ w.length) (inode : Nat) :
    extractType1SocketInode lname inode = some (-1,inode) := by
  unfold extractType1SocketInode
  split
  · rfl
  · rename_i long
    split
    · rfl
    · rename_i front
      split
      · rfl
      · rename_i last
        exact absurd (linkOf long (not_not.mp front) (not_not.mp last)) other

theorem accepted {w : Str} {n : Nat} (small : n < maximum) :
    (strtoul isspace w).2 = [] ∧ (strtoul isspace w).1 = n ↔ w = [] ∧ n = 0 ∨ Reads isspace w n := by
  rw [← wholeRead blankSpace (by decide) small,Prod.ext_iff]
  exact And.comm

theorem acceptedExactly (lname : Str) (inode : Nat) {n : Nat} (small : n < maximum) :
    extractType1SocketInode lname inode = some (0,n) ↔ ∃ w, lname = link w ∧ 2 ≤ w.length ∧ 0 ≤ toInt w.length ∧
      (copied w = [] ∧ n = 0 ∨ Reads isspace (copied w) n) := by
  constructor
  · intro found
    by_cases shape : ∃ w, lname = link w ∧ 2 ≤ w.length
    · obtain ⟨w,rfl,long⟩ := shape
      rw [extractLink long] at found
      split at found
      · cases found
      · rename_i nonnegative
        split at found
        · cases found
        · rename_i valid
          rw [not_or,not_not] at valid
          have value := (Prod.mk.inj (Option.some.inj found)).2
          exact ⟨w,rfl,long,Int.not_lt.mp nonnegative,(accepted small).mp ⟨valid.1,value⟩⟩
    · rw [extractOther shape] at found
      cases found
  · rintro ⟨w,rfl,long,nonnegative,read⟩
    obtain ⟨ended,value⟩ := (accepted small).mpr read
    rw [extractLink long,if_neg (Int.not_lt.mpr nonnegative),if_neg,value]
    rw [not_or,not_not,value]
    exact ⟨ended,small.ne⟩

theorem overrunExactly (lname : Str) (inode : Nat) :
    extractType1SocketInode lname inode = none ↔ ∃ w, lname = link w ∧ 2 ≤ w.length ∧ toInt w.length < 0 := by
  constructor
  · intro fault
    by_cases shape : ∃ w, lname = link w ∧ 2 ≤ w.length
    · obtain ⟨w,rfl,long⟩ := shape
      refine ⟨w,rfl,long,?_⟩
      by_contra nonnegative
      rw [extractLink long,if_neg nonnegative] at fault
      split at fault <;> cases fault
    · rw [extractOther shape] at fault
      cases fault
  · rintro ⟨w,rfl,long,negative⟩
    rw [extractLink long,if_pos negative]

theorem extractResult (lname : Str) (inode : Nat) :
    extractType1SocketInode lname inode = none ∨ (∃ v, extractType1SocketInode lname inode = some (-1,v)) ∨
      ∃ n < maximum, extractType1SocketInode lname inode = some (0,n) := by
  by_cases shape : ∃ w, lname = link w ∧ 2 ≤ w.length
  · obtain ⟨w,rfl,long⟩ := shape
    rw [extractLink long]
    split
    · exact Or.inl rfl
    · split
      · exact Or.inr (Or.inl ⟨_,rfl⟩)
      · rename_i valid
        have bound := strtoulBound isspace (copied w)
        exact Or.inr (Or.inr ⟨_,lt_of_le_of_ne bound fun same => valid (Or.inr same),rfl⟩)
  · exact Or.inr (Or.inl ⟨_,extractOther shape inode⟩)

/- The strings on which the tests do not decide the documented form: the length test asks for
two characters in the brackets, strtoul is called with base 0 and reads a prefix of blanks
and a sign, and the length is kept in an int. -/
inductive Awkward : Str → Prop
  | oneDigit {d : Char} (digit : d.isDigit = true) : Awkward (link [d])
  | numeral {w : Str} {n : Nat} (long : 2 ≤ w.length) (short : w.length < 2^31)
      (other : ∀ d ∈ w.head?, d.isDigit = true → d = '0') (small : n < maximum) (reads : Reads isspace w n) : Awkward (link w)
  | overrun {w : Str} (long : 2^31 ≤ w.length) (negative : toInt w.length < 0) : Awkward (link w)
  | truncated {w : Str} {n : Nat} (long : 2^31 ≤ w.length) (nonnegative : 0 ≤ toInt w.length) (small : n < maximum)
      (reads : copied w = [] ∧ n = 0 ∨ Reads isspace (copied w) n) : Awkward (link w)

theorem copiedShort {w : Str} (short : w.length < 2^31) : toInt w.length = w.length ∧ copied w = w := by
  have fits : toInt w.length = w.length := toIntEq ⟨by omega,by omega⟩
  refine ⟨fits,?_⟩
  rw [copied,fits,Int.toNat_natCast,List.take_length]

theorem documentedReads {n : Nat} (long : 2 ≤ (Nat.toDigits 10 n).length) (small : n < maximum) :
    Reads isspace (Nat.toDigits 10 n) n ∧ ∃ d ∈ (Nat.toDigits 10 n).head?, d.isDigit = true ∧ d ≠ '0' := by
  have nonzero : n ≠ 0 := by
    rintro rfl
    rw [Nat.toDigits_zero] at long
    exact absurd long (by decide)
  obtain ⟨d,rest,eq,digit,other⟩ := toDigitsHead nonzero
  rw [eq]
  exact ⟨(readsPlain blankSpace digit other rest n).mpr ⟨small.le,eq.symm⟩,d,rfl,digit,other⟩

theorem plainExactly {lname : Str} (plain : ¬ Awkward lname) (inode : Nat) {n : Nat} (small : n < maximum) :
    extractType1SocketInode lname inode = some (0,n) ↔ lname = documented n := by
  constructor
  · intro found
    obtain ⟨w,rfl,long,nonnegative,reads⟩ := (acceptedExactly lname inode small).mp found
    by_cases short : w.length < 2^31
    · rw [(copiedShort short).2] at reads
      rcases reads with ⟨empty,-⟩ | reads
      · rw [empty] at long
        exact absurd long (by decide)
      · have first : ∃ d ∈ w.head?, d.isDigit = true ∧ d ≠ '0' := by
          by_contra none
          exact plain (.numeral long short (fun d head digit => by_contra fun other => none ⟨d,head,digit,other⟩) small reads)
        obtain ⟨d,head,digit,nonzero⟩ := first
        obtain ⟨rest,rfl⟩ := List.head?_eq_some_iff.mp head
        rw [documented,← ((readsPlain blankSpace digit nonzero rest n).mp reads).2]
    · exact absurd (.truncated (Nat.not_lt.mp short) nonnegative small reads) plain
  · rintro rfl
    have bound := documentedLength small
    have long : 2 ≤ (Nat.toDigits 10 n).length := by
      by_contra single
      obtain ⟨d,ds,eq,digit⟩ := Scanf.digitsCons n
      rw [eq,List.length_cons] at single
      have alone : ds = [] := List.eq_nil_of_length_eq_zero (by omega)
      rw [documented,eq,alone] at plain
      exact plain (.oneDigit digit)
    obtain ⟨fits,whole⟩ := copiedShort (w := Nat.toDigits 10 n) (by omega)
    exact (acceptedExactly _ inode small).mpr ⟨_,rfl,long,by omega,Or.inr (whole.symm ▸ (documentedReads long small).1)⟩

theorem recognisedExactly (lname : Str) (inode : Nat) :
    ((∀ n < maximum, extractType1SocketInode lname inode = some (0,n) ↔ lname = documented n) ∧
      ((∀ n < maximum, lname ≠ documented n) → ∃ v, extractType1SocketInode lname inode = some (-1,v))) ↔
    ¬ Awkward lname := by
  constructor
  · rintro ⟨accepts,rejects⟩ awkward
    cases awkward with
    | @oneDigit d digit =>
      obtain ⟨small,same⟩ := Strtoul.digitCharValue digit
      have form : link [d] = documented (d.toNat - 48) := by
        rw [documented,Nat.toDigits_of_lt_base small,same]
      have below : d.toNat - 48 < maximum := lt_trans small (by decide)
      obtain ⟨w,eq,long,-⟩ := (acceptedExactly _ inode below).mp ((accepts _ below).mpr form)
      rw [← linkInjective eq,List.length_singleton] at long
      omega
    | @numeral w n long short other small reads =>
      obtain ⟨fits,whole⟩ := copiedShort short
      have found := (acceptedExactly (link w) inode small).mpr ⟨w,rfl,long,by omega,Or.inr (by rwa [whole])⟩
      have plain := linkInjective ((accepts n small).mp found)
      subst plain
      obtain ⟨-,d,head,digit,nonzero⟩ := documentedReads long small
      exact nonzero (other d head digit)
    | @overrun w long negative =>
      have fault := (overrunExactly (link w) inode).mpr ⟨w,rfl,by omega,negative⟩
      obtain ⟨v,rejected⟩ := rejects fun n small form => by
        have bound := documentedLength small
        rw [← linkInjective form] at bound
        omega
      rw [fault] at rejected
      cases rejected
    | @truncated w n long nonnegative small reads =>
      have found := (acceptedExactly (link w) inode small).mpr ⟨w,rfl,by omega,nonnegative,reads⟩
      have bound := documentedLength small
      rw [← linkInjective ((accepts n small).mp found)] at bound
      omega
  · intro plain
    have accepts := fun n (small : n < maximum) => plainExactly plain inode small
    refine ⟨accepts,fun different => ?_⟩
    rcases extractResult lname inode with fault | rejected | ⟨n,small,found⟩
    · obtain ⟨w,rfl,long,negative⟩ := (overrunExactly lname inode).mp fault
      by_cases short : w.length < 2^31
      · rw [(copiedShort short).1] at negative
        omega
      · exact absurd (.overrun (Nat.not_lt.mp short) negative) plain
    · exact rejected
    · exact absurd ((accepts n small).mp found) (different n small)

theorem linksMisjudged :
    extractType1SocketInode (documented 5) 0 = some (-1,0) ∧
      extractType1SocketInode "socket:[0x10]".toList 0 = some (0,16) ∧ "socket:[0x10]".toList ≠ documented 16 ∧
      extractType1SocketInode "socket:[ -5]".toList 0 = some (0,2^64-5) := by
  decide +kernel

end PracticeSuite.SocketLink
