import PracticeSuite.KeyedList

/-! The connection queues of the sniffer: vectors of addresses, searched with
`address::operator==`, which leaves the capture time out of the comparison. -/
namespace PracticeSuite.SnifferQueue

structure Tuple where
  ipSrc : UInt32
  ipDst : UInt32
  thSport : UInt16
  thDport : UInt16
  deriving DecidableEq, Repr

def Tuple.reverse (k : Tuple) : Tuple := ⟨k.ipDst,k.ipSrc,k.thDport,k.thSport⟩

@[simp] theorem reverseReverse (k : Tuple) : k.reverse.reverse = k := rfl

structure Address where
  ipSrc : UInt32
  ipDst : UInt32
  thSport : UInt16
  thDport : UInt16
  lastime : Int
  deriving DecidableEq, Repr

def Address.tuple (a : Address) : Tuple := ⟨a.ipSrc,a.ipDst,a.thSport,a.thDport⟩

def Tuple.address (k : Tuple) (lastime : Int) : Address := ⟨k.ipSrc,k.ipDst,k.thSport,k.thDport,lastime⟩

@[simp] theorem addressTuple (k : Tuple) (lastime) : (k.address lastime).tuple = k := rfl
@[simp] theorem addressTime (k : Tuple) (lastime) : (k.address lastime).lastime = lastime := rfl

def Address.equal (self a : Address) : Bool :=
  a.ipDst == self.ipDst && a.ipSrc == self.ipSrc && a.thDport == self.thDport && a.thSport == self.thSport

theorem equalIff (a b : Address) : a.equal b = decide (a.tuple = b.tuple) := by
  rw [Bool.eq_iff_iff]
  simp only [Address.equal,Address.tuple,Bool.and_eq_true,beq_iff_eq,decide_eq_true_eq,Tuple.mk.injEq]
  constructor
  · intro h
    obtain ⟨⟨⟨dst,src⟩,dport⟩,sport⟩ := h
    exact ⟨src.symm,dst.symm,sport.symm,dport.symm⟩
  · intro h
    obtain ⟨src,dst,sport,dport⟩ := h
    exact ⟨⟨⟨dst.symm,src.symm⟩,dport.symm⟩,sport.symm⟩

abbrev Queue := List Address

def elementCreate (ipSrc ipDst : UInt32) (thSport thDport : UInt16) (now : Int) : Address :=
  ⟨ipSrc,ipDst,thSport,thDport,now⟩

def elementPush (queue : Queue) (conn : Address) : Queue :=
  match queue.find? (fun a => a.equal conn) with
  | none => queue ++ [conn]
  | some _ => queue

/- The address built for the search never gets a capture time; the comparison
does not look at it. -/
def elementRemove (queue : Queue) (ipSrc ipDst : UInt32) (thSport thDport : UInt16) : Queue :=
  queue.eraseP (fun a => a.equal ⟨ipSrc,ipDst,thSport,thDport,0⟩)

theorem pushEq (queue : Queue) (conn : Address) :
    elementPush queue conn = KeyedList.pushNew Address.tuple conn queue := by
  simp only [elementPush,KeyedList.pushNew,KeyedList.lookup,equalIff]
  cases queue.find? (fun a => decide (a.tuple = conn.tuple)) <;> rfl

theorem removeEq (queue : Queue) (ipSrc ipDst thSport thDport) :
    elementRemove queue ipSrc ipDst thSport thDport =
      KeyedList.eraseKey Address.tuple ⟨ipSrc,ipDst,thSport,thDport⟩ queue := by
  simp only [elementRemove,KeyedList.eraseKey,equalIff]
  rfl

abbrev Distinct (queue : Queue) : Prop := KeyedList.Distinct Address.tuple queue

def timeout : Int := 2

/- One pass of the for loop of check_timeout. `clock n` is the n-th value of
time(0) in this call; the pass stops at the first entry that is too old. -/
def firstExpired (clock : Nat → Int) : Nat → Queue → Option (Address × Nat)
  | _,[] => none
  | n,a::rest => if timeout < clock n - a.lastime then some (a,n+1) else firstExpired clock (n+1) rest

/- `goto Begin` restarts the pass on the shortened vector. Every restart follows
an erasure, so the length of the vector bounds their number. -/
def sweep (clock : Nat → Int) : Nat → Nat → Queue → Queue
  | 0,_,queue => queue
  | restarts+1,n,queue =>
    match firstExpired clock n queue with
    | none => queue
    | some (a,next) => sweep clock restarts next (queue.eraseP (fun b => b.equal a))

def checkTimeout (clock : Nat → Int) (queue : Queue) : Queue := sweep clock queue.length 0 queue

theorem firstExpiredMem {clock n queue a next} (found : firstExpired clock n queue = some (a,next)) :
    a ∈ queue := by
  induction queue generalizing n with
  | nil => simp [firstExpired] at found
  | cons b rest ih =>
    simp only [firstExpired] at found
    split at found
    · cases Option.some.inj found
      exact List.mem_cons_self
    · exact List.mem_cons_of_mem b (ih found)

theorem eraseShrinks {queue : Queue} {a : Address} (mem : a ∈ queue) :
    (queue.eraseP (fun b => b.equal a)).length + 1 = queue.length := by
  have hit : a.equal a = true := by simp [equalIff]
  have shorter : (queue.eraseP (fun b => b.equal a)).length = queue.length - 1 :=
    List.length_eraseP_of_mem mem hit
  have some_ : 0 < queue.length := List.length_pos_of_mem mem
  omega

theorem sweepSublist (clock restarts n queue) : (sweep clock restarts n queue).Sublist queue := by
  induction restarts generalizing n queue with
  | zero => exact List.Sublist.refl _
  | succ restarts ih =>
    simp only [sweep]
    split
    · exact List.Sublist.refl _
    · exact (ih _ _).trans List.eraseP_sublist

theorem checkTimeoutSublist (clock queue) : (checkTimeout clock queue).Sublist queue :=
  sweepSublist clock queue.length 0 queue

def fresh (now : Int) (a : Address) : Bool := now - a.lastime ≤ timeout

theorem firstExpiredNone {now n queue} (none_ : firstExpired (fun _ => now) n queue = none) :
    ∀ a ∈ queue, fresh now a = true := by
  induction queue generalizing n with
  | nil => simp
  | cons b rest ih =>
    simp only [firstExpired] at none_
    split at none_ <;> try contradiction
    rename_i young
    intro a mem
    rcases List.mem_cons.mp mem with rfl | inside
    · exact decide_eq_true (Int.not_lt.mp young)
    · exact ih none_ a inside

theorem firstExpiredOld {now n queue a next}
    (found : firstExpired (fun _ => now) n queue = some (a,next)) : fresh now a = false := by
  induction queue generalizing n with
  | nil => simp [firstExpired] at found
  | cons b rest ih =>
    simp only [firstExpired] at found
    split at found
    · rename_i old
      cases Option.some.inj found
      exact decide_eq_false (Int.not_le.mpr old)
    · exact ih found

/- Erasing by tuple removes the expired entry itself only while no other entry
shares its tuple; that is where the distinctness of the queue is needed. -/
theorem sweepFilter {now : Int} {queue : Queue} (distinct : Distinct queue) (n : Nat) {restarts : Nat}
    (enough : queue.length ≤ restarts) :
    sweep (fun _ => now) restarts n queue = queue.filter (fresh now) := by
  induction restarts generalizing n queue with
  | zero =>
    have empty : queue = [] := List.eq_nil_of_length_eq_zero (Nat.le_zero.mp enough)
    subst empty
    rfl
  | succ restarts ih =>
    simp only [sweep]
    split
    · rename_i none_
      exact (List.filter_eq_self.mpr (firstExpiredNone none_)).symm
    · rename_i a next found
      have mem := firstExpiredMem found
      have old := firstExpiredOld found
      have erased : queue.eraseP (fun b => b.equal a) = KeyedList.eraseKey Address.tuple a.tuple queue := by
        simp only [KeyedList.eraseKey,equalIff]
      have shorter := eraseShrinks mem
      rw [erased] at shorter ⊢
      rw [ih (KeyedList.distinctEraseKey distinct) next (by omega),KeyedList.eraseKeyFilter distinct,
        List.filter_filter]
      apply List.filter_congr
      intro b inside
      by_cases same : b.tuple = a.tuple
      · have equal : b = a := KeyedList.equalOfKey distinct inside mem same
        simp [equal,old]
      · simp [same]

theorem checkTimeoutFilter {now queue} (distinct : Distinct queue) :
    checkTimeout (fun _ => now) queue = queue.filter (fresh now) :=
  sweepFilter distinct 0 (Nat.le_refl _)

end PracticeSuite.SnifferQueue
