import PracticeSuite.Sniffer

/-! What the two queues say about the packets seen so far. Both are latches over
the history of steps: the connected queue for each tuple, the waiting queue for
each tuple and capture time. -/
namespace PracticeSuite.Sniffer
open PacketBytes SnifferQueue

def Valid (q : Queues) : Prop := Distinct q.waitQueue ∧ Distinct q.connectedQueue

theorem initialValid : Valid initial := ⟨List.nodup_nil,List.nodup_nil⟩

theorem handledValid {now packet q q'} (h : Handled now packet q q') (valid : Valid q) : Valid q' := by
  cases h with
  | ignored => exact valid
  | syn => exact ⟨KeyedList.distinctPushNew valid.1,valid.2⟩
  | synAck => exact ⟨KeyedList.distinctEraseKey valid.1,KeyedList.distinctPushNew valid.2⟩
  | closing => exact ⟨valid.1,KeyedList.distinctEraseKey (KeyedList.distinctEraseKey valid.2)⟩

theorem stepValid (q s) (valid : Valid q) : Valid (step q s) := by
  cases s with
  | gotPacket now packet => exact handledValid (gotPacketHandled now packet q) valid
  | checkTimeout now => exact ⟨KeyedList.distinctSublist (checkTimeoutSublist _ _) valid.1,valid.2⟩

theorem runValid (steps) : Valid (run steps) :=
  Trace.runInvariant stepValid initialValid steps

theorem runStep (steps s) : run (steps ++ [s]) = step (run steps) s := Trace.runSnoc step initial steps s

def Step.On (property : Packet → Prop) : Step → Prop
  | .gotPacket _ packet => property packet
  | .checkTimeout _ => False

def Connects (k : Tuple) : Step → Prop := Step.On (SynAck k)
def Closes (k : Tuple) : Step → Prop := Step.On (fun packet => Closing k packet ∨ Closing k.reverse packet)

def Established (k : Tuple) (steps : List Step) : Prop :=
  ∃ before s after, steps = before ++ s :: after ∧ Connects k s ∧ ∀ x ∈ after, ¬ Closes k x

theorem connectedHandled {now packet q q'} (h : Handled now packet q q') (valid : Valid q) (k : Tuple) :
    k ∈ q'.connectedQueue.map Address.tuple ↔ SynAck k packet ∨
      (k ∈ q.connectedQueue.map Address.tuple ∧ ¬ (Closing k packet ∨ Closing k.reverse packet)) := by
  cases h with
  | ignored quiet => simp [quiet]
  | syn t seen other => simp [other]
  | synAck t seen other =>
    simp only [other,or_self,not_false_eq_true,and_true,KeyedList.keyPushNew]
    have same : SynAck k packet ↔ k = t :=
      ⟨fun h => h.2.2.symm.trans seen.2.2,fun h => h ▸ seen⟩
    rw [same]
    rfl
  | closing t seen other =>
    have same (u : Tuple) : Closing u packet ↔ u = t :=
      ⟨fun h => h.2.2.symm.trans seen.2.2,fun h => h ▸ seen⟩
    have back : k.reverse = t ↔ k = t.reverse :=
      ⟨fun h => by rw [← h,reverseReverse],fun h => by rw [h,reverseReverse]⟩
    simp only [other,false_or,same,back,not_or,
      KeyedList.keyEraseKey (KeyedList.distinctEraseKey valid.2),KeyedList.keyEraseKey valid.2]
    exact and_assoc

theorem connectedStep (k : Tuple) (q s) (valid : Valid q) :
    k ∈ (step q s).connectedQueue.map Address.tuple ↔
      Connects k s ∨ (k ∈ q.connectedQueue.map Address.tuple ∧ ¬ Closes k s) := by
  cases s with
  | gotPacket now packet => exact connectedHandled (gotPacketHandled now packet q) valid k
  | checkTimeout now => simp [step,Connects,Closes,Step.On]

theorem connectedIff (k steps) :
    k ∈ (run steps).connectedQueue.map Address.tuple ↔ Established k steps :=
  Trace.latchRun (fun q => k ∈ q.connectedQueue.map Address.tuple) stepValid initialValid
    List.not_mem_nil (connectedStep k) steps

theorem connectedExactly (steps : List Step) (k : Tuple) :
    (Established k steps → (run steps).connectedQueue.countP (fun a => a.tuple = k) = 1) ∧
    (¬ Established k steps → (run steps).connectedQueue.countP (fun a => a.tuple = k) = 0) := by
  have count := KeyedList.countKeyEq (k := k) (runValid steps).2
  rw [← connectedIff]
  refine ⟨fun seen => ?_,fun unseen => ?_⟩
  · rw [count,if_pos seen]
  · rw [count,if_neg unseen]

def tcpFrame (src dst sport dport flags : UInt8) : Packet :=
  frame (List.replicate 14 0 ++ [0x45,0,0,40,0,0,0,0,64,6,0,0,10,0,0,src,10,0,0,dst,
    0,sport,0,dport,0,0,0,0,0,0,0,0,0x50,flags])

example : (run [.gotPacket 0 (tcpFrame 2 1 80 90 0x12),.gotPacket 1 (tcpFrame 1 2 90 80 0x11)]).connectedQueue = [] := by
  decide

/- An entry is known by its tuple and by the capture time it was created with.
A repeated SYN finds the tuple listed and leaves that time alone. -/
def Opens (k : Tuple) (t : Int) (q : Queues) : Step → Prop
  | .gotPacket now packet => now = t ∧ Syn k packet ∧ k ∉ q.waitQueue.map Address.tuple
  | .checkTimeout _ => False

def Drops (k : Tuple) (t : Int) : Step → Prop
  | .gotPacket _ packet => SynAck k.reverse packet
  | .checkTimeout now => timeout < now - t

def Waiting (k : Tuple) (t : Int) (q : Queues) : Prop :=
  ∃ a ∈ q.waitQueue, a.tuple = k ∧ a.lastime = t

theorem waitingTuple {k q} : k ∈ q.waitQueue.map Address.tuple ↔ ∃ t, Waiting k t q := by
  simp only [List.mem_map,Waiting]
  constructor
  · intro h
    obtain ⟨a,mem,same⟩ := h
    exact ⟨a.lastime,a,mem,same,rfl⟩
  · intro h
    obtain ⟨_,a,mem,same,_⟩ := h
    exact ⟨a,mem,same⟩

theorem waitingHandled {now packet q q'} (h : Handled now packet q q') (valid : Valid q) (k : Tuple) (t : Int) :
    Waiting k t q' ↔ (now = t ∧ Syn k packet ∧ k ∉ q.waitQueue.map Address.tuple) ∨
      (Waiting k t q ∧ ¬ SynAck k.reverse packet) := by
  cases h with
  | ignored quiet => simp [quiet]
  | closing u seen other => simp [Waiting,other]
  | synAck u seen other =>
    have same : SynAck k.reverse packet ↔ k = u.reverse :=
      ⟨fun h => by rw [← seen.2.2,h.2.2,reverseReverse],fun h => by rw [h,reverseReverse]; exact seen⟩
    simp only [other,false_and,and_false,false_or,same,Waiting,KeyedList.memEraseKey valid.1]
    constructor
    · intro h
      obtain ⟨a,⟨mem,keep⟩,tuple,time⟩ := h
      exact ⟨⟨a,mem,tuple,time⟩,fun hit => keep (tuple.trans hit)⟩
    · intro h
      obtain ⟨⟨a,mem,tuple,time⟩,keep⟩ := h
      exact ⟨a,⟨mem,fun hit => keep (tuple.symm.trans hit)⟩,tuple,time⟩
  | syn u seen other =>
    have same : Syn k packet ↔ k = u := ⟨fun h => h.2.2.symm.trans seen.2.2,fun h => h ▸ seen⟩
    simp only [other,not_false_eq_true,and_true,same,Waiting,KeyedList.memPushNew]
    constructor
    · intro h
      obtain ⟨a,old | ⟨rfl,new⟩,tuple,time⟩ := h
      · exact Or.inr ⟨a,old,tuple,time⟩
      · have eq : k = u := tuple.symm
        exact Or.inl ⟨time,eq,eq ▸ new⟩
    · intro h
      rcases h with ⟨time,rfl,new⟩ | ⟨a,old,tuple,time⟩
      · exact ⟨_,Or.inr ⟨rfl,new⟩,rfl,time⟩
      · exact ⟨a,Or.inl old,tuple,time⟩

theorem waitingStep (k : Tuple) (t : Int) (q s) (valid : Valid q) :
    Waiting k t (step q s) ↔ Opens k t q s ∨ (Waiting k t q ∧ ¬ Drops k t s) := by
  cases s with
  | gotPacket now packet => exact waitingHandled (gotPacketHandled now packet q) valid k t
  | checkTimeout now =>
    simp only [step,Waiting,Opens,Drops,false_or,checkTimeoutFilter valid.1,List.mem_filter,fresh,
      decide_eq_true_eq,Int.not_lt]
    constructor
    · intro h
      obtain ⟨a,⟨mem,young⟩,tuple,time⟩ := h
      exact ⟨⟨a,mem,tuple,time⟩,time ▸ young⟩
    · intro h
      obtain ⟨⟨a,mem,tuple,time⟩,young⟩ := h
      exact ⟨a,⟨mem,time ▸ young⟩,tuple,time⟩

theorem waitingIff (k t steps) :
    Waiting k t (run steps) ↔ Trace.Armed step initial (Opens k t) (Drops k t) steps := by
  have dark : ¬ Waiting k t initial := by
    intro h
    obtain ⟨_,mem,_⟩ := h
    exact List.not_mem_nil mem
  exact Trace.latchRun (Waiting k t) stepValid initialValid dark (waitingStep k t) steps

def Step.time : Step → Int
  | .gotPacket now _ => now
  | .checkTimeout now => now

def Clocked (steps : List Step) : Prop := (steps.map Step.time).Pairwise (· ≤ ·)
instance (steps) : Decidable (Clocked steps) := by unfold Clocked; infer_instance

def Answers (k : Tuple) : Step → Prop := Step.On (SynAck k.reverse)

/- The SYN that opened the entry: captured while the tuple was not listed, with no
later one of that kind. -/
def OpenedAt (k : Tuple) (t : Int) (before after : List Step) (packet : Packet) : Prop :=
  Syn k packet ∧ k ∉ (run before).waitQueue.map Address.tuple ∧
  ∀ middle now again rest, after = middle ++ .gotPacket now again :: rest → Syn k again →
    k ∈ (run (before ++ .gotPacket t packet :: middle)).waitQueue.map Address.tuple

theorem waitingMeaning (steps : List Step) (now : Int) (k : Tuple)
    (clocked : Clocked (steps ++ [.checkTimeout now])) :
    k ∈ (run (steps ++ [.checkTimeout now])).waitQueue.map Address.tuple ↔
      ∃ before t packet after, steps = before ++ .gotPacket t packet :: after ∧
        OpenedAt k t before after packet ∧ now - t ≤ timeout ∧ ∀ x ∈ after, ¬ Answers k x := by
  have last : ∀ s ∈ steps, s.time ≤ now := by
    intro s mem
    rw [Clocked,List.map_append,List.pairwise_append] at clocked
    exact clocked.2.2 s.time (List.mem_map_of_mem mem) now (by simp [Step.time])
  have final (t : Int) : Waiting k t (run (steps ++ [.checkTimeout now])) ↔
      Waiting k t (run steps) ∧ now - t ≤ timeout := by
    rw [runStep,waitingStep k t _ _ (runValid steps)]
    simp [Opens,Drops]
  rw [waitingTuple]
  refine ⟨?_,?_⟩
  · intro h
    obtain ⟨t,waiting⟩ := h
    obtain ⟨listed,young⟩ := (final t).mp waiting
    obtain ⟨before,s,after,rfl,opens,quiet⟩ := (waitingIff k t steps).mp listed
    cases s with
    | checkTimeout => exact opens.elim
    | gotPacket time packet =>
      obtain ⟨rfl,syn,unlisted⟩ := opens
      refine ⟨before,time,packet,after,rfl,⟨syn,unlisted,?_⟩,young,?_⟩
      · intro middle now' again rest split _
        -- The entry is still listed there, since nothing after its opening drops it.
        refine waitingTuple.mpr ⟨time,(waitingIff k time _).mpr ⟨before,_,middle,rfl,⟨rfl,syn,unlisted⟩,?_⟩⟩
        intro x mem
        exact quiet x (by rw [split]; exact List.mem_append_left _ mem)
      · intro x mem answers
        cases x with
        | gotPacket => exact quiet _ mem answers
        | checkTimeout => exact answers
  · intro h
    obtain ⟨before,t,packet,after,rfl,⟨syn,unlisted,_⟩,young,quiet⟩ := h
    refine ⟨t,(final t).mpr ⟨(waitingIff k t _).mpr ⟨before,_,after,rfl,⟨rfl,syn,unlisted⟩,?_⟩,young⟩⟩
    intro x mem drops
    cases x with
    | gotPacket => exact quiet _ mem drops
    | checkTimeout time =>
      -- Earlier sweeps read an earlier clock, so what the last one keeps they kept too.
      have earlier : time ≤ now := last (.checkTimeout time) (by simp [mem])
      simp only [Drops] at drops
      omega

theorem waitingMeaningOpen :
    let packet := tcpFrame 1 2 90 80 0x02
    ∃ before t syn after, [Step.gotPacket 0 packet] = before ++ .gotPacket t syn :: after ∧
      OpenedAt (packetTuple packet) t before after syn ∧ 2 - t ≤ timeout ∧
      ∀ x ∈ after, ¬ Answers (packetTuple packet) x :=
  (waitingMeaning [.gotPacket 0 (tcpFrame 1 2 90 80 0x02)] 2 _ (by decide)).mp (by decide)

def LatestSynRecent (k : Tuple) (now : Int) (steps : List Step) : Prop :=
  ∃ before t packet after, steps = before ++ .gotPacket t packet :: after ∧ Syn k packet ∧
    (∀ x ∈ after, ¬ x.On (Syn k)) ∧ now - t ≤ timeout ∧ ∀ x ∈ after, ¬ Answers k x

theorem repeatedSynNotRenewed :
    let packet := tcpFrame 1 2 90 80 0x02
    let steps := [Step.gotPacket 0 packet,.gotPacket 2 packet]
    Clocked (steps ++ [.checkTimeout 3]) ∧
    ¬ (packetTuple packet ∈ (run (steps ++ [.checkTimeout 3])).waitQueue.map Address.tuple ↔
      LatestSynRecent (packetTuple packet) 3 steps) := by
  refine ⟨by decide,fun same => ?_⟩
  have gone : packetTuple (tcpFrame 1 2 90 80 0x02) ∉
      (run [.gotPacket 0 (tcpFrame 1 2 90 80 0x02),.gotPacket 2 (tcpFrame 1 2 90 80 0x02),
        .checkTimeout 3]).waitQueue.map Address.tuple := by decide
  exact gone (same.mpr ⟨[.gotPacket 0 _],2,_,[],rfl,by decide,by simp,by decide,by simp⟩)

/- Both queues compare one orientation of a tuple and neither looks into the
other, so a pair of endpoints can be listed once for each orientation and queue. -/
def Between (k : Tuple) (a : Address) : Bool := a.tuple = k || a.tuple = k.reverse

theorem betweenIff {k a} : Between k a = true ↔ a.tuple = k ∨ a.tuple = k.reverse := by simp [Between]

def listings (k : Tuple) (q : Queues) : Nat := (q.waitQueue ++ q.connectedQueue).countP (Between k)

theorem oneOriented {queue : Queue} (distinct : Distinct queue) (k : Tuple) :
    queue.countP (fun a => a.tuple = k) ≤ 1 := by
  rw [KeyedList.countKeyEq distinct]
  split <;> omega

theorem twoBetween {queue : Queue} (distinct : Distinct queue) (k : Tuple) :
    queue.countP (Between k) ≤ 2 := by
  have split : queue.countP (Between k) ≤
      queue.countP (fun a => a.tuple = k) + queue.countP (fun a => a.tuple = k.reverse) := by
    induction queue with
    | nil => simp
    | cons a rest ih =>
      have tail := ih (KeyedList.distinctSublist (List.sublist_cons_self a rest) distinct)
      simp only [List.countP_cons,Between,Bool.or_eq_true,decide_eq_true_eq] at tail ⊢
      by_cases one : a.tuple = k <;> by_cases two : a.tuple = k.reverse <;> simp [one,two] <;> omega
  have one := oneOriented distinct k
  have two := oneOriented distinct k.reverse
  omega

theorem oneOrientation {queue : Queue} (distinct : Distinct queue) {k t : Tuple}
    (only : ∀ a ∈ queue, Between k a → a.tuple = t) : queue.countP (Between k) ≤ 1 := by
  have le : queue.countP (Between k) ≤ queue.countP (fun a => a.tuple = t) :=
    List.countP_mono_left (fun a mem between => by simpa using only a mem between)
  exact Nat.le_trans le (oneOriented distinct t)

theorem pushOutside {queue : Queue} {a : Address} {k : Tuple} (outside : Between k a = false) :
    (KeyedList.pushNew Address.tuple a queue).countP (Between k) = queue.countP (Between k) := by
  by_cases known : a.tuple ∈ queue.map Address.tuple
  · rw [KeyedList.pushNewKnown known]
  · rw [KeyedList.pushNewFresh known]
    simp [List.countP_append,outside]

theorem addressOutside {k t : Tuple} (now : Int) (outside : ¬ (t = k ∨ t = k.reverse)) :
    Between k (t.address now) = false :=
  Bool.eq_false_iff.mpr (fun inside => outside (betweenIff.mp inside))

theorem pushOnce {queue : Queue} (distinct : Distinct queue) {k t : Tuple} (now : Int)
    (only : ∀ a ∈ queue, Between k a → a.tuple = t) :
    (KeyedList.pushNew Address.tuple (t.address now) queue).countP (Between k) ≤ 1 := by
  apply oneOrientation (KeyedList.distinctPushNew distinct)
  intro a mem inside
  rcases KeyedList.memPushNew.mp mem with old | ⟨rfl,_⟩
  · exact only a old inside
  · rfl

/- A SYN meets no listing of its endpoints but its own waiting entry, a SYN-ACK
none but the waiting entry it answers and its own connected entry. -/
def InOrder (k : Tuple) (q : Queues) (packet : Packet) : Prop :=
  let t := packetTuple packet
  t = k ∨ t = k.reverse →
    (Syn t packet → (∀ a ∈ q.waitQueue, Between k a → a.tuple = t) ∧
      ∀ a ∈ q.connectedQueue, ¬ Between k a) ∧
    (SynAck t packet → (∀ a ∈ q.waitQueue, Between k a → a.tuple = t.reverse) ∧
      ∀ a ∈ q.connectedQueue, Between k a → a.tuple = t)
instance (k q packet) : Decidable (InOrder k q packet) := by unfold InOrder; infer_instance

def HandshakesInOrder (k : Tuple) : Queues → List Step → Prop
  | _,[] => True
  | q,.gotPacket now packet :: rest =>
      InOrder k q packet ∧ HandshakesInOrder k (step q (.gotPacket now packet)) rest
  | q,.checkTimeout now :: rest => HandshakesInOrder k (step q (.checkTimeout now)) rest

theorem handledOnce {now packet q q'} (h : Handled now packet q q') (valid : Valid q) {k : Tuple}
    (once : listings k q ≤ 1) (order : InOrder k q packet) : listings k q' ≤ 1 := by
  simp only [listings,List.countP_append] at once ⊢
  cases h with
  | ignored => exact once
  | closing t seen other =>
    have fewer := List.Sublist.countP_le (p := Between k) (List.Sublist.trans
      (List.eraseP_sublist (p := fun a => decide (Address.tuple a = t.reverse)))
      (List.eraseP_sublist (p := fun a => decide (Address.tuple a = t)) (l := q.connectedQueue)))
    simp only [KeyedList.eraseKey]
    omega
  | syn t seen other =>
    obtain ⟨accepted,flags,rfl⟩ := seen
    by_cases between : packetTuple packet = k ∨ packetTuple packet = k.reverse
    · obtain ⟨waiting,connected⟩ := (order between).1 ⟨accepted,flags,rfl⟩
      have none_ : q.connectedQueue.countP (Between k) = 0 := List.countP_eq_zero.mpr connected
      have one := pushOnce valid.1 now waiting
      simp only [none_]
      omega
    · simp only [pushOutside (addressOutside now between)]
      exact once
  | synAck t seen other =>
    obtain ⟨accepted,flags,rfl⟩ := seen
    have fewer : (KeyedList.eraseKey Address.tuple (packetTuple packet).reverse q.waitQueue).countP (Between k) ≤
        q.waitQueue.countP (Between k) := List.Sublist.countP_le List.eraseP_sublist
    by_cases between : packetTuple packet = k ∨ packetTuple packet = k.reverse
    · obtain ⟨waiting,connected⟩ := (order between).2 ⟨accepted,flags,rfl⟩
      have none_ : (KeyedList.eraseKey Address.tuple (packetTuple packet).reverse q.waitQueue).countP (Between k) = 0 := by
        apply List.countP_eq_zero.mpr
        intro a mem inside
        obtain ⟨old,other⟩ := (KeyedList.memEraseKey valid.1).mp mem
        exact other (waiting a old inside)
      have one := pushOnce valid.2 now connected
      simp only [none_]
      omega
    · simp only [pushOutside (addressOutside now between)]
      omega

theorem listedOnce {k q} (valid : Valid q) (once : listings k q ≤ 1) {steps}
    (order : HandshakesInOrder k q steps) : listings k (Trace.run step q steps) ≤ 1 := by
  induction steps generalizing q with
  | nil => exact once
  | cons s rest ih =>
    cases s with
    | gotPacket now packet =>
      obtain ⟨here,later⟩ := order
      exact ih (stepValid q _ valid) (handledOnce (gotPacketHandled now packet q) valid once here) later
    | checkTimeout now =>
      refine ih (stepValid q _ valid) ?_ order
      have fewer : (checkTimeout (fun _ => now) q.waitQueue).countP (Between k) ≤
          q.waitQueue.countP (Between k) := (checkTimeoutSublist _ _).countP_le
      simp only [listings,step,List.countP_append] at once ⊢
      omega

theorem listedPerOrientation (steps : List Step) (k : Tuple) :
    (run steps).waitQueue.countP (fun a => a.tuple = k) ≤ 1 ∧
    (run steps).connectedQueue.countP (fun a => a.tuple = k) ≤ 1 ∧
    (run steps).waitQueue.countP (Between k) ≤ 2 ∧ (run steps).connectedQueue.countP (Between k) ≤ 2 ∧
    (HandshakesInOrder k initial steps → listings k (run steps) ≤ 1) := by
  have valid := runValid steps
  exact ⟨oneOriented valid.1 k,oneOriented valid.2 k,twoBetween valid.1 k,twoBetween valid.2 k,
    listedOnce initialValid (Nat.zero_le 1)⟩

theorem listedPerOrientationHandshake :
    let syn := tcpFrame 1 2 90 80 0x02
    let steps := [Step.gotPacket 0 syn,.gotPacket 0 (tcpFrame 2 1 80 90 0x12)]
    HandshakesInOrder (packetTuple syn) initial steps ∧ listings (packetTuple syn) (run steps) ≤ 1 := by
  have order : HandshakesInOrder (packetTuple (tcpFrame 1 2 90 80 0x02)) initial
      [.gotPacket 0 (tcpFrame 1 2 90 80 0x02),.gotPacket 0 (tcpFrame 2 1 80 90 0x12)] :=
    ⟨by decide,by decide,trivial⟩
  exact ⟨order,(listedPerOrientation _ _).2.2.2.2 order⟩

theorem retransmittedSynListedTwice :
    let syn := tcpFrame 1 2 90 80 0x02
    let steps := [Step.gotPacket 0 syn,.gotPacket 0 (tcpFrame 2 1 80 90 0x12),.gotPacket 1 syn]
    ¬ listings (packetTuple syn) (run steps) ≤ 1 := by
  decide

end PracticeSuite.Sniffer
