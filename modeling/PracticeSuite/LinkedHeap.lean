import Mathlib

/-! Linked lists in a store of nodes: chains that end, and rings through an anchor linked both ways.
The link fields are functions on node addresses, and what an operation does to them is said field by
field, so that any store that has such fields can use the lemmas. -/
namespace PracticeSuite.LinkedHeap

variable {α : Type}

def Chain (next : α → Option α) : Option α → List α → Prop
  | head,[] => head = none
  | head,a::rest => head = some a ∧ Chain next (next a) rest

/- The links of the anchor and the nodes, in their order; the last one leads back to the anchor. -/
structure Ring (next prev : α → Option α) (anchor : α) (nodes : List α) : Prop where
  forward : (anchor::nodes).map next = (nodes ++ [anchor]).map some
  backward : (nodes ++ [anchor]).map prev = (anchor::nodes).map some
  distinct : (anchor::nodes).Nodup

section
variable {next other : α → Option α} {head : Option α} {nodes : List α}

theorem chainKept (same : ∀ a ∈ nodes, other a = next a) (chain : Chain next head nodes) : Chain other head nodes := by
  induction nodes generalizing head with
  | nil => exact chain
  | cons a rest ih =>
    refine ⟨chain.1,?_⟩
    rw [same a List.mem_cons_self]
    exact ih (fun b mem => same b (List.mem_cons_of_mem a mem)) chain.2

theorem chainPush {a : α} (chain : Chain next head nodes) (same : ∀ b ∈ nodes, other b = next b) (link : other a = head) :
    Chain other (some a) (a::nodes) := ⟨rfl,link ▸ chainKept same chain⟩

theorem chainCut {before : List α} {b a : α} (chain : Chain next head (before ++ b::a::nodes)) (distinct : (before ++ b::a::nodes).Nodup)
    (link : other b = next a) (same : ∀ c ∈ before ++ nodes, other c = next c) : Chain other head (before ++ b::nodes) := by
  induction before generalizing head with
  | nil =>
    refine ⟨chain.1,?_⟩
    rw [link]
    exact chainKept same chain.2.2
  | cons c rest ih =>
    refine ⟨chain.1,?_⟩
    rw [same c List.mem_cons_self]
    exact ih chain.2 (List.nodup_cons.mp distinct).2 (fun d mem => same d (List.mem_cons_of_mem c mem))

end

theorem eraseNext [DecidableEq α] {before nodes : List α} {b a : α} (distinct : (before ++ b::a::nodes).Nodup) :
    (before ++ b::a::nodes).erase a = before ++ b::nodes := by
  have split : before ++ b::a::nodes = (before ++ [b]) ++ a::nodes := by simp
  rw [split] at distinct ⊢
  have apart : a ∉ before ++ [b] := fun mem => (List.nodup_append.mp distinct).2.2 a mem a List.mem_cons_self rfl
  rw [List.erase_append_right _ apart,List.erase_cons_head,List.append_assoc]
  rfl

section
variable {next prev next' prev' : α → Option α} {anchor : α} {nodes : List α}

theorem ringEmpty (forward : next anchor = some anchor) (backward : prev anchor = some anchor) : Ring next prev anchor [] :=
  ⟨by simp [forward],by simp [backward],List.nodup_singleton anchor⟩

theorem ringKept (ring : Ring next prev anchor nodes) (sameNext : ∀ b ∈ anchor::nodes, next' b = next b)
    (samePrev : ∀ b ∈ anchor::nodes, prev' b = prev b) : Ring next' prev' anchor nodes := by
  refine ⟨?_,?_,ring.distinct⟩
  · rw [List.map_congr_left sameNext,ring.forward]
  · rw [List.map_congr_left (fun b mem => samePrev b (by simpa [or_comm] using mem)),ring.backward]

theorem ringFirst (ring : Ring next prev anchor nodes) : next anchor = some (nodes.headD anchor) ∧ prev (nodes.headD anchor) = some anchor := by
  have forward := ring.forward
  have backward := ring.backward
  cases nodes <;> exact ⟨(List.cons.inj forward).1,(List.cons.inj backward).1⟩

theorem ringInsert {a y : α} (ring : Ring next prev anchor nodes) (new : a ∉ anchor::nodes) (first : next anchor = some y)
    (out : next' a = some y) (in_ : next' anchor = some a) (back : prev' a = some anchor) (again : prev' y = some a)
    (sameNext : ∀ b ∈ nodes, next' b = next b) (samePrev : ∀ b ∈ anchor::nodes, b ≠ y → prev' b = prev b) :
      Ring next' prev' anchor (a::nodes) := by
  have forward := ring.forward
  have backward := ring.backward
  have cyclic : (nodes ++ [anchor]).Nodup := (List.perm_append_singleton anchor nodes).nodup_iff.mpr ring.distinct
  obtain ⟨rest,split⟩ : ∃ rest, nodes ++ [anchor] = y::rest := by
    rw [(ringFirst ring).1] at first
    cases Option.some.inj first
    cases nodes with
    | nil => exact ⟨[],rfl⟩
    | cons b rest => exact ⟨rest ++ [anchor],rfl⟩
  refine ⟨?_,?_,?_⟩
  · have kept : nodes.map next' = nodes.map next := List.map_congr_left sameNext
    rw [List.map_cons,List.map_cons,in_,out,kept,List.cons_append,List.map_cons,← forward,List.map_cons,first]
  · rw [split] at backward cyclic
    have kept : rest.map prev' = rest.map prev := by
      refine List.map_congr_left (fun b mem => samePrev b ?_ ?_)
      · have among : b ∈ nodes ++ [anchor] := split ▸ List.mem_cons_of_mem y mem
        simpa [or_comm] using among
      · exact fun same => (List.nodup_cons.mp cyclic).1 (same ▸ mem)
    rw [List.cons_append,split,List.map_cons,List.map_cons,back,again,kept,List.map_cons,List.map_cons]
    exact congrArg (fun tail => some anchor :: some a :: tail) (List.cons.inj backward).2
  · rw [List.nodup_cons,List.nodup_cons]
    have distinct := List.nodup_cons.mp ring.distinct
    simp only [List.mem_cons,not_or] at new ⊢
    exact ⟨⟨fun same => new.1 same.symm,distinct.1⟩,new.2,distinct.2⟩

theorem ringAround {before after : List α} {a x y : α} (ring : Ring next prev anchor (before ++ a::after)) (back : prev a = some x)
    (ahead : next a = some y) : ∃ first last, anchor::before = first ++ [x] ∧ after ++ [anchor] = y::last ∧
      first.map next = before.map some ∧ after.map next = last.map some ∧ before.map prev = first.map some ∧ last.map prev = after.map some := by
  obtain ⟨first,z,split⟩ : ∃ first z, anchor::before = first ++ [z] :=
    ⟨_,_,(List.dropLast_append_getLast (List.cons_ne_nil anchor before)).symm⟩
  have length : first.length = before.length := by simpa using congrArg List.length split.symm
  have forward : (first ++ [z]).map next ++ (a::after).map next = (before ++ [a]).map some ++ (after ++ [anchor]).map some := by
    rw [← split]
    simpa using ring.forward
  have backward : before.map prev ++ (a::(after ++ [anchor])).map prev = first.map some ++ (z::a::after).map some := by
    have whole := ring.backward
    rw [← List.cons_append,split] at whole
    simpa using whole
  obtain ⟨upTo,from_⟩ := List.append_inj forward (by simp [length])
  rw [List.map_append,List.map_append] at upTo
  have heads := (List.append_inj upTo (by simp [length])).1
  obtain ⟨tails,rest⟩ := List.append_inj backward (by simp [length])
  rw [List.map_cons,List.map_cons,back] at rest
  obtain ⟨sameX,further⟩ := List.cons.inj rest
  cases Option.some.inj sameX
  rw [List.map_cons,ahead] at from_
  cases behind : after ++ [anchor] with
  | nil => simp at behind
  | cons b last =>
    rw [behind] at from_ further
    obtain ⟨sameY,afters⟩ := List.cons.inj from_
    obtain ⟨-,lasts⟩ := List.cons.inj further
    cases Option.some.inj sameY
    exact ⟨first,last,split,rfl,heads,afters,tails,lasts⟩

theorem ringNext {before after : List α} {a : α} (ring : Ring next prev anchor (before ++ a::after)) : next a = some (after.headD anchor) := by
  have forward := ring.forward
  have split : (anchor::(before ++ a::after)).map next = (anchor::before).map next ++ next a :: after.map next := by simp
  have again : (before ++ a::after ++ [anchor]).map some = (before ++ [a]).map some ++ (after ++ [anchor]).map some := by simp
  rw [split,again] at forward
  have tails := (List.append_inj forward (by simp)).2
  cases after <;> exact (List.cons.inj tails).1

theorem ringNeighbours {a : α} (ring : Ring next prev anchor nodes) (mem : a ∈ nodes) :
    ∃ x y, prev a = some x ∧ next a = some y ∧ x ∈ anchor::nodes ∧ y ∈ anchor::nodes ∧ a ≠ x ∧ a ≠ y := by
  have ahead : next a ∈ (nodes ++ [anchor]).map some := ring.forward ▸ List.mem_map_of_mem (List.mem_cons_of_mem anchor mem)
  have back : prev a ∈ (anchor::nodes).map some := ring.backward ▸ List.mem_map_of_mem (List.mem_append_left [anchor] mem)
  obtain ⟨y,memY,nextY⟩ := List.mem_map.mp ahead
  obtain ⟨x,memX,prevX⟩ := List.mem_map.mp back
  obtain ⟨before,after,rfl⟩ := List.append_of_mem mem
  obtain ⟨first,last,split,behind,-⟩ := ringAround ring prevX.symm nextY.symm
  have distinct := ring.distinct
  rw [← List.cons_append,split] at distinct
  have fromAfter : y ∈ after ++ [anchor] := behind ▸ List.mem_cons_self
  have cyclic : (before ++ a::after ++ [anchor]).Nodup := (List.perm_append_singleton anchor _).nodup_iff.mpr ring.distinct
  exact ⟨x,y,prevX.symm,nextY.symm,memX,(List.perm_append_singleton anchor _).mem_iff.mp memY,by grind,by grind⟩

theorem ringUnlink {before after : List α} {a x y : α} (ring : Ring next prev anchor (before ++ a::after)) (back : prev a = some x)
    (ahead : next a = some y) (join : next' x = some y) (joined : prev' y = some x)
    (sameNext : ∀ b ∈ anchor::(before ++ after), b ≠ x → next' b = next b)
    (samePrev : ∀ b ∈ anchor::(before ++ after), b ≠ y → prev' b = prev b) : Ring next' prev' anchor (before ++ after) := by
  obtain ⟨first,last,split,behind,heads,afters,tails,lasts⟩ := ringAround ring back ahead
  have distinct : (first ++ [x] ++ after).Nodup := by
    rw [← split]
    exact ring.distinct.sublist (by simp)
  have cyclic : (before ++ (y::last)).Nodup := by
    rw [← behind,← List.append_assoc]
    exact (List.perm_append_singleton anchor (before ++ after)).nodup_iff.mpr (by simpa [← split] using distinct)
  have named : ∀ b, b ∈ anchor::(before ++ after) ↔ b ∈ first ++ [x] ++ after := by
    intro b
    rw [← split]
    simp
  refine ⟨?_,?_,?_⟩
  · have keepFirst : first.map next' = first.map next := List.map_congr_left (fun b mem => sameNext b ((named b).mpr (by simp [mem])) (by grind))
    have keepAfter : after.map next' = after.map next := List.map_congr_left (fun b mem => sameNext b ((named b).mpr (by simp [mem])) (by grind))
    rw [← List.cons_append,split,List.append_assoc before,behind]
    simp only [List.map_append,List.map_cons,join,keepFirst,keepAfter,heads,afters,List.append_assoc,List.cons_append,List.nil_append]
  · have keepBefore : before.map prev' = before.map prev := List.map_congr_left (fun b mem => samePrev b (by simp [mem]) (by grind))
    have keepLast : last.map prev' = last.map prev := by
      refine List.map_congr_left (fun b mem => samePrev b ?_ (by grind))
      have among : b ∈ after ++ [anchor] := behind ▸ List.mem_cons_of_mem y mem
      rcases List.mem_append.mp among with mem | mem
      · simp [mem]
      · simp [List.mem_singleton.mp mem]
    rw [← List.cons_append,split,List.append_assoc before,behind]
    simp only [List.map_append,List.map_cons,joined,keepBefore,keepLast,tails,lasts,List.append_assoc,List.cons_append,List.nil_append]
  · rw [← List.cons_append,split]
    exact distinct

end

end PracticeSuite.LinkedHeap
