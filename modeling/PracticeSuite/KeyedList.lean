import Mathlib.Data.List.Nodup

/-! Lists searched by a key, front to back. Erasing and modifying act on the
first match only, so what they do to a list as a whole depends on its keys
being distinct; insertion keeps them so. -/
namespace PracticeSuite.KeyedList

variable {α κ : Type} [DecidableEq κ]

def lookup (key : α → κ) (k : κ) (xs : List α) : Option α := xs.find? (fun a => key a = k)

def pushNew (key : α → κ) (a : α) (xs : List α) : List α :=
  match lookup key (key a) xs with
  | none => xs ++ [a]
  | some _ => xs

def upsert (key : α → κ) (a : α) : List α → List α
  | [] => [a]
  | b::rest => if key b = key a then a::rest else b :: upsert key a rest

def eraseKey (key : α → κ) (k : κ) (xs : List α) : List α := xs.eraseP (fun a => key a = k)

def modifyKey (key : α → κ) (k : κ) (f : α → α) : List α → List α
  | [] => []
  | a::rest => if key a = k then f a :: rest else a :: modifyKey key k f rest

def Distinct (key : α → κ) (xs : List α) : Prop := (xs.map key).Nodup
instance (key : α → κ) (xs : List α) : Decidable (Distinct key xs) := by
  unfold Distinct; infer_instance

variable {key : α → κ} {xs : List α}

theorem lookupNone {k : κ} : lookup key k xs = none ↔ k ∉ xs.map key := by
  simp [lookup]

theorem lookupSound {k : κ} {a : α} (found : lookup key k xs = some a) : a ∈ xs ∧ key a = k :=
  ⟨List.mem_of_find?_eq_some found,by simpa using List.find?_some found⟩

theorem pushNewFresh {a : α} (fresh : key a ∉ xs.map key) : pushNew key a xs = xs ++ [a] := by
  simp only [pushNew,lookupNone.mpr fresh]

theorem pushNewKnown {a : α} (known : key a ∈ xs.map key) : pushNew key a xs = xs := by
  unfold pushNew
  cases found : lookup key (key a) xs with
  | none => exact absurd known (lookupNone.mp found)
  | some b => rfl

theorem memPushNew {a b : α} : b ∈ pushNew key a xs ↔ b ∈ xs ∨ (b = a ∧ key a ∉ xs.map key) := by
  by_cases known : key a ∈ xs.map key
  · rw [pushNewKnown known]
    exact ⟨Or.inl,fun h => h.elim id (fun new => absurd known new.2)⟩
  · rw [pushNewFresh known,List.mem_append,List.mem_singleton]
    exact ⟨fun h => h.imp_right (fun same => ⟨same,known⟩),fun h => h.imp_right And.left⟩

theorem keyPushNew {a : α} {k : κ} :
    k ∈ (pushNew key a xs).map key ↔ k = key a ∨ k ∈ xs.map key := by
  by_cases known : key a ∈ xs.map key
  · rw [pushNewKnown known]
    exact ⟨Or.inr,fun h => h.elim (fun same => same ▸ known) id⟩
  · rw [pushNewFresh known,List.map_append,List.mem_append,or_comm]
    simp

theorem distinctPushNew {a : α} (distinct : Distinct key xs) : Distinct key (pushNew key a xs) := by
  by_cases known : key a ∈ xs.map key
  · rwa [pushNewKnown known]
  · rw [pushNewFresh known,Distinct,List.map_append]
    exact List.nodup_append.mpr ⟨distinct,by simp,by
      intro x old y new same
      rw [List.map_singleton,List.mem_singleton] at new
      exact known (by rw [← new,← same]; exact old)⟩

theorem pushNewCons (a b : α) :
    pushNew key a (b::xs) = if key b = key a then b::xs else b :: pushNew key a xs := by
  unfold pushNew lookup
  by_cases same : key b = key a
  · rw [List.find?_cons_of_pos (by simpa using same),if_pos same]
  · rw [List.find?_cons_of_neg (by simpa using same),if_neg same]
    cases xs.find? (fun c => key c = key a) <;> rfl

theorem lookupPushNew (a : α) (k : κ) :
    lookup key k (pushNew key a xs) = if k = key a then some ((lookup key k xs).getD a) else lookup key k xs := by
  cases found : lookup key (key a) xs with
  | none =>
    rw [pushNewFresh (lookupNone.mp found)]
    unfold lookup at found ⊢
    rw [List.find?_append]
    split
    · rename_i same
      subst same
      simp [found]
    · rename_i other
      simp [Ne.symm other]
  | some b =>
    have known : key a ∈ xs.map key := by
      obtain ⟨mem,same⟩ := lookupSound found
      exact same ▸ List.mem_map_of_mem mem
    rw [pushNewKnown known]
    split
    · rename_i same
      rw [same,found,Option.getD_some]
    · rfl

omit [DecidableEq κ] in
theorem distinctSublist {ys : List α} (sub : ys.Sublist xs) (distinct : Distinct key xs) :
    Distinct key ys := List.Nodup.sublist (sub.map key) distinct

theorem distinctEraseKey {k : κ} (distinct : Distinct key xs) : Distinct key (eraseKey key k xs) :=
  distinctSublist List.eraseP_sublist distinct

theorem eraseKeyFilter {k : κ} (distinct : Distinct key xs) :
    eraseKey key k xs = xs.filter (fun a => key a ≠ k) := by
  induction xs with
  | nil => rfl
  | cons a rest ih =>
    obtain ⟨fresh,tail⟩ := List.nodup_cons.mp distinct
    by_cases same : key a = k
    · have keep : ∀ b ∈ rest, key b ≠ k := fun b mem hit =>
        fresh (List.mem_map.mpr ⟨b,mem,hit.trans same.symm⟩)
      rw [eraseKey,List.eraseP_cons_of_pos (by simpa using same),
        List.filter_cons_of_neg (by simpa using same)]
      exact (List.filter_eq_self.mpr (fun b mem => by simpa using keep b mem)).symm
    · rw [eraseKey,List.eraseP_cons_of_neg (by simpa using same),
        List.filter_cons_of_pos (by simpa using same)]
      exact congrArg (a :: ·) (ih tail)

theorem memEraseKey {k : κ} {a : α} (distinct : Distinct key xs) :
    a ∈ eraseKey key k xs ↔ a ∈ xs ∧ key a ≠ k := by
  simp [eraseKeyFilter distinct]

theorem keyEraseKey {k k' : κ} (distinct : Distinct key xs) :
    k' ∈ (eraseKey key k xs).map key ↔ k' ∈ xs.map key ∧ k' ≠ k := by
  simp only [List.mem_map,memEraseKey distinct]
  constructor
  · intro h
    obtain ⟨a,⟨mem,other⟩,rfl⟩ := h
    exact ⟨⟨a,mem,rfl⟩,other⟩
  · intro h
    obtain ⟨⟨a,mem,rfl⟩,other⟩ := h
    exact ⟨a,⟨mem,other⟩,rfl⟩

omit [DecidableEq κ] in
theorem equalOfKey {a b : α} (distinct : Distinct key xs) (left : a ∈ xs) (right : b ∈ xs)
    (same : key a = key b) : a = b :=
  List.inj_on_of_nodup_map distinct left right same

theorem countKeyEq {k : κ} (distinct : Distinct key xs) :
    xs.countP (fun a => key a = k) = if k ∈ xs.map key then 1 else 0 := by
  have count : xs.countP (fun a => key a = k) = (xs.map key).count k := by
    rw [List.count,List.countP_map]
    congr 1
  rw [count]
  split
  · exact List.count_eq_one_of_mem distinct ‹_›
  · exact List.count_eq_zero_of_not_mem ‹_›

theorem keysModify {k : κ} {f : α → α} (keeps : ∀ a, key (f a) = key a) :
    (modifyKey key k f xs).map key = xs.map key := by
  induction xs with
  | nil => rfl
  | cons a rest ih =>
    simp only [modifyKey]
    split
    · simp [keeps]
    · simp [ih]

theorem lookupModify {k : κ} {f : α → α} (keeps : ∀ a, key (f a) = key a) (k' : κ) :
    lookup key k' (modifyKey key k f xs) = if k' = k then (lookup key k xs).map f else lookup key k' xs := by
  induction xs with
  | nil => simp [modifyKey,lookup]
  | cons a rest ih =>
    simp only [modifyKey]
    split
    · rename_i hit
      by_cases same : k' = k
      · simp [lookup,keeps,hit,same]
      · have miss : key a ≠ k' := fun h => same (h.symm.trans hit)
        simp [lookup,keeps,miss,same]
    · rename_i miss
      by_cases here : key a = k'
      · have other : k' ≠ k := fun h => miss (here.trans h)
        simp [lookup,here,other]
      · have step : lookup key k' (a :: modifyKey key k f rest) = lookup key k' (modifyKey key k f rest) := by
          simp [lookup,here]
        rw [step,ih]
        simp [lookup,here,miss]

theorem keyUpsert {a : α} {k : κ} : k ∈ (upsert key a xs).map key ↔ k = key a ∨ k ∈ xs.map key := by
  induction xs with
  | nil => simp [upsert]
  | cons b rest ih =>
    simp only [upsert]
    split
    · rename_i same
      simp [same]
    · rw [List.map_cons,List.mem_cons,ih,List.map_cons,List.mem_cons]
      exact or_left_comm

theorem distinctUpsert {a : α} (distinct : Distinct key xs) : Distinct key (upsert key a xs) := by
  induction xs with
  | nil => exact List.nodup_singleton _
  | cons b rest ih =>
    obtain ⟨fresh,tail⟩ := List.nodup_cons.mp distinct
    simp only [upsert]
    split
    · rename_i same
      exact List.nodup_cons.mpr ⟨same ▸ fresh,tail⟩
    · rename_i other
      refine List.nodup_cons.mpr ⟨fun mem => ?_,ih tail⟩
      rcases keyUpsert.mp mem with same | old
      · exact other same
      · exact fresh old

theorem lookupUpsert (a : α) (k : κ) :
    lookup key k (upsert key a xs) = if k = key a then some a else lookup key k xs := by
  induction xs with
  | nil =>
    by_cases same : key a = k
    · simp [upsert,lookup,same]
    · simp [upsert,lookup,same,Ne.symm same]
  | cons b rest ih =>
    simp only [upsert]
    split
    · rename_i hit
      by_cases same : k = key a
      · simp [lookup,same]
      · have first : key a ≠ k := Ne.symm same
        simp [lookup,same,first,hit]
    · rename_i miss
      by_cases here : key b = k
      · have other : k ≠ key a := fun same => miss (here.trans same)
        simp [lookup,here,other]
      · have step : lookup key k (b :: upsert key a rest) = lookup key k (upsert key a rest) := by
          simp [lookup,here]
        rw [step,ih]
        simp [lookup,here]

def upserts (key : α → κ) (entries : List α) (xs : List α) : List α := entries.foldl (fun xs a => upsert key a xs) xs

theorem keyUpserts {entries : List α} {k : κ} :
    k ∈ (upserts key entries xs).map key ↔ k ∈ entries.map key ∨ k ∈ xs.map key := by
  induction entries generalizing xs with
  | nil => simp [upserts]
  | cons a rest ih =>
    have step : k ∈ (upserts key rest (upsert key a xs)).map key ↔ _ := ih
    rw [keyUpsert,or_left_comm,← or_assoc] at step
    rwa [List.map_cons,List.mem_cons]

theorem distinctUpserts {entries : List α} (distinct : Distinct key xs) : Distinct key (upserts key entries xs) := by
  induction entries generalizing xs with
  | nil => exact distinct
  | cons a rest ih => exact ih (distinctUpsert distinct)

theorem lookupUpserts {earlier between : List α} {a : α} (since : ∀ b ∈ between, key b ≠ key a) :
    lookup key (key a) (upserts key (earlier ++ a :: between) xs) = some a := by
  have kept : ∀ ys, lookup key (key a) (upserts key between ys) = lookup key (key a) ys := by
    intro ys
    induction between generalizing ys with
    | nil => rfl
    | cons b rest ih =>
      have other := since b List.mem_cons_self
      have later : lookup key (key a) (upserts key rest (upsert key b ys)) = _ :=
        ih (fun c mem => since c (List.mem_cons_of_mem _ mem)) _
      rw [lookupUpsert,if_neg (Ne.symm other)] at later
      exact later
  have split : upserts key (earlier ++ a :: between) xs = upserts key between (upsert key a (upserts key earlier xs)) := by
    simp [upserts]
  rw [split,kept,lookupUpsert,if_pos rfl]

omit [DecidableEq κ] in
theorem lastOfKey {k : κ} (present : k ∈ xs.map key) :
    ∃ earlier a between, xs = earlier ++ a :: between ∧ key a = k ∧ ∀ b ∈ between, key b ≠ k := by
  induction xs with
  | nil => cases present
  | cons a rest ih =>
    by_cases later : k ∈ rest.map key
    · obtain ⟨earlier,b,between,rfl,found,since⟩ := ih later
      exact ⟨a::earlier,b,between,rfl,found,since⟩
    · have here : k = key a := (List.mem_cons.mp present).resolve_right later
      exact ⟨[],a,rest,rfl,here.symm,fun b mem same => later (same ▸ List.mem_map_of_mem mem)⟩

end PracticeSuite.KeyedList
