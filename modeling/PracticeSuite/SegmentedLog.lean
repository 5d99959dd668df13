import Mathlib

/-! A log that only grows, cut into segments of one size. Reading inside a segment is reading
the log, and a segment that is full stays as it is. -/
namespace PracticeSuite.SegmentedLog

variable {β : Type}

def slice (log : List β) (position n : Nat) : List β := (log.drop position).take n

def segment (size : Nat) (log : List β) (k : Nat) : List β := slice log (size*k) size

def records (width : Nat) (log : List β) (position n : Nat) : List (List β) :=
  (List.range n).map (fun k => slice log (position + width*k) width)

variable {log : List β} {position n size width k : Nat}

theorem sliceLength : (slice log position n).length = min n (log.length - position) := by
  simp [slice]

theorem sliceFull (inside : position + n ≤ log.length) : (slice log position n).length = n := by
  rw [sliceLength]
  omega

theorem sliceAppend (inside : position + n ≤ log.length) (more : List β) : slice (log ++ more) position n = slice log position n := by
  unfold slice
  rw [List.drop_append_of_le_length (by omega),List.take_append_of_le_length (by simp; omega)]

theorem sliceSlice {offset width : Nat} (inside : offset + width ≤ n) :
    slice (slice log position n) offset width = slice log (position + offset) width := by
  unfold slice
  rw [List.drop_take,List.drop_drop,List.take_take]
  congr 1
  omega

theorem segmentLength : (segment size log k).length = min size (log.length - size*k) := sliceLength

theorem segmentFull (full : size*(k+1) ≤ log.length) : (segment size log k).length = size := by
  rw [Nat.mul_succ] at full
  exact sliceFull full

theorem segmentKept (full : size*(k+1) ≤ log.length) (more : List β) : segment size (log ++ more) k = segment size log k := by
  rw [Nat.mul_succ] at full
  exact sliceAppend full more

theorem segmentGrown {more : List β} (begun : size*k ≤ log.length) (fits : log.length + more.length ≤ size*(k+1)) :
    segment size (log ++ more) k = segment size log k ++ more := by
  rw [Nat.mul_succ] at fits
  unfold segment slice
  rw [List.drop_append_of_le_length begun,List.take_of_length_le (by simp; omega),List.take_of_length_le (by simp; omega)]

theorem segmentEmpty (behind : log.length ≤ size*k) : segment size log k = [] := by
  unfold segment slice
  rw [List.drop_eq_nil_of_le behind,List.take_nil]

theorem segmentRead {offset : Nat} (inside : offset + width ≤ size) :
    slice (segment size log k) offset width = slice log (size*k + offset) width := sliceSlice inside

theorem segmentsJoin (first : Nat) : (List.range' first n).flatMap (segment size log) = slice log (size*first) (size*n) := by
  induction n generalizing first with
  | zero => simp [slice]
  | succ n ih =>
    rw [List.range'_succ,List.flatMap_cons,ih (first+1)]
    unfold segment slice
    rw [Nat.mul_succ size first,Nat.mul_succ size n,Nat.add_comm (size*n) size,List.take_add,List.drop_drop]

theorem recordsSucc : records width log position (n+1) = records width log position n ++ [slice log (position + width*n) width] := by
  simp [records,List.range_succ]

theorem recordsAppend (inside : position + width*n ≤ log.length) (more : List β) :
    records width (log ++ more) position n = records width log position n := by
  unfold records
  apply List.map_congr_left
  intro k mem
  have later : width*(k+1) ≤ width*n := Nat.mul_le_mul_left width (List.mem_range.mp mem)
  rw [Nat.mul_succ] at later
  exact sliceAppend (by omega) more

theorem recordsBehind (more : List β) : records width (log ++ more) log.length n = records width more 0 n := by
  unfold records slice
  apply List.map_congr_left
  intro k _
  rw [List.drop_append,List.drop_eq_nil_of_le (Nat.le_add_right _ _),List.nil_append,Nat.add_sub_cancel_left,Nat.zero_add]

theorem recordsPrefix {m : Nat} (le : n ≤ m) : (records width log position n).IsPrefix (records width log position m) := by
  induction m, le using Nat.le_induction with
  | base => exact List.prefix_rfl
  | succ m _ ih =>
    rw [recordsSucc]
    exact ih.trans (List.prefix_append _ _)

end PracticeSuite.SegmentedLog
