import Mathlib.Data.List.Basic
import Mathlib.Algebra.Order.Ring.Nat
import Mathlib.Tactic.Ring

/-! Structures as they lie in memory, field after field with the least byte first, and files that are
sequences of pieces of different lengths. -/
namespace PracticeSuite.StructLayout

abbrev Bytes := List UInt8

def toBytes : Nat → Nat → Bytes
  | 0,_ => []
  | width+1,n => UInt8.ofNat n :: toBytes width (n / 256)

def ofBytes (bs : Bytes) : Nat := bs.foldr (fun b n => b.toNat + 256*n) 0

@[simp] theorem toBytesLength (width n : Nat) : (toBytes width n).length = width := by
  induction width generalizing n with
  | zero => rfl
  | succ width ih => rw [toBytes,List.length_cons,ih]

theorem ofToBytes {width n : Nat} (fits : n < 256^width) : ofBytes (toBytes width n) = n := by
  induction width generalizing n with
  | zero =>
    rw [Nat.pow_zero] at fits
    exact (Nat.lt_one_iff.mp fits).symm
  | succ width ih =>
    have less : n / 256 < 256^width := Nat.div_lt_of_lt_mul (by rwa [Nat.pow_succ'] at fits)
    have later : ofBytes (toBytes width (n / 256)) = n / 256 := ih less
    rw [toBytes,ofBytes,List.foldr_cons,← ofBytes,later,UInt8.toNat_ofNat']
    exact Nat.mod_add_div n 256

def pack (fields : List (Nat × Nat)) : Bytes := fields.flatMap (fun f => toBytes f.1 f.2)

def unpack : List Nat → Bytes → List Nat
  | [],_ => []
  | width::rest,bs => ofBytes (bs.take width) :: unpack rest (bs.drop width)

theorem packLength (fields : List (Nat × Nat)) : (pack fields).length = (fields.map Prod.fst).sum := by
  induction fields with
  | nil => rfl
  | cons f rest ih => rw [pack,List.flatMap_cons,List.length_append,toBytesLength,← pack,ih,List.map_cons,List.sum_cons]

theorem unpackPack {fields : List (Nat × Nat)} (fit : ∀ f ∈ fields, f.2 < 256^f.1) (behind : Bytes) :
    unpack (fields.map Prod.fst) (pack fields ++ behind) = fields.map Prod.snd := by
  induction fields with
  | nil => rfl
  | cons f rest ih =>
    have length := toBytesLength f.1 f.2
    have whole : pack (f::rest) ++ behind = toBytes f.1 f.2 ++ (pack rest ++ behind) := by rw [pack,List.flatMap_cons,← pack,List.append_assoc]
    have front : (toBytes f.1 f.2 ++ (pack rest ++ behind)).take f.1 = toBytes f.1 f.2 := List.take_left' length
    have back : (toBytes f.1 f.2 ++ (pack rest ++ behind)).drop f.1 = pack rest ++ behind := List.drop_left' length
    rw [whole,List.map_cons,unpack,front,back,ofToBytes (fit f List.mem_cons_self),ih (fun g mem => fit g (List.mem_cons_of_mem f mem)),
      List.map_cons]

variable {β : Type}

def place (pieces : List (List β)) (n : Nat) : Nat := (pieces.take n).flatten.length

theorem placeInside (pieces : List (List β)) (n : Nat) : place pieces n ≤ pieces.flatten.length := by
  have whole : pieces.flatten = (pieces.take n).flatten ++ (pieces.drop n).flatten := by rw [← List.flatten_append,List.take_append_drop]
  rw [whole,List.length_append,place]
  exact Nat.le_add_right _ _

theorem dropPlace (pieces : List (List β)) (n : Nat) : pieces.flatten.drop (place pieces n) = (pieces.drop n).flatten := by
  have whole : pieces.flatten = (pieces.take n).flatten ++ (pieces.drop n).flatten := by rw [← List.flatten_append,List.take_append_drop]
  rw [whole,place,List.drop_left]

theorem placeNext {pieces : List (List β)} {n : Nat} {piece : List β} (here : pieces[n]? = some piece) :
    place pieces (n+1) = place pieces n + piece.length := by
  rw [place,List.take_add_one,here,List.flatten_append,List.length_append,place]
  simp

theorem dropPiece {pieces : List (List β)} {n : Nat} {piece : List β} (here : pieces[n]? = some piece) :
    pieces.flatten.drop (place pieces n) = piece ++ pieces.flatten.drop (place pieces (n+1)) := by
  rw [dropPlace,dropPlace]
  obtain ⟨inside,rfl⟩ := List.getElem?_eq_some_iff.mp here
  rw [List.drop_eq_getElem_cons inside,List.flatten_cons]

def pieces (size : Nat) : Nat → List β → List (List β)
  | 0,_ => []
  | count+1,bs => bs.take size :: pieces size count (bs.drop size)

theorem piecesFlatten {size : Nat} {parts : List (List β)} (same : ∀ p ∈ parts, p.length = size) :
    pieces size parts.length parts.flatten = parts := by
  induction parts with
  | nil => rfl
  | cons p rest ih =>
    have length := same p List.mem_cons_self
    rw [List.length_cons,List.flatten_cons,pieces,List.take_left' length,List.drop_left' length,
      ih (fun q mem => same q (List.mem_cons_of_mem p mem))]

theorem flattenLength {size : Nat} {parts : List (List β)} (same : ∀ p ∈ parts, p.length = size) : parts.flatten.length = size*parts.length := by
  induction parts with
  | nil => rfl
  | cons p rest ih =>
    rw [List.flatten_cons,List.length_append,same p List.mem_cons_self,ih (fun q mem => same q (List.mem_cons_of_mem p mem)),List.length_cons]
    ring

end PracticeSuite.StructLayout
