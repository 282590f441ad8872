import Mathlib.Algebra.Group.Nat.Defs
import Mathlib.Data.List.Basic

/-! Writes into sequences, and numbers as sequences of bytes. -/

namespace ByteLists

section Writes

variable {α : Type}

/-- The elements from `off` on give way to `data`. -/
def overwrite (items : List α) (off : Nat) (data : List α) : List α :=
  items.take off ++ data ++ items.drop (off + data.length)

/-- At least `n` elements. -/
def padTo (fill : α) (items : List α) (n : Nat) : List α :=
  items ++ List.replicate (n - items.length) fill

/-- A write that may reach past the end: the gap is filled. -/
def writeAt (fill : α) (items : List α) (off : Nat) (data : List α) : List α :=
  overwrite (padTo fill items (off + data.length)) off data

variable {items data : List α} {off n : Nat} {fill : α}

theorem length_overwrite (h : off + data.length ≤ items.length) :
    (overwrite items off data).length = items.length := by
  unfold overwrite
  rw [List.length_append, List.length_append, List.length_take, List.length_drop]
  omega

theorem overwrite_nil : overwrite items off [] = items := by
  unfold overwrite
  rw [List.append_nil, List.length_nil, Nat.add_zero, List.take_append_drop]

/-- A write past the elements in use reaches only what is behind them. -/
theorem take_overwrite_append (h : off + data.length ≤ items.length) :
    (overwrite items off data).take (off + data.length) = items.take off ++ data := by
  unfold overwrite
  have hlen : (items.take off ++ data).length = off + data.length := by
    rw [List.length_append, List.length_take]
    omega
  rw [← hlen, List.take_left]

theorem take_overwrite (hn : off + data.length ≤ n) (h : n ≤ items.length) :
    (overwrite items off data).take n = overwrite (items.take n) off data := by
  have hleft : (items.take off ++ data).length = off + data.length := by
    rw [List.length_append, List.length_take]
    omega
  unfold overwrite
  rw [List.take_append, hleft, List.take_of_length_le (by omega), List.take_drop, List.take_take]
  congr 3 <;> omega

theorem padTo_of_le (h : n ≤ items.length) : padTo fill items n = items := by
  unfold padTo
  rw [Nat.sub_eq_zero_of_le h, List.replicate_zero, List.append_nil]

theorem length_padTo : (padTo fill items n).length = max items.length n := by
  unfold padTo
  rw [List.length_append, List.length_replicate]
  omega

theorem length_writeAt : (writeAt fill items off data).length = max items.length (off + data.length) := by
  unfold writeAt
  rw [length_overwrite, length_padTo]
  rw [length_padTo]
  omega

theorem getElem?_overwrite (h : off + data.length ≤ items.length) (i : Nat) :
    (overwrite items off data)[i]? =
      if off ≤ i ∧ i < off + data.length then data[i - off]? else items[i]? := by
  have hbefore : (items.take off).length = off := by
    rw [List.length_take]
    omega
  have hleft : (items.take off ++ data).length = off + data.length := by
    rw [List.length_append, hbefore]
  unfold overwrite
  rcases Nat.lt_or_ge i off with hlt | hge
  · rw [if_neg (by omega), List.getElem?_append_left (by omega), List.getElem?_append_left (by omega),
      List.getElem?_take_of_lt hlt]
  · rcases Nat.lt_or_ge i (off + data.length) with hin | hout
    · rw [if_pos ⟨hge, hin⟩, List.getElem?_append_left (by omega),
        List.getElem?_append_right (by omega), hbefore]
    · rw [if_neg (by omega), List.getElem?_append_right (by omega), hleft, List.getElem?_drop]
      congr 1
      omega

theorem getElem?_padTo (i : Nat) : (padTo fill items n)[i]? =
    if i < items.length then items[i]? else if i < n then some fill else none := by
  unfold padTo
  split_ifs with hin hfill
  · exact List.getElem?_append_left hin
  · rw [List.getElem?_append_right (by omega), List.getElem?_replicate, if_pos (by omega)]
  · rw [List.getElem?_append_right (by omega), List.getElem?_replicate, if_neg (by omega)]

/-- What was written is there, what was elsewhere stays, and the gap is filled. -/
theorem getElem?_writeAt (i : Nat) : (writeAt fill items off data)[i]? =
    if off ≤ i ∧ i < off + data.length then data[i - off]?
    else if i < items.length then items[i]? else if i < off then some fill else none := by
  unfold writeAt
  rw [getElem?_overwrite (by rw [length_padTo]; omega), getElem?_padTo]
  split_ifs <;> first | rfl | omega

/-- What was written is read back. -/
theorem read_writeAt (fill : α) (items : List α) (off : Nat) (data : List α) :
    ((writeAt fill items off data).drop off).take data.length = data := by
  have hbefore : ((padTo fill items (off + data.length)).take off).length = off := by
    rw [List.length_take, length_padTo]
    omega
  unfold writeAt overwrite
  rw [List.append_assoc, List.drop_left' hbefore, List.take_left]

end Writes

inductive Order where
  | little
  | big

/-- The `w` low bytes of a number, the least first. -/
def toLe : Nat → Nat → List UInt8
  | 0, _ => []
  | w + 1, n => UInt8.ofNat n :: toLe w (n / 256)

def ofLe : List UInt8 → Nat
  | [] => 0
  | b :: bytes => b.toNat + 256 * ofLe bytes

def toBytes (order : Order) (w n : Nat) : List UInt8 :=
  match order with
  | .little => toLe w n
  | .big => (toLe w n).reverse

def ofBytes (order : Order) (bytes : List UInt8) : Nat :=
  match order with
  | .little => ofLe bytes
  | .big => ofLe bytes.reverse

variable {order : Order} {w n : Nat}

theorem length_toLe : (toLe w n).length = w := by
  induction w generalizing n with
  | zero => rfl
  | succ w ih => exact congrArg (· + 1) ih

@[simp] theorem length_toBytes : (toBytes order w n).length = w := by
  cases order with
  | little => exact length_toLe
  | big => exact List.length_reverse.trans length_toLe

theorem ofLe_toLe : ofLe (toLe w n) = n % 256 ^ w := by
  induction w generalizing n with
  | zero => exact (Nat.mod_one n).symm
  | succ w ih =>
    have hlow : (UInt8.ofNat n).toNat = n % 256 := UInt8.toNat_ofNat'
    calc ofLe (toLe (w + 1) n) = (UInt8.ofNat n).toNat + 256 * ofLe (toLe w (n / 256)) := rfl
      _ = n % 256 + 256 * (n / 256 % 256 ^ w) := by rw [hlow, ih]
      _ = n % 256 ^ (w + 1) := by rw [Nat.pow_succ', Nat.mod_mul]

/-- A number that was written is read back, less the bits that do not fit. -/
theorem ofBytes_toBytes : ofBytes order (toBytes order w n) = n % 256 ^ w := by
  cases order with
  | little => exact ofLe_toLe
  | big =>
    unfold ofBytes toBytes
    rw [List.reverse_reverse]
    exact ofLe_toLe

end ByteLists
