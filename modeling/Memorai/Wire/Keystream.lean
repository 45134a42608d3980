import Mathlib.Data.List.Basic

/-! Bytes under a keystream that comes in blocks. -/
namespace Memorai.Wire.Keystream

def xor (input key : List UInt8) : List UInt8 := List.zipWith (fun b k => b ^^^ k) input key

theorem length_xor (input key : List UInt8) : (xor input key).length = min input.length key.length := List.length_zipWith

theorem xor_xor {input key : List UInt8} (h : input.length ≤ key.length) : xor (xor input key) key = input := by
  induction input generalizing key with
  | nil => rfl
  | cons b input ih =>
    cases key with
    | nil => exact absurd h (by simp)
    | cons k key =>
      rw [List.length_cons, List.length_cons] at h
      have htail : xor (xor input key) key = input := ih (by omega)
      change (b ^^^ k ^^^ k) :: xor (xor input key) key = b :: input
      rw [htail, UInt8.xor_assoc, UInt8.xor_self, UInt8.xor_zero]

/-- Two inputs look the same under two keys exactly when they differ as the keys do. -/
theorem xor_eq_xor_iff {input other key key' : List UInt8} (hkey : key.length = input.length)
    (hother : other.length = input.length) (hkey' : key'.length = input.length) :
    xor input key = xor other key' ↔ xor input other = xor key key' := by
  induction input generalizing other key key' with
  | nil =>
    obtain rfl := List.eq_nil_of_length_eq_zero hkey
    obtain rfl := List.eq_nil_of_length_eq_zero hother
    obtain rfl := List.eq_nil_of_length_eq_zero hkey'
    exact Iff.rfl
  | cons b input ih =>
    obtain ⟨k, key, rfl⟩ := List.exists_cons_of_length_eq_add_one hkey
    obtain ⟨c, other, rfl⟩ := List.exists_cons_of_length_eq_add_one hother
    obtain ⟨k', key', rfl⟩ := List.exists_cons_of_length_eq_add_one hkey'
    rw [List.length_cons, List.length_cons, Nat.add_right_cancel_iff] at hkey hother hkey'
    have hhead : b ^^^ k = c ^^^ k' ↔ b ^^^ c = k ^^^ k' := by
      rw [← UInt8.xor_left_inj c, UInt8.xor_comm c k', UInt8.xor_assoc k' c c, UInt8.xor_self, UInt8.xor_zero,
        ← UInt8.xor_left_inj k, UInt8.xor_comm k k', UInt8.xor_assoc b k c, UInt8.xor_comm k c, ← UInt8.xor_assoc b c k,
        UInt8.xor_assoc (b ^^^ c) k k, UInt8.xor_self, UInt8.xor_zero]
    change (b ^^^ k) :: xor input key = (c ^^^ k') :: xor other key' ↔
      (b ^^^ c) :: xor input other = (k ^^^ k') :: xor key key'
    rw [List.cons.injEq, List.cons.injEq, hhead, ih hkey hother hkey']

/-- Each block of the input under the block of the keystream with its number. -/
def xorBlocks {width : Nat} (hwidth : 0 < width) (block : Nat → List UInt8) (index : Nat) (input : List UInt8) : List UInt8 :=
  if _h : input = [] then []
  else xor (input.take width) (block index) ++ xorBlocks hwidth block (index + 1) (input.drop width)
termination_by input.length
decreasing_by
  have hpos : 0 < input.length := List.length_pos_iff.mpr _h
  rw [List.length_drop]
  omega

section Blocks
variable {width : Nat} (hwidth : 0 < width) {block : Nat → List UInt8}

theorem xorBlocks_nil (index : Nat) : xorBlocks hwidth block index [] = [] := by
  rw [xorBlocks, dif_pos rfl]

/-- Applied twice, the keystream cancels out. -/
theorem xorBlocks_xorBlocks (hblock : ∀ index, (block index).length = width) (index : Nat) (input : List UInt8) :
    xorBlocks hwidth block index (xorBlocks hwidth block index input) = input := by
  fun_induction xorBlocks hwidth block index input with
  | case1 index => exact xorBlocks_nil hwidth index
  | case2 index input hne ih =>
    have hfirst : (xor (input.take width) (block index)).length = min input.length width := by
      rw [length_xor, List.length_take, hblock]
      omega
    have hpos : 0 < input.length := List.length_pos_iff.mpr hne
    have hout : xor (input.take width) (block index) ++ xorBlocks hwidth block (index + 1) (input.drop width) ≠ [] := by
      rw [← List.length_pos_iff, List.length_append, hfirst]
      omega
    rw [xorBlocks, dif_neg hout]
    -- A block that is not full is the last one.
    by_cases hfull : width ≤ input.length
    · rw [List.take_left' (by omega), List.drop_left' (by omega), ih, xor_xor, List.take_append_drop]
      rw [List.length_take, hblock]
      omega
    · have hlast : input.drop width = [] := List.drop_eq_nil_of_le (by omega)
      rw [hlast, xorBlocks_nil, List.append_nil, List.take_of_length_le (by omega), List.drop_eq_nil_of_le (by omega),
        xorBlocks_nil, List.append_nil, List.take_of_length_le (by omega), xor_xor]
      rw [hblock]
      omega

/-- Zeros under the keystream, which are its first bytes. -/
def stream (block : Nat → List UInt8) (index length : Nat) : List UInt8 :=
  xorBlocks hwidth block index (List.replicate length 0)

theorem zero_xor {n : Nat} {key : List UInt8} (h : key.length ≤ n) : xor (List.replicate n 0) key = key := by
  induction key generalizing n with
  | nil => exact List.zipWith_nil_right
  | cons k key ih =>
    cases n with
    | zero => exact absurd h (by simp)
    | succ n =>
      rw [List.length_cons] at h
      change (0 ^^^ k) :: xor (List.replicate n 0) key = k :: key
      rw [ih (by omega), UInt8.zero_xor]

theorem take_xor (n : Nat) (input key : List UInt8) : (xor input key).take n = xor (input.take n) (key.take n) :=
  List.take_zipWith

/-- A key may be cut off where the input ends. -/
theorem xor_take (input key : List UInt8) : xor input (key.take input.length) = xor input key := by
  have hlen : (xor input key).length ≤ input.length := by
    rw [length_xor]
    exact Nat.min_le_left _ _
  calc xor input (key.take input.length)
      = xor (input.take input.length) (key.take input.length) := by rw [List.take_length]
    _ = (xor input key).take input.length := (take_xor _ _ _).symm
    _ = xor input key := List.take_of_length_le hlen

/-- The blocks together are one key. -/
theorem xorBlocks_eq_xor (hblock : ∀ index, (block index).length = width) (index : Nat) (input : List UInt8) :
    xorBlocks hwidth block index input = xor input (stream hwidth block index input.length) := by
  fun_induction xorBlocks hwidth block index input with
  | case1 index => rfl
  | case2 index input hne ih =>
    have hpos : 0 < input.length := List.length_pos_iff.mpr hne
    have hzeros : List.replicate input.length (0 : UInt8) ≠ [] := by
      rw [← List.length_pos_iff, List.length_replicate]
      exact hpos
    have hfirst : (block index).take (min width input.length) = xor ((List.replicate input.length 0).take width) (block index) := by
      rw [List.take_replicate, ← xor_take, List.length_replicate, zero_xor]
      rw [List.length_take]
      exact Nat.min_le_left _ _
    have hstream : stream hwidth block index input.length =
        (block index).take (min width input.length) ++ stream hwidth block (index + 1) (input.drop width).length := by
      rw [stream, xorBlocks, dif_neg hzeros, ← hfirst, List.drop_replicate, List.length_drop]
      rfl
    have hlen : (input.take width).length = ((block index).take (min width input.length)).length := by
      rw [List.length_take, List.length_take, hblock]
      omega
    have hsplit : xor (input.take width) (block index) = xor (input.take width) ((block index).take (min width input.length)) := by
      rw [← xor_take, List.length_take]
    have happend : xor (input.take width ++ input.drop width) ((block index).take (min width input.length) ++
        stream hwidth block (index + 1) (input.drop width).length) =
          xor (input.take width) ((block index).take (min width input.length)) ++
            xor (input.drop width) (stream hwidth block (index + 1) (input.drop width).length) :=
      List.zipWith_append hlen
    rw [List.take_append_drop] at happend
    rw [ih, hstream, hsplit, happend]

theorem length_xorBlocks (hblock : ∀ index, (block index).length = width) (index : Nat) (input : List UInt8) :
    (xorBlocks hwidth block index input).length = input.length := by
  fun_induction xorBlocks hwidth block index input with
  | case1 index => rfl
  | case2 index input hne ih =>
    rw [List.length_append, length_xor, List.length_take, ih, List.length_drop, hblock]
    omega

end Blocks
end Memorai.Wire.Keystream
