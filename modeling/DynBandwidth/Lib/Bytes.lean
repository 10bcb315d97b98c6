import Mathlib.Data.BitVec
import Mathlib.Data.List.Basic
import Mathlib.Tactic.Ring

/-! # Bytes and memory

Numbers as little-endian bytes, records as the bytes of their fields, and a memory of bytes.

What is written is read back: a number modulo the bytes it has (`value_bytes`), the fields of a
record (`unpack_pack`), bytes in memory at the place where they were stored (`load_store`); at any
other place a store changes nothing (`load_store_disjoint`). -/

namespace DynBandwidth.Lib.Bytes

abbrev Byte := BitVec 8

/-! ### Numbers -/

/-- The `k` low bytes of a number, least significant byte first. -/
def bytes : ℕ → ℕ → List Byte
  | 0, _ => []
  | k + 1, x => BitVec.ofNat 8 x :: bytes k (x / 256)

/-- The number that a list of bytes writes. -/
def value : List Byte → ℕ
  | [] => 0
  | b :: bs => b.toNat + 256 * value bs

@[simp] theorem length_bytes : ∀ k x, (bytes k x).length = k
  | 0, _ => rfl
  | k + 1, x => by rw [bytes, List.length_cons, length_bytes k]

@[simp] theorem value_bytes : ∀ k x, value (bytes k x) = x % 256 ^ k
  | 0, x => by simp [bytes, value, Nat.mod_one]
  | k + 1, x => by
    rw [bytes, value, value_bytes k, BitVec.toNat_ofNat, pow_succ' 256]
    exact Nat.mod_mul.symm

/-- A machine word is what its bytes write. -/
theorem ofNat_mod_pow {w k : ℕ} (h : w ≤ 8 * k) (x : BitVec w) :
    BitVec.ofNat w (x.toNat % 256 ^ k) = x := by
  have hlt : x.toNat < 256 ^ k := calc
    x.toNat < 2 ^ w := x.isLt
    _ ≤ 2 ^ (8 * k) := Nat.pow_le_pow_right (by omega) h
    _ = 256 ^ k := by rw [pow_mul]; rfl
  rw [Nat.mod_eq_of_lt hlt, BitVec.ofNat_toNat, BitVec.setWidth_eq]

/-! ### Records -/

/-- The bytes of a record, whose fields are given by their widths and values. -/
def pack (fields : List (ℕ × ℕ)) : List Byte := fields.flatMap fun f => bytes f.1 f.2

/-- The fields of a record, given their widths. -/
def unpack : List ℕ → List Byte → List ℕ
  | [], _ => []
  | k :: ks, bs => value (bs.take k) :: unpack ks (bs.drop k)

theorem length_pack (fields : List (ℕ × ℕ)) :
    (pack fields).length = (fields.map Prod.fst).sum := by
  simp [pack, List.length_flatMap]

/-- **Fields are read back**, whatever follows the record. -/
theorem unpack_pack : ∀ (fields : List (ℕ × ℕ)) (rest : List Byte),
    unpack (fields.map Prod.fst) (pack fields ++ rest) = fields.map fun f => f.2 % 256 ^ f.1
  | [], _ => rfl
  | (k, x) :: fields, rest => by
    have hsplit : pack ((k, x) :: fields) ++ rest = bytes k x ++ (pack fields ++ rest) := by
      simp [pack]
    rw [List.map_cons, hsplit, unpack, List.take_left' (length_bytes k x),
      List.drop_left' (length_bytes k x), value_bytes, unpack_pack fields rest, List.map_cons]

/-! ### Memory -/

abbrev Mem := ℕ → Byte

/-- The `n` bytes at an offset. -/
def load (m : Mem) (o n : ℕ) : List Byte := (List.range n).map fun i => m (o + i)

/-- The memory after bytes are written at an offset. -/
def store (m : Mem) (o : ℕ) (bs : List Byte) : Mem := fun i =>
  if o ≤ i then (bs[i - o]?).getD (m i) else m i

@[simp] theorem length_load (m : Mem) (o n : ℕ) : (load m o n).length = n := by simp [load]

theorem load_add (m : Mem) (o a b : ℕ) : load m o (a + b) = load m o a ++ load m (o + a) b := by
  simp [load, List.range_add, Nat.add_assoc]

/-- A window of a loaded range. -/
theorem take_drop_load (m : Mem) (o : ℕ) {n i k : ℕ} (h : i + k ≤ n) :
    ((load m o n).drop i).take k = load m (o + i) k := by
  have hn : n = i + (k + (n - i - k)) := by omega
  rw [hn, load_add, load_add, List.drop_left' (length_load _ _ _),
    List.take_left' (length_load _ _ _)]

theorem load_store (m : Mem) (o : ℕ) (bs : List Byte) : load (store m o bs) o bs.length = bs := by
  refine List.ext_getElem (by simp) fun i _ hi => ?_
  simp [load, store, hi]

theorem load_store_bytes (m : Mem) (o k x : ℕ) : load (store m o (bytes k x)) o k = bytes k x := by
  have h := load_store m o (bytes k x)
  rwa [length_bytes] at h

theorem load_store_disjoint (m : Mem) {o o' n : ℕ} {bs : List Byte}
    (h : o' + n ≤ o ∨ o + bs.length ≤ o') : load (store m o bs) o' n = load m o' n := by
  refine List.ext_getElem (by simp) fun i hi _ => ?_
  have hi' : i < n := by simpa using hi
  simp only [load, store, List.getElem_map, List.getElem_range]
  split_ifs with ho
  · rw [List.getElem?_eq_none (by omega), Option.getD_none]
  · rfl

end DynBandwidth.Lib.Bytes
