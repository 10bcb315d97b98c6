import DynBandwidth.Lib.Bytes

/-! # Attributes: frames of length, type and payload

A netlink message carries attributes one behind the other. Each starts with its length, that of the
payload and of the four bytes of the frame, and its type, in two bytes each. The next one starts at
the next multiple of four.

`Encodes` says what it means for bytes to be attributes in this format; the bytes between the end of
an attribute and the next one can be anything. The reader of the format finds exactly the attributes
that were written (`Encodes.attrs_eq`). -/

namespace DynBandwidth.Lib.Attributes

open DynBandwidth.Lib.Bytes

structure Attr where
  type : ℕ
  payload : List Byte
  deriving DecidableEq, Repr

def align4 (n : ℕ) : ℕ := (n + 3) / 4 * 4

/-- Two bytes are enough for the type and the length. -/
def Attr.Fits (a : Attr) : Prop := a.type < 65536 ∧ 4 + a.payload.length < 65536

/-- An attribute, up to the bytes behind it. -/
def Attr.frame (a : Attr) : List Byte :=
  bytes 2 (4 + a.payload.length) ++ bytes 2 a.type ++ a.payload

/-- The bytes are these attributes, each filled up to a multiple of four. -/
inductive Encodes : List Attr → List Byte → Prop
  | nil : Encodes [] []
  | cons {a : Attr} {as : List Attr} {fill rest : List Byte} :
    a.Fits → fill.length + a.frame.length = align4 a.frame.length → Encodes as rest →
    Encodes (a :: as) (a.frame ++ fill ++ rest)

/-- **The walk**: attributes as long as the frame of the next one lies in the bytes that are left.
The number bounds its steps. -/
def walk : ℕ → List Byte → List Attr
  | 0, _ => []
  | n + 1, bs =>
    let len := value (bs.take 2)
    if 4 ≤ bs.length ∧ 4 ≤ len ∧ len ≤ bs.length then
      ⟨value ((bs.drop 2).take 2), (bs.drop 4).take (len - 4)⟩ :: walk n (bs.drop (align4 len))
    else []

/-- All attributes; every step takes at least four bytes. -/
def attrs (bs : List Byte) : List Attr := walk bs.length bs

/-! ### What is written is read -/

section Frame
variable {a : Attr} {as : List Attr} {fill rest bs : List Byte}

theorem le_align4 (n : ℕ) : n ≤ align4 n := by unfold align4; omega

theorem align4_of_dvd {n : ℕ} (h : 4 ∣ n) : align4 n = n := by unfold align4; omega

theorem length_frame (a : Attr) : a.frame.length = 4 + a.payload.length := by
  simp [Attr.frame]; omega

/-- **One step of the walk** reads one attribute. -/
theorem walk_frame (ha : a.Fits) (hfill : fill.length + a.frame.length = align4 a.frame.length)
    (n : ℕ) (rest : List Byte) :
    walk (n + 1) (a.frame ++ fill ++ rest) = a :: walk n rest := by
  obtain ⟨htype, hpayload⟩ := ha
  have hlen := length_frame a
  have hbs : a.frame ++ fill ++ rest =
      bytes 2 (4 + a.payload.length) ++ (bytes 2 a.type ++ (a.payload ++ (fill ++ rest))) := by
    simp [Attr.frame]
  have h2 : (a.frame ++ fill ++ rest).take 2 = bytes 2 (4 + a.payload.length) := by
    rw [hbs, List.take_left' (length_bytes _ _)]
  have h4 : (a.frame ++ fill ++ rest).drop 2 = bytes 2 a.type ++ (a.payload ++ (fill ++ rest)) := by
    rw [hbs, List.drop_left' (length_bytes _ _)]
  have hp : (a.frame ++ fill ++ rest).drop 4 = a.payload ++ (fill ++ rest) := by
    rw [show 4 = 2 + 2 from rfl, ← List.drop_drop, h4, List.drop_left' (length_bytes _ _)]
  have hrest : (a.frame ++ fill ++ rest).drop (align4 (4 + a.payload.length)) = rest := by
    rw [← hlen, List.drop_left' (by rw [List.length_append, ← hfill, Nat.add_comm])]
  have hval : value (bytes 2 (4 + a.payload.length)) = 4 + a.payload.length := by
    rw [value_bytes, Nat.mod_eq_of_lt (by omega)]
  have htval : value (bytes 2 a.type) = a.type := by
    rw [value_bytes, Nat.mod_eq_of_lt (by omega)]
  have hle : 4 + a.payload.length ≤ (a.frame ++ fill ++ rest).length := by
    rw [List.length_append, List.length_append]; omega
  rw [walk]
  simp only [h2, hval]
  rw [if_pos ⟨by omega, by omega, hle⟩, h4, hp, hrest, List.take_left' (length_bytes _ _), htval,
    List.take_left' (by omega)]

theorem Encodes.length_le (h : Encodes as bs) : as.length ≤ bs.length := by
  induction h with
  | nil => exact Nat.le_refl _
  | @cons a as fill rest _ _ _ ih =>
    have := length_frame a
    simp only [List.length_append, List.length_cons]
    omega

/-- **The walk finds the attributes.** -/
theorem Encodes.attrs_eq (h : Encodes as bs) : attrs bs = as := by
  -- The walk may have more steps left than there are attributes.
  have hwalk : ∀ n, as.length ≤ n → walk n bs = as := by
    induction h with
    | nil =>
      rintro (_ | n) -
      · rfl
      · simp [walk]
    | cons ha hfill _ ih =>
      rintro (_ | n) hn
      · simp at hn
      · rw [walk_frame ha hfill, ih n (by simpa using hn)]
  exact hwalk _ h.length_le

/-- An attribute that ends at a multiple of four needs no bytes behind it. -/
theorem Encodes.frame (ha : a.Fits) (h : 4 ∣ a.payload.length) : Encodes [a] a.frame := by
  have h4 : align4 a.frame.length = a.frame.length := by
    rw [align4_of_dvd]
    rw [length_frame]
    omega
  have he : Encodes [a] (a.frame ++ [] ++ []) := Encodes.cons ha (by rw [h4]; simp) Encodes.nil
  rwa [List.append_nil, List.append_nil] at he

theorem Encodes.append {as' : List Attr} {bs' : List Byte} (h : Encodes as bs)
    (h' : Encodes as' bs') : Encodes (as ++ as') (bs ++ bs') := by
  induction h with
  | nil => exact h'
  | cons ha hfill _ ih =>
    rw [List.cons_append, List.append_assoc]
    exact Encodes.cons ha hfill ih

theorem Encodes.dvd (h : Encodes as bs) : 4 ∣ bs.length := by
  induction h with
  | nil => exact Nat.dvd_zero 4
  | @cons a as fill rest _ hfill _ ih =>
    have h4 : 4 ∣ fill.length + a.frame.length := hfill ▸ Nat.dvd_mul_left 4 _
    simp only [List.length_append]
    omega

end Frame

end DynBandwidth.Lib.Attributes
