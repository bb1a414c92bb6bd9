import Mathlib

/-!
# WlMatrix — the Rust primitives under the MSNP2P frame reader

`P2PCommandParser::parse_message` (`sockets/msnp2p_command.rs`) works on byte slices
with three primitives that can end a call abnormally: range indexing `&s[a..b]`, which
panics unless `a ≤ b ≤ s.len()`; `usize` addition, which panics on overflow in a debug
build; and `LittleEndian::read_u32` from the `byteorder` crate, which panics on a buffer
shorter than four bytes. Each is modelled here as an `Except Abort` computation, so that
"the parser never panics" is a statement about the model and not an assumption of it.
-/

namespace WlMatrix

/-- How a call can end other than by returning. -/
inductive Abort where
  /-- `std::process::exit(code)`. -/
  | processExit (code : Nat)
  /-- A range index `&s[a..b]` with `b < a` or `s.len() < b`. -/
  | sliceIndexPanic
  /-- A `usize` addition that overflows. -/
  | addOverflow
  deriving DecidableEq, Repr

/-- Width of `usize`. We take the narrowest width on which `u32 as usize` is lossless: a
sum that fits here fits in every wider `usize`, so no-overflow results carry over. -/
def usizeBits : Nat := 32

/-- `a + b` on `usize`, checked. -/
def usizeAdd (a b : Nat) : Except Abort Nat :=
  if a + b < 2 ^ usizeBits then .ok (a + b) else .error .addOverflow

/-- `&s[a..b]`, the range index of a slice. -/
def index (s : List UInt8) (a b : Nat) : Except Abort (List UInt8) :=
  if a ≤ b ∧ b ≤ s.length then .ok ((s.take b).drop a) else .error .sliceIndexPanic

/-- The little-endian value of the first four bytes of a buffer (zero on a shorter one,
where no caller reads it). -/
def u32Le : List UInt8 → Nat
  | b₀ :: b₁ :: b₂ :: b₃ :: _ =>
    b₀.toNat + 256 * b₁.toNat + 65536 * b₂.toNat + 16777216 * b₃.toNat
  | _ => 0

/-- `LittleEndian::read_u32(buf)`: the first four bytes, little-endian; it panics on a
buffer shorter than four bytes. -/
def readU32 (buf : List UInt8) : Except Abort Nat :=
  if 4 ≤ buf.length then .ok (u32Le buf) else .error .sliceIndexPanic

/-- `LittleEndian::write_u32`: the four little-endian bytes of `n` (taken mod `2^32`). -/
def u32LeBytes (n : Nat) : List UInt8 :=
  [UInt8.ofNat n, UInt8.ofNat (n / 256), UInt8.ofNat (n / 65536), UInt8.ofNat (n / 16777216)]

/-! ### Spec lemmas -/

theorem usizeAdd_of_lt {a b : Nat} (h : a + b < 2 ^ usizeBits) : usizeAdd a b = .ok (a + b) :=
  if_pos h

theorem eq_of_usizeAdd_eq_ok {a b c : Nat} (h : usizeAdd a b = .ok c) : c = a + b := by
  unfold usizeAdd at h
  split at h <;> cases h
  rfl

theorem index_of_le {s : List UInt8} {a b : Nat} (hab : a ≤ b) (hb : b ≤ s.length) :
    index s a b = .ok ((s.take b).drop a) :=
  if_pos ⟨hab, hb⟩

theorem length_of_index_eq_ok {s r : List UInt8} {a b : Nat} (h : index s a b = .ok r) :
    r.length = b - a ∧ b ≤ s.length := by
  unfold index at h
  split at h
  · next hab =>
    cases h
    simp only [List.length_drop, List.length_take]
    omega
  · cases h

theorem readU32_of_le {buf : List UInt8} (h : 4 ≤ buf.length) : readU32 buf = .ok (u32Le buf) :=
  if_pos h

@[simp] theorem length_u32LeBytes (n : Nat) : (u32LeBytes n).length = 4 := rfl

/-- The prefix of a buffer of at least four bytes is not changed by what follows it. -/
theorem u32Le_append {buf : List UInt8} (h : 4 ≤ buf.length) (rest : List UInt8) :
    u32Le (buf ++ rest) = u32Le buf := by
  match buf, h with
  | _ :: _ :: _ :: _ :: _, _ => rfl

/-- Reading back a written `u32` gives the value written. -/
theorem u32Le_u32LeBytes_append {n : Nat} (h : n < 2 ^ 32) (rest : List UInt8) :
    u32Le (u32LeBytes n ++ rest) = n := by
  have byte (k : Nat) : (UInt8.ofNat k).toNat = k % 256 := rfl
  simp only [u32LeBytes, List.cons_append, u32Le, byte]
  omega

private theorem ofNat_eq_of_mod {n : Nat} {b : UInt8} (h : n % 256 = b.toNat) : UInt8.ofNat n = b :=
  UInt8.eq_of_val_eq (Fin.ext h)

/-- Writing back the value read from four bytes gives those four bytes. -/
theorem u32LeBytes_u32Le {buf : List UInt8} (h : 4 ≤ buf.length) :
    u32LeBytes (u32Le buf) = buf.take 4 := by
  match buf, h with
  | b₀ :: b₁ :: b₂ :: b₃ :: _, _ =>
    have := b₀.toNat_lt_size; have := b₁.toNat_lt_size
    have := b₂.toNat_lt_size; have := b₃.toNat_lt_size
    simp only [UInt8.size] at *
    simp only [u32LeBytes, u32Le, List.take, List.cons.injEq, and_true]
    refine ⟨ofNat_eq_of_mod ?_, ofNat_eq_of_mod ?_, ofNat_eq_of_mod ?_, ofNat_eq_of_mod ?_⟩ <;>
      omega

theorem u32Le_take {buf : List UInt8} (h : 4 ≤ buf.length) : u32Le (buf.take 4) = u32Le buf := by
  match buf, h with
  | _ :: _ :: _ :: _ :: _, _ => rfl

theorem u32Le_lt (buf : List UInt8) : u32Le buf < 2 ^ 32 := by
  unfold u32Le
  split
  · next b₀ b₁ b₂ b₃ _ =>
    have := b₀.toNat_lt_size; have := b₁.toNat_lt_size
    have := b₂.toNat_lt_size; have := b₃.toNat_lt_size
    simp only [UInt8.size] at *
    omega
  · decide

end WlMatrix
