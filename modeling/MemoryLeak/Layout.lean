import MemoryLeak.CBytes

/-!
# Structures in memory

A C structure as its bytes: members are little-endian numbers at fixed places. What is
written to one place is read there again and changes no other.
-/
namespace MemoryLeak.Layout
open MemoryLeak.CBytes

/-! ### Little-endian numbers -/

/-- The lowest `k` bytes of a number. -/
def leBytes : ℕ → ℕ → Bytes
  | 0, _ => []
  | k + 1, v => UInt8.ofNat v :: leBytes k (v / 256)

theorem pow_256 (k : ℕ) : 256 ^ k = 2 ^ (8 * k) := (Nat.pow_mul 2 8 k).symm

/-- The number that bytes stand for. -/
def leVal : Bytes → ℕ
  | [] => 0
  | c :: s => c.toNat + 256 * leVal s

@[simp] theorem leBytes_length (k v : ℕ) : (leBytes k v).length = k := by
  induction k generalizing v with
  | zero => rfl
  | succ k ih => rw [leBytes, List.length_cons, ih]

theorem leVal_leBytes (k v : ℕ) : leVal (leBytes k v) = v % 256 ^ k := by
  induction k generalizing v with
  | zero => rw [leBytes, leVal, pow_zero, Nat.mod_one]
  | succ k ih =>
    have hlow : (UInt8.ofNat v).toNat = v % 256 := UInt8.toNat_ofNat'
    rw [leBytes, leVal, ih, hlow, pow_succ', Nat.mod_mul]

theorem leVal_lt (s : Bytes) : leVal s < 256 ^ s.length := by
  induction s with
  | nil => exact Nat.one_pos
  | cons c s ih =>
    have hc : c.toNat < 256 := c.toNat_lt
    rw [leVal, List.length_cons, pow_succ']
    omega

theorem leVal_append (s s' : Bytes) : leVal (s ++ s') = leVal s + 256 ^ s.length * leVal s' := by
  induction s with
  | nil => rw [List.nil_append, leVal, List.length_nil, pow_zero, Nat.one_mul, Nat.zero_add]
  | cons c s ih =>
    rw [List.cons_append, leVal, ih, leVal, List.length_cons, pow_succ', Nat.mul_add,
      Nat.add_assoc, Nat.mul_assoc]

theorem leVal_take_succ {s : Bytes} {i : ℕ} (hi : i < s.length) :
    leVal (s.take (i + 1)) = leVal (s.take i) + 256 ^ i * (s[i]).toNat := by
  rw [List.take_add_one, List.getElem?_eq_getElem hi, Option.toList_some, leVal_append,
    List.length_take_of_le hi.le, leVal, leVal, Nat.mul_zero, Nat.add_zero]

theorem leVal_take_lt {s : Bytes} {i : ℕ} (hi : i ≤ s.length) : leVal (s.take i) < 256 ^ i := by
  have hlt := leVal_lt (s.take i)
  rwa [List.length_take_of_le hi] at hlt

/-- Bytes are the digits of the number they stand for. -/
theorem leBytes_leVal (s : Bytes) : leBytes s.length (leVal s) = s := by
  induction s with
  | nil => rfl
  | cons c s ih =>
    have hc : c.toNat < 256 := c.toNat_lt
    have hlow : UInt8.ofNat (c.toNat + 256 * leVal s) = c := by
      apply UInt8.toNat_inj.mp
      rw [UInt8.toNat_ofNat']
      omega
    have hhigh : (c.toNat + 256 * leVal s) / 256 = leVal s := by omega
    rw [List.length_cons, leVal, leBytes, hlow, hhigh, ih]

/-! ### Members of a structure -/

variable {size : ℕ}

/-- The bytes of a structure. -/
structure Record (size : ℕ) where
  bytes : Bytes
  length_eq : bytes.length = size

/-- The place of a member. -/
structure Field (size : ℕ) where
  off : ℕ
  len : ℕ
  fits : off + len ≤ size

/-- No byte is in both members. -/
def Field.Disjoint (f g : Field size) : Prop :=
  f.off + f.len ≤ g.off ∨ g.off + g.len ≤ f.off

instance (f g : Field size) : Decidable (f.Disjoint g) :=
  inferInstanceAs (Decidable (_ ∨ _))

namespace Record

/-- The value of a member. -/
def get (r : Record size) (f : Field size) : ℕ := leVal ((r.bytes.drop f.off).take f.len)

theorem write_length (r : Record size) {off : ℕ} {src : Bytes} (h : off + src.length ≤ size) :
    (memcpy r.bytes off src).length = size := by
  rw [memcpy_length (by rw [r.length_eq]; exact h), r.length_eq]

/-- A copy to the bytes from `off` on. -/
def write (r : Record size) (off : ℕ) (src : Bytes) (h : off + src.length ≤ size) : Record size :=
  ⟨memcpy r.bytes off src, r.write_length h⟩

theorem leBytes_fits (f : Field size) (v : ℕ) : f.off + (leBytes f.len v).length ≤ size := by
  rw [leBytes_length]
  exact f.fits

/-- An assignment to a member. -/
def set (r : Record size) (f : Field size) (v : ℕ) : Record size :=
  r.write f.off (leBytes f.len v) (leBytes_fits f v)

theorem snprintf_fits {off n : ℕ} (s : Bytes) (h : off + (n + 1) ≤ size) :
    off + (cstr n s ++ [0]).length ≤ size := by
  have := cstr_length_le n s
  rw [List.length_append, List.length_singleton]
  omega

/-- `snprintf` of a string to the bytes from `off` on, which is given `n + 1` of them. -/
def snprintf (r : Record size) (off n : ℕ) (s : Bytes) (h : off + (n + 1) ≤ size) : Record size :=
  r.write off (cstr n s ++ [0]) (snprintf_fits s h)

theorem get_lt (r : Record size) (f : Field size) : r.get f < 256 ^ f.len := by
  have hlen : ((r.bytes.drop f.off).take f.len).length = f.len := by
    rw [List.length_take, List.length_drop, r.length_eq]
    have := f.fits
    omega
  calc r.get f < 256 ^ ((r.bytes.drop f.off).take f.len).length := leVal_lt _
    _ = 256 ^ f.len := by rw [hlen]

theorem get_write (r : Record size) {off : ℕ} {src : Bytes} (h : off + src.length ≤ size)
    {f : Field size} (hf : off + src.length ≤ f.off ∨ f.off + f.len ≤ off) :
    (r.write off src h).get f = r.get f := by
  have hoff : off ≤ r.bytes.length := by
    rw [r.length_eq]
    omega
  unfold get write
  rcases hf with hf | hf
  · obtain ⟨d, hd⟩ := Nat.exists_eq_add_of_le hf
    have hend : (memcpy r.bytes off src).drop (off + src.length) =
        r.bytes.drop (off + src.length) := memcpy_drop_end hoff rfl
    have hbehind := congrArg (List.drop d) hend
    rw [List.drop_drop, List.drop_drop, ← hd] at hbehind
    rw [hbehind]
  · rw [List.take_drop, List.take_drop, memcpy_take_of_le hf hoff]

/-- Members that share no byte do not touch each other. -/
theorem get_set_of_disjoint (r : Record size) {f g : Field size} (h : f.Disjoint g) (v : ℕ) :
    (r.set f v).get g = r.get g := by
  apply get_write
  rw [leBytes_length]
  exact h

theorem get_set_self (r : Record size) (f : Field size) (v : ℕ) :
    (r.set f v).get f = v % 256 ^ f.len := by
  have hoff : f.off ≤ r.bytes.length := by
    rw [r.length_eq]
    exact Nat.le_of_add_right_le f.fits
  have hlen : (r.bytes.take f.off).length = f.off := List.length_take_of_le hoff
  unfold get set write
  rw [List.take_drop, memcpy_take_end hoff (by rw [leBytes_length]), List.drop_left' hlen,
    leVal_leBytes]

/-- A value that was read from a member of the same size is stored whole. -/
theorem get_set_get (r r' : Record size) {f g : Field size} (h : g.len = f.len) :
    (r.set f (r'.get g)).get f = r'.get g := by
  rw [get_set_self, ← h, Nat.mod_eq_of_lt (r'.get_lt g)]

/-- A string ends where its NUL is put: members behind that are kept. -/
theorem get_snprintf (r : Record size) {off n : ℕ} {s : Bytes} (h : off + (n + 1) ≤ size)
    {f : Field size} (hf : off + (cstr n s).length < f.off ∨ f.off + f.len ≤ off) :
    (r.snprintf off n s h).get f = r.get f := by
  apply get_write
  rw [List.length_append, List.length_singleton]
  omega

end Record

end MemoryLeak.Layout
