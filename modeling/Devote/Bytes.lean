import Mathlib.Data.List.Basic
import Mathlib.Algebra.Group.Nat.Basic

/-!
# Byte strings, addresses and big-endian words

Keys and values of the consensus tries are Go byte slices. A trie iterator visits
keys in the lexicographic order of their bytes, given here by `Bytes.lt`. The
rolling trie stores 8-byte counters written by `binary.BigEndian.PutUint64` and
read back by `binary.BigEndian.Uint64`.
-/

namespace Devote

/-- A Go byte slice; a Go `string` is modelled by its bytes as well. -/
abbrev Bytes := List UInt8

namespace Bytes

theorem byte_lt_iff {x y : UInt8} : x < y ↔ x.toNat < y.toNat := Iff.rfl

private theorem byte_eq_iff (x y : UInt8) : x = y ↔ x.toNat = y.toNat :=
  ⟨congrArg _, UInt8.toNat.inj⟩

/-- Lexicographic order of byte strings: the order of `bytes.Compare`, in which a
trie iterator visits keys. -/
def lt : Bytes → Bytes → Bool
  | _, [] => false
  | [], _ :: _ => true
  | a :: as, b :: bs => decide (a < b) || (a == b && lt as bs)

@[simp] theorem lt_nil (a : Bytes) : lt a [] = false := by
  cases a <;> rfl

@[simp] theorem nil_lt_cons (b : UInt8) (bs : Bytes) : lt [] (b :: bs) = true := rfl

@[simp] theorem cons_lt_cons (a b : UInt8) (as bs : Bytes) :
    lt (a :: as) (b :: bs) = (decide (a < b) || (a == b && lt as bs)) := rfl

theorem lt_irrefl (a : Bytes) : lt a a = false := by
  induction a with
  | nil => rfl
  | cons x xs ih => simp [ih]

theorem lt_trans {a b c : Bytes} (hab : lt a b) (hbc : lt b c) : lt a c := by
  induction a generalizing b c with
  | nil => cases b <;> cases c <;> simp_all
  | cons x xs ih =>
    cases b with
    | nil => simp at hab
    | cons y ys =>
      cases c with
      | nil => simp at hbc
      | cons z zs =>
        simp only [cons_lt_cons, Bool.or_eq_true, decide_eq_true_eq, Bool.and_eq_true,
          beq_iff_eq] at hab hbc ⊢
        rcases hab with hxy | ⟨rfl, hs⟩ <;> rcases hbc with hyz | ⟨rfl, ht⟩
        · exact .inl (UInt8.lt_trans hxy hyz)
        · exact .inl hxy
        · exact .inl hyz
        · exact .inr ⟨rfl, ih hs ht⟩

/-- Two different byte strings are ordered one way or the other. -/
theorem lt_or_lt_of_ne {a b : Bytes} (h : a ≠ b) : lt a b ∨ lt b a := by
  induction a generalizing b with
  | nil => cases b <;> simp_all
  | cons x xs ih =>
    cases b with
    | nil => simp
    | cons y ys =>
      simp only [cons_lt_cons, Bool.or_eq_true, decide_eq_true_eq, Bool.and_eq_true, beq_iff_eq]
      by_cases hxy : x = y
      · subst hxy
        rcases ih (fun e => h (e ▸ rfl)) with hs | hs
        · exact .inl (.inr ⟨rfl, hs⟩)
        · exact .inr (.inr ⟨rfl, hs⟩)
      · rw [byte_eq_iff] at hxy
        simp only [byte_lt_iff]
        omega

/-- An extension of a byte string never sorts before it. -/
@[simp] theorem append_lt_self (a b : Bytes) : lt (a ++ b) a = false := by
  induction a with
  | nil => simp
  | cons x xs ih => simp [ih]

end Bytes

/-- A `common.Address`, twenty bytes; `bytes` is what `Address.Bytes()` returns. -/
structure Address where
  bytes : Bytes
  length_bytes : bytes.length = 20
  deriving DecidableEq

namespace Address

theorem bytes_injective {m m' : Address} (h : m.bytes = m'.bytes) : m = m' := by
  cases m; cases m'; cases h; rfl

@[simp] theorem bytes_inj {m m' : Address} : m.bytes = m'.bytes ↔ m = m' :=
  ⟨bytes_injective, congrArg _⟩

/-- `common.Address{}`, the zero address. -/
def zero : Address := ⟨List.replicate 20 0, List.length_replicate _ _⟩

theorem bytes_ne_nil (m : Address) : m.bytes ≠ [] := by
  intro h
  simpa [h] using m.length_bytes

/-- An address at the front of a key determines the address and the rest of the key. -/
theorem append_eq {m m' : Address} {x y : Bytes} (h : m.bytes ++ x = m'.bytes ++ y) :
    m = m' ∧ x = y := by
  obtain ⟨hm, hx⟩ := List.append_inj h (m.length_bytes.trans m'.length_bytes.symm)
  exact ⟨bytes_injective hm, hx⟩

/-- The concatenation `m ‖ d` of two addresses determines both. -/
theorem append_inj {m d m' d' : Address} :
    m.bytes ++ d.bytes = m'.bytes ++ d'.bytes ↔ m = m' ∧ d = d' := by
  constructor
  · intro h
    obtain ⟨hm, hd⟩ := append_eq h
    exact ⟨hm, bytes_injective hd⟩
  · rintro ⟨rfl, rfl⟩
    rfl

@[simp] theorem take_append (m : Address) (x : Bytes) : (m.bytes ++ x).take 20 = m.bytes := by
  simp [List.take_append_eq_append_take, m.length_bytes]

@[simp] theorem drop_append (m : Address) (x : Bytes) : (m.bytes ++ x).drop 20 = x := by
  simp [List.drop_append_eq_append_drop, m.length_bytes]

@[simp] theorem length_append (m d : Address) : (m.bytes ++ d.bytes).length = 40 := by
  simp [m.length_bytes, d.length_bytes]

end Address

/-! ## Big-endian words -/

/-- The low `w` bytes of `v`, most significant first. -/
def bigEndian : Nat → Nat → Bytes
  | 0, _ => []
  | w + 1, v => UInt8.ofNat (v / 256 ^ w) :: bigEndian w v

/-- The number a big-endian byte string denotes. -/
def ofBigEndian : Bytes → Nat
  | [] => 0
  | b :: bs => b.toNat * 256 ^ bs.length + ofBigEndian bs

/-- `binary.BigEndian.PutUint64`. -/
def putUint64 (v : BitVec 64) : Bytes := bigEndian 8 v.toNat

/-- `binary.BigEndian.Uint64`: the word in the first eight bytes; `none` is the
index-out-of-range panic on a slice shorter than eight bytes. -/
def uint64 (b : Bytes) : Option (BitVec 64) :=
  if b.length < 8 then none else some (BitVec.ofNat 64 (ofBigEndian (b.take 8)))

@[simp] theorem toNat_ofNat_byte (m : Nat) : (UInt8.ofNat m).toNat = m % 256 := rfl

@[simp] theorem length_bigEndian (w v : Nat) : (bigEndian w v).length = w := by
  induction w <;> simp [bigEndian, *]

@[simp] theorem length_putUint64 (v : BitVec 64) : (putUint64 v).length = 8 :=
  length_bigEndian 8 _

theorem ofBigEndian_bigEndian (w v : Nat) : ofBigEndian (bigEndian w v) = v % 256 ^ w := by
  induction w with
  | zero => simp [bigEndian, ofBigEndian, Nat.mod_one]
  | succ w ih =>
    have hb : (UInt8.ofNat (v / 256 ^ w)).toNat = v / 256 ^ w % 256 := rfl
    simp only [bigEndian, ofBigEndian, length_bigEndian, hb, ih, Nat.pow_succ]
    rw [Nat.mod_mul]
    ac_rfl

theorem ofBigEndian_append (a b : Bytes) :
    ofBigEndian (a ++ b) = ofBigEndian a * 256 ^ b.length + ofBigEndian b := by
  induction a with
  | nil => simp [ofBigEndian]
  | cons x a ih =>
    rw [List.cons_append, ofBigEndian, ofBigEndian, ih, List.length_append, Nat.pow_add]
    simp only [Nat.add_mul, Nat.mul_assoc, Nat.add_assoc]

theorem ofBigEndian_replicate_zero (z : Nat) : ofBigEndian (List.replicate z 0) = 0 := by
  induction z with
  | zero => rfl
  | succ z ih => simp [List.replicate_succ, ofBigEndian, ih]

theorem ofBigEndian_lt (b : Bytes) : ofBigEndian b < 256 ^ b.length := by
  induction b with
  | nil => simp [ofBigEndian]
  | cons x b ih =>
    have hx : x.toNat + 1 ≤ 256 := x.toBitVec.isLt
    calc ofBigEndian (x :: b) < (x.toNat + 1) * 256 ^ b.length := by
          rw [ofBigEndian, Nat.succ_mul]; omega
      _ ≤ 256 ^ (b.length + 1) := by
          rw [Nat.pow_succ, Nat.mul_comm _ 256]; exact Nat.mul_le_mul_right _ hx

/-- Byte strings of one length are equal when the numbers they denote are. -/
theorem ofBigEndian_inj {a b : Bytes} (hl : a.length = b.length)
    (h : ofBigEndian a = ofBigEndian b) : a = b := by
  induction a generalizing b with
  | nil => exact (List.length_eq_zero.1 hl.symm).symm
  | cons x a ih =>
    obtain _ | ⟨y, b⟩ := b
    · cases hl
    · simp only [List.length_cons, Nat.add_right_cancel_iff] at hl
      simp only [ofBigEndian, hl] at h
      have hp : 0 < 256 ^ b.length := Nat.pos_pow_of_pos _ (by decide)
      have hx : x.toNat = y.toNat := by
        have hdiv := congrArg (· / 256 ^ b.length) h
        simp only at hdiv
        rwa [Nat.add_comm (x.toNat * _), Nat.add_comm (y.toNat * _), Nat.add_mul_div_right _ _ hp,
          Nat.add_mul_div_right _ _ hp, Nat.div_eq_of_lt (hl ▸ ofBigEndian_lt a),
          Nat.div_eq_of_lt (ofBigEndian_lt b), Nat.zero_add, Nat.zero_add] at hdiv
      rw [hx, Nat.add_left_cancel_iff] at h
      rw [UInt8.toNat.inj hx, ih hl h]

/-- A byte string written at a width it fits in is the string after leading zeros. -/
theorem bigEndian_ofBigEndian {b : Bytes} {w : Nat} (h : b.length ≤ w) :
    bigEndian w (ofBigEndian b) = List.replicate (w - b.length) 0 ++ b := by
  refine ofBigEndian_inj (by simp; omega) ?_
  rw [ofBigEndian_bigEndian, ofBigEndian_append, ofBigEndian_replicate_zero, Nat.zero_mul,
    Nat.zero_add, Nat.mod_eq_of_lt ((ofBigEndian_lt b).trans_le (Nat.pow_le_pow_right (by decide) h))]

@[simp] theorem uint64_putUint64 (v : BitVec 64) : uint64 (putUint64 v) = some v := by
  have hv := v.isLt
  simp only [uint64, length_putUint64, Nat.lt_irrefl, if_false]
  rw [show (putUint64 v).take 8 = putUint64 v from List.take_of_length_le (by simp),
    putUint64, ofBigEndian_bigEndian, Nat.mod_eq_of_lt (by simpa using hv)]
  simp

theorem putUint64_injective {v v' : BitVec 64} (h : putUint64 v = putUint64 v') : v = v' := by
  simpa using congrArg uint64 h

end Devote
