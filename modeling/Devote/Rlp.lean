import Devote.Bytes

/-!
# RLP encoding of the witness list

`SetWitnesses` stores `rlp.EncodeToBytes` of a list of addresses under the `witness`
key of the cycle trie. An address is a 20-byte string; the list is the concatenation
of the encoded strings under a list header.
-/

namespace Devote.Rlp

/-- `putint`: the big-endian bytes of `n` without leading zeros, for `n < 2 ^ 64`. -/
def putint (n : Nat) : Bytes := (bigEndian 8 n).dropWhile (· == 0)

/-- `puthead`: the header of a payload of `size` bytes, one byte `smalltag + size`
below 56 bytes, else `largetag` plus the length of `putint size`, then `putint size`. -/
def puthead (smalltag largetag size : Nat) : Bytes :=
  if size < 56 then [UInt8.ofNat (smalltag + size)]
  else UInt8.ofNat (largetag + (putint size).length) :: putint size

/-- `encbuf.encodeString`: a single byte below `0x80` is its own encoding; any other
string gets a string header. -/
def encodeString (b : Bytes) : Bytes :=
  match b with
  | [x] => if x ≤ 0x7f then [x] else puthead 0x80 0xb7 1 ++ [x]
  | _ => puthead 0x80 0xb7 b.length ++ b

/-- `rlp.EncodeToBytes` of a `[]common.Address`. -/
def encodeToBytes (witnesses : List Address) : Bytes :=
  let payload := witnesses.flatMap fun w => encodeString w.bytes
  puthead 0xc0 0xf7 payload.length ++ payload

/-- An encoded list is never empty, so `Update` stores it rather than deleting. -/
theorem encodeToBytes_ne_nil (witnesses : List Address) : encodeToBytes witnesses ≠ [] := by
  simp only [encodeToBytes, puthead]
  split_ifs <;> simp

/-- An address encodes as the string header `0x94` and its twenty bytes. -/
theorem encodeString_address (w : Address) : encodeString w.bytes = 0x94 :: w.bytes := by
  unfold encodeString
  split
  · next x hx => simpa using congrArg List.length hx |>.symm.trans w.length_bytes
  · simp only [puthead, w.length_bytes]
    rfl

/-! ## Decoding

`GetWitnesses` reads the list back with `rlp.DecodeBytes` into a `[]common.Address`. A
stream limited to the input's length reads a list header, then one 20-byte string per
element until the list's payload is used up, and the input must end with the list.
Inside a list the stream may not read past the payload: the model hands each level the
bytes it may read, so that reading past them is `ErrElemTooLarge` in a list and
`ErrValueTooLarge` at the top. -/

/-- The errors of `rlp.DecodeBytes` into a `[]common.Address`. -/
inductive DecodeError where
  /-- `io.EOF`: the input is empty. -/
  | eof
  /-- `io.ErrUnexpectedEOF`: the reader ran out inside a value. -/
  | unexpectedEOF
  /-- `ErrValueTooLarge`: a top-level value reaches past the input. -/
  | valueTooLarge
  /-- `ErrElemTooLarge`: an element reaches past its list. -/
  | elemTooLarge
  /-- `ErrCanonSize`: a size with a leading zero byte, or a long header for a short value. -/
  | canonSize
  /-- `ErrExpectedList` -/
  | expectedList
  /-- `ErrExpectedString` -/
  | expectedString
  /-- `ErrMoreThanOneValue`: input left after the value. -/
  | moreThanOneValue
  /-- A `*decodeError`: its message, the Go type decoded into, and the enclosing values,
  innermost first. -/
  | decode (msg typ : String) (ctx : List String)
  deriving DecidableEq

/-- The error's text, as its `Error()` method prints it. -/
def DecodeError.text : DecodeError → String
  | .eof => "EOF"
  | .unexpectedEOF => "unexpected EOF"
  | .valueTooLarge => "rlp: value size exceeds available input length"
  | .elemTooLarge => "rlp: element is larger than containing list"
  | .canonSize => "rlp: non-canonical size information"
  | .expectedList => "rlp: expected List"
  | .expectedString => "rlp: expected String or Byte"
  | .moreThanOneValue => "rlp: input contains more than one value"
  | .decode msg typ ctx =>
    "rlp: " ++ msg ++ " for " ++ typ ++
      if ctx = [] then "" else ", decoding into " ++ String.join ctx.reverse

/-- `wrapStreamError`: a stream error reported against the Go type being decoded. -/
def wrapStreamError (typ : String) : DecodeError → DecodeError
  | .canonSize => .decode "non-canonical size information" typ []
  | .expectedList => .decode "expected input list" typ []
  | .expectedString => .decode "expected input string or byte" typ []
  | e => e

/-- `addErrorContext`: a `*decodeError` records the enclosing value it arose in. -/
def addErrorContext (ctx : String) : DecodeError → DecodeError
  | .decode msg typ c => .decode msg typ (c ++ [ctx])
  | e => e

/-- The kind of an RLP value. -/
inductive Kind where
  | byte
  | string
  | list
  deriving DecidableEq

/-- `Stream.readUint` for a size of `n` bytes, `1 ≤ n ≤ 8`: reading past `b` fails with
`tooLarge`, and a size of two or more bytes must not start with a zero byte. -/
def readUint (tooLarge : DecodeError) (n : Nat) (b : Bytes) : Except DecodeError (Nat × Bytes) :=
  if b.length < n then .error tooLarge
  else if 2 ≤ n ∧ b.head? = some 0 then .error .canonSize
  else .ok (ofBigEndian (b.take n), b.drop n)

/-- The size a long header gives, which must be at least 56. -/
def longSize (k : Kind) : Except DecodeError (Nat × Bytes) → Except DecodeError (Kind × Nat × Bytes)
  | .error e => .error e
  | .ok (size, b) => if size < 56 then .error .canonSize else .ok (k, size, b)

/-- `Stream.readKind`: the kind and size of the value whose header starts `b`, and the
bytes after the header. At the top level the missing first byte is `io.EOF`; inside a list
`Kind` reports the list's end before reading, so there `b` is never empty. -/
def readKind (tooLarge : DecodeError) : Bytes → Except DecodeError (Kind × Nat × Bytes)
  | [] => .error .eof
  | x :: b =>
    if x < 0x80 then .ok (.byte, 0, b)
    else if x < 0xb8 then .ok (.string, x.toNat - 0x80, b)
    else if x < 0xc0 then longSize .string (readUint tooLarge (x.toNat - 0xb7) b)
    else if x < 0xf8 then .ok (.list, x.toNat - 0xc0, b)
    else longSize .list (readUint tooLarge (x.toNat - 0xf7) b)

/-- `Stream.Kind`: `readKind`, and the value must fit in what may still be read. -/
def kind (tooLarge : DecodeError) (b : Bytes) : Except DecodeError (Kind × Nat × Bytes) :=
  match readKind tooLarge b with
  | .ok (k, size, b) => if b.length < size then .error tooLarge else .ok (k, size, b)
  | .error e => .error e

/-- `decodeByteArray` into a `common.Address`, a `[20]byte`, at the head of a list's
payload. -/
def decodeAddress (b : Bytes) : Except DecodeError (Address × Bytes) :=
  match kind .elemTooLarge b with
  | .error e => .error e
  | .ok (.byte, _, _) => .error (.decode "input string too short" "common.Address" [])
  | .ok (.string, size, b) =>
    if 20 < size then .error (.decode "input string too long" "common.Address" [])
    else if 20 > size then .error (.decode "input string too short" "common.Address" [])
    else if h : (b.take 20).length = 20 then .ok (⟨b.take 20, h⟩, b.drop 20)
    else .error .unexpectedEOF
  | .ok (.list, _, _) => .error (wrapStreamError "common.Address" .expectedString)

section Inversion

variable {e : DecodeError} {b r : Bytes} {k k' : Kind} {n size : Nat}

theorem kind_eq_of_ok {p p' : Nat × Bytes}
    (h : (.ok (k, p) : Except DecodeError (Kind × Nat × Bytes)) = .ok (k', p')) : k = k' :=
  congrArg Prod.fst (Except.ok.inj h)

theorem readUint_eq_ok (h : readUint e n b = .ok (size, r)) :
    size = ofBigEndian (b.take n) ∧ r = b.drop n ∧ n ≤ b.length ∧ ¬(2 ≤ n ∧ b.head? = some 0) := by
  unfold readUint at h
  split_ifs at h with h1 h2
  cases h
  exact ⟨rfl, rfl, Nat.not_lt.1 h1, h2⟩

theorem longSize_eq_ok {x : Except DecodeError (Nat × Bytes)}
    (h : longSize k x = .ok (k', size, r)) : x = .ok (size, r) ∧ k' = k ∧ 56 ≤ size := by
  unfold longSize at h
  split at h
  · cases h
  · split_ifs at h with hs
    cases h
    exact ⟨rfl, rfl, by omega⟩

theorem kind_eq_ok (h : kind e b = .ok (k, size, r)) :
    readKind e b = .ok (k, size, r) ∧ size ≤ r.length := by
  unfold kind at h
  split at h
  · split_ifs at h with hs
    cases h
    exact ⟨‹_›, by omega⟩
  · cases h

theorem kind_eq_ok_of_readKind (h : readKind e b = .ok (k, size, r)) (hs : size ≤ r.length) :
    kind e b = .ok (k, size, r) := by
  rw [kind, h]
  exact if_neg (Nat.not_lt.2 hs)

/-- A header `readKind` reads as a string shorter than 56 bytes is its one-byte header. -/
theorem readKind_string_inv (h : readKind e b = .ok (.string, size, r)) (hs : size < 56) :
    b = UInt8.ofNat (0x80 + size) :: r := by
  obtain _ | ⟨x, t⟩ := b
  · cases h
  have hx : x.toNat < 256 := x.toBitVec.isLt
  rw [readKind] at h
  split_ifs at h with h1 h2 h3
  · cases kind_eq_of_ok h
  · simp only [Except.ok.injEq, Prod.mk.injEq] at h
    obtain ⟨-, rfl, rfl⟩ := h
    have h128 : 128 ≤ x.toNat := Nat.not_lt.1 h1
    exact congrArg (· :: t) (UInt8.toNat.inj (by rw [toNat_ofNat_byte]; omega))
  · obtain ⟨-, -, h56⟩ := longSize_eq_ok h
    omega
  · cases kind_eq_of_ok h
  · obtain ⟨-, hk, -⟩ := longSize_eq_ok h
    cases hk

theorem decodeAddress_inv {a : Address} (h : decodeAddress b = .ok (a, r)) :
    b = encodeString a.bytes ++ r := by
  unfold decodeAddress at h
  split at h <;> try cases h
  rename_i size b' hk
  split_ifs at h with h1 h2
  cases h
  obtain ⟨hread, -⟩ := kind_eq_ok hk
  obtain rfl : size = 20 := by omega
  rw [readKind_string_inv hread (by decide), encodeString_address, List.cons_append,
    List.take_append_drop]
  rfl

theorem length_lt_of_decodeAddress {a : Address} (h : decodeAddress b = .ok (a, r)) :
    r.length < b.length := by
  rw [decodeAddress_inv h, encodeString_address, List.cons_append, List.length_cons,
    List.length_append]
  omega

end Inversion

/-- `decodeSliceElems`: the elements of the list's payload `b`, decoded until it is used
up; an element's error gets the element's index as context. -/
def decodeSliceElems (i : Nat) (b : Bytes) : Except DecodeError (List Address) :=
  if b = [] then .ok []
  else
    match h : decodeAddress b with
    | .error e => .error (addErrorContext ("[" ++ toString i ++ "]") e)
    | .ok (a, rest) => (a :: ·) <$> decodeSliceElems (i + 1) rest
termination_by b.length
decreasing_by exact length_lt_of_decodeAddress h

/-- `decodeListSlice` for a `[]common.Address`: a list header, then its elements; the
bytes after the list are left to the caller. -/
def decodeListSlice (b : Bytes) : Except DecodeError (List Address × Bytes) :=
  match kind .valueTooLarge b with
  | .error e => .error (wrapStreamError "[]common.Address" e)
  | .ok (.list, size, b) =>
    if size = 0 then .ok ([], b)
    else (·, b.drop size) <$> decodeSliceElems 0 (b.take size)
  | .ok _ => .error (wrapStreamError "[]common.Address" .expectedList)

/-- The last step of `Stream.Decode`: an error with a context gets the target type as its
outermost context. -/
def decodeContext : DecodeError → DecodeError
  | .decode msg typ (c :: cs) => .decode msg typ (c :: cs ++ ["([]common.Address)"])
  | e => e

/-- `rlp.DecodeBytes(b, &witnesses)` for `witnesses : []common.Address`. -/
def decodeBytes (b : Bytes) : Except DecodeError (List Address) :=
  match decodeListSlice b with
  | .error e => .error (decodeContext e)
  | .ok (witnesses, rest) => if rest = [] then .ok witnesses else .error .moreThanOneValue

/-! ## Round trip

The decoder reads back every list the encoder writes: the list header, short below 56
bytes of payload and long from there, gives the payload's length, and each address is the
string header `0x94` and its twenty bytes. -/

section RoundTrip

variable {e : DecodeError}

theorem not_lt_byte {x y : UInt8} (h : y.toNat ≤ x.toNat) : ¬x < y := Nat.not_lt.2 h

theorem readKind_short_string {x : UInt8} (b : Bytes) (h1 : 0x80 ≤ x.toNat) (h2 : x.toNat < 0xb8) :
    readKind e (x :: b) = .ok (.string, x.toNat - 0x80, b) := by
  rw [readKind, if_neg (not_lt_byte (y := 0x80) h1), if_pos (show x < 0xb8 from h2)]

theorem readKind_short_list {x : UInt8} (b : Bytes) (h1 : 0xc0 ≤ x.toNat) (h2 : x.toNat < 0xf8) :
    readKind e (x :: b) = .ok (.list, x.toNat - 0xc0, b) := by
  rw [readKind, if_neg (not_lt_byte (y := 0x80) (show 128 ≤ x.toNat by omega)),
    if_neg (not_lt_byte (y := 0xb8) (show 184 ≤ x.toNat by omega)),
    if_neg (not_lt_byte (y := 0xc0) h1), if_pos (show x < 0xf8 from h2)]

theorem readKind_long_list {x : UInt8} (b : Bytes) (h : 0xf8 ≤ x.toNat) :
    readKind e (x :: b) = longSize .list (readUint e (x.toNat - 0xf7) b) := by
  rw [readKind, if_neg (not_lt_byte (y := 0x80) (show 128 ≤ x.toNat by omega)),
    if_neg (not_lt_byte (y := 0xb8) (show 184 ≤ x.toNat by omega)),
    if_neg (not_lt_byte (y := 0xc0) (show 192 ≤ x.toNat by omega)),
    if_neg (not_lt_byte (y := 0xf8) h)]

theorem length_payload (witnesses : List Address) :
    (witnesses.flatMap fun w => encodeString w.bytes).length = 21 * witnesses.length := by
  induction witnesses with
  | nil => rfl
  | cons w ws ih =>
    rw [List.flatMap_cons, List.length_append, ih, encodeString_address, List.length_cons,
      w.length_bytes, List.length_cons]
    omega

theorem decodeAddress_encodeString (w : Address) (rest : Bytes) :
    decodeAddress (encodeString w.bytes ++ rest) = .ok (w, rest) := by
  have hk : kind .elemTooLarge (encodeString w.bytes ++ rest) =
      .ok (.string, 20, w.bytes ++ rest) := by
    rw [encodeString_address, List.cons_append]
    refine kind_eq_ok_of_readKind (readKind_short_string _ (by decide) (by decide)) ?_
    simp only [List.length_append, w.length_bytes]
    omega
  rw [decodeAddress, hk]
  simp only [Nat.lt_irrefl, gt_iff_lt, if_false, Address.take_append, w.length_bytes, dif_pos,
    Address.drop_append]

theorem decodeSliceElems_payload (i : Nat) (witnesses : List Address) :
    decodeSliceElems i (witnesses.flatMap fun w => encodeString w.bytes) = .ok witnesses := by
  induction witnesses generalizing i with
  | nil => simp [decodeSliceElems]
  | cons w ws ih =>
    rw [decodeSliceElems, List.flatMap_cons, if_neg (by simp [encodeString_address])]
    split
    · next heq => simp [decodeAddress_encodeString] at heq
    · next heq =>
      rw [decodeAddress_encodeString, Except.ok.injEq, Prod.mk.injEq] at heq
      obtain ⟨rfl, rfl⟩ := heq
      rw [ih]
      rfl

theorem ofBigEndian_dropWhile_zero (b : Bytes) :
    ofBigEndian (b.dropWhile (· == 0)) = ofBigEndian b := by
  induction b with
  | nil => rfl
  | cons x b ih =>
    rw [List.dropWhile_cons]
    split_ifs with hx
    · simp only [beq_iff_eq] at hx
      simp [ofBigEndian, hx, ih]
    · rfl

theorem ofBigEndian_putint {n : Nat} (h : n < 2 ^ 64) : ofBigEndian (putint n) = n := by
  rw [putint, ofBigEndian_dropWhile_zero, ofBigEndian_bigEndian]
  exact Nat.mod_eq_of_lt (by simpa using h)

theorem length_putint_le (n : Nat) : (putint n).length ≤ 8 :=
  (List.dropWhile_suffix _).length_le.trans (length_bigEndian 8 n).le

/-- `putint` of a positive size is one to eight bytes, the first of them not zero. -/
theorem putint_eq_cons {n : Nat} (h0 : 0 < n) (h : n < 2 ^ 64) :
    ∃ x r, putint n = x :: r ∧ x ≠ 0 := by
  have hnil : putint n ≠ [] := fun hp => by
    have := ofBigEndian_putint h
    rw [hp, ofBigEndian] at this
    omega
  obtain ⟨x, r, hp⟩ := List.exists_cons_of_ne_nil hnil
  have hx : ((putint n).head hnil == 0) = false := List.head_dropWhile_not _ _ hnil
  simp only [hp, List.head_cons, beq_eq_false_iff_ne] at hx
  exact ⟨x, r, hp, hx⟩

theorem readUint_putint {n : Nat} (h0 : 0 < n) (h : n < 2 ^ 64) (rest : Bytes) :
    readUint e (putint n).length (putint n ++ rest) = .ok (n, rest) := by
  obtain ⟨x, r, hp, hx⟩ := putint_eq_cons h0 h
  have hhead : (putint n ++ rest).head? ≠ some 0 := by simp [hp, hx]
  rw [readUint, if_neg (by simp), if_neg fun h' => hhead h'.2, List.take_left, List.drop_left,
    ofBigEndian_putint h]

/-- The header of a payload of fewer than `2 ^ 64` bytes reads back as a list of its
length. -/
theorem kind_puthead_list (payload : Bytes) (h : payload.length < 2 ^ 64) :
    kind .valueTooLarge (puthead 0xc0 0xf7 payload.length ++ payload) =
      .ok (.list, payload.length, payload) := by
  unfold puthead
  split_ifs with hs
  · have hx : (UInt8.ofNat (0xc0 + payload.length)).toNat = 0xc0 + payload.length := by
      rw [toNat_ofNat_byte]; omega
    refine kind_eq_ok_of_readKind ?_ le_rfl
    rw [List.singleton_append, readKind_short_list _ (by omega) (by omega), hx,
      Nat.add_sub_cancel_left]
  · have hlen := length_putint_le payload.length
    have hpos : 0 < (putint payload.length).length := by
      obtain ⟨x, r, hp, -⟩ := putint_eq_cons (by omega) h
      simp [hp]
    have hx : (UInt8.ofNat (0xf7 + (putint payload.length).length)).toNat =
        0xf7 + (putint payload.length).length := by
      rw [toNat_ofNat_byte]; omega
    refine kind_eq_ok_of_readKind ?_ le_rfl
    rw [List.cons_append, readKind_long_list _ (by omega), hx, Nat.add_sub_cancel_left,
      readUint_putint (by omega) h, longSize, if_neg (by omega)]

/-- `rlp.DecodeBytes` reads back every list `rlp.EncodeToBytes` writes whose payload's
length fits the `uint64` size of its header. -/
theorem decodeBytes_encodeToBytes (witnesses : List Address)
    (h : 21 * witnesses.length < 2 ^ 64) :
    decodeBytes (encodeToBytes witnesses) = .ok witnesses := by
  have hk := kind_puthead_list (witnesses.flatMap fun w => encodeString w.bytes)
    (by rw [length_payload]; exact h)
  simp only [decodeBytes, decodeListSlice, encodeToBytes, hk]
  split_ifs with h0
  · rw [length_payload, Nat.mul_eq_zero] at h0
    simp [List.length_eq_zero.1 (h0.resolve_left (by decide))]
  · rw [List.take_of_length_le le_rfl, List.drop_of_length_le le_rfl, decodeSliceElems_payload]
    rfl

end RoundTrip

/-! ## Only encodings decode

Every input `DecodeBytes` accepts is the encoding of the list it returns: each header is
the shortest one for its size, each element is the header `0x94` and twenty bytes, and
nothing follows the list. -/

section Canonical

variable {e : DecodeError} {b r : Bytes} {size : Nat}

/-- `putint` gives back a size of one to eight bytes that does not start with a zero. -/
theorem putint_ofBigEndian (hl : b.length ≤ 8) (hh : b.head? ≠ some 0) :
    putint (ofBigEndian b) = b := by
  rw [putint, bigEndian_ofBigEndian hl, List.dropWhile_append, List.dropWhile_replicate]
  simp only [beq_self_eq_true, if_true, List.isEmpty_nil]
  cases b with
  | nil => rfl
  | cons x t =>
    have hx : x ≠ 0 := fun hx => hh (by rw [hx]; rfl)
    simp [List.dropWhile_cons, hx]

/-- A header `readKind` reads as a list is the header `puthead` writes for its size. -/
theorem readKind_list_inv (h : readKind e b = .ok (.list, size, r)) :
    b = puthead 0xc0 0xf7 size ++ r := by
  obtain _ | ⟨x, t⟩ := b
  · cases h
  have hx : x.toNat < 256 := x.toBitVec.isLt
  rw [readKind] at h
  split_ifs at h with h1 h2 h3 h4
  · cases kind_eq_of_ok h
  · cases kind_eq_of_ok h
  · obtain ⟨-, hk, -⟩ := longSize_eq_ok h
    cases hk
  · simp only [Except.ok.injEq, Prod.mk.injEq] at h
    obtain ⟨-, rfl, rfl⟩ := h
    have h192 : 192 ≤ x.toNat := Nat.not_lt.1 h3
    have h248 : x.toNat < 248 := h4
    rw [puthead, if_pos (by omega), List.singleton_append]
    exact congrArg (· :: t) (UInt8.toNat.inj (by rw [toNat_ofNat_byte]; omega))
  · obtain ⟨hu, -, h56⟩ := longSize_eq_ok h
    have h248 : 248 ≤ x.toNat := Nat.not_lt.1 h4
    generalize hn' : x.toNat - 0xf7 = n at hu
    obtain ⟨hsz, hr, hn, hhead⟩ := readUint_eq_ok hu
    subst hsz hr
    have hh : (t.take n).head? ≠ some 0 := by
      rw [List.head?_take, if_neg (by omega)]
      intro h0
      by_cases hn2 : 2 ≤ n
      · exact hhead ⟨hn2, h0⟩
      · obtain ⟨y, t', rfl⟩ := List.exists_cons_of_ne_nil (List.ne_nil_of_length_pos (show 0 < t.length by omega))
        obtain rfl : y = 0 := by simpa using h0
        obtain rfl : n = 1 := by omega
        simp [ofBigEndian] at h56
    rw [puthead, if_neg (by omega), putint_ofBigEndian (by rw [List.length_take_of_le hn]; omega) hh,
      List.length_take_of_le hn, List.cons_append, List.take_append_drop]
    exact congrArg (· :: t) (UInt8.toNat.inj (by rw [toNat_ofNat_byte]; omega))

theorem decodeSliceElems_inv {i : Nat} {ws : List Address} (h : decodeSliceElems i b = .ok ws) :
    b = ws.flatMap fun w => encodeString w.bytes := by
  induction i, b using decodeSliceElems.induct generalizing ws with
  | case1 i =>
    rw [decodeSliceElems, if_pos rfl] at h
    cases h
    rfl
  | case2 i b hb e he =>
    rw [decodeSliceElems, if_neg hb] at h
    split at h
    · cases h
    · next heq => rw [he] at heq; cases heq
  | case3 i b hb a rest ha ih =>
    rw [decodeSliceElems, if_neg hb] at h
    split at h
    · cases h
    · next heq =>
      rw [ha, Except.ok.injEq, Prod.mk.injEq] at heq
      obtain ⟨rfl, rfl⟩ := heq
      cases hrest : decodeSliceElems (i + 1) rest with
      | error e => rw [hrest] at h; cases h
      | ok ws' =>
        rw [hrest] at h
        cases h
        rw [decodeAddress_inv ha, ih hrest, List.flatMap_cons]

/-- Every input `rlp.DecodeBytes` accepts into a `[]common.Address` is the encoding of the
list it returns. -/
theorem encodeToBytes_of_decodeBytes {witnesses : List Address}
    (h : decodeBytes b = .ok witnesses) : b = encodeToBytes witnesses := by
  unfold decodeBytes at h
  split at h
  · cases h
  rename_i ws rest hl
  split_ifs at h with hrest
  cases h
  subst hrest
  unfold decodeListSlice at hl
  split at hl
  · cases hl
  · rename_i size b' hk
    obtain ⟨hread, hsize⟩ := kind_eq_ok hk
    rw [readKind_list_inv hread]
    split_ifs at hl with h0
    · simp only [Except.ok.injEq, Prod.mk.injEq] at hl
      obtain ⟨rfl, rfl⟩ := hl
      rw [h0]
      rfl
    · cases hs : decodeSliceElems 0 (b'.take size) with
      | error e => rw [hs] at hl; cases hl
      | ok ws' =>
        simp only [hs, Except.map_ok, Except.ok.injEq, Prod.mk.injEq] at hl
        obtain ⟨rfl, hdrop⟩ := hl
        have hlen : b'.length = size := by have := List.drop_eq_nil_iff.1 hdrop; omega
        rw [List.take_of_length_le hlen.le] at hs
        rw [encodeToBytes, ← decodeSliceElems_inv hs, hlen]
  · cases hl

/-- `rlp.DecodeBytes` into a `[]common.Address` accepts exactly the encodings: an input
decodes to a list whose payload fits the header's `uint64` size iff it is that list's
encoding. -/
theorem decodeBytes_eq_ok_iff {witnesses : List Address} (h : 21 * witnesses.length < 2 ^ 64) :
    decodeBytes b = .ok witnesses ↔ b = encodeToBytes witnesses :=
  ⟨encodeToBytes_of_decodeBytes, fun hb => hb ▸ decodeBytes_encodeToBytes witnesses h⟩

/-- Three addresses need the long list header; the same bytes with one more byte after them
are rejected. -/
theorem decodeBytes_eq_ok_iff_three :
    21 * [Address.zero, Address.zero, Address.zero].length < 2 ^ 64 ∧
      decodeBytes (encodeToBytes [Address.zero, Address.zero, Address.zero]) =
        .ok [Address.zero, Address.zero, Address.zero] ∧
      decodeBytes (encodeToBytes [Address.zero, Address.zero, Address.zero] ++ [0]) ≠
        .ok [Address.zero, Address.zero, Address.zero] :=
  have h : 21 * [Address.zero, Address.zero, Address.zero].length < 2 ^ 64 := by decide
  ⟨h, (decodeBytes_eq_ok_iff h).2 rfl,
    fun hdec => by simpa using (decodeBytes_eq_ok_iff h).1 hdec⟩

end Canonical

end Devote.Rlp
