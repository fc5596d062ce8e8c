import Devote.Bytes

/-!
# Node ids at the API backend

`GetInfo` and `GetEnode` of `EthAPIBackend` look a masternode up in the masternode
contracts by its eight-byte id, which the caller gives as hex text. Both read the text
alike: `strings.TrimPrefix` of `0x`, `hex.DecodeString`, and a length of eight bytes. `Data`
prints the node's registration data, its key in hex behind a method selector, and asks the
contract whether the key's first eight bytes are registered. The contracts, and the printing
of what they return, are kept abstract. A Go string is modelled by its characters: a
character outside ASCII is no hex digit in either reading, so the decoder accepts the same
texts and returns the same bytes in both.

`hex.DecodeString` accepts exactly the texts whose lower-case form `hex.EncodeToString`
writes, and returns the bytes it wrote them from. So `GetInfo` and `GetEnode` look up
exactly the id their text spells, with or without `0x` and in either case, and answer any
other text without a lookup.
-/

namespace Devote.Backend

/-! ## Hex text -/

/-- `hextable`, the digits `hex.Encode` writes. -/
def hextable : List Char := "0123456789abcdef".toList

/-- `hex.EncodeToString`, which `common.Bytes2Hex` calls: two digits a byte, the high half
first. -/
def encodeToString (src : Bytes) : List Char :=
  src.flatMap fun v =>
    [hextable.getD (v >>> 4).toNat '0', hextable.getD (v &&& 0x0f).toNat '0']

/-- `fromHexChar`: the value of a hex digit of either case. -/
def fromHexChar (c : Char) : Option UInt8 :=
  if '0' ≤ c ∧ c ≤ '9' then some (UInt8.ofNat (c.toNat - '0'.toNat))
  else if 'a' ≤ c ∧ c ≤ 'f' then some (UInt8.ofNat (c.toNat - 'a'.toNat + 10))
  else if 'A' ≤ c ∧ c ≤ 'F' then some (UInt8.ofNat (c.toNat - 'A'.toNat + 10))
  else none

/-- `hex.DecodeString`: two digits a byte, the high one first. `none` is its error, an odd
length or a character that is no hex digit; which of the two, the callers only print. -/
def decodeString : List Char → Option Bytes
  | [] => some []
  | [_] => none
  | a :: b :: rest => do
    let a ← fromHexChar a
    let b ← fromHexChar b
    return (a <<< 4 ||| b) :: (← decodeString rest)

/-- `strings.TrimPrefix` -/
def trimPrefix (s pre : List Char) : List Char :=
  if pre.isPrefixOf s then s.drop pre.length else s

/-! ### Digits and bytes -/

theorem toNat_hextable : ∀ v : Fin 16,
    (hextable.getD v '0').toNat = if v.val < 10 then 48 + v.val else 87 + v.val := by
  decide

/-- A byte made of two digits gives the digits back. -/
theorem pair_halves : ∀ x y : Fin 16,
    (UInt8.ofNat x <<< 4 ||| UInt8.ofNat y) >>> 4 = UInt8.ofNat x ∧
      (UInt8.ofNat x <<< 4 ||| UInt8.ofNat y) &&& 0x0f = UInt8.ofNat y := by
  decide

theorem toNat_pair : ∀ x y : Fin 16,
    (UInt8.ofNat x <<< 4 ||| UInt8.ofNat y).toNat = 16 * x.val + y.val := by
  decide

/-- Every byte is made of two digits. -/
theorem exists_pair (v : UInt8) :
    ∃ x y : Fin 16, v = UInt8.ofNat x <<< 4 ||| UInt8.ofNat y := by
  have hv : v.toNat < 256 := v.toNat_lt_size
  refine ⟨⟨v.toNat / 16, by omega⟩, ⟨v.toNat % 16, by omega⟩, UInt8.toNat.inj ?_⟩
  rw [toNat_pair]
  dsimp only
  omega

theorem toLower_of_not_upper {c : Char} (h : ¬(65 ≤ c.toNat ∧ c.toNat ≤ 90)) :
    c.toLower = c := by
  unfold Char.toLower
  dsimp only
  rw [if_neg h]

theorem toNat_toLower_of_upper {c : Char} (h : 65 ≤ c.toNat ∧ c.toNat ≤ 90) :
    c.toLower.toNat = c.toNat + 32 := by
  unfold Char.toLower
  dsimp only
  rw [if_pos h, Char.ofNat, dif_pos (Or.inl (by omega))]
  rfl

theorem char_eq_of_toNat_eq {a b : Char} (h : a.toNat = b.toNat) : a = b := by
  rw [← Char.ofNat_toNat a, h, Char.ofNat_toNat]

theorem eq_hextable {c : Char} (v : Nat) (hv : v < 16)
    (h : c.toNat = if v < 10 then 48 + v else 87 + v) : c = hextable.getD v '0' :=
  char_eq_of_toNat_eq (h.trans (toNat_hextable ⟨v, hv⟩).symm)

theorem fromHexChar_eq (c : Char) : fromHexChar c =
    if 48 ≤ c.toNat ∧ c.toNat ≤ 57 then some (UInt8.ofNat (c.toNat - 48))
    else if 97 ≤ c.toNat ∧ c.toNat ≤ 102 then some (UInt8.ofNat (c.toNat - 97 + 10))
    else if 65 ≤ c.toNat ∧ c.toNat ≤ 70 then some (UInt8.ofNat (c.toNat - 65 + 10))
    else none :=
  rfl

theorem fromHexChar_hextable (v : Fin 16) :
    fromHexChar (hextable.getD v '0') = some (UInt8.ofNat v) := by
  have := v.isLt
  rw [fromHexChar_eq, toNat_hextable]
  by_cases h : v.val < 10
  · rw [if_pos h, if_pos (by omega)]
    exact congrArg (fun n => some (UInt8.ofNat n)) (by omega)
  · rw [if_neg h, if_neg (by omega), if_pos (by omega)]
    exact congrArg (fun n => some (UInt8.ofNat n)) (by omega)

/-- The decoder reads a digit and its lower-case form alike. -/
theorem fromHexChar_toLower (c : Char) : fromHexChar c.toLower = fromHexChar c := by
  by_cases hu : 65 ≤ c.toNat ∧ c.toNat ≤ 90
  · rw [fromHexChar_eq, fromHexChar_eq, toNat_toLower_of_upper hu, if_neg (by omega),
      if_neg (show ¬(48 ≤ c.toNat ∧ c.toNat ≤ 57) by omega),
      if_neg (show ¬(97 ≤ c.toNat ∧ c.toNat ≤ 102) by omega)]
    by_cases hA : 65 ≤ c.toNat ∧ c.toNat ≤ 70
    · rw [if_pos (by omega), if_pos hA]
      exact congrArg (fun n => some (UInt8.ofNat n)) (by omega)
    · rw [if_neg (by omega), if_neg (by omega), if_neg hA]
  · rw [toLower_of_not_upper hu]

/-- A digit the decoder reads is, in lower case, the digit `hex.Encode` writes for its
value. -/
theorem toLower_of_fromHexChar {c : Char} {x : UInt8} (h : fromHexChar c = some x) :
    ∃ v : Fin 16, x = UInt8.ofNat v ∧ c.toLower = hextable.getD v '0' := by
  rw [fromHexChar_eq] at h
  split_ifs at h with h₁ h₂ h₃
  · refine ⟨⟨c.toNat - 48, by omega⟩, (Option.some.inj h).symm,
      eq_hextable (c.toNat - 48) (by omega) ?_⟩
    rw [toLower_of_not_upper (by omega), if_pos (by omega)]
    omega
  · refine ⟨⟨c.toNat - 97 + 10, by omega⟩, (Option.some.inj h).symm,
      eq_hextable (c.toNat - 97 + 10) (by omega) ?_⟩
    rw [toLower_of_not_upper (by omega), if_neg (by omega)]
    omega
  · refine ⟨⟨c.toNat - 65 + 10, by omega⟩, (Option.some.inj h).symm,
      eq_hextable (c.toNat - 65 + 10) (by omega) ?_⟩
    rw [toNat_toLower_of_upper (by omega), if_neg (by omega)]
    omega

/-! ### The decoder reads exactly what the encoder writes -/

theorem toNat_ofNat_digit (x : Fin 16) : (UInt8.ofNat x).toNat = x := by
  rw [toNat_ofNat_byte]
  omega

/-- The digits written for a byte made of two digits are those digits. -/
theorem encodeToString_pair (x y : Fin 16) (src : Bytes) :
    encodeToString ((UInt8.ofNat x <<< 4 ||| UInt8.ofNat y) :: src) =
      hextable.getD x '0' :: hextable.getD y '0' :: encodeToString src := by
  simp only [encodeToString, List.flatMap_cons, (pair_halves x y).1, (pair_halves x y).2,
    toNat_ofNat_digit]
  rfl

theorem decodeString_cons_cons (a b : Char) (rest : List Char) :
    decodeString (a :: b :: rest) = (fromHexChar a).bind fun x => (fromHexChar b).bind
      fun y => (decodeString rest).map ((x <<< 4 ||| y) :: ·) := by
  simp only [decodeString, Option.bind_eq_bind, Option.map_eq_bind]
  rfl

/-- `hex.DecodeString` accepts exactly the texts whose lower-case form `hex.EncodeToString`
writes, and returns the bytes it wrote them from: it reads back every text the encoder
writes, in either case, and nothing else. -/
theorem decodeString_eq_some_iff (s : List Char) (b : Bytes) :
    decodeString s = some b ↔ s.map Char.toLower = encodeToString b := by
  induction s using decodeString.induct generalizing b with
  | case1 => cases b <;> simp [decodeString, encodeToString]
  | case2 c => cases b <;> simp [decodeString, encodeToString]
  | case3 a c rest ih =>
    rw [decodeString_cons_cons]
    constructor
    · intro h
      simp only [Option.bind_eq_some, Option.map_eq_some'] at h
      obtain ⟨x, hx, y, hy, bs, hbs, rfl⟩ := h
      obtain ⟨v, rfl, hv⟩ := toLower_of_fromHexChar hx
      obtain ⟨w, rfl, hw⟩ := toLower_of_fromHexChar hy
      rw [List.map_cons, List.map_cons, hv, hw, (ih bs).1 hbs, encodeToString_pair]
    · intro h
      cases b with
      | nil => simp [encodeToString] at h
      | cons v bs =>
        obtain ⟨x, y, rfl⟩ := exists_pair v
        rw [List.map_cons, List.map_cons, encodeToString_pair, List.cons.injEq,
          List.cons.injEq] at h
        obtain ⟨ha, hc, hrest⟩ := h
        rw [← fromHexChar_toLower a, ha, fromHexChar_hextable, ← fromHexChar_toLower c, hc,
          fromHexChar_hextable, (ih bs).2 hrest]
        rfl

example : decodeString "0A1b".toList = some [0x0a, 0x1b] := by decide

/-! ## The masternode lookups -/

/-- A masternode id, `[8]byte`. -/
structure NodeId where
  bytes : Bytes
  length_bytes : bytes.length = 8
  deriving DecidableEq

/-- A `[32]byte`. -/
structure Bytes32 where
  bytes : Bytes
  length_bytes : bytes.length = 32
  deriving DecidableEq

/-- What `GetSingleEnode` returns for an id. -/
structure EnodeData where
  id1 : Bytes32
  id2 : Bytes32
  ipport : UInt64

/-- What the masternode methods of `EthAPIBackend` read of the node, over the records `Info`
of the masternode contract and the errors `Err` of the contracts. -/
structure EthAPIBackend (Info Err : Type) where
  /-- `masternodeManager.contract.GetInfo(nil, id)` -/
  contractGetInfo : NodeId → Except Err Info
  /-- `masternodeManager.contract.Has(nil, id)` -/
  contractHas : NodeId → Except Err Bool
  /-- `masternodeManager.enodeinfoContract.GetSingleEnode(nil, id)`; `none` while the
  contract is nil. -/
  enodeinfoContract : Option (NodeId → Except Err EnodeData)
  /-- `masternodeManager.srvr.Self().XY()`; `none` while `Self()` is nil. -/
  selfXY : Option Bytes
  /-- The `fmt.Sprintf` of a record that `GetInfo` returns. -/
  formatInfo : Info → String
  /-- `enodetools.NewDiscoverNode(id1, id2, ipport).String()` -/
  discoverNodeString : Bytes32 → Bytes32 → UInt64 → String

/-- `%v` of a `[]byte`: the bytes in decimal, apart by spaces, between brackets. -/
def formatBytes (b : Bytes) : String :=
  "[" ++ " ".intercalate (b.map fun x => toString x.toNat) ++ "]"

namespace EthAPIBackend

variable {Info Err : Type}

/-- What `GetInfo` answers for an id once it has read it: the contract's record, printed,
or nothing when the contract fails. -/
def infoOf (b : EthAPIBackend Info Err) (id : NodeId) : String :=
  match b.contractGetInfo id with
  | .error _ => ""
  | .ok info => b.formatInfo info

/-- `GetInfo` -/
def getInfo (b : EthAPIBackend Info Err) (nodeid : String) : String :=
  match decodeString (trimPrefix nodeid.toList "0x".toList) with
  | none => ""
  | some node => if h : node.length ≠ 8 then "" else b.infoOf ⟨node, Decidable.of_not_not h⟩

/-- What `GetEnode` answers for an id once it has read it: the node's enode URL, unless the
contract fails or holds no enode for the id. An array is always 32 bytes long, so the two
length tests never hold. -/
def enodeOf (b : EthAPIBackend Info Err) (getSingleEnode : NodeId → Except Err EnodeData)
    (nodeid : String) (id : NodeId) : String :=
  match getSingleEnode id with
  | .error _ => ""
  | .ok data =>
    if data.id1.bytes = List.replicate 32 0 ∨ data.id2.bytes = List.replicate 32 0 ∨
        data.id1.bytes.length ≠ 32 ∨ data.id2.bytes.length ≠ 32 ∨ data.ipport = 0 then
      "No enodeinfo storaged for nodeid " ++ nodeid
    else b.discoverNodeString data.id1 data.id2 data.ipport

/-- `GetEnode`. The test `nodebyte[:] == nil` is `nodebyte = []`: an empty result fails
the length test as well, so whether `DecodeString` returns it nil does not matter. -/
def getEnode (b : EthAPIBackend Info Err) (nodeid : String) : String :=
  match b.enodeinfoContract with
  | none => "wait for 10 seconds until finish initializing"
  | some getSingleEnode =>
    match decodeString (trimPrefix nodeid.toList "0x".toList) with
    | none => "nodeid is illegal  " ++ nodeid
    | some nodebyte =>
      if h : nodebyte = [] ∨ nodebyte.length ≠ 8 then
        "nodeid is illegal  " ++ formatBytes nodebyte ++ "\n"
      else b.enodeOf getSingleEnode nodeid ⟨nodebyte, Decidable.of_not_not (not_or.1 h).2⟩

/-- `Data`: the method selector `0x2f926732` and the node's key in hex, behind a warning
when the contract has the id of the key's first eight bytes already. `none` is the panic of
`xy[0:8]` on a shorter key (a slice's capacity is taken to be its length). -/
def data (b : EthAPIBackend Info Err) : Option String :=
  match b.selfXY with
  | none => some "wait for more 10 seconds to initial the geth"
  | some xy =>
    if h : xy.length < 8 then none
    else
      match b.contractHas ⟨xy.take 8, by rw [List.length_take]; omega⟩ with
      | .error _ => some ""
      | .ok has =>
        let strPromotion := if has then
          "### It\x27s already been a masternode!,don\x27t send your masternode data any more!"
          else ""
        let data := "0x2f926732" ++ String.mk (encodeToString xy)
        some (strPromotion ++ " your masternode data is " ++ data)

/-- The text `nodeid` spells the id `id`: behind a `0x`, if it has one, its lower-case form is
the hex of the id's bytes. -/
def Spells (nodeid : String) (id : NodeId) : Prop :=
  (trimPrefix nodeid.toList "0x".toList).map Char.toLower = encodeToString id.bytes

/-- `GetInfo` and `GetEnode` look up exactly the id their text spells, with or without `0x`
and in either case; a text that spells no id they answer without a lookup, `GetInfo` with
nothing and `GetEnode`, once its contract is set up, as an illegal node id. -/
theorem lookups_read_spelled_id (b : EthAPIBackend Info Err) (nodeid : String) :
    (∀ id, Spells nodeid id → b.getInfo nodeid = b.infoOf id ∧
      ∀ f, b.enodeinfoContract = some f → b.getEnode nodeid = b.enodeOf f nodeid id) ∧
    ((∀ id, ¬Spells nodeid id) → b.getInfo nodeid = "" ∧
      ∀ f, b.enodeinfoContract = some f →
        ∃ msg, b.getEnode nodeid = "nodeid is illegal  " ++ msg) := by
  constructor
  · intro id hid
    have hdec := (decodeString_eq_some_iff _ _).2 hid
    have hlen : ¬(id.bytes = [] ∨ id.bytes.length ≠ 8) := by
      simp [id.length_bytes, ← List.length_eq_zero]
    refine ⟨by simp only [getInfo, hdec, id.length_bytes, ne_eq, not_true_eq_false,
      dite_false], fun f hf => ?_⟩
    simp only [getEnode, hf, hdec, dif_neg hlen]
  · intro hnone
    have hlen : ∀ {node : Bytes},
        decodeString (trimPrefix nodeid.toList "0x".toList) = some node → node.length ≠ 8 :=
      fun hdec h8 => hnone ⟨_, h8⟩ ((decodeString_eq_some_iff _ _).1 hdec)
    constructor
    · unfold getInfo
      split
      · rfl
      · next node hdec => rw [dif_pos (hlen hdec)]
    · intro f hf
      unfold getEnode
      rw [hf]
      dsimp only
      split
      · exact ⟨nodeid, rfl⟩
      · next node hdec =>
        rw [dif_pos (.inr (hlen hdec))]
        exact ⟨formatBytes node ++ "\n", String.append_assoc _ _ _⟩

end EthAPIBackend

end Devote.Backend
