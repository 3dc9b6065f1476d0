import Exchanges.Lib.Packing
import Mathlib.Data.Int.Order.Basic

/-!
The hash of an edgeX limit order.

The hash is a chain of hashes of two words each: the asset words first, then two
words that the rest of the order is packed into. A hash reads 252 bits of a word, so
a word that had more would lose them, and a field that ran over its width would be
added to the field above it.
-/

namespace Exchanges.Sdk.Edgex

open Exchanges.Lib

/-! ### The hash -/

/-- The curve that the hash adds points on, with its table of constant points. -/
structure Starkcurve where
  Point : Type
  add : Point → Point → Point
  constantPoints : ℕ → Point
  /-- The first coordinate. -/
  x : Point → ℕ

variable (curve : Starkcurve)

/-- The inner loop of `CalcHash` for the word at position `i`. -/
def addWord (i : ℕ) (word : ℤ) (point : curve.Point) : curve.Point :=
  ((readBits 252 word).1.zipIdx).foldl
    (fun point bit =>
      if bit.1 then curve.add point (curve.constantPoints (2 + i * 252 + bit.2)) else point) point

/-- `CalcHash`. Its bytes are read as a number again by the callers. -/
def calcHash (input : List ℤ) : ℕ :=
  curve.x (input.zipIdx.foldl (fun point word => addWord curve word.2 word.1 point)
    (curve.constantPoints 0))

/-! ### The order -/

/-- The arguments of `CalcLimitOrderHash`. -/
structure LimitOrder where
  assetIdSynthetic : String
  assetIdCollateral : String
  assetIdFee : String
  isBuyingSynthetic : Bool
  amountSynthetic : Int64
  amountCollateral : Int64
  amountFee : Int64
  nonce : Int64
  positionID : Int64
  expirationTimestamp : Int64

/-- The value of a hexadecimal digit. -/
def hexDigit (c : Char) : Option ℤ :=
  if '0' ≤ c ∧ c ≤ '9' then some (c.toNat - '0'.toNat)
  else if 'a' ≤ c ∧ c ≤ 'f' then some (c.toNat - 'a'.toNat + 10)
  else if 'A' ≤ c ∧ c ≤ 'F' then some (c.toNat - 'A'.toNat + 10)
  else none

def hexDigits (digits : List Char) : Option ℤ :=
  if digits = [] then none
  else digits.foldlM (fun n c => (hexDigit c).map fun d => 16 * n + d) 0

/-- `SetString(text, 16)`: a sign and digits. -/
def setString (text : List Char) : Option ℤ :=
  match text with
  | '-' :: digits => (hexDigits digits).map fun n => -n
  | '+' :: digits => hexDigits digits
  | digits => hexDigits digits

/-- The number of an asset id, after a prefix `0x` if there is one. -/
def assetWord (assetId : String) : Option ℤ :=
  match assetId.toList with
  | '0' :: 'x' :: c :: rest => setString (c :: rest)
  | text => setString text

def limitOrderWithFeeType : ℤ := 3

/-- The words that `CalcLimitOrderHash` hashes. -/
@[ext] structure Words where
  assetSell : ℤ
  assetBuy : ℤ
  assetFee : ℤ
  packedMessage0 : ℤ
  packedMessage1 : ℤ
  deriving DecidableEq

namespace LimitOrder

def amountSell (o : LimitOrder) : Int64 :=
  if o.isBuyingSynthetic then o.amountCollateral else o.amountSynthetic

def amountBuy (o : LimitOrder) : Int64 :=
  if o.isBuyingSynthetic then o.amountSynthetic else o.amountCollateral

def assetSell (o : LimitOrder) : Option ℤ :=
  assetWord (if o.isBuyingSynthetic then o.assetIdCollateral else o.assetIdSynthetic)

def assetBuy (o : LimitOrder) : Option ℤ :=
  assetWord (if o.isBuyingSynthetic then o.assetIdSynthetic else o.assetIdCollateral)

def assetFee (o : LimitOrder) : Option ℤ := assetWord o.assetIdFee

/-- The fields below the amount that is sold. -/
def fields0 (o : LimitOrder) : List BitField :=
  [⟨64, o.amountBuy.toInt⟩, ⟨64, o.amountFee.toInt⟩, ⟨32, o.nonce.toInt⟩]

/-- The fields below the type of the order. The last one is padding. -/
def fields1 (o : LimitOrder) : List BitField :=
  [⟨64, o.positionID.toInt⟩, ⟨64, o.positionID.toInt⟩, ⟨64, o.positionID.toInt⟩,
    ⟨32, o.expirationTimestamp.toInt⟩, ⟨17, 0⟩]

/-- No words if an asset id is not a number: the call panics then. -/
def words (o : LimitOrder) : Option Words := do
  let sell ← o.assetSell
  let buy ← o.assetBuy
  let fee ← o.assetFee
  return {
    assetSell := sell
    assetBuy := buy
    assetFee := fee
    packedMessage0 := pack o.amountSell.toInt o.fields0
    packedMessage1 := pack limitOrderWithFeeType o.fields1 }

/-- `CalcLimitOrderHash`. -/
def calcLimitOrderHash (o : LimitOrder) : Option ℕ :=
  o.words.map fun w =>
    let msg := calcHash curve [w.assetSell, w.assetBuy]
    let msg := calcHash curve [msg, w.assetFee]
    let msg := calcHash curve [msg, w.packedMessage0]
    calcHash curve [msg, w.packedMessage1]

/-- The asset ids are numbers below `2 ^ 252`, the amounts, the fee and the position id
are not negative, and the nonce and the expiration are below `2 ^ 32`. -/
structure InRange (o : LimitOrder) : Prop where
  assetSell : ∃ n, o.assetSell = some n ∧ 0 ≤ n ∧ n < 2 ^ 252
  assetBuy : ∃ n, o.assetBuy = some n ∧ 0 ≤ n ∧ n < 2 ^ 252
  assetFee : ∃ n, o.assetFee = some n ∧ 0 ≤ n ∧ n < 2 ^ 252
  amountSell : 0 ≤ o.amountSell.toInt
  amountBuy : 0 ≤ o.amountBuy.toInt
  amountFee : 0 ≤ o.amountFee.toInt
  positionID : 0 ≤ o.positionID.toInt
  nonce : 0 ≤ o.nonce.toInt ∧ o.nonce.toInt < 2 ^ 32
  expirationTimestamp : 0 ≤ o.expirationTimestamp.toInt ∧ o.expirationTimestamp.toInt < 2 ^ 32

section

variable {o o' : LimitOrder}

theorem toInt_lt_two_pow (n : Int64) : n.toInt < 2 ^ 64 :=
  n.toInt_lt.trans (by norm_num)

theorem widths0 (o : LimitOrder) : o.fields0.map BitField.width = [64, 64, 32] := rfl

theorem widths1 (o : LimitOrder) : o.fields1.map BitField.width = [64, 64, 64, 32, 17] := rfl

theorem InRange.fits0 (h : o.InRange) : ∀ f ∈ o.fields0, f.Fits := by
  simp only [fields0, List.forall_mem_cons]
  exact ⟨⟨h.amountBuy, toInt_lt_two_pow _⟩, ⟨h.amountFee, toInt_lt_two_pow _⟩, h.nonce,
    List.forall_mem_nil _⟩

theorem InRange.fits1 (h : o.InRange) : ∀ f ∈ o.fields1, f.Fits := by
  have hposition : BitField.Fits ⟨64, o.positionID.toInt⟩ := ⟨h.positionID, toInt_lt_two_pow _⟩
  simp only [fields1, List.forall_mem_cons]
  exact ⟨hposition, hposition, hposition, h.expirationTimestamp, ⟨le_refl _, by norm_num⟩,
    List.forall_mem_nil _⟩

/-- The words of an order in range. -/
theorem InRange.words_eq (h : o.InRange) : ∃ w, o.words = some w ∧
    o.assetSell = some w.assetSell ∧ o.assetBuy = some w.assetBuy ∧
    o.assetFee = some w.assetFee ∧ w.packedMessage0 = pack o.amountSell.toInt o.fields0 ∧
    w.packedMessage1 = pack limitOrderWithFeeType o.fields1 := by
  obtain ⟨sell, hsell, -⟩ := h.assetSell
  obtain ⟨buy, hbuy, -⟩ := h.assetBuy
  obtain ⟨fee, hfee, -⟩ := h.assetFee
  refine ⟨⟨sell, buy, fee, _, _⟩, ?_, hsell, hbuy, hfee, rfl, rfl⟩
  rw [words, hsell, hbuy, hfee]
  rfl

/-- What the words say of an order. -/
structure SameOrder (o o' : LimitOrder) : Prop where
  assetSell : o.assetSell = o'.assetSell
  assetBuy : o.assetBuy = o'.assetBuy
  assetFee : o.assetFee = o'.assetFee
  amountSell : o.amountSell = o'.amountSell
  amountBuy : o.amountBuy = o'.amountBuy
  amountFee : o.amountFee = o'.amountFee
  nonce : o.nonce = o'.nonce
  positionID : o.positionID = o'.positionID
  expirationTimestamp : o.expirationTimestamp = o'.expirationTimestamp

theorem sameOrder_of_words (h : o.InRange) (h' : o'.InRange) (hwords : o.words = o'.words) :
    SameOrder o o' := by
  obtain ⟨w, hw, hsell, hbuy, hfee, h0, h1⟩ := h.words_eq
  obtain ⟨w', hw', hsell', hbuy', hfee', h0', h1'⟩ := h'.words_eq
  have heq : w = w' := Option.some.inj (hw.symm.trans (hwords.trans hw'))
  rw [heq] at hsell hbuy hfee h0 h1
  have hwidths0 : o.fields0.map BitField.width = o'.fields0.map BitField.width := by
    rw [widths0, widths0]
  have hwidths1 : o.fields1.map BitField.width = o'.fields1.map BitField.width := by
    rw [widths1, widths1]
  obtain ⟨hsold, hfields0⟩ := pack_inj hwidths0 h.fits0 h'.fits0 (h0.symm.trans h0')
  obtain ⟨-, hfields1⟩ := pack_inj hwidths1 h.fits1 h'.fits1 (h1.symm.trans h1')
  rw [fields0, fields0, List.cons.injEq, List.cons.injEq, List.cons.injEq] at hfields0
  rw [fields1, fields1, List.cons.injEq, List.cons.injEq, List.cons.injEq, List.cons.injEq]
    at hfields1
  have hvalue : ∀ {width : ℕ} {n m : Int64}, BitField.mk width n.toInt = ⟨width, m.toInt⟩ → n = m :=
    fun hfield => Int64.toInt_inj.mp (BitField.mk.inj hfield).2
  exact ⟨hsell.trans hsell'.symm, hbuy.trans hbuy'.symm, hfee.trans hfee'.symm,
    Int64.toInt_inj.mp hsold, hvalue hfields0.1, hvalue hfields0.2.1, hvalue hfields0.2.2.1,
    hvalue hfields1.1, hvalue hfields1.2.2.2.1⟩

/-- For an order in range the loop of the hash reads both packed words to their last
bit, and the words determine the order. -/
theorem packed_words_sound (o : LimitOrder) (h : o.InRange) :
    (∃ w, o.words = some w ∧
      ∀ word ∈ [w.packedMessage0, w.packedMessage1], 0 ≤ word ∧ word < 2 ^ 252 ∧
        ofBits (readBits 252 word).1 = word ∧ (readBits 252 word).2 = 0) ∧
    ∀ o' : LimitOrder, o'.InRange → o.words = o'.words → SameOrder o o' := by
  refine ⟨?_, fun o' h' hwords => sameOrder_of_words h h' hwords⟩
  obtain ⟨w, hw, -, -, -, h0, h1⟩ := h.words_eq
  have hread : ∀ word : ℤ, 0 ≤ word → word < 2 ^ 252 → 0 ≤ word ∧ word < 2 ^ 252 ∧
      ofBits (readBits 252 word).1 = word ∧ (readBits 252 word).2 = 0 := fun word hpos hlt =>
    ⟨hpos, hlt, readBits_of_lt 252 hpos hlt⟩
  have hlt0 := pack_lt h.fits0 (toInt_lt_two_pow o.amountSell)
  have hlt1 : pack limitOrderWithFeeType o.fields1 < 2 ^ (2 + _) := pack_lt h.fits1 (by decide)
  rw [widths0, ← h0] at hlt0
  rw [widths1, ← h1] at hlt1
  have hpos0 : 0 ≤ w.packedMessage0 := h0 ▸ pack_nonneg h.fits0 h.amountSell
  have hpos1 : 0 ≤ w.packedMessage1 := h1 ▸ pack_nonneg h.fits1 (by decide)
  refine ⟨w, hw, ?_⟩
  simp only [List.forall_mem_cons]
  exact ⟨hread _ hpos0 (hlt0.trans (by norm_num)), hread _ hpos1 (hlt1.trans (by norm_num)),
    List.forall_mem_nil _⟩

/-- What the four hashes of an order are taken of, the last one first. -/
def hashed (o : LimitOrder) : List (List ℤ) :=
  (o.words.map fun w =>
    let msg1 := [w.assetSell, w.assetBuy]
    let msg2 := [(calcHash curve msg1 : ℤ), w.assetFee]
    let msg3 := [(calcHash curve msg2 : ℤ), w.packedMessage0]
    [[(calcHash curve msg3 : ℤ), w.packedMessage1], msg3, msg2, msg1]).getD []

/-- Two orders in range with the same hash are the same order, unless one of the four
hashes of the one collides with that of the other. -/
theorem same_order_of_hash (h : o.InRange) (h' : o'.InRange)
    (hhash : o.calcLimitOrderHash curve = o'.calcLimitOrderHash curve) :
    SameOrder o o' ∨ ∃ p ∈ (o.hashed curve).zip (o'.hashed curve),
      p.1 ≠ p.2 ∧ calcHash curve p.1 = calcHash curve p.2 := by
  by_contra hnot
  obtain ⟨hother, hinj⟩ := not_or.mp hnot
  refine hother (sameOrder_of_words h h' ?_)
  obtain ⟨w, hw, -⟩ := h.words_eq
  obtain ⟨w', hw', -⟩ := h'.words_eq
  simp only [calcLimitOrderHash, hw, hw', Option.map_some, Option.some.injEq] at hhash
  simp only [not_exists, not_and, ne_eq, not_imp_not, hashed, hw, hw', Option.map_some,
    Option.getD_some, List.zip_cons_cons, List.zip_nil_left, List.forall_mem_cons,
    List.cons.injEq, Nat.cast_inj, and_true] at hinj
  -- from the last hash to the first, equal hashes are hashes of equal words
  obtain ⟨h4, h3, h2, h1, -⟩ := hinj
  obtain ⟨heq3, hpacked1⟩ := h4 hhash
  obtain ⟨heq2, hpacked0⟩ := h3 heq3
  obtain ⟨heq1, hfee⟩ := h2 heq2
  obtain ⟨hsell, hbuy⟩ := h1 heq1
  rw [hw, hw']
  exact congrArg some (Words.ext hsell hbuy hfee hpacked0 hpacked1)

end

end LimitOrder

/-- An order that sells collateral for the synthetic asset. -/
def sampleOrder : LimitOrder where
  assetIdSynthetic := "0x4254432d3130"
  assetIdCollateral := "0x2ce625e94458d39dd0bf3b45a843544dd4a14b8169045a3a3d15aa564b936c5"
  assetIdFee := "0x2ce625e94458d39dd0bf3b45a843544dd4a14b8169045a3a3d15aa564b936c5"
  isBuyingSynthetic := true
  amountSynthetic := 10000000000
  amountCollateral := 650000000
  amountFee := 325000
  nonce := 1234567
  positionID := 9876543210
  expirationTimestamp := 480000

def collateral : ℤ := 0x2ce625e94458d39dd0bf3b45a843544dd4a14b8169045a3a3d15aa564b936c5

theorem packed_words_sound_sample :
    (∃ w, sampleOrder.words = some w ∧
      ∀ word ∈ [w.packedMessage0, w.packedMessage1], 0 ≤ word ∧ word < 2 ^ 252 ∧
        ofBits (readBits 252 word).1 = word ∧ (readBits 252 word).2 = 0) ∧
    ∀ o' : LimitOrder, o'.InRange → sampleOrder.words = o'.words →
      LimitOrder.SameOrder sampleOrder o' :=
  LimitOrder.packed_words_sound sampleOrder
    ⟨⟨collateral, by decide +kernel, by decide, by decide⟩,
      ⟨0x4254432d3130, by decide +kernel, by decide, by decide⟩,
      ⟨collateral, by decide +kernel, by decide, by decide⟩, by decide, by decide, by decide,
      by decide, by decide, by decide⟩

theorem same_order_of_hash_sample :
    let curve : Starkcurve := ⟨ℕ, (· + ·), id, id⟩
    LimitOrder.SameOrder sampleOrder sampleOrder ∨
      ∃ p ∈ (sampleOrder.hashed curve).zip (sampleOrder.hashed curve),
        p.1 ≠ p.2 ∧ calcHash curve p.1 = calcHash curve p.2 := by
  have hrange : sampleOrder.InRange :=
    ⟨⟨collateral, by decide +kernel, by decide, by decide⟩,
      ⟨0x4254432d3130, by decide +kernel, by decide, by decide⟩,
      ⟨collateral, by decide +kernel, by decide, by decide⟩, by decide, by decide, by decide,
      by decide, by decide, by decide⟩
  exact LimitOrder.same_order_of_hash _ hrange hrange rfl

end Exchanges.Sdk.Edgex
