import Mathlib.Data.Nat.Digits.Lemmas

/-!
The MessagePack format.

A value is written in prefix order: the token of a list or a map says how many values
follow. A token is written as a header byte and a body. The header says what the body
is: a big-endian number, some data of a fixed size, or a length with that much data.
Most tokens can be written under several headers, but under one header in one way
only.
-/

namespace Exchanges.Lib.MessagePack

abbrev Bytes := List UInt8

/-! ### Values -/

/-- The payload of an extension starts with the byte of its type. Floats are bits. -/
inductive Token where
  | nil
  | bool (b : Bool)
  | int (n : ℤ)
  | float32 (bits : ℕ)
  | float64 (bits : ℕ)
  | str (data : Bytes)
  | bin (data : Bytes)
  | ext (payload : Bytes)
  | array (size : ℕ)
  | map (size : ℕ)
  deriving DecidableEq

/-- The number of values that a token is followed by. -/
def Token.arity : Token → ℕ
  | .array size => size
  | .map size => 2 * size
  | _ => 0

/-- The tokens are those of so many values. -/
def complete : ℕ → List Token → Bool
  | n, [] => n == 0
  | 0, _ :: _ => false
  | n + 1, t :: ts => complete (n + t.arity) ts

/-- A value, in prefix order. -/
structure Value where
  tokens : List Token
  complete : complete 1 tokens = true

/-! ### Headers -/

/-- What follows a header. -/
inductive Shape where
  /-- A big-endian number of some bytes. -/
  | number (size : ℕ) (token : ℕ → Token)
  | data (size : ℕ) (token : Bytes → Token)
  /-- A length of some bytes, and that much data with some bytes more. -/
  | sized (width more : ℕ) (token : Bytes → Token)
  | unused

/-- A number of some bytes with a sign. -/
def signed (size n : ℕ) : ℤ := if 2 * n < 256 ^ size then n else n - 256 ^ size

def shape (header : ℕ) : Shape :=
  if header < 0x80 then .number 0 fun _ => .int header
  else if header < 0x90 then .number 0 fun _ => .map (header - 0x80)
  else if header < 0xa0 then .number 0 fun _ => .array (header - 0x90)
  else if header < 0xc0 then .data (header - 0xa0) .str
  else if 0xe0 ≤ header then .number 0 fun _ => .int (header - 256)
  else match header with
    | 0xc0 => .number 0 fun _ => .nil
    | 0xc2 => .number 0 fun _ => .bool false
    | 0xc3 => .number 0 fun _ => .bool true
    | 0xc4 => .sized 1 0 .bin
    | 0xc5 => .sized 2 0 .bin
    | 0xc6 => .sized 4 0 .bin
    | 0xc7 => .sized 1 1 .ext
    | 0xc8 => .sized 2 1 .ext
    | 0xc9 => .sized 4 1 .ext
    | 0xca => .number 4 .float32
    | 0xcb => .number 8 .float64
    | 0xcc => .number 1 fun n => .int n
    | 0xcd => .number 2 fun n => .int n
    | 0xce => .number 4 fun n => .int n
    | 0xcf => .number 8 fun n => .int n
    | 0xd0 => .number 1 fun n => .int (signed 1 n)
    | 0xd1 => .number 2 fun n => .int (signed 2 n)
    | 0xd2 => .number 4 fun n => .int (signed 4 n)
    | 0xd3 => .number 8 fun n => .int (signed 8 n)
    | 0xd4 => .data 2 .ext
    | 0xd5 => .data 3 .ext
    | 0xd6 => .data 5 .ext
    | 0xd7 => .data 9 .ext
    | 0xd8 => .data 17 .ext
    | 0xd9 => .sized 1 0 .str
    | 0xda => .sized 2 0 .str
    | 0xdb => .sized 4 0 .str
    | 0xdc => .number 2 .array
    | 0xdd => .number 4 .array
    | 0xde => .number 2 .map
    | 0xdf => .number 4 .map
    | _ => .unused

/-! ### Encodings -/

def bigEndian (bytes : Bytes) : ℕ := Nat.ofDigits 256 (bytes.reverse.map UInt8.toNat)

/-- The body is one of the token under a header of the shape. -/
def Shape.Body : Shape → Bytes → Token → Prop
  | .number size token, body, t => body.length = size ∧ t = token (bigEndian body)
  | .data size token, body, t => body.length = size ∧ t = token body
  | .sized width more token, body, t => ∃ length data, body = length ++ data ∧
      length.length = width ∧ data.length = bigEndian length + more ∧ t = token data
  | .unused, _, _ => False

/-- The bytes are an encoding of the token. -/
def Reads (bytes : Bytes) (t : Token) : Prop :=
  ∃ header body, bytes = header :: body ∧ (shape header.toNat).Body body t

/-- The pieces are encodings of the tokens of the value. -/
def Pieces (v : Value) (pieces : List Bytes) : Prop := List.Forall₂ Reads pieces v.tokens

/-- The bytes are an encoding of the value. -/
def Encodes (v : Value) (bytes : Bytes) : Prop := ∃ pieces, Pieces v pieces ∧ bytes = pieces.flatten

/-! ### One way to write a token under a header -/

theorem digits_lt (bytes : Bytes) : ∀ d ∈ bytes.reverse.map UInt8.toNat, d < 256 := by
  intro d hd
  obtain ⟨b, -, rfl⟩ := List.mem_map.mp hd
  exact b.toNat_lt

theorem bigEndian_lt (bytes : Bytes) : bigEndian bytes < 256 ^ bytes.length := by
  have hlt := Nat.ofDigits_lt_base_pow_length (by norm_num) (digits_lt bytes)
  rwa [List.length_map, List.length_reverse] at hlt

theorem bigEndian_inj {xs ys : Bytes} (hlength : xs.length = ys.length)
    (h : bigEndian xs = bigEndian ys) : xs = ys := by
  have hmap := Nat.ofDigits_inj_of_len_eq (by norm_num : 1 < 256) (by simpa using hlength)
    (digits_lt xs) (digits_lt ys) h
  exact List.reverse_inj.mp (List.map_injective_iff.mpr (fun _ _ => UInt8.toNat_inj.mp) hmap)

theorem signed_inj {size m n : ℕ} (hm : m < 256 ^ size) (hn : n < 256 ^ size)
    (h : signed size m = signed size n) : m = n := by
  unfold signed at h
  have hm' : (m : ℤ) < 256 ^ size := by exact_mod_cast hm
  have hn' : (n : ℤ) < 256 ^ size := by exact_mod_cast hn
  split_ifs at h <;> omega

/-- The token says what it was made of. -/
def Shape.Faithful : Shape → Prop
  | .number size token => ∀ m n, m < 256 ^ size → n < 256 ^ size → token m = token n → m = n
  | .data _ token => Function.Injective token
  | .sized _ _ token => Function.Injective token
  | .unused => True

theorem shape_faithful (header : ℕ) : (shape header).Faithful := by
  have hconst : ∀ t : Token, (Shape.number 0 fun _ => t).Faithful := by
    intro t m n hm hn _
    rw [pow_zero, Nat.lt_one_iff] at hm hn
    rw [hm, hn]
  have hint : ∀ size, (Shape.number size fun n => .int n).Faithful := fun size m n _ _ h =>
    Int.ofNat.inj (Token.int.inj h)
  have hsigned : ∀ size, (Shape.number size fun n => .int (signed size n)).Faithful :=
    fun size m n hm hn h => signed_inj hm hn (Token.int.inj h)
  have hstr : Function.Injective Token.str := fun _ _ => Token.str.inj
  have hbin : Function.Injective Token.bin := fun _ _ => Token.bin.inj
  have hext : Function.Injective Token.ext := fun _ _ => Token.ext.inj
  unfold shape
  split_ifs
  · exact hconst _
  · exact hconst _
  · exact hconst _
  · exact hstr
  · exact hconst _
  · split
    all_goals first
      | exact hconst _
      | exact hint _
      | exact hsigned _
      | exact hstr
      | exact hbin
      | exact hext
      | exact fun _ _ _ _ h => Token.float32.inj h
      | exact fun _ _ _ _ h => Token.float64.inj h
      | exact fun _ _ _ _ h => Token.array.inj h
      | exact fun _ _ _ _ h => Token.map.inj h
      | trivial

theorem Shape.Body.unique {s : Shape} (hs : s.Faithful) {b b' : Bytes} {t : Token}
    (h : s.Body b t) (h' : s.Body b' t) : b = b' := by
  cases s with
  | number size token =>
    obtain ⟨hlength, rfl⟩ := h
    obtain ⟨hlength', htoken⟩ := h'
    have hlt := bigEndian_lt b
    have hlt' := bigEndian_lt b'
    rw [hlength] at hlt
    rw [hlength'] at hlt'
    exact bigEndian_inj (hlength.trans hlength'.symm) (hs _ _ hlt hlt' htoken)
  | data size token =>
    obtain ⟨-, rfl⟩ := h
    obtain ⟨-, htoken⟩ := h'
    exact hs htoken
  | sized width more token =>
    obtain ⟨length, data, rfl, hwidth, hdata, rfl⟩ := h
    obtain ⟨length', data', rfl, hwidth', hdata', htoken⟩ := h'
    obtain rfl := hs htoken
    have hsame : bigEndian length = bigEndian length' := by omega
    rw [bigEndian_inj (hwidth.trans hwidth'.symm) hsame]
  | unused => exact h.elim

theorem Reads.ne_nil {bytes : Bytes} {t : Token} (h : Reads bytes t) : bytes ≠ [] := by
  obtain ⟨header, body, rfl, -⟩ := h
  exact List.cons_ne_nil _ _

/-- Two encodings of a token that start with the same byte are the same. -/
theorem Reads.unique {header : UInt8} {body body' : Bytes} {t : Token}
    (h : Reads (header :: body) t) (h' : Reads (header :: body') t) : body = body' := by
  obtain ⟨_, _, heq, h⟩ := h
  obtain ⟨_, _, heq', h'⟩ := h'
  obtain ⟨rfl, rfl⟩ := List.cons.inj heq
  obtain ⟨rfl, rfl⟩ := List.cons.inj heq'
  exact h.unique (shape_faithful _) h'

end Exchanges.Lib.MessagePack
