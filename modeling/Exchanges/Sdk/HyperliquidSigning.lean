import Exchanges.Lib.MessagePack

/-!
The bytes that a hyperliquid action is signed as.

The encoder's output is rewritten before it is hashed: a string with a 16-bit length
header and fewer than 256 bytes gets an 8-bit header. The rewriting does not parse. It
takes any byte `0xda` that is followed by a zero byte for such a header, also in the
middle of an integer. Where it does so, the result is not an encoding of the action
any more.
-/

namespace Exchanges.Sdk.Hyperliquid

open Exchanges.Lib.MessagePack

/-! ### The rewriting -/

/-- The loop of `convertStr16ToStr8`, with the number of bytes of string data that it
still has to copy. -/
def convertFrom : ℕ → Bytes → Bytes
  | _, [] => []
  | copy + 1, b :: rest => b :: convertFrom copy rest
  | 0, [b] => [b]
  | 0, [b, b'] => [b, b']
  | 0, b :: hi :: lo :: rest =>
    let length := hi.toNat * 256 + lo.toNat
    if b = 0xda ∧ length < 256 then
      0xd9 :: UInt8.ofNat length ::
        convertFrom (if length ≤ rest.length then length else 0) rest
    else b :: convertFrom 0 (hi :: lo :: rest)

def convertStr16ToStr8 (data : Bytes) : Bytes := convertFrom 0 data

/-- Eight bytes, big endian. -/
def putUint64 (n : ℕ) : Bytes := (List.range 8).map fun i => UInt8.ofNat (n / 256 ^ (7 - i))

/-- The bytes that `actionHash` hashes. The vault address is given as bytes. -/
def actionBytes (encoded : Bytes) (vault : Option Bytes) (nonce : ℕ) (expiresAfter : Option ℕ) :
    Bytes :=
  convertStr16ToStr8 encoded ++ putUint64 nonce ++
    (match vault with
    | none => [0x00]
    | some address => 0x01 :: address) ++
    match expiresAfter with
    | none => []
    | some expires => 0x00 :: putUint64 expires

/-! ### Which bytes are safe -/

/-- A zero byte and another byte. -/
def StartsShort (bytes : Bytes) : Prop := ∃ b rest, bytes = 0x00 :: b :: rest

/-- A string with a 16-bit header and fewer than 256 bytes. -/
def ShortStr16 (piece : Bytes) : Prop := ∃ b data, piece = 0xda :: 0x00 :: b :: data

/-- No byte of the piece looks like the header of such a string. -/
def Quiet (piece rest : Bytes) : Prop :=
  ∀ before after, piece = before ++ 0xda :: after → ¬ StartsShort (after ++ rest)

/-- In every piece of the encoding but short strings with a 16-bit header. -/
def Harmless : List Bytes → Prop
  | [] => True
  | piece :: pieces => (¬ ShortStr16 piece → Quiet piece pieces.flatten) ∧ Harmless pieces

theorem convertFrom_zero_cons {b : UInt8} {rest : Bytes}
    (h : ¬ (b = 0xda ∧ StartsShort rest)) :
    convertFrom 0 (b :: rest) = b :: convertFrom 0 rest := by
  match rest with
  | [] => rfl
  | [_] => rfl
  | hi :: lo :: rest =>
    rw [convertFrom]
    refine if_neg fun hheader => h ⟨hheader.1, lo, rest, ?_⟩
    have hzero : hi.toNat = 0 := by omega
    rw [show hi = 0x00 from UInt8.toNat_inj.mp hzero]

theorem convertFrom_copy (data rest : Bytes) :
    convertFrom data.length (data ++ rest) = data ++ convertFrom 0 rest := by
  induction data with
  | nil => rfl
  | cons b data ih => rw [List.length_cons, List.cons_append, convertFrom, ih, List.cons_append]

theorem convertFrom_header (b : UInt8) (rest : Bytes) :
    ∃ copy, convertFrom 0 (0xda :: 0x00 :: b :: rest) = 0xd9 :: b :: convertFrom copy rest ∧
      (b.toNat ≤ rest.length → copy = b.toNat) := by
  have hlength : (0x00 : UInt8).toNat * 256 + b.toNat = b.toNat := by simp
  have hlt : b.toNat < 256 := b.toNat_lt
  rw [convertFrom, hlength, if_pos ⟨rfl, hlt⟩, UInt8.ofNat_toNat]
  exact ⟨_, rfl, fun hle => if_pos hle⟩

/-- Either nothing in the piece looks like a header, or the first byte that does is
changed. -/
theorem convert_piece (rest : Bytes) : ∀ piece : Bytes,
    Quiet piece rest ∧ convertFrom 0 (piece ++ rest) = piece ++ convertFrom 0 rest ∨
    ∃ before after tail, piece = before ++ 0xda :: after ∧ StartsShort (after ++ rest) ∧
      convertFrom 0 (piece ++ rest) = before ++ 0xd9 :: tail
  | [] => .inl ⟨fun before after h => by simp at h, rfl⟩
  | b :: piece => by
    by_cases hb : b = 0xda ∧ StartsShort (piece ++ rest)
    · obtain ⟨rfl, hshort⟩ := hb
      obtain ⟨lo, tail, heq⟩ := hshort
      obtain ⟨copy, hrun, -⟩ := convertFrom_header lo tail
      refine .inr ⟨[], piece, lo :: convertFrom copy tail, rfl, ⟨lo, tail, heq⟩, ?_⟩
      rw [List.cons_append, heq, hrun]
      rfl
    · rw [List.cons_append, convertFrom_zero_cons hb]
      rcases convert_piece rest piece with ⟨hquiet, heq⟩ | ⟨before, after, tail, rfl, hshort, heq⟩
      · refine .inl ⟨fun before after h hshort => ?_, by rw [heq, List.cons_append]⟩
        cases before with
        | nil =>
          obtain ⟨rfl, rfl⟩ := List.cons.inj h
          exact hb ⟨rfl, hshort⟩
        | cons c before =>
          obtain ⟨rfl, rfl⟩ := List.cons.inj h
          exact hquiet before after rfl hshort
      · exact .inr ⟨b :: before, after, tail, rfl, hshort, by rw [heq, List.cons_append]⟩

/-- A short string gets the other header. -/
theorem convert_short {piece : Bytes} {t : Token} (h : Reads piece t) (hshort : ShortStr16 piece)
    (rest : Bytes) : ∃ piece', Reads piece' t ∧
      convertFrom 0 (piece ++ rest) = piece' ++ convertFrom 0 rest := by
  obtain ⟨b, data, rfl⟩ := hshort
  obtain ⟨header, body, heq, hbody⟩ := h
  obtain ⟨rfl, rfl⟩ := List.cons.inj heq
  obtain ⟨length, data', happend, hwidth, hdata, rfl⟩ := hbody
  match length, hwidth with
  | [x, y], _ =>
    obtain ⟨rfl, htail⟩ := List.cons.inj happend
    obtain ⟨rfl, rfl⟩ := List.cons.inj htail
    have hsize : data.length = b.toNat := by
      simpa [bigEndian, Nat.ofDigits] using hdata
    obtain ⟨copy, hrun, hcopy⟩ := convertFrom_header b (data ++ rest)
    refine ⟨0xd9 :: b :: data, ⟨0xd9, b :: data, rfl, [b], data, rfl, rfl, ?_, rfl⟩, ?_⟩
    · simpa [bigEndian, Nat.ofDigits] using hsize
    · have hle : b.toNat ≤ (data ++ rest).length := by
        rw [List.length_append, hsize]
        exact Nat.le_add_right _ _
      change convertFrom 0 (0xda :: 0x00 :: b :: (data ++ rest)) = _
      rw [hrun, hcopy hle, ← hsize, convertFrom_copy]
      rfl

theorem shortStr16_of_header {after rest : Bytes} {t : Token} (h : Reads (0xda :: after) t)
    (hshort : StartsShort (after ++ rest)) : ShortStr16 (0xda :: after) := by
  obtain ⟨header, body, heq, hbody⟩ := h
  obtain ⟨rfl, rfl⟩ := List.cons.inj heq
  obtain ⟨length, data, rfl, hwidth, -⟩ := hbody
  match length, hwidth with
  | [x, y], _ =>
    obtain ⟨b, tail, heq⟩ := hshort
    obtain ⟨rfl, -⟩ := List.cons.inj heq
    exact ⟨y, data, rfl⟩

/-! ### What is signed -/

/-- Every piece is rewritten to an encoding of its token. -/
theorem convert_of_harmless {pieces : List Bytes} {ts : List Token}
    (h : List.Forall₂ Reads pieces ts) : Harmless pieces →
      ∃ pieces', List.Forall₂ Reads pieces' ts ∧
        convertFrom 0 pieces.flatten = pieces'.flatten ∧
        ((∀ piece ∈ pieces, ¬ ShortStr16 piece) → pieces' = pieces) := by
  induction h with
  | nil => exact fun _ => ⟨[], .nil, rfl, fun _ => rfl⟩
  | @cons piece t pieces ts hpiece _ ih =>
    intro hharmless
    obtain ⟨pieces', hreads, heq, hsame⟩ := ih hharmless.2
    by_cases hshort : ShortStr16 piece
    · obtain ⟨piece', hpiece', hrun⟩ := convert_short hpiece hshort pieces.flatten
      refine ⟨piece' :: pieces', .cons hpiece' hreads, ?_, fun hnone =>
        absurd hshort (hnone piece List.mem_cons_self)⟩
      rw [List.flatten_cons, hrun, heq, List.flatten_cons]
    · rcases convert_piece pieces.flatten piece with ⟨-, hrun⟩ | ⟨before, after, -, hp, hbad, -⟩
      · refine ⟨piece :: pieces', .cons hpiece hreads, ?_, fun hnone => ?_⟩
        · rw [List.flatten_cons, hrun, heq, List.flatten_cons]
        · rw [hsame fun p hp => hnone p (List.mem_cons_of_mem piece hp)]
      · exact absurd hbad (hharmless.1 hshort before after hp)

/-- A changed byte changes the token, whatever follows. -/
theorem harmless_of_convert {pieces : List Bytes} {ts : List Token}
    (h : List.Forall₂ Reads pieces ts) : ∀ {pieces' : List Bytes} {more : Bytes},
      List.Forall₂ Reads pieces' ts → convertFrom 0 pieces.flatten = pieces'.flatten ++ more →
        Harmless pieces := by
  induction h with
  | nil => exact fun _ _ => trivial
  | @cons piece t pieces ts hpiece _ ih =>
    intro pieces' more hreads heq
    cases hreads with
    | @cons piece' _ pieces' _ hpiece' hreads =>
      -- an encoding of the same token in the same place is the same encoding
      have hnext : ∀ {p : Bytes}, Reads p t →
          convertFrom 0 (piece ++ pieces.flatten) = p ++ convertFrom 0 pieces.flatten →
            Harmless pieces := by
        intro p hp hrun
        rw [List.flatten_cons, hrun, List.flatten_cons, List.append_assoc] at heq
        obtain ⟨header, body, rfl⟩ := List.exists_cons_of_ne_nil hp.ne_nil
        obtain ⟨header', body', rfl⟩ := List.exists_cons_of_ne_nil hpiece'.ne_nil
        obtain ⟨rfl, htail⟩ := List.cons.inj heq
        obtain rfl := hp.unique hpiece'
        exact ih hreads (List.append_cancel_left htail)
      by_cases hshort : ShortStr16 piece
      · obtain ⟨p, hp, hrun⟩ := convert_short hpiece hshort pieces.flatten
        exact ⟨fun hnot => absurd hshort hnot, hnext hp hrun⟩
      · rcases convert_piece pieces.flatten piece with
          ⟨hquiet, hrun⟩ | ⟨before, after, tail, rfl, hbad, hrun⟩
        · exact ⟨fun _ => hquiet, hnext hpiece hrun⟩
        · exfalso
          rw [List.flatten_cons, hrun, List.flatten_cons, List.append_assoc] at heq
          cases before with
          | nil => exact hshort (shortStr16_of_header hpiece hbad)
          | cons header before =>
            obtain ⟨header', body', rfl⟩ := List.exists_cons_of_ne_nil hpiece'.ne_nil
            obtain ⟨rfl, htail⟩ := List.cons.inj heq
            obtain rfl := hpiece.unique hpiece'
            have htail : before ++ 0xd9 :: tail =
                before ++ 0xda :: after ++ (pieces'.flatten ++ more) := htail
            rw [List.append_assoc] at htail
            have hbyte := (List.cons.inj (List.append_cancel_left htail)).1
            exact absurd hbyte (by decide)

/-- For every encoding of a value, in its pieces: the rewriting gives an encoding of the
value, changes nothing if no string has a 16-bit header, and so what is signed starts
with an encoding of the value, exactly if no other byte looks like such a header. -/
theorem convert_sound_iff (v : Value) (pieces : List Bytes) (h : Pieces v pieces) :
    (Encodes v (convertStr16ToStr8 pieces.flatten) ∧
      ((∀ piece ∈ pieces, ∀ body, piece ≠ 0xda :: body) →
        convertStr16ToStr8 pieces.flatten = pieces.flatten) ∧
      ∀ vault nonce expiresAfter, ∃ encoding more, Encodes v encoding ∧
        actionBytes pieces.flatten vault nonce expiresAfter = encoding ++ more) ↔
    Harmless pieces := by
  constructor
  · rintro ⟨⟨pieces', hreads, heq⟩, -⟩
    exact harmless_of_convert h hreads (heq.trans (List.append_nil _).symm)
  · intro hharmless
    obtain ⟨pieces', hreads, heq, hsame⟩ := convert_of_harmless h hharmless
    have hencodes : Encodes v (convertStr16ToStr8 pieces.flatten) := ⟨pieces', hreads, heq⟩
    refine ⟨hencodes, fun hnone => ?_, fun vault nonce expiresAfter => ?_⟩
    · have hnoShort : ∀ piece ∈ pieces, ¬ ShortStr16 piece := by
        rintro piece hpiece ⟨b, data, rfl⟩
        exact hnone _ hpiece _ rfl
      rw [convertStr16ToStr8, heq, hsame hnoShort]
    · unfold actionBytes
      rw [List.append_assoc, List.append_assoc]
      exact ⟨_, _, hencodes, rfl⟩

/-! ### Cancel actions -/

def textBytes (text : String) : Bytes := text.toList.map fun c => UInt8.ofNat c.toNat

/-- A short string. -/
def fixstr (text : String) : Bytes := UInt8.ofNat (0xa0 + text.length) :: textBytes text

/-- An integer in the fewest bytes. -/
def compactInt (n : ℕ) : Bytes :=
  if n < 2 ^ 7 then [UInt8.ofNat n]
  else if n < 2 ^ 8 then 0xcc :: (putUint64 n).drop 7
  else if n < 2 ^ 16 then 0xcd :: (putUint64 n).drop 6
  else if n < 2 ^ 32 then 0xce :: (putUint64 n).drop 4
  else 0xcf :: putUint64 n

/-- The encoding of a `CancelOrderAction` with one `CancelOrderWire`. -/
def cancelPieces (asset orderID : ℕ) : List Bytes :=
  [[0x82], fixstr "type", fixstr "cancel", fixstr "cancels", [0x91], [0x82], fixstr "a",
    compactInt asset, fixstr "o", compactInt orderID]

def cancelValue (asset orderID : ℕ) : Value where
  tokens := [.map 2, .str (textBytes "type"), .str (textBytes "cancel"),
    .str (textBytes "cancels"), .array 1, .map 2, .str (textBytes "a"), .int asset,
    .str (textBytes "o"), .int orderID]
  complete := rfl

theorem pieces_cancel {asset orderID : ℕ} (hasset : Reads (compactInt asset) (.int asset))
    (horder : Reads (compactInt orderID) (.int orderID)) :
    Pieces (cancelValue asset orderID) (cancelPieces asset orderID) :=
  .cons ⟨_, _, rfl, rfl, rfl⟩ <| .cons ⟨_, _, rfl, rfl, rfl⟩ <| .cons ⟨_, _, rfl, rfl, rfl⟩ <|
    .cons ⟨_, _, rfl, rfl, rfl⟩ <| .cons ⟨_, _, rfl, rfl, rfl⟩ <| .cons ⟨_, _, rfl, rfl, rfl⟩ <|
    .cons ⟨_, _, rfl, rfl, rfl⟩ <| .cons hasset <| .cons ⟨_, _, rfl, rfl, rfl⟩ <|
    .cons horder .nil

theorem harmless_of_forall_ne {pieces : List Bytes} (h : ∀ piece ∈ pieces, 0xda ∉ piece) :
    Harmless pieces := by
  induction pieces with
  | nil => trivial
  | cons piece pieces ih =>
    refine ⟨fun _ before after heq _ => h piece List.mem_cons_self ?_,
      ih fun p hp => h p (List.mem_cons_of_mem piece hp)⟩
    rw [heq]
    exact List.mem_append_right before List.mem_cons_self

/-- An order id without the byte `0xda` is signed as it is. -/
theorem convert_sound_iff_cancel :
    Encodes (cancelValue 0 77) (convertStr16ToStr8 (cancelPieces 0 77).flatten) := by
  refine ((convert_sound_iff (cancelValue 0 77) (cancelPieces 0 77) ?_).mpr ?_).1
  · exact pieces_cancel ⟨_, _, rfl, rfl, rfl⟩ ⟨_, _, rfl, rfl, rfl⟩
  · exact harmless_of_forall_ne (by decide)

/-- The order id `0xda0005` is not: the encoding is cut short. -/
theorem order_id_taken_for_header :
    Pieces (cancelValue 0 0xda0005) (cancelPieces 0 0xda0005) ∧
    (∀ piece ∈ cancelPieces 0 0xda0005, ∀ body, piece ≠ 0xda :: body) ∧
    (convertStr16ToStr8 (cancelPieces 0 0xda0005).flatten).length <
      (cancelPieces 0 0xda0005).flatten.length ∧
    ¬ Encodes (cancelValue 0 0xda0005)
      (convertStr16ToStr8 (cancelPieces 0 0xda0005).flatten) := by
  have hpieces : Pieces (cancelValue 0 0xda0005) (cancelPieces 0 0xda0005) :=
    pieces_cancel ⟨_, _, rfl, rfl, rfl⟩ ⟨_, _, rfl, rfl, rfl⟩
  refine ⟨hpieces, ?_, by decide +kernel, ?_⟩
  · intro piece hpiece body heq
    have hheads : ∀ piece ∈ cancelPieces 0 0xda0005, piece.head? ≠ some 0xda := by decide
    exact hheads piece hpiece (by rw [heq]; rfl)
  · rintro ⟨pieces', hreads, heq⟩
    have hharmless := harmless_of_convert hpieces hreads (heq.trans (List.append_nil _).symm)
    obtain ⟨-, -, -, -, -, -, -, -, -, hlast, -⟩ := hharmless
    refine hlast ?_ [0xce, 0x00] [0x00, 0x05] (by decide) ⟨0x05, [], rfl⟩
    rintro ⟨b, data, hnot⟩
    exact absurd (List.cons.inj hnot).1 (by decide)

end Exchanges.Sdk.Hyperliquid
