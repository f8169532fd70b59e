import Hpgs.Library.Base128
import Hpgs.Network.ByteArrayRuns

/-!
# Integers of variable length

The writers store a number in its shortest encoding.  The readers take five or ten bytes
at most, whatever the last of them is, and shift bits out at the top.

**Results.**
* `varint_eq_encode`: the loop of the writers makes the shortest encoding.
* `readVarint_front`, `readVarint_all`, `readVarint_short`: the loop of the readers on any
  bytes.
* `varint_minimal`: length and form of an encoding, and that it ends itself.
* `varint_sound`: what the readers accept is an encoding of the result, exactly if it is
  in range.
* `varint_unsound`: bytes that are no encoding and are accepted.
-/

namespace Hpgs
namespace Network

open Base128

namespace ByteArray

/-- The bytes that were read between two states. -/
def consumed (b b' : ByteArray) : List UInt8 :=
  (b.contents.data.drop b.position).take (b'.position - b.position)

/-- What the reader accepts is an encoding, which ends with the first byte below `0x80`,
of a number that is in range and is the result. -/
def Sound {w : Nat} (read : ByteArray → Result (BitVec w)) (b : ByteArray) : Prop :=
  ∀ v b', read b = (.ok v, b') →
    Terminated (consumed b b') ∧ payload (consumed b b') < 2 ^ w ∧
      v.toNat = payload (consumed b b')

/-- **The condition.**  If one of the next `n` bytes is below `0x80`, the number up to it
is in range, and otherwise there are fewer than `n` bytes. -/
def InRange (w n : Nat) (rest : List UInt8) : Prop :=
  match front (rest.take n) with
  | some bs => payload bs < 2 ^ w
  | none => rest.length < n

/-- The writer stores `v` as `bs`, and the reader takes exactly these bytes, whatever
comes after them. -/
structure Framed {w : Nat} (write : ByteArray → BitVec w → Result Unit)
    (read : ByteArray → Result (BitVec w)) (v : BitVec w) (bs : List UInt8) : Prop where
  emits : ∀ b : ByteArray, b.WellFormed →
    ∃ b', write b v = (.ok (), b') ∧ b'.WellFormed ∧ b'.contents = b.contents.write bs
  consumes : ∀ b rest, Ahead b (bs ++ rest) →
    ∃ b', read b = (.ok v, b') ∧ b'.position = b.position + bs.length ∧ Ahead b' rest

/-- One byte for each seven bits, all but the last with the high bit set, and no zero at
the end of a number that is not zero. -/
structure Shortest (n : Nat) (bs : List UInt8) : Prop where
  length : bs.length = max 1 ((n.size + 6) / 7)
  ended : ∃ init last, bs = init ++ [last] ∧ (∀ x ∈ init, 128 ≤ x.toNat) ∧ last.toNat < 128 ∧
    (last = 0 → n = 0)

/-! ## Writing -/

section Writing

variable {w n : Nat}

/-- **The loop of the writers** makes the shortest encoding. -/
theorem varint_eq_encode (hw : 8 ≤ w) {v : BitVec w} (h : v.toNat < 2 ^ (7 * (n + 1))) :
    varint (n + 1) v = some (encode v.toNat) := by
  induction n generalizing v with
  | zero =>
      have hlt : v.toNat < 128 := h
      rw [varint, if_neg (by omega), encode, if_pos hlt]
  | succ n ih =>
      rw [varint, encode]
      by_cases hmore : 0x80 ≤ v.toNat
      · have hdiv : (v >>> 7).toNat = v.toNat / 128 := by
          rw [BitVec.toNat_ushiftRight, Nat.shiftRight_eq_div_pow]
        have hlt : (v >>> 7).toNat < 2 ^ (7 * (n + 1)) := by
          rw [hdiv, Nat.div_lt_iff_lt_mul (by decide), Nat.mul_comm]
          rwa [Nat.mul_succ, Nat.pow_add, Nat.mul_comm] at h
        have hbyte : UInt8.ofNat ((v &&& 0x7F) ||| 0x80).toNat =
            UInt8.ofNat (v.toNat % 128 + 128) := by
          apply UInt8.toNat_inj.mp
          rw [toNat_ofNat_continued, ← toNat_continued hw v, UInt8.toNat_toBitVec]
        rw [if_pos hmore, if_neg (by omega), ih hlt, hdiv, hbyte]
        rfl
      · rw [if_neg hmore, if_pos (by omega)]

theorem encode_shortest_form (n : Nat) : Shortest n (encode n) where
  length := length_encode n
  ended := by
    obtain ⟨init, last, henc, hinit, hlast⟩ := terminated_iff.mp (encode_terminated n)
    refine ⟨init, last, henc, hinit, hlast, ?_⟩
    rintro rfl
    exact eq_zero_of_getLast? (by rw [henc, List.getLast?_concat])

/-- A signed number fits in `k + 1` bytes exactly if it has at most `7 * (k + 1)` bits with
its sign. -/
theorem length_encode_zigzag (hw : 1 < w) (v : BitVec w) (k : Nat) :
    (encode (encodeZigzag v).toNat).length ≤ k + 1 ↔
      -(2 ^ (7 * (k + 1) - 1) : Int) ≤ v.toInt ∧ v.toInt < 2 ^ (7 * (k + 1) - 1) := by
  have hlt := v.isLt
  have hpow : 2 ^ (7 * (k + 1)) = 2 * 2 ^ (7 * (k + 1) - 1) := by
    rw [← Nat.pow_succ']
    congr 1
  have hcast : (2 ^ (7 * (k + 1) - 1) : Int) = ((2 ^ (7 * (k + 1) - 1) : Nat) : Int) := by
    norm_cast
  rw [length_encode_le, hpow, toNat_encodeZigzag hw, hcast, BitVec.toInt_eq_toNat_cond]
  generalize 2 ^ (7 * (k + 1) - 1) = p
  split <;> omega

end Writing

/-! ## Reading any bytes -/

section Reading

variable {b b' : ByteArray} {rest bs : List UInt8} {w n i r : Nat}

/-- The bits of a byte are or-ed in above those that are read already, and may be lost at
the top. -/
theorem or_shifted (hr : r < 2 ^ i) (x : BitVec 8) :
    BitVec.ofNat w r ||| x.setWidth w <<< i = BitVec.ofNat w (r + x.toNat * 2 ^ i) := by
  have hshift : x.setWidth w <<< i = BitVec.ofNat w (x.toNat <<< i) := by
    apply BitVec.eq_of_toNat_eq
    rw [BitVec.toNat_shiftLeft, BitVec.toNat_setWidth, BitVec.toNat_ofNat, Nat.shiftLeft_eq,
      Nat.shiftLeft_eq, Nat.mod_mul_mod]
  rw [hshift, ← BitVec.ofNat_or, Digits.or_shiftLeft _ hr]

/-- A pass of the loop takes one byte. -/
theorem readVarint_byte {x : UInt8} {xs : List UInt8} (h : Ahead b (x :: xs))
    (result : BitVec w) :
    ∃ b₁, readVarint w (List.range' i (n + 1) 7) result b =
        (if x.toNat < 128 then (.ok (result ||| x.toBitVec.setWidth w <<< i), b₁)
        else readVarint w (List.range' (i + 7) n 7)
          (result ||| (x.toBitVec &&& 0x7F).setWidth w <<< i) b₁) ∧
      Ahead b₁ xs ∧ b₁.endian = b.endian := by
  obtain ⟨b₁, hread, hahead, hend⟩ := readFint8_ahead h
  refine ⟨b₁, ?_, hahead, hend⟩
  rw [List.range'_succ, readVarint, hread]
  simp only [UInt8.toNat_toBitVec]

/-- **The loop of the readers**, when one of the next `n` bytes ends the number. -/
theorem readVarint_front (h : Ahead b rest) (hr : r < 2 ^ i)
    (hfront : front (rest.take n) = some bs) :
    ∃ b', readVarint w (List.range' i n 7) (BitVec.ofNat w r) b =
        (.ok (BitVec.ofNat w (r + payload bs * 2 ^ i)), b') ∧
      Ahead b' (rest.drop bs.length) ∧ b'.endian = b.endian := by
  induction n generalizing i r b rest bs with
  | zero => cases hfront
  | succ n ih =>
      cases rest with
      | nil => cases hfront
      | cons x xs =>
          obtain ⟨b₁, hbyte, hahead, hend⟩ := readVarint_byte h _
          rw [hbyte]
          rw [List.take_succ_cons, front] at hfront
          split at hfront
          · rename_i hlt
            cases hfront
            have hmod : x.toNat % 128 = x.toNat := Nat.mod_eq_of_lt hlt
            refine ⟨b₁, ?_, hahead, hend⟩
            rw [if_pos hlt, or_shifted hr, UInt8.toNat_toBitVec, payload, payload, hmod]
            simp
          · rename_i hge
            obtain ⟨cs, hcs, rfl⟩ := Option.map_eq_some_iff.mp hfront
            have hlow : (x.toBitVec &&& 0x7F).toNat = x.toNat % 128 := toNat_payload x.toBitVec
            have hpow : 2 ^ (i + 7) = 128 * 2 ^ i := by rw [Nat.pow_add, Nat.mul_comm]
            have hr' : r + x.toNat % 128 * 2 ^ i < 2 ^ (i + 7) := by
              have hle : x.toNat % 128 * 2 ^ i ≤ 127 * 2 ^ i :=
                Nat.mul_le_mul_right _ (by omega)
              rw [hpow]
              omega
            obtain ⟨b', hloop, hahead', hend'⟩ := ih hahead hr' hcs
            have hsum : r + x.toNat % 128 * 2 ^ i + payload cs * 2 ^ (i + 7) =
                r + payload (x :: cs) * 2 ^ i := by
              rw [payload, hpow, Nat.add_mul, Nat.add_assoc, ← Nat.mul_assoc,
                Nat.mul_comm 128 (payload cs)]
            refine ⟨b', ?_, hahead', hend'.trans hend⟩
            rw [if_neg hge, or_shifted hr, hlow, hloop, hsum]

/-- It takes `n` bytes that all go on. -/
theorem readVarint_all (h : Ahead b rest) (hlen : n ≤ rest.length)
    (hfront : front (rest.take n) = none) (result : BitVec w) :
    ∃ v b', readVarint w (List.range' i n 7) result b = (.ok v, b') ∧
      Ahead b' (rest.drop n) ∧ b'.endian = b.endian := by
  induction n generalizing i b rest result with
  | zero => exact ⟨result, b, rfl, h, rfl⟩
  | succ n ih =>
      cases rest with
      | nil => cases hlen
      | cons x xs =>
          obtain ⟨b₁, hbyte, hahead, hend⟩ := readVarint_byte h result
          rw [hbyte]
          rw [List.take_succ_cons, front] at hfront
          split at hfront
          · cases hfront
          · rename_i hge
            obtain ⟨v, b', hloop, hahead', hend'⟩ :=
              ih hahead (Nat.le_of_succ_le_succ hlen) (Option.map_eq_none_iff.mp hfront) _
            rw [if_neg hge]
            exact ⟨v, b', hloop, hahead', hend'.trans hend⟩

/-- It throws when the bytes are used up. -/
theorem readVarint_short (h : Ahead b rest) (hlen : rest.length < n)
    (hfront : front (rest.take n) = none) (result : BitVec w) :
    ∃ b', readVarint w (List.range' i n 7) result b = (.error .outOfRange, b') ∧
      Ahead b' [] ∧ (rest = [] → b' = b) := by
  induction n generalizing i b rest result with
  | zero => cases hlen
  | succ n ih =>
      cases rest with
      | nil =>
          have hsize := h.length
          have hthrow : b.read 1 = (.error .outOfRange, b) := by
            rw [read, if_pos]
            rw [h.wf.getReadSize]
            simp only [List.length_nil] at hsize
            omega
          rw [List.range'_succ, readVarint, readFint8, hthrow]
          exact ⟨b, rfl, h, fun _ => rfl⟩
      | cons x xs =>
          obtain ⟨b₁, hbyte, hahead, hend⟩ := readVarint_byte h result
          rw [hbyte]
          rw [List.take_succ_cons, front] at hfront
          split at hfront
          · cases hfront
          · rename_i hge
            obtain ⟨b', hloop, hahead', _⟩ :=
              ih hahead (Nat.lt_of_succ_lt_succ hlen) (Option.map_eq_none_iff.mp hfront) _
            rw [if_neg hge]
            exact ⟨b', hloop, hahead', fun hnil => absurd hnil (List.cons_ne_nil x xs)⟩

/-- What was ahead before and is not ahead any more was consumed. -/
theorem Ahead.position {k : Nat} (h : Ahead b rest) (h' : Ahead b' (rest.drop k))
    (hframe : Frame b b') (hk : k ≤ rest.length) : b'.position = b.position + k := by
  have hlen := h.length
  have hlen' := h'.length
  rw [hframe.size, List.length_drop] at hlen'
  omega

theorem Ahead.consumed {k : Nat} (h : Ahead b rest) (h' : Ahead b' (rest.drop k))
    (hframe : Frame b b') (hk : k ≤ rest.length) : consumed b b' = rest.take k := by
  rw [ByteArray.consumed, h.data, h.position h' hframe hk, Nat.add_sub_cancel_left]

theorem front_length (h : front (rest.take n) = some bs) :
    bs.length ≤ rest.length ∧ bs.length ≤ n ∧ rest.take bs.length = bs := by
  have hpre := (front_eq_some_iff.mp h).2
  have hpre' := hpre.trans (List.take_prefix n rest)
  have hlen := hpre.length_le
  rw [List.length_take] at hlen
  exact ⟨hpre'.length_le, by omega, (List.prefix_iff_eq_take.mp hpre').symm⟩

/-- **Soundness of the readers.** -/
theorem readVarint_sound_iff (h : Ahead b rest) :
    Sound (readVarint w (List.range' 0 n 7) 0) b ↔ InRange w n rest := by
  unfold InRange
  split
  · rename_i bs hfront
    obtain ⟨hle, _, htake⟩ := front_length hfront
    have hterm := (front_eq_some_iff.mp hfront).1
    obtain ⟨b', hread, hahead, _⟩ := readVarint_front (w := w) (r := 0) (i := 0) h (by decide)
      hfront
    have hframe := readVarint_frame (List.range' 0 n 7) (BitVec.ofNat w 0) b
    rw [hread] at hframe
    have hcons : ByteArray.consumed b b' = bs := (h.consumed hahead hframe hle).trans htake
    have hread' : readVarint w (List.range' 0 n 7) 0 b = (.ok (BitVec.ofNat w (payload bs)), b') := by
      simpa using hread
    constructor
    · intro hsound
      have hbound := (hsound _ b' hread').2.1
      rwa [hcons] at hbound
    · intro hbound v b'' heq
      rw [hread'] at heq
      cases heq
      rw [hcons]
      exact ⟨hterm, hbound, by rw [BitVec.toNat_ofNat, Nat.mod_eq_of_lt hbound]⟩
  · rename_i hfront
    constructor
    · intro hsound
      by_contra hlen
      obtain ⟨v, b', hread, hahead, _⟩ := readVarint_all (w := w) (i := 0) h (by omega) hfront 0
      have hframe := readVarint_frame (List.range' 0 n 7) (0 : BitVec w) b
      rw [hread] at hframe
      have hterm := (hsound v b' hread).1
      rw [h.consumed hahead hframe (by omega)] at hterm
      have hsome := hterm.front_append []
      rw [List.append_nil, hfront] at hsome
      cases hsome
    · intro hlen v b' heq
      obtain ⟨b'', hread, _⟩ := readVarint_short (w := w) (i := 0) h hlen hfront 0
      rw [hread] at heq
      cases heq

/-! ## Framing -/

/-- The encoding is stored, and a reader that has room for it takes it and nothing else. -/
theorem writeVarint_framed (hw : 8 ≤ w) (hfit : w ≤ 7 * (n + 1)) (v : BitVec w) :
    Framed (fun b v => b.writeVarint (n + 1) v) (readVarint w (List.range' 0 (n + 1) 7) 0) v
      (encode v.toNat) := by
  have hlt : v.toNat < 2 ^ (7 * (n + 1)) :=
    Nat.lt_of_lt_of_le v.isLt (Nat.pow_le_pow_right (by decide) hfit)
  constructor
  · intro b h
    obtain ⟨b', hwrite, hwf, hcont, _⟩ := write_spec h (encode v.toNat)
    refine ⟨b', ?_, hwf, hcont⟩
    rw [writeVarint, varint_eq_encode hw hlt]
    exact hwrite
  · intro b rest h
    have hroom := (length_encode_le v.toNat n).mpr hlt
    have hfront : front ((encode v.toNat ++ rest).take (n + 1)) = some (encode v.toNat) := by
      rw [List.take_append, List.take_of_length_le hroom]
      exact (encode_terminated _).front_append _
    obtain ⟨b', hread, hahead, _⟩ := readVarint_front (w := w) (r := 0) (i := 0) h (by decide)
      hfront
    have hframe := readVarint_frame (List.range' 0 (n + 1) 7) (BitVec.ofNat w 0) b
    rw [hread] at hframe
    refine ⟨b', ?_, h.position hahead hframe (by simp), by rwa [List.drop_left] at hahead⟩
    simpa [payload_encode] using hread

/-- Signed numbers are stored as their codes. -/
theorem Framed.zigzag {write : ByteArray → BitVec w → Result Unit}
    {read : ByteArray → Result (BitVec w)} {v : BitVec w} (hw : 1 < w)
    (h : Framed write read (encodeZigzag v) bs) :
    Framed (fun b v => write b (encodeZigzag v))
      (fun b => ((read b).1.map decodeZigzag, (read b).2)) v bs where
  emits := h.emits
  consumes := by
    intro b rest hahead
    obtain ⟨b', hread, hpos, hrest⟩ := h.consumes b rest hahead
    refine ⟨b', ?_, hpos, hrest⟩
    rw [hread, Except.map, decodeZigzag_encodeZigzag hw]

end Reading

end ByteArray

open Hpgs.Network.ByteArray

/-- **Minimal encodings.**  A writer stores a number in one byte for each seven bits, five
or ten at most, with the high bit in all but the last, which is not zero unless the number
is; a signed number takes at most `k + 1` bytes exactly if it lies between
`-2 ^ (7 * (k + 1) - 1)` and `2 ^ (7 * (k + 1) - 1)`; and whatever follows, the reader takes
the bytes that the writer stored and nothing else. -/
theorem varint_minimal :
    (∀ v : BitVec 32, ∃ bs,
      Framed writeUint32 readUint32 v bs ∧ Shortest v.toNat bs ∧ bs.length ≤ 5) ∧
    (∀ v : BitVec 64, ∃ bs,
      Framed writeUint64 readUint64 v bs ∧ Shortest v.toNat bs ∧ bs.length ≤ 10) ∧
    (∀ v : BitVec 32, ∃ bs, Framed writeInt32 readInt32 v bs ∧ bs.length ≤ 5 ∧
      ∀ k : Nat, bs.length ≤ k + 1 ↔
        -(2 ^ (7 * (k + 1) - 1) : Int) ≤ v.toInt ∧ v.toInt < 2 ^ (7 * (k + 1) - 1)) ∧
    (∀ v : BitVec 64, ∃ bs, Framed writeInt64 readInt64 v bs ∧ bs.length ≤ 10 ∧
      ∀ k : Nat, bs.length ≤ k + 1 ↔
        -(2 ^ (7 * (k + 1) - 1) : Int) ≤ v.toInt ∧ v.toInt < 2 ^ (7 * (k + 1) - 1)) := by
  have hfive : ∀ v : BitVec 32, (encode v.toNat).length ≤ 5 := fun v =>
    (length_encode_le v.toNat 4).mpr (Nat.lt_of_lt_of_le v.isLt (by decide))
  have hten : ∀ v : BitVec 64, (encode v.toNat).length ≤ 10 := fun v =>
    (length_encode_le v.toNat 9).mpr (Nat.lt_of_lt_of_le v.isLt (by decide))
  refine ⟨fun v => ?_, fun v => ?_, fun v => ?_, fun v => ?_⟩
  · exact ⟨encode v.toNat, writeVarint_framed (n := 4) (by decide) (by decide) v,
      encode_shortest_form v.toNat, hfive v⟩
  · exact ⟨encode v.toNat, writeVarint_framed (n := 9) (by decide) (by decide) v,
      encode_shortest_form v.toNat, hten v⟩
  · exact ⟨encode (encodeZigzag v).toNat,
      (writeVarint_framed (n := 4) (by decide) (by decide) (encodeZigzag v)).zigzag (by decide),
      hfive _, length_encode_zigzag (by decide) v⟩
  · exact ⟨encode (encodeZigzag v).toNat,
      (writeVarint_framed (n := 9) (by decide) (by decide) (encodeZigzag v)).zigzag (by decide),
      hten _, length_encode_zigzag (by decide) v⟩

/-- The smallest number takes all five bytes. -/
example : (varint 5 (encodeZigzag (0x80000000 : BitVec 32))).map List.length = some 5 := by
  decide

/-- **Sound decoding.**  When `readUint32` or `readUint64` returns, the bytes that it took
are an encoding of its result, exactly if they are in range or no number is returned. -/
theorem varint_sound {b : ByteArray} {rest : List UInt8} (h : Ahead b rest) :
    (Sound readUint32 b ↔ InRange 32 5 rest) ∧ (Sound readUint64 b ↔ InRange 64 10 rest) :=
  ⟨readVarint_sound_iff h, readVarint_sound_iff h⟩

theorem varint_sound_largest :
    ∃ b : ByteArray, Ahead b [0xFF, 0xFF, 0xFF, 0xFF, 0x0F, 0xFF] ∧ Sound readUint32 b := by
  obtain ⟨b, _, hahead⟩ :=
    stored_reachable .little (B := 2) (by decide) (fun _ _ => 0) [0xFF, 0xFF, 0xFF, 0xFF, 0x0F, 0xFF]
  exact ⟨b, hahead, (varint_sound hahead).1.mpr (by decide : 0xFFFFFFFF < 2 ^ 32)⟩

/-- Five bytes that all go on are taken for a number, and so is a number of 35 bits. -/
theorem varint_unsound :
    ¬ ∀ (b : ByteArray) (rest : List UInt8), Ahead b rest →
      Sound readUint32 b ∧ Sound readUint64 b := by
  intro hall
  obtain ⟨b, _, hahead⟩ :=
    stored_reachable .little (B := 2) (by decide) (fun _ _ => 0) [0x80, 0x80, 0x80, 0x80, 0x80]
  have hrange := (readVarint_sound_iff (w := 32) (n := 5) hahead).mp (hall b _ hahead).1
  exact absurd (show 5 < 5 from hrange) (by decide)

end Network
end Hpgs
