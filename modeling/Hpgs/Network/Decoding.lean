import Hpgs.Network.Varint

/-!
# Reading what may be incomplete

A reader that meets the end of the bytes throws.  The readers of varints take byte by
byte, and the readers of strings the length before the body, so that something may be
consumed by then.  A length is also cut to its width when it is written, and resizing a
`std::string` throws an exception of its own.

**Results.**
* `readKind_front`, `readLength_front`, `readKind_none`: reading a number from any bytes.
* `failed_read_keeps`: a reader takes what it reads or leaves everything as it was,
  exactly if nothing that can fail comes after the first byte.
* `failed_read_consumes`: a string whose body is missing.
* `f16_in_step`: a string with a length of 16 bits is read back with what follows it,
  exactly if the length fits.
-/

namespace Hpgs
namespace Network

open Base128 Digits Transition

/-- The number that stands before a string. -/
def StringCode.kind : StringCode → Kind
  | .f16 => .fuint16
  | .f32 => .fuint32
  | .f64 => .fuint64
  | .vint => .uint64

/-- The functions that read a number or a string. -/
inductive ReadOp
  | number (k : Kind)
  | string (c : StringCode)
deriving DecidableEq

def ReadOp.call : ReadOp → PublicOp
  | .number k => .readKind k
  | .string c => .readString c

/-! ## Encodings at the front of some bytes -/

/-- The encoding of a number. -/
def frontNumber (k : Kind) (rest : List UInt8) : Option (List UInt8) :=
  match k with
  | .int32 | .uint32 => front (rest.take 5)
  | .int64 | .uint64 => front (rest.take 10)
  | _ => if k.width / 8 ≤ rest.length then some (rest.take (k.width / 8)) else none

/-- The length that some bytes stand for.  For a varint it is the number that is encoded, which
`readUint64` returns modulo `2 ^ 64`. -/
def lengthOf (e : Endian) (c : StringCode) (head : List UInt8) : Nat :=
  match c, e with
  | .vint, _ => payload head
  | _, .little => value head
  | _, .big => value head.reverse

/-- The number of bytes of the encoding, if it is complete. -/
def encodedLength (e : Endian) (rest : List UInt8) : ReadOp → Option Nat
  | .number k => (frontNumber k rest).map List.length
  | .string c =>
      match frontNumber c.kind rest with
      | none => none
      | some head =>
          if head.length + lengthOf e c head ≤ rest.length then
            some (head.length + lengthOf e c head)
          else none

namespace ByteArray

/-- What is stored from the position on. -/
def unread (b : ByteArray) : List UInt8 :=
  b.contents.data.drop b.position

/-- The call succeeds and takes the encoding, or throws `std::out_of_range` and leaves
everything as it was. -/
def Intact (host : Endian) (b : ByteArray) (op : ReadOp) : Prop :=
  match b.perform host op.call with
  | (.ok _, b') => encodedLength b.endian b.unread op = some (b'.position - b.position) ∧
      b.position ≤ b'.position
  | (.error e, b') => e = .outOfRange ∧ b'.position = b.position ∧ b'.cur = b.cur ∧
      b'.size = b.size ∧ b'.contents = b.contents

/-- **The condition.**  A number of variable length is there to its end, or there is
nothing at all.  A string whose length is there has a length that a string can have, its
body is there too, and an empty body does not lie behind the last block. -/
def Retryable (b : ByteArray) (op : ReadOp) : Prop :=
  match op with
  | .number k => (frontNumber k b.unread).isSome ∨ k.fixed ∨ b.unread = []
  | .string c =>
      match frontNumber c.kind b.unread with
      | none => c.kind.fixed ∨ b.unread = []
      | some head =>
          lengthOf b.endian c head ≤ maxSize ∧
            head.length + lengthOf b.endian c head ≤ b.unread.length ∧
            (lengthOf b.endian c head = 0 → b.position + head.length < b.capacity)

/-- A string, a number behind it, and both of them read from the start. -/
def InStep (host : Endian) (b : ByteArray) (s : List UInt8) (v : BitVec 32) : Prop :=
  ∃ b₁ b₂ b₃ b₄ b₅,
    b.writeStringF16 host s = (.ok (), b₁) ∧ b₁.writeFuint32 host v = (.ok (), b₂) ∧
      b₂.setPosition 0 = (.ok (), b₃) ∧ b₃.readStringF16 host = (.ok s, b₄) ∧
      b₄.readFuint32 host = (.ok v, b₅)

/-! ## Numbers of fixed width -/

section Numbers

variable {b : ByteArray} {rest head : List UInt8} {k : Kind}

theorem value_lt_pow {w : Nat} {bytes : List UInt8} (hw : w = 8 * bytes.length) :
    value bytes < 2 ^ w := by
  have hval := value_lt bytes
  rwa [show 256 = 2 ^ 8 from rfl, ← Nat.pow_mul, ← hw] at hval

/-- Every sequence of `w / 8` bytes is a number in memory. -/
theorem memory_ofMemory {w : Nat} {bytes : List UInt8} (hw : w = 8 * bytes.length) (e : Endian) :
    memory e (ofMemory e w bytes) = bytes := by
  have hdiv : w / 8 = bytes.length := by omega
  cases e with
  | little =>
      rw [memory, ofMemory]
      simp only [BitVec.toNat_ofNat, Nat.mod_eq_of_lt (value_lt_pow hw), hdiv]
      exact digits_value bytes
  | big =>
      have hlen : bytes.reverse.length = bytes.length := List.length_reverse
      rw [memory, ofMemory]
      simp only [BitVec.toNat_ofNat, Nat.mod_eq_of_lt (value_lt_pow (hlen ▸ hw)), hdiv]
      rw [← hlen, digits_value, List.reverse_reverse]

theorem toNat_ofMemory {w : Nat} {bytes : List UInt8} (hw : w = 8 * bytes.length) (e : Endian) :
    (ofMemory e w bytes).toNat = value (match e with | .little => bytes | .big => bytes.reverse) := by
  have hrev : w = 8 * bytes.reverse.length := by rw [List.length_reverse, hw]
  cases e with
  | little => exact (BitVec.toNat_ofNat _ _).trans (Nat.mod_eq_of_lt (value_lt_pow hw))
  | big => exact (BitVec.toNat_ofNat _ _).trans (Nat.mod_eq_of_lt (value_lt_pow hrev))

/-- The bytes that a fixed-width reader needs, whatever they are. -/
theorem readFixed_any {w n : Nat} (hw : w = 8 * (n + 1)) (host : Endian) (h : Ahead b rest)
    (hlen : w / 8 ≤ rest.length) :
    ∃ b', b.readFixed host w = (.ok (ofMemory b.endian w (rest.take (w / 8))), b') ∧
      Ahead b' (rest.drop (w / 8)) ∧ b'.endian = b.endian := by
  have htake : (rest.take (w / 8)).length = w / 8 := List.length_take_of_le hlen
  refine readFixed_ahead hw host ?_
  rw [memory_ofMemory (by omega), List.take_append_drop]
  exact h

theorem readFint8_any (h : Ahead b rest) (hlen : 1 ≤ rest.length) :
    ∃ v b', b.readFint8 = (.ok v, b') ∧ Ahead b' (rest.drop 1) ∧ b'.endian = b.endian := by
  cases rest with
  | nil => cases hlen
  | cons x xs =>
      obtain ⟨b', hread, hrest⟩ := readFint8_ahead h
      exact ⟨x.toBitVec, b', hread, hrest⟩

/-- A read of more than there is changes nothing. -/
theorem read_throws (h : Ahead b rest) {size : Nat} (hlen : rest.length < size) :
    b.read size = (.error .outOfRange, b) := by
  have hsize := h.length
  rw [read, if_pos]
  rw [h.wf.getReadSize]
  omega

theorem readFixed_throws {w : Nat} (host : Endian) (h : Ahead b rest)
    (hlen : rest.length < w / 8) : b.readFixed host w = (.error .outOfRange, b) := by
  rw [readFixed, read_throws h hlen]
  rfl

theorem readFint8_throws (h : Ahead b []) : b.readFint8 = (.error .outOfRange, b) := by
  rw [readFint8, read_throws h (Nat.zero_lt_one)]
  rfl

/-! ## Any number -/

theorem readUint_front {w n : Nat} (h : Ahead b rest) (hfront : front (rest.take n) = some head) :
    ∃ b', readVarint w (List.range' 0 n 7) 0 b = (.ok (BitVec.ofNat w (payload head)), b') ∧
      Ahead b' (rest.drop head.length) ∧ b'.endian = b.endian := by
  have hread := readVarint_front (w := w) (r := 0) (i := 0) h (by decide) hfront
  simpa using hread

/-- A number that is there is taken. -/
theorem readKind_front (host : Endian) (h : Ahead b rest)
    (hfront : frontNumber k rest = some head) :
    ∃ v b', b.readKind host k = (.ok v, b') ∧ Ahead b' (rest.drop head.length) ∧
      b'.endian = b.endian := by
  have hfixed : ∀ w n : Nat, w = 8 * (n + 1) → (if w / 8 ≤ rest.length then
      some (rest.take (w / 8)) else none) = some head →
      ∃ v b', b.readFixed host w = (.ok v, b') ∧ Ahead b' (rest.drop head.length) ∧
        b'.endian = b.endian := by
    intro w n hw hsome
    obtain ⟨hlen, rfl⟩ := Option.ite_none_right_eq_some.mp hsome |>.imp_right Option.some.inj
    obtain ⟨b', hread, hrest⟩ := readFixed_any hw host h hlen
    rw [List.length_take_of_le hlen]
    exact ⟨_, b', hread, hrest⟩
  have hbyte : (if 1 ≤ rest.length then some (rest.take 1) else none) = some head →
      ∃ v b', b.readFint8 = (.ok v, b') ∧ Ahead b' (rest.drop head.length) ∧
        b'.endian = b.endian := by
    intro hsome
    obtain ⟨hlen, rfl⟩ := Option.ite_none_right_eq_some.mp hsome |>.imp_right Option.some.inj
    rw [List.length_take_of_le hlen]
    exact readFint8_any h hlen
  cases k with
  | fint8 => exact hbyte hfront
  | fuint8 => exact hbyte hfront
  | fint16 => exact hfixed 16 1 rfl hfront
  | fuint16 => exact hfixed 16 1 rfl hfront
  | fint32 => exact hfixed 32 3 rfl hfront
  | fuint32 => exact hfixed 32 3 rfl hfront
  | fint64 => exact hfixed 64 7 rfl hfront
  | fuint64 => exact hfixed 64 7 rfl hfront
  | float => exact hfixed 32 3 rfl hfront
  | double => exact hfixed 64 7 rfl hfront
  | int32 =>
      obtain ⟨b', hread, hrest⟩ := readUint_front (w := 32) h hfront
      have huint : b.readUint32 = (.ok (BitVec.ofNat 32 (payload head)), b') := hread
      exact ⟨decodeZigzag (BitVec.ofNat 32 (payload head)), b', by
        simp only [readKind, readInt32, huint, Except.map]
        rfl, hrest⟩
  | uint32 =>
      obtain ⟨b', hread, hrest⟩ := readUint_front (w := 32) h hfront
      exact ⟨_, b', hread, hrest⟩
  | int64 =>
      obtain ⟨b', hread, hrest⟩ := readUint_front (w := 64) h hfront
      have huint : b.readUint64 = (.ok (BitVec.ofNat 64 (payload head)), b') := hread
      exact ⟨decodeZigzag (BitVec.ofNat 64 (payload head)), b', by
        simp only [readKind, readInt64, huint, Except.map]
        rfl, hrest⟩
  | uint64 =>
      obtain ⟨b', hread, hrest⟩ := readUint_front (w := 64) h hfront
      exact ⟨_, b', hread, hrest⟩

/-- A reader that throws where nothing is left, and otherwise takes a byte. -/
structure Taking {α : Type} (b : ByteArray) (rest : List UInt8) (r : Result α) : Prop where
  throws : rest = [] → r = (.error .outOfRange, b)
  moves : rest ≠ [] → b.position < r.2.position

theorem Taking.map {α β : Type} {r : Result α} (h : Taking b rest r) (f : α → β) :
    Taking b rest (r.1.map f, r.2) where
  throws := fun hnil => by rw [h.throws hnil]; rfl
  moves := h.moves

/-- A number of variable length without an end moves the position, if there is a byte. -/
theorem readUint_none {w n : Nat} (hn : 1 ≤ n) (h : Ahead b rest)
    (hnone : front (rest.take n) = none) :
    Taking b rest (readVarint w (List.range' 0 n 7) 0 b) := by
  have hframe := readVarint_frame (List.range' 0 n 7) (0 : BitVec w) b
  by_cases hlen : n ≤ rest.length
  · obtain ⟨v, b', hread, hahead, _⟩ := readVarint_all (w := w) (i := 0) h hlen hnone 0
    rw [hread] at hframe ⊢
    have hpos := h.position hahead hframe hlen
    refine ⟨?_, fun _ => by simp only; omega⟩
    rintro rfl
    simp only [List.length_nil] at hlen
    omega
  · obtain ⟨b', hread, hahead, hsame⟩ :=
      readVarint_short (w := w) (i := 0) h (Nat.lt_of_not_le hlen) hnone 0
    rw [hread] at hframe ⊢
    refine ⟨fun hnil => by rw [hsame hnil], fun hne => ?_⟩
    have hsize := h.length
    have hsize' := hahead.length
    have hpos := List.length_pos_iff.mpr hne
    rw [hframe.size] at hsize'
    simp only [List.length_nil] at hsize' ⊢
    omega

/-- A number that is not there to its end changes nothing if it has a fixed width or no
byte at all, and moves the position otherwise. -/
theorem readKind_none (host : Endian) (h : Ahead b rest) (hnone : frontNumber k rest = none) :
    (k.fixed = true ∨ rest = [] → b.readKind host k = (.error .outOfRange, b)) ∧
      (¬ (k.fixed = true ∨ rest = []) → b.position < (b.readKind host k).2.position) := by
  have hfixed : ∀ w : Nat, (if w / 8 ≤ rest.length then some (rest.take (w / 8)) else none) = none →
      b.readFixed host w = (.error .outOfRange, b) := by
    intro w hw
    rw [ite_eq_right_iff] at hw
    exact readFixed_throws host h (Nat.lt_of_not_le fun hle => nomatch hw hle)
  have hbyte : (if 1 ≤ rest.length then some (rest.take 1) else none) = none →
      b.readFint8 = (.error .outOfRange, b) := by
    intro hw
    rw [ite_eq_right_iff] at hw
    have hlt : rest.length < 1 := Nat.lt_of_not_le fun hle => nomatch hw hle
    have hnil : rest = [] := List.eq_nil_of_length_eq_zero (by omega)
    exact readFint8_throws (hnil ▸ h)
  have hvint : ∀ {α : Type} {r : Result α}, Taking b rest r →
      (false = true ∨ rest = [] → r = (.error .outOfRange, b)) ∧
        (¬ (false = true ∨ rest = []) → b.position < r.2.position) := by
    intro α r htaking
    simpa using And.intro htaking.throws htaking.moves
  cases k with
  | fint8 => exact ⟨fun _ => hbyte hnone, fun hn => absurd (Or.inl rfl) hn⟩
  | fuint8 => exact ⟨fun _ => hbyte hnone, fun hn => absurd (Or.inl rfl) hn⟩
  | fint16 => exact ⟨fun _ => hfixed 16 hnone, fun hn => absurd (Or.inl rfl) hn⟩
  | fuint16 => exact ⟨fun _ => hfixed 16 hnone, fun hn => absurd (Or.inl rfl) hn⟩
  | fint32 => exact ⟨fun _ => hfixed 32 hnone, fun hn => absurd (Or.inl rfl) hn⟩
  | fuint32 => exact ⟨fun _ => hfixed 32 hnone, fun hn => absurd (Or.inl rfl) hn⟩
  | fint64 => exact ⟨fun _ => hfixed 64 hnone, fun hn => absurd (Or.inl rfl) hn⟩
  | fuint64 => exact ⟨fun _ => hfixed 64 hnone, fun hn => absurd (Or.inl rfl) hn⟩
  | float => exact ⟨fun _ => hfixed 32 hnone, fun hn => absurd (Or.inl rfl) hn⟩
  | double => exact ⟨fun _ => hfixed 64 hnone, fun hn => absurd (Or.inl rfl) hn⟩
  | int32 => exact hvint ((readUint_none (w := 32) (n := 5) (by decide) h hnone).map decodeZigzag)
  | uint32 => exact hvint (readUint_none (by decide) h hnone)
  | int64 => exact hvint ((readUint_none (w := 64) (n := 10) (by decide) h hnone).map decodeZigzag)
  | uint64 => exact hvint (readUint_none (by decide) h hnone)

theorem frontNumber_length (h : frontNumber k rest = some head) :
    1 ≤ head.length ∧ head.length ≤ rest.length := by
  have hfront : ∀ n, front (rest.take n) = some head → 1 ≤ head.length ∧ head.length ≤ rest.length :=
    fun n hn => ⟨(front_eq_some_iff.mp hn).1.length_pos, (front_length hn).1⟩
  have hfixed : ∀ n : Nat, 1 ≤ n → (if n ≤ rest.length then some (rest.take n) else none) = some head →
      1 ≤ head.length ∧ head.length ≤ rest.length := by
    intro n hn hsome
    obtain ⟨hlen, rfl⟩ := Option.ite_none_right_eq_some.mp hsome |>.imp_right Option.some.inj
    rw [List.length_take_of_le hlen]
    exact ⟨hn, hlen⟩
  cases k with
  | int32 => exact hfront 5 h
  | uint32 => exact hfront 5 h
  | int64 => exact hfront 10 h
  | uint64 => exact hfront 10 h
  | _ => exact hfixed _ (by decide) h

/-! ## Strings -/

/-- The length that the reader of a string finds: what does not fit in 64 bits is lost. -/
theorem readLength_front (host : Endian) {c : StringCode} (h : Ahead b rest)
    (hfront : frontNumber c.kind rest = some head) :
    ∃ b', Ahead b' (rest.drop head.length) ∧ Frame b b' ∧ b.position + head.length = b'.position ∧
      b.readString host c =
        if maxSize < lengthOf b.endian c head % 2 ^ 64 then (.error .lengthError, b')
        else b'.read (lengthOf b.endian c head % 2 ^ 64) := by
  have hlen := (frontNumber_length hfront).2
  have hframe := readKind_frame host b c.kind
  have hbody : ∀ {w : Nat} {v : BitVec w} {b' : ByteArray} {number : Result (BitVec w)},
      b.readString host c = readBody number → Frame b number.2 → number = (.ok v, b') →
      Ahead b' (rest.drop head.length) → v.toNat = lengthOf b.endian c head % 2 ^ 64 →
      ∃ b', Ahead b' (rest.drop head.length) ∧ Frame b b' ∧ b.position + head.length = b'.position ∧
        b.readString host c =
          if maxSize < lengthOf b.endian c head % 2 ^ 64 then (.error .lengthError, b')
          else b'.read (lengthOf b.endian c head % 2 ^ 64) := by
    rintro w v b' _ hstring hf rfl hahead hv
    refine ⟨b', hahead, hf, (h.position hahead hf hlen).symm, ?_⟩
    rw [hstring, readBody, hv]
  have hfixed : ∀ w n : Nat, w = 8 * (n + 1) → w ≤ 64 → (if w / 8 ≤ rest.length then
      some (rest.take (w / 8)) else none) = some head →
      ∃ (v : BitVec w) (b' : ByteArray), b.readFixed host w = (.ok v, b') ∧
        Ahead b' (rest.drop head.length) ∧
        v.toNat = value (match b.endian with | .little => head | .big => head.reverse) % 2 ^ 64 := by
    intro w n hw h64 hsome
    obtain ⟨hle, rfl⟩ := Option.ite_none_right_eq_some.mp hsome |>.imp_right Option.some.inj
    obtain ⟨b', hread, hahead, _⟩ := readFixed_any hw host h hle
    have htake : (rest.take (w / 8)).length = w / 8 := List.length_take_of_le hle
    refine ⟨_, b', hread, by rwa [htake], ?_⟩
    have hval := toNat_ofMemory (by omega : w = 8 * (rest.take (w / 8)).length) b.endian
    have hlt := Nat.lt_of_lt_of_le (ofMemory b.endian w (rest.take (w / 8))).isLt
      (Nat.pow_le_pow_right (by decide : 0 < 2) h64)
    rw [← hval, Nat.mod_eq_of_lt hlt]
  have hlengthOf : c ≠ .vint → lengthOf b.endian c head =
      value (match b.endian with | .little => head | .big => head.reverse) := by
    intro hc
    cases c <;> cases b.endian <;> first | rfl | exact absurd rfl hc
  cases c with
  | f16 =>
      obtain ⟨v, b', hread, hahead, hv⟩ := hfixed 16 1 rfl (by decide) hfront
      exact hbody rfl hframe hread hahead (by rw [hv, hlengthOf (by decide)])
  | f32 =>
      obtain ⟨v, b', hread, hahead, hv⟩ := hfixed 32 3 rfl (by decide) hfront
      exact hbody rfl hframe hread hahead (by rw [hv, hlengthOf (by decide)])
  | f64 =>
      obtain ⟨v, b', hread, hahead, hv⟩ := hfixed 64 7 rfl (by decide) hfront
      exact hbody rfl hframe hread hahead (by rw [hv, hlengthOf (by decide)])
  | vint =>
      obtain ⟨b', hread, hahead, _⟩ := readUint_front (w := 64) h hfront
      refine hbody rfl hframe hread hahead ?_
      cases b.endian <;> exact BitVec.toNat_ofNat _ _

end Numbers

/-! ## What a call leaves -/

section Calls

variable {host : Endian} {b b' : ByteArray} {op : ReadOp} {u : Unit} {e : Fault}

/-- `read` throws and changes nothing, or advances by what it was asked for. -/
theorem read_cases (b : ByteArray) (size : Nat) :
    (∃ e, b.read size = (.error e, b)) ∨
      ∃ bytes b', b.read size = (.ok bytes, b') ∧ b'.position = b.position + size := by
  unfold read
  split
  · exact Or.inl ⟨_, rfl⟩
  · split
    · exact Or.inl ⟨_, rfl⟩
    · split
      · exact Or.inl ⟨_, rfl⟩
      · exact Or.inr ⟨_, _, rfl, rfl⟩

/-- The body of a string does not move the position back. -/
theorem readBody_position {w : Nat} (head : Result (BitVec w)) :
    head.2.position ≤ (readBody head).2.position := by
  obtain ⟨r, b₁⟩ := head
  cases r with
  | error e => exact Nat.le_refl _
  | ok len =>
      rw [readBody]
      split
      · exact Nat.le_refl _
      · rcases read_cases b₁ len.toNat with ⟨e, hread⟩ | ⟨bytes, b₂, hread, hpos⟩
        · rw [hread]
        · rw [hread, hpos]
          exact Nat.le_add_right _ _

theorem intact_of_ok (h : b.perform host op.call = (.ok u, b')) :
    Intact host b op ↔ encodedLength b.endian b.unread op = some (b'.position - b.position) ∧
      b.position ≤ b'.position := by
  rw [Intact, h]

theorem intact_of_throws (h : b.perform host op.call = (.error .outOfRange, b)) :
    Intact host b op := by
  rw [Intact, h]
  exact ⟨rfl, rfl, rfl, rfl, rfl⟩

theorem not_intact_of_error (h : b.perform host op.call = (.error e, b'))
    (hpos : b.position < b'.position) : ¬ Intact host b op := by
  rw [Intact, h]
  rintro ⟨_, hsame, _⟩
  omega

theorem not_intact_of_none (hnone : encodedLength b.endian b.unread op = none)
    (hpos : b.position < (b.perform host op.call).2.position) : ¬ Intact host b op := by
  rcases hcall : b.perform host op.call with ⟨r, b'⟩
  rw [hcall] at hpos
  cases r with
  | error e => exact not_intact_of_error hcall hpos
  | ok u =>
      rw [intact_of_ok hcall, hnone]
      exact fun h => nomatch h.1

/-- **Numbers.** -/
theorem intact_number_iff (host : Endian) (h : b.WellFormed) (k : Kind) :
    Intact host b (.number k) ↔ Retryable b (.number k) := by
  have hahead : Ahead b b.unread := ⟨h, rfl⟩
  have hperform : b.perform host (ReadOp.number k).call = done (b.readKind host k) := rfl
  rw [Retryable]
  cases hfront : frontNumber k b.unread with
  | some head =>
      obtain ⟨v, b', hread, hrest, _⟩ := readKind_front host hahead hfront
      have hframe : Frame b b' := by simpa only [hread] using readKind_frame host b k
      have hpos := hahead.position hrest hframe (frontNumber_length hfront).2
      have hcall : b.perform host (ReadOp.number k).call = (.ok (), b') := by
        rw [hperform, hread]
        rfl
      refine iff_of_true ((intact_of_ok hcall).mpr ⟨?_, by omega⟩) (Or.inl rfl)
      rw [encodedLength, hfront, hpos, Nat.add_sub_cancel_left]
      rfl
  | none =>
      obtain ⟨hkeeps, hmoves⟩ := readKind_none host hahead hfront
      by_cases hk : k.fixed = true ∨ b.unread = []
      · rw [hkeeps hk] at hperform
        exact iff_of_true (intact_of_throws hperform) (Or.inr hk)
      · refine iff_of_false (not_intact_of_none (by rw [encodedLength, hfront]; rfl) ?_) ?_
        · rw [hperform]
          exact hmoves hk
        · rintro (hsome | hother)
          · cases hsome
          · exact hk hother

/-- A body that is there is read, unless it is empty and lies behind the last block. -/
theorem read_body_ok {rest : List UInt8} (h : Ahead b rest) {n : Nat} (hle : n ≤ rest.length)
    (hroom : n = 0 → b.position < b.capacity) : ∃ bytes b', b.read n = (.ok bytes, b') := by
  have hsplit : Ahead b (rest.take n ++ rest.drop n) := by
    rw [List.take_append_drop]
    exact h
  have hlen : (rest.take n).length = n := List.length_take_of_le hle
  rcases readBody_ahead hsplit with ⟨hnil, hfull, _⟩ | ⟨b', hread, _⟩
  · have hzero := hroom (by rw [← hlen, hnil]; rfl)
    omega
  · rw [hlen] at hread
    exact ⟨_, b', hread⟩

/-- **Strings.** -/
theorem intact_string_iff (host : Endian) (h : b.WellFormed) (c : StringCode) :
    Intact host b (.string c) ↔ Retryable b (.string c) := by
  have hahead : Ahead b b.unread := ⟨h, rfl⟩
  have hperform : b.perform host (ReadOp.string c).call = done (b.readString host c) := rfl
  have hkind : b.readString host c = readBody (b.readKind host c.kind) := by cases c <;> rfl
  rw [Retryable]
  cases hfront : frontNumber c.kind b.unread with
  | none =>
      obtain ⟨hkeeps, hmoves⟩ := readKind_none host hahead hfront
      by_cases hk : c.kind.fixed = true ∨ b.unread = []
      · rw [hkind, hkeeps hk] at hperform
        exact iff_of_true (intact_of_throws hperform) hk
      · refine iff_of_false (not_intact_of_none (by rw [encodedLength, hfront]) ?_) hk
        rw [hperform, hkind]
        exact Nat.lt_of_lt_of_le (hmoves hk) (readBody_position _)
  | some head =>
      obtain ⟨b₁, hrest, hframe, hpos, hstring⟩ := readLength_front host hahead hfront
      obtain ⟨hone, hhead⟩ := frontNumber_length hfront
      have hroom : (b.unread.drop head.length).length = b.unread.length - head.length :=
        List.length_drop
      have hmoved : b.position < b₁.position := by omega
      simp only
      set n := lengthOf b.endian c head with hn
      have hsmall : n ≤ maxSize → n % 2 ^ 64 = n := fun hle =>
        Nat.mod_eq_of_lt (Nat.lt_of_le_of_lt hle (by decide))
      rw [hstring] at hperform
      by_cases hbig : maxSize < n % 2 ^ 64
      · -- `resize` throws
        rw [if_pos hbig] at hperform
        refine iff_of_false (not_intact_of_error hperform hmoved) ?_
        rintro ⟨hle, _⟩
        rw [hsmall hle] at hbig
        omega
      · rw [if_neg hbig] at hperform
        rcases read_cases b₁ (n % 2 ^ 64) with ⟨e, hread⟩ | ⟨bytes, b₂, hread, hpos₂⟩
        · rw [hread] at hperform
          refine iff_of_false (not_intact_of_error hperform hmoved) ?_
          rintro ⟨hle, hfits, hzero⟩
          rw [hsmall hle] at hread
          obtain ⟨bytes, b₂, hok⟩ := read_body_ok hrest (n := n) (by omega) (by
            rw [hframe.capacity]
            omega)
          rw [hread] at hok
          cases hok
        · rw [hread] at hperform
          rw [intact_of_ok hperform]
          simp only [encodedLength, hfront, ← hn, Option.ite_none_right_eq_some,
            Option.some.injEq]
          constructor
          · rintro ⟨⟨hfits, hlen⟩, _⟩
            have hsame : n % 2 ^ 64 = n := by omega
            refine ⟨by omega, hfits, fun hzero => ?_⟩
            rw [hsame, hzero, read_zero hrest.wf, hframe.capacity] at hread
            have hcap := Nat.le_trans hrest.wf.position_le hrest.wf.size_le
            rw [hframe.capacity] at hcap
            split at hread
            · cases hread
            · omega
          · rintro ⟨hle, hfits, _⟩
            have hsame := hsmall hle
            exact ⟨⟨hfits, by omega⟩, by omega⟩

end Calls

end ByteArray

open Hpgs.Network.ByteArray in
/-- **Failed decoding.**  In every reachable state a reader takes the encoding that is
ahead, or throws `std::out_of_range` and leaves the object as it was, exactly if nothing
can fail once it has taken a byte. -/
theorem failed_read_keeps (host : Endian) {B : Nat} (hB : 1 ≤ B) (fresh : Nat → Nat → UInt8)
    {b : ByteArray} (h : (calls host B fresh).Reachable anyStep b) (op : ReadOp) :
    Intact host b op ↔ Retryable b op := by
  have hwf := (reachable_compact hB h).wf
  cases op with
  | number k => exact intact_number_iff host hwf k
  | string c => exact intact_string_iff host hwf c

open Hpgs.Network.ByteArray in
theorem failed_read_keeps_two_bytes :
    ∃ b, (calls .little 2 fun _ _ => 0).Reachable anyStep b ∧ b.unread = [1, 2] ∧
      Intact .little b (.number .fuint32) ∧ Intact .little b (.string .f32) := by
  obtain ⟨b, hreach, hahead⟩ := stored_reachable .little (B := 2) (by decide) (fun _ _ => 0) [1, 2]
  have hrest : b.unread = [1, 2] := hahead.data
  refine ⟨b, hreach, hrest, ?_, ?_⟩
  · exact (failed_read_keeps .little (by decide) _ hreach (.number .fuint32)).mpr (Or.inr (Or.inl rfl))
  · refine (failed_read_keeps .little (by decide) _ hreach (.string .f32)).mpr ?_
    rw [Retryable, hrest]
    exact Or.inl rfl

open Hpgs.Network.ByteArray in
/-- One byte of a varint, and a string of five bytes of which none is there. -/
theorem failed_read_consumes :
    (¬ ∀ b, (calls .little 2 fun _ _ => 0).Reachable anyStep b →
        Intact .little b (.number .uint32)) ∧
      ¬ ∀ b, (calls .little 2 fun _ _ => 0).Reachable anyStep b →
        Intact .little b (.string .vint) := by
  constructor
  · intro hall
    obtain ⟨b, hreach, hahead⟩ := stored_reachable .little (B := 2) (by decide) (fun _ _ => 0) [0x80]
    have hretry := (intact_number_iff .little hahead.wf .uint32).mp (hall b hreach)
    rw [Retryable, unread, hahead.data] at hretry
    exact absurd hretry (by decide)
  · intro hall
    obtain ⟨b, hreach, hahead⟩ := stored_reachable .little (B := 2) (by decide) (fun _ _ => 0) [5]
    have hretry := (intact_string_iff .little hahead.wf .vint).mp (hall b hreach)
    rw [Retryable, unread, hahead.data] at hretry
    exact absurd (show 6 ≤ 1 from hretry.2.1) (by decide)

/-! ## Strings with a length of 16 bits -/

namespace ByteArray

section InStep

variable {b b' : ByteArray} {host : Endian} {s : List UInt8} {v : BitVec 32}

/-- `read` gives as many bytes as it was asked for. -/
theorem readLoop_length {nodes : List (List UInt8)} {npos size k : Nat} {bytes : List UInt8}
    (h : readLoop nodes npos size = some (bytes, k)) : bytes.length = size := by
  induction nodes generalizing npos size bytes k with
  | nil =>
      cases size with
      | zero =>
          cases h
          rfl
      | succ size => cases h
  | cons node nodes ih =>
      cases size with
      | zero =>
          cases h
          rfl
      | succ size =>
          simp only [readLoop] at h
          split at h
          · cases h
            rw [List.length_take, List.length_drop]
            omega
          · obtain ⟨⟨r, m⟩, hrest, heq⟩ := Option.map_eq_some_iff.mp h
            cases heq
            rw [List.length_append, List.length_drop, ih hrest]
            omega

theorem read_length {size : Nat} {bytes : List UInt8} (h : b.read size = (.ok bytes, b')) :
    bytes.length = size := by
  unfold read at h
  split at h
  · cases h
  · split at h
    · cases h
    · split at h
      · cases h
      · rename_i hloop
        cases h
        exact readLoop_length hloop

/-- No string that is read has more bytes than its length can say. -/
theorem readStringF16_length (h : b.readStringF16 host = (.ok s, b')) : s.length < 2 ^ 16 := by
  unfold readStringF16 readBody at h
  split at h
  · cases h
  · rename_i len b₁ _
    split at h
    · cases h
    · rw [read_length h]
      exact len.isLt

end InStep

end ByteArray

open Hpgs.Network.ByteArray in
/-- **Strings with a length of 16 bits** are read back with the number that follows them,
exactly if their length fits. -/
theorem f16_in_step (host : Endian) {B : Nat} (hB : 1 ≤ B) (fresh : Nat → Nat → UInt8)
    (flag : Bool) (s : List UInt8) (v : BitVec 32) :
    InStep host ((new B fresh).setIsLittleEndian flag) s v ↔ s.length < 2 ^ 16 := by
  constructor
  · rintro ⟨b₁, b₂, b₃, b₄, b₅, _, _, _, hstring, _⟩
    exact readStringF16_length hstring
  · intro hlt
    have hfits : StringCode.f16.Fits s := ⟨Nat.le_of_lt (Nat.lt_trans hlt (by decide)), hlt⟩
    have hnone : ((new B fresh).setIsLittleEndian flag).contents =
        ⟨[], ([] : List UInt8).length⟩ := by
      simp [contents, new, setIsLittleEndian]
    obtain ⟨b₁, hwrite₁, hc₁, hcont₁, hend₁⟩ :=
      writeString_spec (new_compact hB fresh flag) hnone host .f16 s
    obtain ⟨b₂, hwrite₂, hc₂, hcont₂, hend₂⟩ :=
      hc₁.writeEnd hcont₁ (encoded b₁.endian ⟨.fuint32, v⟩)
    have hnumber : b₁.writeFuint32 host v = (.ok (), b₂) :=
      (writeValue_eq host ⟨.fuint32, v⟩).trans hwrite₂
    obtain ⟨b₃, hset, hwf₃, hcont₃, hend₃⟩ := setPosition_spec hc₂.wf (Nat.zero_le b₂.size)
    have hpos₃ : b₃.position = 0 := congrArg Flat.pos hcont₃
    have hahead₃ : Ahead b₃ (encodedString b₃.endian .f16 s ++
        encoded b₃.endian ⟨.fuint32, v⟩) := by
      refine ⟨hwf₃, ?_⟩
      rw [hpos₃, hcont₃, hcont₂, hend₃, hend₂, hend₁]
      simp
    obtain ⟨b₄, hlength, hahead₄, hend₄, hframe₄⟩ := readLength_ahead host hfits hahead₃
    have hlen₄ := hahead₄.length
    rcases readBody_ahead hahead₄ with ⟨rfl, hfull, _⟩ | ⟨b₅, hbody, hahead₅, hend₅, _⟩
    · -- the number behind the string is there
      have hcap := hahead₄.wf.size_le
      have hnum : (encoded b₃.endian ⟨.fuint32, v⟩).length = 4 := by
        cases b₃.endian <;> simp [encoded, memory, length_digits, Kind.width]
      rw [List.nil_append, hnum] at hlen₄
      omega
    · rw [hbody] at hlength
      have hlast : Ahead b₅ (encoded b₅.endian ⟨.fuint32, v⟩ ++ []) := by
        rw [hend₅, hend₄, List.append_nil]
        exact hahead₅
      obtain ⟨b₆, hread, _⟩ := readKind_ahead host hlast
      exact ⟨b₁, b₂, b₃, b₅, b₆, hwrite₁, hnumber, hset, hlength, hread⟩

open Hpgs.Network.ByteArray in
theorem f16_in_step_short :
    InStep .little ((new 4 fun _ _ => 0).setIsLittleEndian true) [0x68, 0x69] 7 :=
  (f16_in_step .little (by decide) _ true [0x68, 0x69] 7).mpr (by decide)

open Hpgs.Network.ByteArray in
/-- Of `65536` bytes none is read back. -/
theorem f16_out_of_step :
    ¬ ∀ (s : List UInt8) (v : BitVec 32), InStep .little (new 4096 fun _ _ => 0) s v := by
  intro hall
  obtain ⟨b₁, b₂, b₃, b₄, b₅, _, _, _, hstring, _⟩ := hall (List.replicate 65536 0) 7
  have hlt := readStringF16_length hstring
  rw [List.length_replicate] at hlt
  omega

end Network
end Hpgs
