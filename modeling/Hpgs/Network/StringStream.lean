import Hpgs.Network.NumberStream

/-!
# Strings in a `ByteArray`

A string is stored as its length, in one of four codes, and its bytes.  A `std::string`
has at most `2 ^ 63 - 1` bytes.

`read` looks at the current block before it looks at the number of bytes, so that the
body of an empty string cannot be read at the end of the last block.

**Results.**
* `writeString_eq`: the bytes that a string is stored as.
* `string_stream`: a list of strings is read back, exactly if it does not end with an
  empty string at the end of a block.
* `string_stream_fails`: an empty string that cannot be read back.
-/

namespace Hpgs
namespace Network

open Digits

/-- `std::string::max_size`. -/
def maxSize : Nat := 2 ^ 63 - 1

namespace ByteArray

/-- The body that the string writers share: after the length come the bytes. -/
def writeBody (head : Result Unit) (value : List UInt8) : Result Unit :=
  match head with
  | (.error e, b) => (.error e, b)
  | (.ok _, b) => b.write value

def writeStringF16 (host : Endian) (b : ByteArray) (value : List UInt8) : Result Unit :=
  writeBody (b.writeFuint16 host (BitVec.ofNat 16 value.length)) value

def writeStringF32 (host : Endian) (b : ByteArray) (value : List UInt8) : Result Unit :=
  writeBody (b.writeFuint32 host (BitVec.ofNat 32 value.length)) value

/-- The length is written as a signed number here. -/
def writeStringF64 (host : Endian) (b : ByteArray) (value : List UInt8) : Result Unit :=
  writeBody (b.writeFint64 host (BitVec.ofNat 64 value.length)) value

def writeStringVint (b : ByteArray) (value : List UInt8) : Result Unit :=
  writeBody (b.writeUint64 (BitVec.ofNat 64 value.length)) value

def writeStringWithoutLength (b : ByteArray) (value : List UInt8) : Result Unit :=
  b.write value

/-- The body that the string readers share: the buffer is resized and read into. -/
def readBody {w : Nat} (head : Result (BitVec w)) : Result (List UInt8) :=
  match head with
  | (.error e, b) => (.error e, b)
  | (.ok len, b) => if maxSize < len.toNat then (.error .lengthError, b) else b.read len.toNat

def readStringF16 (host : Endian) (b : ByteArray) : Result (List UInt8) :=
  readBody (b.readFuint16 host)

def readStringF32 (host : Endian) (b : ByteArray) : Result (List UInt8) :=
  readBody (b.readFuint32 host)

def readStringF64 (host : Endian) (b : ByteArray) : Result (List UInt8) :=
  readBody (b.readFuint64 host)

def readStringVint (b : ByteArray) : Result (List UInt8) :=
  readBody b.readUint64

end ByteArray

/-! ## Strings with their code -/

/-- The codes of the length. -/
inductive StringCode
  | f16 | f32 | f64 | vint
deriving DecidableEq, Repr

/-- Width of the length. -/
def StringCode.width : StringCode → Nat
  | .f16 => 16
  | .f32 => 32
  | .f64 | .vint => 64

/-- The string is a `std::string`, and its length is a number of the code. -/
def StringCode.Fits (c : StringCode) (value : List UInt8) : Prop :=
  value.length ≤ maxSize ∧ value.length < 2 ^ c.width

instance (c : StringCode) (value : List UInt8) : Decidable (c.Fits value) :=
  inferInstanceAs (Decidable (_ ∧ _))

namespace ByteArray

def writeString (host : Endian) (b : ByteArray) : StringCode → List UInt8 → Result Unit
  | .f16, value => b.writeStringF16 host value
  | .f32, value => b.writeStringF32 host value
  | .f64, value => b.writeStringF64 host value
  | .vint, value => b.writeStringVint value

/-- The read function that matches a code. -/
def readString (host : Endian) (b : ByteArray) : StringCode → Result (List UInt8)
  | .f16 => b.readStringF16 host
  | .f32 => b.readStringF32 host
  | .f64 => b.readStringF64 host
  | .vint => b.readStringVint

/-- Write strings one after the other. -/
def writeStrings (host : Endian) (b : ByteArray) :
    List (StringCode × List UInt8) → Result Unit
  | [] => (.ok (), b)
  | (c, value) :: items =>
      match b.writeString host c value with
      | (.error e, b') => (.error e, b')
      | (.ok _, b') => writeStrings host b' items

/-- Read strings of the given codes. -/
def readStrings (host : Endian) (b : ByteArray) : List StringCode → Result (List (List UInt8))
  | [] => (.ok [], b)
  | c :: codes =>
      match b.readString host c with
      | (.error e, b') => (.error e, b')
      | (.ok value, b') =>
          let r := readStrings host b' codes
          (r.1.map (value :: ·), r.2)

/-! ## What is stored -/

/-- The number that stands before a string of `n` bytes. -/
def lengthValue (n : Nat) : StringCode → Value
  | .f16 => ⟨.fuint16, BitVec.ofNat 16 n⟩
  | .f32 => ⟨.fuint32, BitVec.ofNat 32 n⟩
  | .f64 => ⟨.fuint64, BitVec.ofNat 64 n⟩
  | .vint => ⟨.uint64, BitVec.ofNat 64 n⟩

/-- The bytes that a string is stored as. -/
def encodedString (e : Endian) (c : StringCode) (value : List UInt8) : List UInt8 :=
  encoded e (lengthValue value.length c) ++ value

/-- The bytes that a list of strings is stored as. -/
def encodedStrings (e : Endian) : List (StringCode × List UInt8) → List UInt8
  | [] => []
  | (c, value) :: items => encodedString e c value ++ encodedStrings e items

section Strings

variable {b : ByteArray} {rest : List UInt8}

/-- Every string writer writes the length of its code and the bytes. -/
theorem writeString_eq (host : Endian) (c : StringCode) (value : List UInt8) :
    b.writeString host c value =
      writeBody (b.write (encoded b.endian (lengthValue value.length c))) value := by
  cases c with
  | f16 => exact congrArg (writeBody · value) (writeValue_eq host ⟨.fuint16, _⟩)
  | f32 => exact congrArg (writeBody · value) (writeValue_eq host ⟨.fuint32, _⟩)
  | f64 => exact congrArg (writeBody · value) (writeValue_eq host ⟨.fint64, _⟩)
  | vint => exact congrArg (writeBody · value) (writeValue_eq host ⟨.uint64, _⟩)

/-- Every string reader reads the length of its code and that many bytes. -/
theorem readString_eq (host : Endian) (c : StringCode) (n : Nat) :
    b.readString host c = readBody (b.readKind host (lengthValue n c).kind) := by
  cases c <;> rfl

/-- The object is well formed and has no block that it does not need. -/
structure Compact (B : Nat) (b : ByteArray) : Prop where
  wf : b.WellFormed
  tight : b.Tight
  base : b.baseSize = B

theorem Compact.write {B : Nat} (h : Compact B b) (buf : List UInt8) :
    ∃ b', b.write buf = (.ok (), b') ∧ Compact B b' ∧ b'.contents = b.contents.write buf ∧
      b'.endian = b.endian := by
  obtain ⟨b', hwrite, hwf, hcont, hendian⟩ := write_spec h.wf buf
  obtain ⟨htight, hbase⟩ := write_tight h.wf h.tight buf
  rw [hwrite] at htight hbase
  exact ⟨b', hwrite, ⟨hwf, htight, hbase.trans h.base⟩, hcont, hendian⟩

theorem Compact.writeEnd {B : Nat} (h : Compact B b) {data : List UInt8}
    (hend : b.contents = ⟨data, data.length⟩) (buf : List UInt8) :
    ∃ b', b.write buf = (.ok (), b') ∧ Compact B b' ∧
      b'.contents = ⟨data ++ buf, (data ++ buf).length⟩ ∧ b'.endian = b.endian := by
  obtain ⟨b', hwrite, hcompact, hcont, hendian⟩ := h.write buf
  rw [hend, flat_write_end] at hcont
  exact ⟨b', hwrite, hcompact, hcont, hendian⟩

theorem writeString_spec {B : Nat} (h : Compact B b) {data : List UInt8}
    (hend : b.contents = ⟨data, data.length⟩) (host : Endian) (c : StringCode)
    (value : List UInt8) :
    ∃ b', b.writeString host c value = (.ok (), b') ∧ Compact B b' ∧
      b'.contents = ⟨data ++ encodedString b.endian c value,
        (data ++ encodedString b.endian c value).length⟩ ∧
      b'.endian = b.endian := by
  obtain ⟨b₁, hhead, hc₁, hcont₁, hend₁⟩ :=
    h.writeEnd hend (encoded b.endian (lengthValue value.length c))
  obtain ⟨b₂, hbody, hc₂, hcont₂, hend₂⟩ := hc₁.writeEnd hcont₁ value
  refine ⟨b₂, ?_, hc₂, ?_, hend₂.trans hend₁⟩
  · rw [writeString_eq, hhead]
    exact hbody
  · rw [hcont₂, encodedString, List.append_assoc]

theorem writeStrings_spec {B : Nat} (h : Compact B b) {data : List UInt8}
    (hend : b.contents = ⟨data, data.length⟩) (host : Endian)
    (items : List (StringCode × List UInt8)) :
    ∃ b', b.writeStrings host items = (.ok (), b') ∧ Compact B b' ∧
      b'.contents = ⟨data ++ encodedStrings b.endian items,
        (data ++ encodedStrings b.endian items).length⟩ ∧
      b'.endian = b.endian := by
  induction items generalizing b data with
  | nil => exact ⟨b, rfl, h, by simpa [encodedStrings] using hend, rfl⟩
  | cons item items ih =>
      obtain ⟨c, value⟩ := item
      obtain ⟨b₁, hwrite, hc₁, hcont₁, hend₁⟩ := writeString_spec h hend host c value
      obtain ⟨b₂, hrest, hc₂, hcont₂, hend₂⟩ := ih hc₁ hcont₁
      refine ⟨b₂, ?_, hc₂, ?_, hend₂.trans hend₁⟩
      · rw [writeStrings, hwrite]
        exact hrest
      · rw [hcont₂, hend₁, List.append_assoc]
        rfl

/-! ## Reading back -/

/-- Reading moves the position and the cursor only. -/
structure Frame (b b' : ByteArray) : Prop where
  size : b'.size = b.size
  capacity : b'.capacity = b.capacity
  base : b'.baseSize = b.baseSize

theorem Frame.refl (b : ByteArray) : Frame b b := ⟨rfl, rfl, rfl⟩

theorem Frame.trans {b b' b'' : ByteArray} (h : Frame b b') (h' : Frame b' b'') : Frame b b'' :=
  ⟨h'.size.trans h.size, h'.capacity.trans h.capacity, h'.base.trans h.base⟩

theorem read_frame (b : ByteArray) (size : Nat) : Frame b (b.read size).2 := by
  unfold read
  split
  · exact .refl b
  · split
    · exact .refl b
    · split
      · exact .refl b
      · exact ⟨rfl, rfl, rfl⟩

theorem readVarint_frame {w : Nat} (shifts : List Nat) (result : BitVec w) (b : ByteArray) :
    Frame b (readVarint w shifts result b).2 :=
  readVarint_keeps (fun b' size h => h.trans (read_frame b' size)) shifts result (.refl b)

theorem readKind_frame (host : Endian) (b : ByteArray) (k : Kind) :
    Frame b (b.readKind host k).2 :=
  readKind_keeps (fun b' size h => h.trans (read_frame b' size)) host (.refl b) k

theorem setPosition_frame {v : Nat} (hv : v ≤ b.size) : Frame b (b.setPosition v).2 := by
  unfold setPosition
  split
  · exact .refl b
  · simp only [if_neg (by omega : ¬ v > b.size)]
    split <;> exact ⟨rfl, rfl, rfl⟩

theorem encoded_pos (e : Endian) (n : Nat) (c : StringCode) :
    1 ≤ (encoded e (lengthValue n c)).length := by
  have hmem : ∀ {w : Nat} (v : BitVec w), (memory e v).length = w / 8 := by
    intro w v
    cases e <;> simp [memory, length_digits]
  cases c with
  | f16 => exact (hmem (BitVec.ofNat 16 n)).ge.trans' (by decide)
  | f32 => exact (hmem (BitVec.ofNat 32 n)).ge.trans' (by decide)
  | f64 => exact (hmem (BitVec.ofNat 64 n)).ge.trans' (by decide)
  | vint =>
      obtain ⟨bs, hbs, hpos⟩ := varint_isSome (n := 9) (v := BitVec.ofNat 64 n)
        (Nat.lt_of_lt_of_le (BitVec.isLt _) (by decide))
      have hten : varint 10 (BitVec.ofNat 64 n) = some bs := hbs
      have henc : encoded e (lengthValue n .vint) = (varint 10 (BitVec.ofNat 64 n)).getD [] := rfl
      rw [henc, hten]
      exact hpos

/-- The length is read back; what is left is to read the body. -/
theorem readLength_ahead (host : Endian) {c : StringCode} {value : List UInt8}
    (hfits : c.Fits value) (h : Ahead b (encodedString b.endian c value ++ rest)) :
    ∃ b₁, b.readString host c = b₁.read value.length ∧ Ahead b₁ (value ++ rest) ∧
      b₁.endian = b.endian ∧ Frame b b₁ := by
  rw [encodedString, List.append_assoc] at h
  obtain ⟨b₁, hread, hahead, hend⟩ := readKind_ahead host h
  have hframe := readKind_frame host b (lengthValue value.length c).kind
  rw [hread] at hframe
  refine ⟨b₁, ?_, hahead, hend, hframe⟩
  have hlen : (lengthValue value.length c).bits.toNat = value.length := by
    have hlt := hfits.2
    cases c with
    | f16 => exact (BitVec.toNat_ofNat _ _).trans (Nat.mod_eq_of_lt hlt)
    | f32 => exact (BitVec.toNat_ofNat _ _).trans (Nat.mod_eq_of_lt hlt)
    | f64 => exact (BitVec.toNat_ofNat _ _).trans (Nat.mod_eq_of_lt hlt)
    | vint => exact (BitVec.toNat_ofNat _ _).trans (Nat.mod_eq_of_lt hlt)
  rw [readString_eq host c value.length, hread, readBody, hlen, if_neg (by
    have := hfits.1
    omega)]

theorem Ahead.length (h : Ahead b rest) : b.position + rest.length = b.size := by
  have hlen := congrArg List.length h.data
  have hle := h.wf.position_le
  rw [List.length_drop, h.wf.contents_length] at hlen
  omega

/-- The list ends with an empty string. -/
def EndsEmpty (items : List (StringCode × List UInt8)) : Prop :=
  items.getLast?.map Prod.snd = some []

/-- The body of a string is read, unless it is empty and its place is at the end of the
last block. -/
theorem readBody_ahead {value : List UInt8} (h : Ahead b (value ++ rest)) :
    (value = [] ∧ b.position = b.capacity ∧ b.read value.length = (.error .nullDeref, b)) ∨
      ∃ b', b.read value.length = (.ok value, b') ∧ Ahead b' rest ∧ b'.endian = b.endian ∧
        ¬ (value = [] ∧ b.position = b.capacity) := by
  by_cases hnil : value = []
  · subst hnil
    have hzero := read_zero h.wf
    by_cases hend : b.position = b.capacity
    · rw [if_pos hend] at hzero
      exact Or.inl ⟨rfl, hend, hzero⟩
    · rw [if_neg hend] at hzero
      exact Or.inr ⟨b, hzero, h, rfl, fun hboth => hend hboth.2⟩
  · obtain ⟨b', hread, hahead, hendian⟩ := read_ahead h (List.length_pos_iff.mpr hnil)
    exact Or.inr ⟨b', hread, hahead, hendian, fun hboth => hnil hboth.1⟩

theorem encodedStrings_pos (e : Endian) {items : List (StringCode × List UInt8)}
    (hne : items ≠ []) :
    1 ≤ (encodedStrings e items).length := by
  cases items with
  | nil => exact absurd rfl hne
  | cons item items =>
      obtain ⟨c, value⟩ := item
      have hpos := encoded_pos e value.length c
      simp only [encodedStrings, encodedString, List.length_append]
      omega

/-- **Reading a list of strings.**  All are read, unless the last one is empty and the
blocks are full. -/
theorem readStrings_ahead (host : Endian) (items : List (StringCode × List UInt8))
    (hfits : ∀ item ∈ items, item.1.Fits item.2)
    (h : Ahead b (encodedStrings b.endian items)) :
    (EndsEmpty items ∧ b.size = b.capacity ∧
        (b.readStrings host (items.map Prod.fst)).1 = .error .nullDeref) ∨
      ∃ b', b.readStrings host (items.map Prod.fst) = (.ok (items.map Prod.snd), b') ∧
        b'.getReadSize = 0 ∧ ¬ (EndsEmpty items ∧ b.size = b.capacity) := by
  induction items generalizing b with
  | nil =>
      refine Or.inr ⟨b, rfl, ?_, fun hboth => nomatch hboth.1⟩
      have hlen := h.length
      rw [h.wf.getReadSize]
      simp only [encodedStrings, List.length_nil] at hlen
      omega
  | cons item items ih =>
      obtain ⟨c, value⟩ := item
      obtain ⟨b₁, hstring, hahead₁, hend₁, hframe₁⟩ :=
        readLength_ahead host (hfits _ List.mem_cons_self) h
      have hlen₁ := hahead₁.length
      rw [List.length_append] at hlen₁
      have hframe₂ := hframe₁.trans (read_frame b₁ value.length)
      -- the end of the last block is reached with the last string only
      have hlast : value = [] → (b₁.position = b₁.capacity ↔ items = [] ∧ b.size = b.capacity) := by
        rintro rfl
        have hcap := hahead₁.wf.size_le
        rw [← hframe₁.size, ← hframe₁.capacity]
        constructor
        · intro hfull
          have hnil : items = [] := by
            by_contra hne
            have hpos := encodedStrings_pos b.endian hne
            simp only [List.length_nil] at hlen₁
            omega
          subst hnil
          simp only [List.length_nil] at hlen₁
          exact ⟨rfl, by omega⟩
        · rintro ⟨rfl, hfull⟩
          simp only [encodedStrings, List.length_nil] at hlen₁
          omega
      rcases readBody_ahead hahead₁ with ⟨rfl, hfull, hread⟩ | ⟨b₂, hread, hahead₂, hend₂, hok⟩
      · obtain ⟨rfl, hsize⟩ := (hlast rfl).mp hfull
        refine Or.inl ⟨rfl, hsize, ?_⟩
        simp only [List.map_cons, readStrings, hstring, hread]
      · rw [hread] at hframe₂
        have hahead : Ahead b₂ (encodedStrings b₂.endian items) := by
          rw [hend₂, hend₁]
          exact hahead₂
        rcases ih (fun x hx => hfits x (List.mem_cons_of_mem _ hx)) hahead with
          ⟨hends, hsize, hfail⟩ | ⟨b', hrest, hdone, hno⟩
        · refine Or.inl ⟨?_, ?_, ?_⟩
          · cases items with
            | nil => cases hends
            | cons item' items => exact hends
          · rw [← hframe₂.size, ← hframe₂.capacity]
            exact hsize
          · simp only [List.map_cons, readStrings, hstring, hread, hfail]
            rfl
        · refine Or.inr ⟨b', ?_, hdone, ?_⟩
          · simp only [List.map_cons, readStrings, hstring, hread, hrest]
            rfl
          · rintro ⟨hends, hsize⟩
            cases items with
            | nil =>
                have hnil : value = [] := Option.some.inj hends
                exact hok ⟨hnil, (hlast hnil).mpr ⟨rfl, hsize⟩⟩
            | cons item' items =>
                refine hno ⟨hends, ?_⟩
                rw [hframe₂.size, hframe₂.capacity]
                exact hsize

/-- The blocks are full exactly if the bytes fill whole blocks. -/
theorem Compact.full_iff {B : Nat} (h : Compact B b) (hpos : 0 < b.size) :
    b.size = b.capacity ↔ B ∣ b.size := by
  have hcap := h.wf.capacity
  have hle := h.wf.size_le
  have htight := h.tight
  rw [h.base] at hcap
  rw [Tight, h.base] at htight
  constructor
  · intro hfull
    exact ⟨b.nodes.length, hfull.trans hcap⟩
  · intro hdvd
    rcases htight with hone | hlast
    · have hfirst := Nat.le_of_dvd hpos hdvd
      omega
    · have hrest : B ∣ b.capacity - b.size :=
        Nat.dvd_sub ⟨b.nodes.length, hcap⟩ hdvd
      have hzero := Nat.eq_zero_of_dvd_of_lt hrest (by omega)
      omega

theorem new_compact {B : Nat} (hB : 1 ≤ B) (fresh : Nat → Nat → UInt8) (flag : Bool) :
    Compact B ((new B fresh).setIsLittleEndian flag) where
  wf := setIsLittleEndian_wellFormed (new_wellFormed hB fresh) flag
  tight := Or.inl rfl
  base := rfl

end Strings

end ByteArray

open Hpgs.Network.ByteArray in
/-- **Streams of strings.**  Strings that are written to an empty `ByteArray`, each with
its length in one of the codes, are read back and nothing is left to read, exactly if
the last of them is not empty or the bytes do not fill whole blocks. -/
theorem string_stream (host : Endian) {B : Nat} (hB : 1 ≤ B) (fresh : Nat → Nat → UInt8)
    (flag : Bool) (items : List (StringCode × List UInt8))
    (hfits : ∀ item ∈ items, item.1.Fits item.2) :
    ∃ b b₀, ((new B fresh).setIsLittleEndian flag).writeStrings host items = (.ok (), b) ∧
      b.setPosition 0 = (.ok (), b₀) ∧
      ((∃ b', b₀.readStrings host (items.map Prod.fst) = (.ok (items.map Prod.snd), b') ∧
          b'.getReadSize = 0) ↔
        ¬ (EndsEmpty items ∧ B ∣ (encodedStrings (flagEndian flag) items).length)) := by
  have hnone : ((new B fresh).setIsLittleEndian flag).contents =
      ⟨[], ([] : List UInt8).length⟩ := by
    simp [contents, new, setIsLittleEndian]
  obtain ⟨b, hwrite, hcompact, hcont, hend⟩ :=
    writeStrings_spec (new_compact hB fresh flag) hnone host items
  obtain ⟨b₀, hset, hwf₀, hcont₀, hend₀⟩ := setPosition_spec hcompact.wf (Nat.zero_le b.size)
  have hframe := setPosition_frame (b := b) (Nat.zero_le b.size)
  rw [hset] at hframe
  have hsize : b.size = (encodedStrings (flagEndian flag) items).length := by
    rw [← hcompact.wf.contents_length, hcont]
    rfl
  have hahead : Ahead b₀ (encodedStrings b₀.endian items) := by
    have hpos : b₀.position = 0 := congrArg Flat.pos hcont₀
    refine ⟨hwf₀, ?_⟩
    rw [hpos, hcont₀, hcont, hend₀, hend]
    rfl
  have hfull : EndsEmpty items →
      (b₀.size = b₀.capacity ↔ B ∣ (encodedStrings (flagEndian flag) items).length) := by
    intro hends
    have hne : items ≠ [] := by
      rintro rfl
      cases hends
    have hpos := encodedStrings_pos (flagEndian flag) hne
    rw [hframe.size, hframe.capacity, ← hsize]
    exact hcompact.full_iff (by omega)
  refine ⟨b, b₀, hwrite, hset, ?_⟩
  rcases readStrings_ahead host items hfits hahead with
    ⟨hends, hsize₀, hfail⟩ | ⟨b', hread, hdone, hno⟩
  · constructor
    · rintro ⟨b', hread, _⟩
      rw [hread] at hfail
      cases hfail
    · exact fun hno => absurd ⟨hends, (hfull hends).mp hsize₀⟩ hno
  · exact ⟨fun _ hboth => hno ⟨hboth.1, (hfull hboth.1).mpr hboth.2⟩,
      fun _ => ⟨b', hread, hdone⟩⟩

/-- Strings of all codes over blocks of four bytes, with an empty one between them. -/
def mixedStrings : List (StringCode × List UInt8) :=
  [(.f32, [1, 2, 3]), (.vint, []), (.f64, [4]), (.f16, [5, 6])]

open Hpgs.Network.ByteArray in
theorem string_stream_mixed :
    ∃ b b₀, ((new 4 fun _ _ => 0).setIsLittleEndian true).writeStrings .little mixedStrings =
        (.ok (), b) ∧
      b.setPosition 0 = (.ok (), b₀) ∧
      ((∃ b', b₀.readStrings .little (mixedStrings.map Prod.fst) =
            (.ok (mixedStrings.map Prod.snd), b') ∧ b'.getReadSize = 0) ↔
        ¬ (EndsEmpty mixedStrings ∧
          4 ∣ (encodedStrings (flagEndian true) mixedStrings).length)) :=
  string_stream .little (by decide) _ true mixedStrings (by decide)

/-- An empty string whose length fills the only block. -/
def emptyString : List (StringCode × List UInt8) := [(.f32, [])]

open Hpgs.Network.ByteArray in
/-- Reading it back dereferences a null block. -/
theorem string_stream_fails :
    ¬ ∀ (host : Endian) (B : Nat) (fresh : Nat → Nat → UInt8) (flag : Bool)
      (items : List (StringCode × List UInt8)),
      1 ≤ B → (∀ item ∈ items, item.1.Fits item.2) →
      ∃ b b₀ b', ((new B fresh).setIsLittleEndian flag).writeStrings host items = (.ok (), b) ∧
        b.setPosition 0 = (.ok (), b₀) ∧
        b₀.readStrings host (items.map Prod.fst) = (.ok (items.map Prod.snd), b') ∧
        b'.getReadSize = 0 := by
  intro hall
  obtain ⟨b, b₀, b', hwrite, hset, hread, _⟩ :=
    hall .little 4 (fun _ _ => 0) false emptyString (by decide) (by decide)
  obtain rfl := congrArg Prod.snd hwrite
  obtain rfl := congrArg Prod.snd hset
  have hnull : (_ : Except Fault (List (List UInt8))) = .error .nullDeref :=
    (congrArg Prod.fst hread).symm.trans rfl
  cases hnull

end Network
end Hpgs
