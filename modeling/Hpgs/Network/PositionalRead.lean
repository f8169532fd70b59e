import Hpgs.Network.ByteArrayRuns

/-!
# Reading at a given position

`read(buf, size, position)` takes its bytes from the blocks on from `m_cur`, the block
of `m_position`, at the offset that `position` has in its own block.  The test of the
length subtracts `position` from `m_size` in `size_t`.

**Results.**
* `readLoop_none`: a walk that needs more bytes than there are meets the null block.
* `startAt_eq_iff`: a walk starts at `position` exactly if that lies in the block of
  `m_position`.
* `readAt_elsewhere`: otherwise one of the stored bytes can be overwritten so that the walk
  gives a wrong one.
* `readAt_exact_iff`: the call returns the bytes at `position`, or throws, whatever they are,
  iff the walk starts there and the subtraction does not underflow.
-/

namespace Hpgs
namespace Network

open Transition Blocks

namespace ByteArray

/-- A walk past the last block. -/
theorem readLoop_none {B : Nat} {nodes : List (List UInt8)} (hu : Uniform B nodes)
    {npos size : Nat} (hone : 1 ≤ size) (hnpos : npos < B)
    (hfit : nodes.flatten.length < npos + size) : readLoop nodes npos size = none := by
  induction nodes generalizing npos size with
  | nil =>
      cases size with
      | zero => omega
      | succ n => rfl
  | cons node rest ih =>
      have hnode : node.length = B := hu node List.mem_cons_self
      have hrest : Uniform B rest := fun b hb => hu b (List.mem_cons_of_mem _ hb)
      simp only [List.flatten_cons, List.length_append] at hfit
      cases size with
      | zero => omega
      | succ n =>
          have hgt : ¬ n + 1 ≤ node.length - npos := by omega
          simp only [readLoop]
          rw [if_neg hgt, ih hrest (by omega) (by omega) (by omega)]
          rfl

/-- The `size` bytes of the blocks from byte number `p` on. -/
def bytesAt (b : ByteArray) (p size : Nat) : List UInt8 :=
  (b.nodes.flatten.drop p).take size

/-- The byte at which `read(buf, size, position)` starts: the offset of `position` in its
own block, but in the block of `m_position`. -/
def startAt (b : ByteArray) (position : Nat) : Nat :=
  b.baseSize * (b.position / b.baseSize) + position % b.baseSize

/-- The positional read that the call should be: the stored bytes from `position` on, or
the exception when they are not all there. -/
def seekAndRead (b : ByteArray) (size position : Nat) : Except Fault (List UInt8) :=
  if position + size ≤ b.size then .ok ((b.contents.data.drop position).take size)
  else .error .outOfRange

/-- The position lies in the block of `m_position`, if the bytes are all there; behind
`m_size`, the length passes even what the difference underflows to. -/
def SeesPosition (b : ByteArray) (size position : Nat) : Prop :=
  if position ≤ b.size then
    position + size ≤ b.size → position / b.baseSize = b.position / b.baseSize
  else b.size + 2 ^ 64 < position + size

/-- All but the bytes in the blocks is the same. -/
structure SameLayout (b b' : ByteArray) : Prop where
  baseSize : b'.baseSize = b.baseSize
  position : b'.position = b.position
  capacity : b'.capacity = b.capacity
  size : b'.size = b.size

theorem SameLayout.seesPosition {b b' : ByteArray} (h : b.SameLayout b') (size position : Nat) :
    b'.SeesPosition size position ↔ b.SeesPosition size position := by
  rw [SeesPosition, SeesPosition, h.baseSize, h.position, h.size]

section Reads

variable {b : ByteArray} {size position : Nat}

/-- The call starts where it should exactly in the block of `m_position`. -/
theorem startAt_eq_iff (hB : 1 ≤ b.baseSize) :
    b.startAt position = position ↔ position / b.baseSize = b.position / b.baseSize := by
  have hdiv := Nat.div_add_mod position b.baseSize
  constructor
  · intro heq
    refine Nat.eq_of_mul_eq_mul_left (by omega : 0 < b.baseSize) ?_
    rw [startAt] at heq
    omega
  · intro hblock
    rw [startAt, ← hblock, hdiv]

theorem seekAndRead_of_le (hle : position + size ≤ b.size) :
    b.seekAndRead size position = .ok (b.bytesAt position size) := by
  have hmin : min size (b.size - position) = size := by omega
  rw [seekAndRead, if_pos hle, contents, bytesAt, List.drop_take, List.take_take, hmin]

theorem seekAndRead_of_gt (hgt : b.size < position + size) :
    b.seekAndRead size position = .error .outOfRange :=
  if_neg (Nat.not_le.mpr hgt)

theorem readAt_outOfRange (hgt : size > subSize b.size position) :
    b.readAt size position = .error .outOfRange :=
  if_pos hgt

/-- Where the test of the length passes, the call reads from its start on, or meets the
null block. -/
theorem readAt_of_le (h : b.WellFormed) (hone : 1 ≤ size)
    (hle : size ≤ subSize b.size position) :
    b.readAt size position =
      if b.startAt position + size ≤ b.capacity then .ok (b.bytesAt (b.startAt position) size)
      else .error .nullDeref := by
  have hmod : position % b.baseSize < b.baseSize := Nat.mod_lt _ h.base
  have hblock := Nat.mul_div_le b.position b.baseSize
  have hcap := Nat.le_trans h.position_le h.size_le
  have hlen : (b.nodes.drop (b.position / b.baseSize)).flatten.length =
      b.capacity - b.baseSize * (b.position / b.baseSize) := by
    rw [h.behind, List.length_drop, h.flatten_length]
  unfold readAt
  rw [if_neg (Nat.not_lt.mpr hle), h.cur_at]
  by_cases hend : b.position = b.capacity
  · -- the cursor is null, and the block of the position would start at the capacity
    have hstart : b.baseSize * (b.position / b.baseSize) = b.capacity := by
      rw [hend, h.capacity, Nat.mul_div_cancel_left _ h.base]
    have hgt : ¬ b.startAt position + size ≤ b.capacity := by
      unfold startAt
      omega
    rw [if_pos hend, if_neg hgt]
  · rw [if_neg hend]
    by_cases hfit : b.startAt position + size ≤ b.capacity
    · have hroom : position % b.baseSize + size ≤
          (b.nodes.drop (b.position / b.baseSize)).flatten.length := by
        unfold startAt at hfit
        omega
      rw [if_pos hfit]
      simp only [readLoop_spec h.base (h.uniform.drop _) size hmod hroom]
      rw [bytesAt, startAt, h.behind, List.drop_drop]
    · have hshort : (b.nodes.drop (b.position / b.baseSize)).flatten.length <
          position % b.baseSize + size := by
        unfold startAt at hfit
        omega
      rw [if_neg hfit]
      simp only [readLoop_none (h.uniform.drop _) hone hmod hshort]

/-- Bytes that are all there. -/
theorem bytesAt_length (h : b.WellFormed) (hle : position + size ≤ b.capacity) :
    (b.bytesAt position size).length = size := by
  rw [bytesAt, List.length_take, List.length_drop, h.flatten_length]
  omega

/-- The call within `m_size`. -/
theorem readAt_within (h : b.WellFormed) (hone : 1 ≤ size) (hle : position + size ≤ b.size) :
    b.readAt size position = b.seekAndRead size position ↔
      b.bytesAt (b.startAt position) size = b.bytesAt position size := by
  have hsize := h.size_le
  have hroom : size ≤ subSize b.size position := by
    rw [subSize_of_le (by omega)]
    omega
  rw [readAt_of_le h hone hroom, seekAndRead_of_le hle]
  by_cases hfit : b.startAt position + size ≤ b.capacity
  · rw [if_pos hfit]
    simp
  · rw [if_neg hfit]
    constructor
    · intro hc
      cases hc
    · -- the bytes from the start on end before `size` bytes
      intro hsame
      have hall : (b.bytesAt position size).length = size := bytesAt_length h (by omega)
      rw [← hsame, bytesAt, List.length_take, List.length_drop, h.flatten_length] at hall
      omega

/-- The call behind `m_size`. -/
theorem readAt_behind (h : b.WellFormed) (hone : 1 ≤ size) (hgt : b.size < position) :
    b.readAt size position = b.seekAndRead size position ↔
      size > subSize b.size position := by
  rw [seekAndRead_of_gt (by omega)]
  constructor
  · intro heq
    by_contra hle
    rw [readAt_of_le h hone (Nat.not_lt.mp hle)] at heq
    split at heq <;> cases heq
  · exact readAt_outOfRange

/-- The first of the bytes. -/
theorem bytesAt_zero (b : ByteArray) (p : Nat) (hone : 1 ≤ size) :
    (b.bytesAt p size)[0]? = b.nodes.flatten[p]? := by
  rw [bytesAt, List.getElem?_take_of_lt (by omega), List.getElem?_drop, Nat.add_zero]

end Reads

/-! ## Other bytes in the same blocks -/

section Overwriting

variable {b : ByteArray} {position : Nat}

/-- One of the stored bytes is overwritten. -/
theorem write_one (h : b.WellFormed) (hlt : b.position < b.size) (x : UInt8) :
    ∃ b', b.write [x] = (.ok (), b') ∧ b'.WellFormed ∧ b'.baseSize = b.baseSize ∧
      b'.capacity = b.capacity ∧ b'.size = b.size ∧
      b'.nodes.flatten = b.nodes.flatten.set b.position x := by
  have hsize := h.size_le
  have hroom : b.addCapacity [x].length = b := by
    refine if_pos (Or.inr ?_)
    rw [h.getCapacity, List.length_singleton]
    omega
  have hfits : b.position + [x].length ≤ b.capacity := by
    rw [List.length_singleton]
    omega
  obtain ⟨nodes, k, hloop, _, _, _, hflat⟩ := h.writeLoop (by omega) hfits
  obtain ⟨b', hwrite, hwf, _⟩ := write_spec h [x]
  refine ⟨b', hwrite, hwf, ?_⟩
  rw [write, if_neg (by simp), hroom] at hwrite
  simp only [h.cur_eq (by omega : b.position < b.capacity), hloop] at hwrite
  obtain ⟨_, rfl⟩ := Prod.mk.inj hwrite
  refine ⟨rfl, rfl, ?_, ?_⟩
  · simp only [List.length_singleton]
    rw [if_neg (by omega)]
  · rw [hflat, splice_singleton (by rw [h.flatten_length]; omega)]

/-- Any stored byte can be another one in a reachable state. -/
theorem overwritten_reachable {host : Endian} {B : Nat} {fresh : Nat → Nat → UInt8}
    (hb : (calls host B fresh).Reachable anyStep b) (h : b.WellFormed)
    (hlt : position < b.size) (x : UInt8) :
    ∃ b', (calls host B fresh).Reachable anyStep b' ∧ b.SameLayout b' ∧
      b'.nodes.flatten = b.nodes.flatten.set position x := by
  have hsize := h.size_le
  have hposn := h.position_le
  obtain ⟨b₁, hset₁, hwf₁, hposn₁, hsize₁, hcap₁, hbase₁, hnodes₁, _⟩ :=
    setPosition_within h (by omega : position ≤ b.capacity)
  rw [Nat.max_eq_left (by omega)] at hsize₁
  obtain ⟨b₂, hwrite, hwf₂, hbase₂, hcap₂, hsize₂, hflat₂⟩ := write_one hwf₁ (by omega) x
  obtain ⟨b₃, hset₃, hwf₃, hposn₃, hsize₃, hcap₃, hbase₃, hnodes₃, _⟩ :=
    setPosition_within hwf₂ (by omega : b.position ≤ b₂.capacity)
  rw [Nat.max_eq_left (by omega)] at hsize₃
  have hrun : (calls host B fresh).exec b
      [.setPosition position, .write [x], .setPosition b.position] = some b₃ := by
    simp only [System.exec, calls, perform, hset₁, hwrite, hset₃, Option.bind_some]
  refine ⟨b₃, hb.reaches (System.exec_reaches hrun), ?_, ?_⟩
  · exact {
      baseSize := by rw [hbase₃, hbase₂, hbase₁]
      position := hposn₃
      capacity := by rw [hcap₃, hcap₂, hcap₁]
      size := by rw [hsize₃, hsize₂, hsize₁] }
  · rw [hnodes₃, hflat₂, hnodes₁, hposn₁]

/-- Where the call starts elsewhere, it is wrong for some bytes. -/
theorem readAt_elsewhere {host : Endian} {B : Nat} {fresh : Nat → Nat → UInt8} {size : Nat}
    (hb : (calls host B fresh).Reachable anyStep b) (h : b.WellFormed) (hone : 1 ≤ size)
    (hin : position + size ≤ b.size) (hne : b.startAt position ≠ position) :
    ∃ b', (calls host B fresh).Reachable anyStep b' ∧ b.SameLayout b' ∧
      b'.bytesAt (b'.startAt position) size ≠ b'.bytesAt position size := by
  have hsize := h.size_le
  -- the byte at `position` becomes another one than the byte that is read
  obtain ⟨x, hx⟩ : ∃ x, b.nodes.flatten[b.startAt position]? ≠ some x := by
    rcases b.nodes.flatten[b.startAt position]? with _ | y
    · exact ⟨0, by simp⟩
    · exact ⟨y + 1, fun heq => by simpa using Option.some.inj heq⟩
  obtain ⟨b', hb', hsame, hflat⟩ := overwritten_reachable hb h (by omega : position < b.size) x
  have hstart : b'.startAt position = b.startAt position := by
    rw [startAt, startAt, hsame.baseSize, hsame.position]
  refine ⟨b', hb', hsame, fun heq => hx ?_⟩
  have hfirst := congrArg (fun l => l[0]?) heq
  simp only [bytesAt_zero _ _ hone, hstart, hflat] at hfirst
  rw [List.getElem?_set_ne (Ne.symm hne),
    List.getElem?_set_self (by rw [h.flatten_length]; omega)] at hfirst
  exact hfirst

end Overwriting

end ByteArray

namespace ByteArray

/-- The call is right where it starts in the block of the position. -/
theorem readAt_exact {b : ByteArray} (h : b.WellFormed) {size position : Nat} (hone : 1 ≤ size)
    (hsees : b.SeesPosition size position) :
    b.readAt size position = b.seekAndRead size position := by
  unfold SeesPosition at hsees
  by_cases hle : position ≤ b.size
  · rw [if_pos hle] at hsees
    by_cases hin : position + size ≤ b.size
    · rw [readAt_within h hone hin, (startAt_eq_iff h.base).mpr (hsees hin)]
    · have hgt : size > subSize b.size position := by
        rw [subSize_of_le hle]
        omega
      rw [readAt_outOfRange hgt, seekAndRead_of_gt (by omega)]
  · have hsub : subSize b.size position = b.size + 2 ^ 64 - position := if_neg hle
    rw [if_neg hle] at hsees
    rw [readAt_behind h hone (by omega), hsub]
    omega

end ByteArray

open Hpgs.Network.ByteArray in
/-- **Positional reads.**  For every reachable state, every size of at least one byte and
every position: whatever bytes are in the blocks, `read(buf, size, position)` gives the stored
bytes from `position` on, or throws `std::out_of_range` when they are not all stored, iff
`position` lies in the block of `m_position` where they are all stored, and a position behind
`m_size` comes with a size at which the underflow does not matter.  The object is not
changed. -/
theorem readAt_exact_iff (host : Endian) {B : Nat} (hB : 1 ≤ B)
    (fresh : Nat → Nat → UInt8) {b : ByteArray}
    (h : (calls host B fresh).Reachable anyStep b) (size position : Nat) (hone : 1 ≤ size) :
    (∀ b', (calls host B fresh).Reachable anyStep b' → b.SameLayout b' →
        b'.readAt size position = b'.seekAndRead size position ∧
          (b'.perform host (.readAt size position)).2 = b') ↔
      b.SeesPosition size position := by
  have hwf := (reachable_compact hB h).wf
  constructor
  · intro hall
    have hb := (hall b h ⟨rfl, rfl, rfl, rfl⟩).1
    unfold SeesPosition
    by_cases hle : position ≤ b.size
    · rw [if_pos hle]
      intro hin
      by_contra hblock
      obtain ⟨b', hb', hsame, hwrong⟩ := readAt_elsewhere h hwf hone hin
        fun heq => hblock ((startAt_eq_iff hwf.base).mp heq)
      refine hwrong ((readAt_within (reachable_compact hB hb').wf hone ?_).mp
        (hall b' hb' hsame).1)
      rw [hsame.size]
      exact hin
    · have hsub : subSize b.size position = b.size + 2 ^ 64 - position := if_neg hle
      rw [readAt_behind hwf hone (by omega), hsub] at hb
      rw [if_neg hle]
      omega
  · intro hsees b' hb' hsame
    exact ⟨readAt_exact (reachable_compact hB hb').wf hone
      ((hsame.seesPosition size position).mpr hsees), rfl⟩

/-- Four bytes in blocks of two, with the cursor back at the first. -/
def fourBytes : List PublicOp :=
  [.write [1, 2, 3, 4], .setPosition 0]

open Hpgs.Network.ByteArray in
theorem fourBytes_reachable :
    ∃ b, (calls .little 2 fun _ _ => 0).Reachable anyStep b ∧ b.nodes = [[1, 2], [3, 4]] ∧
      b.position = 0 ∧ b.size = 4 ∧ b.baseSize = 2 ∧ b.cur = some 0 := by
  have hrun : ((calls .little 2 fun _ _ => 0).exec (new 2 fun _ _ => 0) fourBytes).map
      (fun b => (b.nodes, b.position, b.size, b.baseSize, b.cur)) =
      some ([[1, 2], [3, 4]], 0, 4, 2, some 0) := rfl
  obtain ⟨b, hb, hfields⟩ := Option.map_eq_some_iff.mp hrun
  simp only [Prod.mk.injEq] at hfields
  obtain ⟨hnodes, hposn, hsize, hbase, hcur⟩ := hfields
  exact ⟨b, System.exec_reachable rfl hb, hnodes, hposn, hsize, hbase, hcur⟩

open Hpgs.Network.ByteArray in
theorem readAt_exact_fourBytes :
    ∃ b, (calls .little 2 fun _ _ => 0).Reachable anyStep b ∧
      ∀ b', (calls .little 2 fun _ _ => 0).Reachable anyStep b' → b.SameLayout b' →
        b'.readAt 1 1 = b'.seekAndRead 1 1 := by
  obtain ⟨b, hreach, _, hposn, hsize, hbase, _⟩ := fourBytes_reachable
  refine ⟨b, hreach, fun b' hb' hsame => ?_⟩
  refine ((readAt_exact_iff .little (by decide) _ hreach 1 1 (by decide)).mpr ?_ b' hb' hsame).1
  rw [SeesPosition, if_pos (by omega), hposn, hbase]
  intro _
  rfl

open Hpgs.Network.ByteArray in
/-- A read of the third byte gives the first one, and a read behind the last byte meets
no exception but gives the first one, too. -/
theorem readAt_wrong_block :
    ∃ b, (calls .little 2 fun _ _ => 0).Reachable anyStep b ∧
      b.readAt 1 2 = .ok [1] ∧ b.seekAndRead 1 2 = .ok [3] ∧
      b.readAt 1 6 = .ok [1] ∧ b.seekAndRead 1 6 = .error .outOfRange := by
  obtain ⟨b, hreach, hnodes, hposn, hsize, hbase, hcur⟩ := fourBytes_reachable
  refine ⟨b, hreach, ?_, ?_, ?_, ?_⟩
  · simp [readAt, hnodes, hsize, hbase, hcur, subSize, readLoop]
  · simp [seekAndRead, contents, hnodes, hsize]
  · simp [readAt, hnodes, hsize, hbase, hcur, subSize, readLoop]
  · simp [seekAndRead, hsize]

end Network
end Hpgs
