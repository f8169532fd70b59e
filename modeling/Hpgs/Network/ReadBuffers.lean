import Hpgs.Network.PositionalRead

/-!
# The bytes of a `ByteArray` as iovecs

`getReadBuffers` walks the blocks like `read` and notes in `buffers` where the bytes lie
instead of copying them.  Without a position it starts at the cursor.  With one it finds
the block from `m_root`, but it cuts the length by what can be read from `m_position`.

**Results.**
* `bufferLoop_spec`, `bufferLoop_none_iff`: the walk lists non-empty slices of the blocks
  that hold the bytes, and fails where that of `read` does.
* `getReadBuffers_describes`: the slices are what `read` would return.
* `getReadBuffersAt_iff`: with a position they end with the data iff the length fits
  behind the position, or the position is not behind `m_position`.
-/

namespace Hpgs
namespace Network

open Transition Blocks

/-- An `iovec`: `len` bytes from byte `base` of block number `node` on. -/
structure Iovec where
  node : Nat
  base : Nat
  len : Nat
deriving DecidableEq, Repr

namespace Iovec

/-- The bytes that the slice describes. -/
def bytes (nodes : List (List UInt8)) (v : Iovec) : List UInt8 :=
  ((nodes.getD v.node []).drop v.base).take v.len

/-- The slice is not empty and lies in one block. -/
def Inside (nodes : List (List UInt8)) (v : Iovec) : Prop :=
  0 < v.len ∧ v.node < nodes.length ∧ v.base + v.len ≤ (nodes.getD v.node []).length

end Iovec

namespace ByteArray

/-- The loop of `getReadBuffers` over the blocks from number `k` on. -/
def bufferLoop : List (List UInt8) → Nat → Nat → Nat → Option (List Iovec)
  | _, _, _, 0 => some []
  | [], _, _, _ + 1 => none
  | node :: rest, k, npos, len =>
      let ncap := node.length - npos
      if len ≤ ncap then some [⟨k, npos, len⟩]
      else (bufferLoop rest (k + 1) 0 (len - ncap)).map fun vs => ⟨k, npos, ncap⟩ :: vs

/-- `getReadBuffers(buffers, len)`: the returned length and `buffers` afterwards. -/
def getReadBuffers (b : ByteArray) (buffers : List Iovec) (len : Nat) :
    Except Fault (Nat × List Iovec) :=
  let len := if len > b.getReadSize then b.getReadSize else len
  if len = 0 then .ok (0, buffers)
  else
    match b.cur with
    | none => .error .nullDeref
    | some c =>
        match bufferLoop (b.nodes.drop c) c (b.position % b.baseSize) len with
        | none => .error .nullDeref
        | some vs => .ok (len, buffers ++ vs)

/-- `cur = cur->next`, `count` times. -/
def follow : List (List UInt8) → Nat → Option (List (List UInt8))
  | nodes, 0 => some nodes
  | [], _ + 1 => none
  | _ :: rest, count + 1 => follow rest count

/-- `getReadBuffers(buffers, len, position)`. -/
def getReadBuffersAt (b : ByteArray) (buffers : List Iovec) (len position : Nat) :
    Except Fault (Nat × List Iovec) :=
  let len := if len > b.getReadSize then b.getReadSize else len
  if len = 0 then .ok (0, buffers)
  else
    let npos := position % b.baseSize
    let count := position / b.baseSize
    match follow b.nodes count with
    | none => .error .nullDeref
    | some nodes =>
        match bufferLoop nodes count npos len with
        | none => .error .nullDeref
        | some vs => .ok (len, buffers ++ vs)

/-! ## The walk -/

/-- A walk over the last blocks of `pre ++ nodes`. -/
theorem bufferLoop_spec {B : Nat} {nodes : List (List UInt8)} (hu : Uniform B nodes)
    (pre : List (List UInt8)) {npos len : Nat} (hnpos : npos < B)
    (hfit : npos + len ≤ nodes.flatten.length) :
    ∃ vs, bufferLoop nodes pre.length npos len = some vs ∧
      (∀ v ∈ vs, v.Inside (pre ++ nodes)) ∧
      vs.flatMap (Iovec.bytes (pre ++ nodes)) = (nodes.flatten.drop npos).take len := by
  induction nodes generalizing pre npos len with
  | nil =>
      have hlen : len = 0 := by
        simp only [List.flatten_nil, List.length_nil] at hfit
        omega
      subst hlen
      exact ⟨[], by simp [bufferLoop], by simp, by simp⟩
  | cons node rest ih =>
      have hnode : node.length = B := hu node List.mem_cons_self
      have hrest : Uniform B rest := fun b hb => hu b (List.mem_cons_of_mem _ hb)
      have hget : (pre ++ node :: rest).getD pre.length [] = node := by simp
      cases hlen : len with
      | zero => exact ⟨[], by simp [bufferLoop], by simp, by simp⟩
      | succ n =>
          rw [← hlen]
          have heq : bufferLoop (node :: rest) pre.length npos len =
              if len ≤ node.length - npos then some [⟨pre.length, npos, len⟩]
              else (bufferLoop rest (pre.length + 1) 0 (len - (node.length - npos))).map
                fun vs => ⟨pre.length, npos, node.length - npos⟩ :: vs := by
            rw [hlen]
            rfl
          simp only [List.flatten_cons, List.length_append] at hfit ⊢
          rw [List.drop_append_of_le_length (by omega : npos ≤ node.length)]
          by_cases hle : len ≤ node.length - npos
          · -- the rest lies in this block
            refine ⟨[⟨pre.length, npos, len⟩], by rw [heq, if_pos hle], ?_, ?_⟩
            · intro v hv
              simp only [List.mem_singleton] at hv
              subst hv
              refine ⟨by simp only; omega, by simp, ?_⟩
              simp only [hget]
              omega
            · simp only [List.flatMap_cons, List.flatMap_nil, List.append_nil, Iovec.bytes, hget]
              rw [List.take_append_of_le_length (by rw [List.length_drop]; omega)]
          · -- the block is taken to its end
            have hpre : (pre ++ [node]).length = pre.length + 1 := by simp
            have happ : pre ++ node :: rest = (pre ++ [node]) ++ rest := by simp
            have hdrop : (node.drop npos).length ≤ len := by
              rw [List.length_drop]
              omega
            obtain ⟨vs, hloop, hin, hbytes⟩ :=
              ih hrest (pre ++ [node]) (by omega : 0 < B)
                (by omega : 0 + (len - (node.length - npos)) ≤ rest.flatten.length)
            rw [hpre] at hloop
            refine ⟨⟨pre.length, npos, node.length - npos⟩ :: vs, ?_, ?_, ?_⟩
            · rw [heq, if_neg hle, hloop]
              rfl
            · intro v hv
              rcases List.mem_cons.mp hv with rfl | hv
              · refine ⟨by simp only; omega, by simp, ?_⟩
                simp only [hget]
                omega
              · rw [happ]
                exact hin v hv
            · rw [List.flatMap_cons, happ, hbytes, ← happ, List.take_append,
                List.take_of_length_le hdrop, List.length_drop, List.drop_zero]
              congr 1
              simp only [Iovec.bytes, hget]
              exact List.take_of_length_le (Nat.le_of_eq (List.length_drop ..))

/-- The walk meets the null block where that of `read` does. -/
theorem bufferLoop_none_iff (nodes : List (List UInt8)) (k npos len : Nat) :
    bufferLoop nodes k npos len = none ↔ readLoop nodes npos len = none := by
  induction nodes generalizing k npos len with
  | nil => cases len <;> simp [bufferLoop, readLoop]
  | cons node rest ih =>
      cases len with
      | zero => simp [bufferLoop, readLoop]
      | succ n =>
          simp only [bufferLoop, readLoop]
          split
          · simp
          · simp only [Option.map_eq_none_iff]
            exact ih _ _ _

theorem follow_eq (nodes : List (List UInt8)) (count : Nat) :
    follow nodes count = if count ≤ nodes.length then some (nodes.drop count) else none := by
  induction count generalizing nodes with
  | zero => simp [follow]
  | succ count ih =>
      cases nodes with
      | nil => simp [follow]
      | cons node rest => simp [follow, ih]

/-- The stored bytes from `position` on. -/
theorem bytesAt_eq_stored (b : ByteArray) {position size : Nat}
    (hle : position + size ≤ b.size) :
    b.bytesAt position size = (b.contents.data.drop position).take size := by
  have hmin : min size (b.size - position) = size := by omega
  rw [contents, bytesAt, List.drop_take, List.take_take, hmin]

section Walks

variable {b : ByteArray} {buffers : List Iovec} {position len : Nat}

/-- A walk from the block of `position` on, as far as the blocks reach. -/
theorem WellFormed.bufferLoop (h : b.WellFormed) (hlt : position < b.capacity)
    (hfit : position + len ≤ b.capacity) :
    ∃ vs, ByteArray.bufferLoop (b.nodes.drop (position / b.baseSize)) (position / b.baseSize)
          (position % b.baseSize) len = some vs ∧
      (∀ v ∈ vs, v.Inside b.nodes) ∧
      vs.flatMap (Iovec.bytes b.nodes) = b.bytesAt position len := by
  have hmod : position % b.baseSize < b.baseSize := Nat.mod_lt _ h.base
  have hdiv := Nat.div_add_mod position b.baseSize
  have htake : (b.nodes.take (position / b.baseSize)).length = position / b.baseSize := by
    rw [List.length_take]
    exact Nat.min_eq_left (Nat.le_of_lt (h.block_lt.mpr hlt))
  have hroom : position % b.baseSize + len ≤
      (b.nodes.drop (position / b.baseSize)).flatten.length := by
    rw [h.uniform.flatten_drop, List.length_drop, h.flatten_length]
    omega
  obtain ⟨vs, hloop, hin, hbytes⟩ :=
    bufferLoop_spec (h.uniform.drop (position / b.baseSize))
      (b.nodes.take (position / b.baseSize)) hmod hroom
  rw [htake] at hloop
  rw [List.take_append_drop] at hin hbytes
  refine ⟨vs, hloop, hin, ?_⟩
  rw [hbytes, h.uniform.flatten_drop, List.drop_drop, hdiv, bytesAt]

/-- The length that the call takes. -/
theorem clampLen (h : b.WellFormed) (len : Nat) :
    (if len > b.getReadSize then b.getReadSize else len) = min len (b.size - b.position) := by
  rw [h.getReadSize]
  split <;> omega

/-- `getReadBuffers` with a position, whatever it is. -/
theorem getReadBuffersAt_eq (h : b.WellFormed) (hone : 1 ≤ min len (b.size - b.position)) :
    b.getReadBuffersAt buffers len position =
      match ByteArray.bufferLoop (b.nodes.drop (position / b.baseSize)) (position / b.baseSize)
        (position % b.baseSize) (min len (b.size - b.position)) with
      | none => .error .nullDeref
      | some vs => .ok (min len (b.size - b.position), buffers ++ vs) := by
  simp only [getReadBuffersAt, clampLen h, follow_eq]
  rw [if_neg (by omega)]
  by_cases hle : position / b.baseSize ≤ b.nodes.length
  · rw [if_pos hle]
  · have hnil : b.nodes.drop (position / b.baseSize) = [] := by
      rw [List.drop_eq_nil_iff]
      omega
    have hnone : ByteArray.bufferLoop [] (position / b.baseSize) (position % b.baseSize)
        (min len (b.size - b.position)) = none := by
      have hu : Uniform b.baseSize ([] : List (List UInt8)) :=
        fun _ hc => absurd hc List.not_mem_nil
      rw [bufferLoop_none_iff]
      refine readLoop_none hu hone (Nat.mod_lt _ h.base) ?_
      simp only [List.flatten_nil, List.length_nil]
      omega
    rw [if_neg hle, hnil, hnone]

/-- With a position, and a length that fits behind it. -/
theorem getReadBuffersAt_fits (h : b.WellFormed) (buffers : List Iovec) {len : Nat}
    (hpos : position ≤ b.size)
    (hfit : min len (b.size - b.position) ≤ b.size - position) :
    ∃ vs, b.getReadBuffersAt buffers len position =
        .ok (min len (b.size - b.position), buffers ++ vs) ∧
      (∀ v ∈ vs, v.Inside b.nodes) ∧
      vs.flatMap (Iovec.bytes b.nodes) =
        (b.contents.data.drop position).take (min len (b.size - b.position)) := by
  have hsize := h.size_le
  rw [← bytesAt_eq_stored b (by omega)]
  by_cases hzero : min len (b.size - b.position) = 0
  · refine ⟨[], ?_, by simp, by simp [bytesAt, hzero]⟩
    simp only [getReadBuffersAt, clampLen h]
    rw [if_pos hzero, hzero, List.append_nil]
  · have hlt : position < b.capacity := by omega
    have hroom : position + min len (b.size - b.position) ≤ b.capacity := by omega
    obtain ⟨vs, hloop, hin, hbytes⟩ := h.bufferLoop hlt hroom
    refine ⟨vs, ?_, hin, hbytes⟩
    rw [getReadBuffersAt_eq h (by omega), hloop]

/-- Without a position the walk starts at `m_position`. -/
theorem getReadBuffers_eq (h : b.WellFormed) :
    b.getReadBuffers buffers len = b.getReadBuffersAt buffers len b.position := by
  have hcap := Nat.le_trans h.position_le h.size_le
  by_cases hzero : min len (b.size - b.position) = 0
  · simp only [getReadBuffers, getReadBuffersAt, clampLen h]
    rw [if_pos hzero, if_pos hzero]
  · have hsize := h.size_le
    rw [getReadBuffersAt_eq h (by omega)]
    simp only [getReadBuffers, clampLen h]
    rw [if_neg hzero, h.cur_eq (by omega)]

end Walks

end ByteArray

open Hpgs.Network.ByteArray in
/-- **`getReadBuffers` describes what `read` would return.**  In every reachable state
and for every length it appends to `buffers` non-empty slices, each inside one block,
that hold together the bytes from `m_position` on, as many as can be read up to that
length, and returns their number. -/
theorem getReadBuffers_describes (host : Endian) {B : Nat} (hB : 1 ≤ B)
    (fresh : Nat → Nat → UInt8) {b : ByteArray}
    (h : (calls host B fresh).Reachable anyStep b) (buffers : List Iovec) (len : Nat) :
    ∃ vs, b.getReadBuffers buffers len = .ok (min len b.getReadSize, buffers ++ vs) ∧
      (∀ v ∈ vs, v.Inside b.nodes) ∧
      vs.flatMap (Iovec.bytes b.nodes) =
        (b.contents.data.drop b.position).take (min len b.getReadSize) ∧
      (1 ≤ min len b.getReadSize →
        (b.read (min len b.getReadSize)).1 = .ok (vs.flatMap (Iovec.bytes b.nodes))) := by
  have hwf := (reachable_compact hB h).wf
  have hposn := hwf.position_le
  rw [getReadBuffers_eq hwf, hwf.getReadSize]
  obtain ⟨vs, hres, hin, hbytes⟩ :=
    getReadBuffersAt_fits hwf buffers hposn (Nat.min_le_right len _)
  refine ⟨vs, hres, hin, hbytes, ?_⟩
  intro hone
  obtain ⟨b', hread, _⟩ := read_spec hwf hone
  have hflat : (b.contents.read (min len (b.size - b.position))).1 =
      .ok ((b.contents.data.drop b.position).take (min len (b.size - b.position))) := by
    have hpos : b.contents.pos = b.position := rfl
    have hin : ¬ min len (b.size - b.position) > b.contents.data.length - b.contents.pos := by
      rw [hwf.contents_length, hpos]
      omega
    rw [Flat.read, if_neg hin, hpos]
  rw [hread, hbytes]
  exact hflat

open Hpgs.Network.ByteArray in
theorem getReadBuffers_describes_fourBytes :
    ∃ b, (calls .little 2 fun _ _ => 0).Reachable anyStep b ∧
      ∃ vs, b.getReadBuffers [] 9 = .ok (min 9 b.getReadSize, [] ++ vs) ∧
        vs.flatMap (Iovec.bytes b.nodes) =
          (b.contents.data.drop b.position).take (min 9 b.getReadSize) := by
  obtain ⟨b, hreach, _⟩ := fourBytes_reachable
  obtain ⟨vs, hres, _, hbytes, _⟩ :=
    getReadBuffers_describes .little (by decide) _ hreach [] 9
  exact ⟨b, hreach, vs, hres, hbytes⟩

open Hpgs.Network.ByteArray in
/-- **`getReadBuffers` with a position.**  In every reachable state, for every length and
every position up to `m_size`: the slices lie inside the blocks and hold together the
stored bytes from the position on, as many as the length, the rest behind `m_position`
and the rest behind the position allow, and that number is returned, iff the length fits
behind the position or the position is not behind `m_position`. -/
theorem getReadBuffersAt_iff (host : Endian) {B : Nat} (hB : 1 ≤ B)
    (fresh : Nat → Nat → UInt8) {b : ByteArray}
    (h : (calls host B fresh).Reachable anyStep b) (buffers : List Iovec)
    (len position : Nat) (hpos : position ≤ b.size) :
    (∃ vs, b.getReadBuffersAt buffers len position =
          .ok (min (min len b.getReadSize) (b.size - position), buffers ++ vs) ∧
        (∀ v ∈ vs, v.Inside b.nodes) ∧
        vs.flatMap (Iovec.bytes b.nodes) = (b.contents.data.drop position).take
          (min (min len b.getReadSize) (b.size - position))) ↔
      (len ≤ b.size - position ∨ position ≤ b.position) := by
  have hwf := (reachable_compact hB h).wf
  have hposn := hwf.position_le
  rw [hwf.getReadSize]
  constructor
  · rintro ⟨vs, hres, _⟩
    by_contra hc
    simp only [not_or, Nat.not_le] at hc
    rw [getReadBuffersAt_eq hwf (by omega)] at hres
    split at hres
    · cases hres
    · simp only [Except.ok.injEq, Prod.mk.injEq] at hres
      omega
  · intro hcond
    have hfit : min len (b.size - b.position) ≤ b.size - position := by omega
    obtain ⟨vs, hres, hin, hbytes⟩ :=
      getReadBuffersAt_fits hwf buffers hpos hfit
    rw [Nat.min_eq_left hfit]
    exact ⟨vs, hres, hin, hbytes⟩

open Hpgs.Network.ByteArray in
theorem getReadBuffersAt_fourBytes :
    ∃ b, (calls .little 2 fun _ _ => 0).Reachable anyStep b ∧
      ∃ vs, b.getReadBuffersAt [] 2 1 =
          .ok (min (min 2 b.getReadSize) (b.size - 1), [] ++ vs) ∧
        vs.flatMap (Iovec.bytes b.nodes) = (b.contents.data.drop 1).take
          (min (min 2 b.getReadSize) (b.size - 1)) := by
  obtain ⟨b, hreach, _, _, hsize, _⟩ := fourBytes_reachable
  obtain ⟨vs, hres, _, hbytes⟩ :=
    (getReadBuffersAt_iff .little (by decide) _ hreach [] 2 1 (by omega)).mpr
      (Or.inl (by omega))
  exact ⟨b, hreach, vs, hres, hbytes⟩

/-- Three bytes in two blocks of two, with the cursor back at the first. -/
def threeBytes : List PublicOp :=
  [.write [1, 2, 3], .setPosition 0]

open Hpgs.Network.ByteArray in
/-- From the third of three bytes on: two bytes are listed of which the second is no
data, and for three the walk meets the null block. -/
theorem getReadBuffersAt_past_data :
    ∃ b, (calls .little 2 fun _ _ => 0).Reachable anyStep b ∧ b.size = 3 ∧
      b.getReadBuffersAt [] 2 2 = .ok (2, [⟨1, 0, 2⟩]) ∧
      b.getReadBuffersAt [] 3 2 = .error .nullDeref := by
  have hrun : ((calls .little 2 fun _ _ => 0).exec (new 2 fun _ _ => 0) threeBytes).map
      (fun b => (b.size, b.getReadBuffersAt [] 2 2, b.getReadBuffersAt [] 3 2)) =
      some (3, .ok (2, [⟨1, 0, 2⟩]), .error .nullDeref) := rfl
  obtain ⟨b, hb, hfields⟩ := Option.map_eq_some_iff.mp hrun
  simp only [Prod.mk.injEq] at hfields
  exact ⟨b, System.exec_reachable rfl hb, hfields⟩

end Network
end Hpgs
