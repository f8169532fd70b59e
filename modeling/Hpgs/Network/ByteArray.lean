import Hpgs.Library.Blocks

/-!
# `ByteArray`: bytes in a list of blocks

The bytes lie in blocks of `m_baseSize` bytes that are chained from `m_root`; `m_cur`
points to the block of the current position and is null when the position is at the
end of the last block.  Sizes are unbounded here: no run reaches `2 ^ 53` bytes, below
which also `ceil(1.0 * size / m_baseSize)` is exact.

**Results.**
* `WellFormed`: the invariant that ties blocks, cursor and capacity to each other, so that
  `contents` is a byte list with a position.
* `write_spec`, `read_spec`, `setPosition_spec`, `clear_contents`, `toString_spec`: each
  operation does what it does on the byte list.
* `byteArray_refines_flat`: every sequence of operations gives the results of the byte
  list, whatever the block size.
-/

namespace Hpgs
namespace Network

open Blocks

/-- `HPGS_LITTLE_ENDIAN` and `HPGS_BIG_ENDIAN`. -/
inductive Endian
  | little
  | big
deriving DecidableEq, Repr

/-- How a call ends otherwise than by returning: `std::out_of_range` or
`std::length_error` is thrown, a null block is dereferenced, or a local buffer is written
past its end. -/
inductive Fault
  | outOfRange
  | lengthError
  | nullDeref
  | overflow
deriving DecidableEq, Repr

/-- `ByteArray`.  `nodes` are the blocks from `m_root` on.  `fresh k` is what the
`k`-th allocated block holds before it is written. -/
structure ByteArray where
  nodes : List (List UInt8)
  cur : Option Nat
  baseSize : Nat
  position : Nat
  capacity : Nat
  size : Nat
  endian : Endian
  fresh : Nat → Nat → UInt8
  allocated : Nat

/-- The result of a call and the object after it. -/
abbrev Result (α : Type) := Except Fault α × ByteArray

namespace ByteArray

/-- `new Node(m_baseSize)`: the block that is allocated after `k` others. -/
def newNode (fresh : Nat → Nat → UInt8) (baseSize k : Nat) : List UInt8 :=
  (List.range baseSize).map (fresh k)

/-- The constructor. -/
def new (baseSize : Nat) (fresh : Nat → Nat → UInt8) : ByteArray where
  nodes := [newNode fresh baseSize 0]
  cur := some 0
  baseSize := baseSize
  position := 0
  capacity := baseSize
  size := 0
  endian := .big
  fresh := fresh
  allocated := 1

/-- A pointer to block number `k`, null behind the last block. -/
def nodeAt (nodes : List (List UInt8)) (k : Nat) : Option Nat :=
  if k < nodes.length then some k else none

/-- A difference of type `size_t`. -/
def subSize (a b : Nat) : Nat :=
  if b ≤ a then a - b else a + 2 ^ 64 - b

def getReadSize (b : ByteArray) : Nat :=
  subSize b.size b.position

def getCapacity (b : ByteArray) : Nat :=
  subSize b.capacity b.position

def setIsLittleEndian (b : ByteArray) (val : Bool) : ByteArray :=
  { b with endian := if val then .little else .big }

/-- `clear`: all blocks but the first are deleted. -/
def clear (b : ByteArray) : ByteArray :=
  { b with
    nodes := b.nodes.take 1
    cur := some 0
    position := 0
    capacity := b.baseSize
    size := 0 }

/-- `addCapacity`: blocks are appended until `size` bytes fit behind the position. -/
def addCapacity (b : ByteArray) (size : Nat) : ByteArray :=
  let oldCap := b.getCapacity
  if size = 0 ∨ size ≤ oldCap then b
  else
    let count := (size - oldCap + b.baseSize - 1) / b.baseSize
    { b with
      nodes := b.nodes ++
        (List.range count).map fun i => newNode b.fresh b.baseSize (b.allocated + i)
      -- `first` stays null if no block is added
      cur := if oldCap = 0 then (if count = 0 then none else some b.nodes.length) else b.cur
      capacity := b.capacity + count * b.baseSize
      allocated := b.allocated + count }

/-- The loop of `write` over the blocks from `m_cur` on: the blocks after it, and by how
many blocks `m_cur` has moved. -/
def writeLoop : List (List UInt8) → Nat → List UInt8 → Option (List (List UInt8) × Nat)
  | nodes, _, [] => some (nodes, 0)
  | [], _, _ :: _ => none
  | node :: rest, npos, buf =>
      let ncap := node.length - npos
      if buf.length ≤ ncap then
        some (splice node npos buf :: rest, if node.length = npos + buf.length then 1 else 0)
      else
        (writeLoop rest 0 (buf.drop ncap)).map fun r =>
          (splice node npos (buf.take ncap) :: r.1, r.2 + 1)

/-- The loop of `read`: the bytes, and by how many blocks the cursor has moved. -/
def readLoop : List (List UInt8) → Nat → Nat → Option (List UInt8 × Nat)
  | _, _, 0 => some ([], 0)
  | [], _, _ + 1 => none
  | node :: rest, npos, size =>
      let ncap := node.length - npos
      if size ≤ ncap then
        some ((node.drop npos).take size, if node.length = npos + size then 1 else 0)
      else
        (readLoop rest 0 (size - ncap)).map fun r => (node.drop npos ++ r.1, r.2 + 1)

/-- `write`. -/
def write (b : ByteArray) (buf : List UInt8) : Result Unit :=
  if buf.length = 0 then (.ok (), b)
  else
    let b' := b.addCapacity buf.length
    match b'.cur with
    | none => (.error .nullDeref, b')
    | some c =>
        match writeLoop (b'.nodes.drop c) (b'.position % b'.baseSize) buf with
        | none => (.error .nullDeref, b')
        | some (nodes, k) =>
            let position := b'.position + buf.length
            (.ok (),
              { b' with
                nodes := b'.nodes.take c ++ nodes
                cur := nodeAt b'.nodes (c + k)
                position := position
                size := if position > b'.size then position else b'.size })

/-- `read(buf, size)`. -/
def read (b : ByteArray) (size : Nat) : Result (List UInt8) :=
  if size > b.getReadSize then (.error .outOfRange, b)
  else
    match b.cur with
    | none => (.error .nullDeref, b)
    | some c =>
        match readLoop (b.nodes.drop c) (b.position % b.baseSize) size with
        | none => (.error .nullDeref, b)
        | some (bytes, k) =>
            (.ok bytes, { b with cur := nodeAt b.nodes (c + k), position := b.position + size })

/-- `read(buf, size, position) const`; it starts at `m_cur` whatever `position` is. -/
def readAt (b : ByteArray) (size position : Nat) : Except Fault (List UInt8) :=
  if size > subSize b.size position then .error .outOfRange
  else
    match b.cur with
    | none => .error .nullDeref
    | some c =>
        match readLoop (b.nodes.drop c) (position % b.baseSize) size with
        | none => .error .nullDeref
        | some (bytes, _) => .ok bytes

/-- The loop of `setPosition` from `m_root` on: how many blocks are passed. -/
def seek : List (List UInt8) → Nat → Option Nat
  | [], _ => none
  | node :: rest, v =>
      if v > node.length then (seek rest (v - node.length)).map (· + 1)
      else some (if v = node.length then 1 else 0)

/-- `setPosition`. -/
def setPosition (b : ByteArray) (v : Nat) : Result Unit :=
  if v > b.capacity then (.error .outOfRange, b)
  else
    let b' := { b with position := v, size := if v > b.size then v else b.size }
    match seek b.nodes v with
    | none => (.error .nullDeref, b')
    | some k => (.ok (), { b' with cur := nodeAt b.nodes k })

/-- `toString`. -/
def toString (b : ByteArray) : Except Fault (List UInt8) :=
  if b.getReadSize = 0 then .ok []
  else b.readAt b.getReadSize b.position

end ByteArray

/-! ## The byte list -/

/-- What a `ByteArray` is for: a byte list with a position. -/
structure Flat where
  data : List UInt8
  pos : Nat
deriving DecidableEq, Repr

namespace Flat

def empty : Flat := ⟨[], 0⟩

/-- Overwrite from the position on, and extend the list where it ends. -/
def write (f : Flat) (buf : List UInt8) : Flat :=
  ⟨splice f.data f.pos buf, f.pos + buf.length⟩

def read (f : Flat) (size : Nat) : Except Fault (List UInt8) × Flat :=
  if size > f.data.length - f.pos then (.error .outOfRange, f)
  else (.ok ((f.data.drop f.pos).take size), ⟨f.data, f.pos + size⟩)

def toString (f : Flat) : List UInt8 :=
  f.data.drop f.pos

end Flat

/-- The operations. -/
inductive Op
  | write (buf : List UInt8)
  | read (size : Nat)
  | setPosition (v : Nat)
  | clear
  | toString
deriving DecidableEq, Repr

/-- What a caller sees of a call: the bytes or the exception, and size and position
after it. -/
structure Seen where
  result : Except Fault (List UInt8)
  size : Nat
  position : Nat
deriving DecidableEq

namespace ByteArray

/-- A call on a `ByteArray`. -/
def call (b : ByteArray) : Op → Result (List UInt8)
  | .write buf => ((b.write buf).1.map fun _ => [], (b.write buf).2)
  | .read size => b.read size
  | .setPosition v => ((b.setPosition v).1.map fun _ => [], (b.setPosition v).2)
  | .clear => (.ok [], b.clear)
  | .toString => (b.toString, b)

/-- What a caller sees of a sequence of calls. -/
def trace (b : ByteArray) : List Op → List Seen
  | [] => []
  | op :: ops =>
      let r := b.call op
      ⟨r.1, r.2.size, r.2.position⟩ :: trace r.2 ops

end ByteArray

namespace Flat

/-- A call on the byte list. -/
def call (f : Flat) : Op → Except Fault (List UInt8) × Flat
  | .write buf => (.ok [], f.write buf)
  | .read size => f.read size
  | .setPosition v => (.ok [], { f with pos := v })
  | .clear => (.ok [], empty)
  | .toString => (.ok f.toString, f)

def trace (f : Flat) : List Op → List Seen
  | [] => []
  | op :: ops =>
      let r := f.call op
      ⟨r.1, r.2.data.length, r.2.pos⟩ :: trace r.2 ops

/-- The calls of a sequence are in the domain: writes and reads of at least one byte,
positions up to the size. -/
def Admissible (f : Flat) : List Op → Prop
  | [] => True
  | op :: ops =>
      (match op with
        | .write buf => 1 ≤ buf.length
        | .read size => 1 ≤ size
        | .setPosition v => v ≤ f.data.length
        | .clear => True
        | .toString => True) ∧
      Admissible (f.call op).2 ops

end Flat

namespace ByteArray

/-! ## The loops -/

section Loops

variable {B npos : Nat}

theorem add_div_of_le {a B : Nat} (hB : 1 ≤ B) (h : B ≤ a) : a / B = (a - B) / B + 1 := by
  rw [Nat.div_eq a B, if_pos ⟨by omega, h⟩]

/-- `write` overwrites the bytes behind the cursor. -/
theorem writeLoop_spec (hB : 1 ≤ B) {nodes : List (List UInt8)} (hu : Uniform B nodes)
    (buf : List UInt8) (hnpos : npos < B) (hfit : npos + buf.length ≤ nodes.flatten.length) :
    ∃ nodes', writeLoop nodes npos buf = some (nodes', (npos + buf.length) / B) ∧
      Uniform B nodes' ∧ nodes'.length = nodes.length ∧
      nodes'.flatten = splice nodes.flatten npos buf := by
  induction nodes generalizing npos buf with
  | nil =>
      have hbuf : buf = [] := by
        simp only [List.flatten_nil, List.length_nil] at hfit
        exact List.eq_nil_of_length_eq_zero (by omega)
      subst hbuf
      exact ⟨[], by simp [writeLoop, Nat.div_eq_of_lt hnpos], hu, rfl, by simp [splice]⟩
  | cons node rest ih =>
      have hnode : node.length = B := hu node List.mem_cons_self
      have hrest : Uniform B rest := fun b hb => hu b (List.mem_cons_of_mem _ hb)
      cases hbuf : buf with
      | nil =>
          exact ⟨node :: rest, by simp [writeLoop, Nat.div_eq_of_lt hnpos], hu, rfl,
            (splice_nil _ _).symm⟩
      | cons x xs =>
          rw [← hbuf]
          have hne : buf ≠ [] := by simp [hbuf]
          have heq : writeLoop (node :: rest) npos buf =
              if buf.length ≤ node.length - npos then
                some (splice node npos buf :: rest,
                  if node.length = npos + buf.length then 1 else 0)
              else
                (writeLoop rest 0 (buf.drop (node.length - npos))).map fun r =>
                  (splice node npos (buf.take (node.length - npos)) :: r.1, r.2 + 1) := by
            rw [hbuf]
            rfl
          simp only [List.flatten_cons, List.length_append] at hfit
          by_cases hle : buf.length ≤ node.length - npos
          · -- the rest of the buffer fits into this block
            have hin : npos + buf.length ≤ node.length := by omega
            refine ⟨splice node npos buf :: rest, ?_, ?_, rfl, ?_⟩
            · rw [heq, if_pos hle]
              by_cases hend : node.length = npos + buf.length
              · rw [if_pos hend, ← hend, hnode, Nat.div_self (by omega)]
              · rw [if_neg hend, Nat.div_eq_of_lt (by omega)]
            · intro b hb
              rcases List.mem_cons.mp hb with rfl | hb
              · rw [length_splice hin, hnode]
              · exact hrest b hb
            · rw [List.flatten_cons, List.flatten_cons, splice_append_left hin]
          · -- the block is filled up
            have hover : node.length ≤ npos + buf.length := by omega
            obtain ⟨nodes', hloop, hu', hlen', hflat⟩ :=
              ih hrest (buf.drop (node.length - npos)) (by omega : 0 < B)
                (by rw [List.length_drop]; omega)
            refine ⟨splice node npos (buf.take (node.length - npos)) :: nodes', ?_, ?_, ?_, ?_⟩
            · rw [heq, if_neg hle, hloop]
              simp only [Option.map_some, Option.some.injEq, Prod.mk.injEq, true_and,
                List.length_drop]
              rw [add_div_of_le hB (by omega : B ≤ npos + buf.length)]
              congr 2
              omega
            · intro b hb
              rcases List.mem_cons.mp hb with rfl | hb
              · rw [length_splice (by rw [List.length_take]; omega), hnode]
              · exact hu' b hb
            · simp [hlen']
            · rw [List.flatten_cons, List.flatten_cons, hflat,
                splice_append (by omega) hover]

/-- `read` takes the bytes behind the cursor. -/
theorem readLoop_spec (hB : 1 ≤ B) {nodes : List (List UInt8)} (hu : Uniform B nodes)
    (size : Nat) (hnpos : npos < B) (hfit : npos + size ≤ nodes.flatten.length) :
    readLoop nodes npos size =
      some ((nodes.flatten.drop npos).take size, (npos + size) / B) := by
  induction nodes generalizing npos size with
  | nil =>
      have hsize : size = 0 := by
        simp only [List.flatten_nil, List.length_nil] at hfit
        omega
      subst hsize
      simp [readLoop, Nat.div_eq_of_lt hnpos]
  | cons node rest ih =>
      have hnode : node.length = B := hu node List.mem_cons_self
      have hrest : Uniform B rest := fun b hb => hu b (List.mem_cons_of_mem _ hb)
      cases hsize : size with
      | zero => simp [readLoop, Nat.div_eq_of_lt hnpos]
      | succ n =>
          rw [← hsize]
          have heq : readLoop (node :: rest) npos size =
              if size ≤ node.length - npos then
                some ((node.drop npos).take size, if node.length = npos + size then 1 else 0)
              else
                (readLoop rest 0 (size - (node.length - npos))).map fun r =>
                  (node.drop npos ++ r.1, r.2 + 1) := by
            rw [hsize]
            rfl
          simp only [List.flatten_cons, List.length_append] at hfit ⊢
          rw [List.drop_append_of_le_length (by omega : npos ≤ node.length)]
          by_cases hle : size ≤ node.length - npos
          · rw [heq, if_pos hle,
              List.take_append_of_le_length (by rw [List.length_drop]; omega)]
            by_cases hend : node.length = npos + size
            · rw [if_pos hend, ← hend, hnode, Nat.div_self (by omega)]
            · rw [if_neg hend, Nat.div_eq_of_lt (by omega)]
          · have hdrop : (node.drop npos).length ≤ size := by
              rw [List.length_drop]
              omega
            rw [heq, if_neg hle,
              ih hrest (size - (node.length - npos)) (by omega : 0 < B) (by omega)]
            simp only [Option.map_some, List.drop_zero, Option.some.injEq, Prod.mk.injEq]
            refine ⟨?_, ?_⟩
            · rw [List.take_append, List.take_of_length_le hdrop, List.length_drop]
            · rw [add_div_of_le hB (by omega : B ≤ npos + size)]
              congr 2
              omega

/-- `setPosition` finds the block of the position. -/
theorem seek_spec (hB : 1 ≤ B) {nodes : List (List UInt8)} (hu : Uniform B nodes) {v : Nat}
    (hne : nodes ≠ []) (hv : v ≤ nodes.flatten.length) : seek nodes v = some (v / B) := by
  induction nodes generalizing v with
  | nil => exact absurd rfl hne
  | cons node rest ih =>
      have hnode : node.length = B := hu node List.mem_cons_self
      have hrest : Uniform B rest := fun b hb => hu b (List.mem_cons_of_mem _ hb)
      simp only [List.flatten_cons, List.length_append] at hv
      by_cases hgt : v > node.length
      · have hrne : rest ≠ [] := by
          rintro rfl
          simp at hv
          omega
        rw [seek, if_pos hgt, ih hrest hrne (by omega), Option.map_some, hnode,
          add_div_of_le hB (by omega : B ≤ v)]
      · rw [seek, if_neg hgt]
        by_cases heq : v = node.length
        · rw [if_pos heq, heq, hnode, Nat.div_self (by omega)]
        · rw [if_neg heq, Nat.div_eq_of_lt (by omega)]

end Loops

/-! ## The invariant -/

/-- Every block has the base size, capacity counts the blocks, and the cursor is at the
block of the position, null at the end of the last block. -/
structure WellFormed (b : ByteArray) : Prop where
  base : 1 ≤ b.baseSize
  uniform : Uniform b.baseSize b.nodes
  root : b.nodes ≠ []
  capacity : b.capacity = b.baseSize * b.nodes.length
  size_le : b.size ≤ b.capacity
  position_le : b.position ≤ b.size
  cur : b.cur = nodeAt b.nodes (b.position / b.baseSize)

/-- The byte list and the position that a `ByteArray` stands for. -/
def contents (b : ByteArray) : Flat :=
  ⟨b.nodes.flatten.take b.size, b.position⟩

section Operations

variable {b : ByteArray}

theorem subSize_of_le {m n : Nat} (h : n ≤ m) : subSize m n = m - n :=
  if_pos h

theorem WellFormed.flatten_length (h : b.WellFormed) : b.nodes.flatten.length = b.capacity := by
  rw [h.uniform.length_flatten, h.capacity]

theorem WellFormed.contents_length (h : b.WellFormed) : b.contents.data.length = b.size := by
  simp only [contents, List.length_take, h.flatten_length]
  exact Nat.min_eq_left h.size_le

theorem WellFormed.getReadSize (h : b.WellFormed) : b.getReadSize = b.size - b.position :=
  subSize_of_le h.position_le

theorem WellFormed.getCapacity (h : b.WellFormed) : b.getCapacity = b.capacity - b.position :=
  subSize_of_le (Nat.le_trans h.position_le h.size_le)

/-- Position and number of a block. -/
theorem WellFormed.block_lt (h : b.WellFormed) {p : Nat} :
    p / b.baseSize < b.nodes.length ↔ p < b.capacity := by
  rw [Nat.div_lt_iff_lt_mul h.base, h.capacity, Nat.mul_comm]

/-- The cursor is null only at the end of the last block. -/
theorem WellFormed.cur_eq (h : b.WellFormed) (hlt : b.position < b.capacity) :
    b.cur = some (b.position / b.baseSize) := by
  rw [h.cur, nodeAt, if_pos (h.block_lt.mpr hlt)]

/-- The blocks behind the cursor hold the bytes from the start of its block on. -/
theorem WellFormed.behind (h : b.WellFormed) :
    (b.nodes.drop (b.position / b.baseSize)).flatten =
      b.nodes.flatten.drop (b.baseSize * (b.position / b.baseSize)) :=
  h.uniform.flatten_drop _

theorem WellFormed.behind_length (h : b.WellFormed) :
    (b.nodes.drop (b.position / b.baseSize)).flatten.length + b.position =
      b.capacity + b.position % b.baseSize := by
  have hdiv := Nat.div_add_mod b.position b.baseSize
  have hle := Nat.le_trans h.position_le h.size_le
  rw [h.behind, List.length_drop, h.flatten_length]
  omega

theorem new_wellFormed {B : Nat} (hB : 1 ≤ B) (fresh : Nat → Nat → UInt8) :
    (new B fresh).WellFormed where
  base := hB
  uniform := by
    intro node hnode
    simp only [new, List.mem_singleton] at hnode
    subst hnode
    simp [newNode, new]
  root := by simp [new]
  capacity := by simp [new]
  size_le := by simp [new]
  position_le := by simp [new]
  cur := by simp [new, nodeAt]

theorem clear_wellFormed (h : b.WellFormed) : b.clear.WellFormed where
  base := h.base
  uniform := h.uniform.take 1
  root := by
    cases hn : b.nodes with
    | nil => exact absurd hn h.root
    | cons node rest => simp [clear, hn]
  capacity := by
    cases hn : b.nodes with
    | nil => exact absurd hn h.root
    | cons node rest => simp [clear, hn]
  size_le := by simp [clear]
  position_le := by simp [clear]
  cur := by
    cases hn : b.nodes with
    | nil => exact absurd hn h.root
    | cons node rest => simp [clear, nodeAt, hn]

/-- After `addCapacity` the bytes fit, and nothing else has changed. -/
theorem addCapacity_spec (h : b.WellFormed) (size : Nat) :
    (b.addCapacity size).WellFormed ∧
      (b.addCapacity size).contents = b.contents ∧
      (b.addCapacity size).position = b.position ∧
      (b.addCapacity size).size = b.size ∧
      (b.addCapacity size).endian = b.endian ∧
      (1 ≤ size → b.position + size ≤ (b.addCapacity size).capacity) := by
  have hle := Nat.le_trans h.position_le h.size_le
  have hcap := h.getCapacity
  have hB := h.base
  unfold addCapacity
  simp only
  split
  · rename_i hno
    exact ⟨h, rfl, rfl, rfl, rfl, fun hone => by omega⟩
  · rename_i hgrow
    set count := (size - b.getCapacity + b.baseSize - 1) / b.baseSize with hcount
    have hpos : 0 < count := Nat.div_pos (by omega) (by omega)
    have henough : size - b.getCapacity ≤ count * b.baseSize := by
      have hdiv := Nat.div_add_mod (size - b.getCapacity + b.baseSize - 1) b.baseSize
      have hmod := Nat.mod_lt (size - b.getCapacity + b.baseSize - 1) (by omega : b.baseSize > 0)
      rw [← hcount, Nat.mul_comm] at hdiv
      omega
    set added := (List.range count).map fun i => newNode b.fresh b.baseSize (b.allocated + i)
      with hadded
    have hlen : added.length = count := by simp [hadded]
    have hun : Uniform b.baseSize added := by
      intro node hnode
      obtain ⟨i, _, rfl⟩ := List.mem_map.mp hnode
      simp [newNode]
    refine ⟨?_, ?_, rfl, rfl, rfl, fun _ => by simp only; omega⟩
    · refine
        { base := hB
          uniform := h.uniform.append hun
          root := by simp [h.root]
          capacity := ?_
          size_le := Nat.le_trans h.size_le (Nat.le_add_right _ _)
          position_le := h.position_le
          cur := ?_ }
      · simp only [List.length_append, hlen, Nat.mul_add, h.capacity]
        rw [Nat.mul_comm count]
      · -- a null cursor moves to the first new block, which is where the position is
        by_cases hfull : b.getCapacity = 0
        · have hend : b.position = b.capacity := by omega
          simp only [hfull, if_true, if_neg (Nat.ne_of_gt hpos)]
          rw [hend, h.capacity, Nat.mul_div_cancel_left _ (by omega), nodeAt, if_pos]
          simp only [List.length_append, hlen]
          omega
        · simp only [if_neg hfull]
          have hlt : b.position < b.capacity := by omega
          rw [h.cur_eq hlt, nodeAt, if_pos]
          have := h.block_lt.mpr hlt
          simp only [List.length_append]
          omega
    · simp only [contents, List.flatten_append]
      rw [List.take_append_of_le_length (by rw [h.flatten_length]; exact h.size_le)]

/-- The loop of `write` on a well-formed object with enough room. -/
theorem WellFormed.writeLoop (h : b.WellFormed) {buf : List UInt8}
    (hlt : b.position < b.capacity) (hroom : b.position + buf.length ≤ b.capacity) :
    ∃ nodes k, ByteArray.writeLoop (b.nodes.drop (b.position / b.baseSize))
          (b.position % b.baseSize) buf = some (nodes, k) ∧
      b.position / b.baseSize + k = (b.position + buf.length) / b.baseSize ∧
      Uniform b.baseSize (b.nodes.take (b.position / b.baseSize) ++ nodes) ∧
      (b.nodes.take (b.position / b.baseSize) ++ nodes).length = b.nodes.length ∧
      (b.nodes.take (b.position / b.baseSize) ++ nodes).flatten =
        splice b.nodes.flatten b.position buf := by
  have hmod : b.position % b.baseSize < b.baseSize := Nat.mod_lt _ h.base
  have hdiv := Nat.div_add_mod b.position b.baseSize
  have hbehind := h.behind_length
  obtain ⟨nodes, hloop, hun, hlen, hflat⟩ :=
    writeLoop_spec h.base (h.uniform.drop (b.position / b.baseSize)) buf hmod (by omega)
  have htake : (b.nodes.take (b.position / b.baseSize)).length = b.position / b.baseSize := by
    rw [List.length_take]
    exact Nat.min_eq_left (Nat.le_of_lt (h.block_lt.mpr hlt))
  refine ⟨nodes, _, hloop, ?_, (h.uniform.take _).append hun, ?_, ?_⟩
  · rw [← Nat.mul_add_div h.base]
    congr 1
    omega
  · rw [List.length_append, hlen, ← List.length_append, List.take_append_drop]
  · have hpre : (b.nodes.take (b.position / b.baseSize)).flatten.length =
        b.baseSize * (b.position / b.baseSize) := by
      rw [(h.uniform.take _).length_flatten, htake]
    have hsplit : b.nodes.flatten = (b.nodes.take (b.position / b.baseSize)).flatten ++
        (b.nodes.drop (b.position / b.baseSize)).flatten := by
      rw [← List.flatten_append, List.take_append_drop]
    have hat := splice_append_right (b.nodes.take (b.position / b.baseSize)).flatten
      (b.nodes.drop (b.position / b.baseSize)).flatten (b.position % b.baseSize) buf
    rw [hpre, hdiv, ← hsplit] at hat
    rw [List.flatten_append, hflat, hat]

/-- `write` overwrites the bytes from the position on and extends the list. -/
theorem write_spec (h : b.WellFormed) (buf : List UInt8) :
    ∃ b', b.write buf = (.ok (), b') ∧ b'.WellFormed ∧ b'.contents = b.contents.write buf ∧
      b'.endian = b.endian := by
  by_cases hnil : buf.length = 0
  · have hbuf : buf = [] := List.eq_nil_of_length_eq_zero hnil
    subst hbuf
    exact ⟨b, by simp [write], h, by simp [contents, Flat.write, splice_nil], rfl⟩
  · obtain ⟨hwf, hcont, hposn, _, hend, hroom⟩ := addCapacity_spec h buf.length
    set c := b.addCapacity buf.length with hc
    have hroom' : c.position + buf.length ≤ c.capacity := by
      rw [hposn]
      exact hroom (by omega)
    have hlt : c.position < c.capacity := by omega
    obtain ⟨nodes, k, hloop, hk, hun, hlen, hflat⟩ := hwf.writeLoop hlt hroom'
    set b' : ByteArray :=
      { c with
        nodes := c.nodes.take (c.position / c.baseSize) ++ nodes
        cur := nodeAt c.nodes (c.position / c.baseSize + k)
        position := c.position + buf.length
        size := if c.position + buf.length > c.size then c.position + buf.length else c.size }
      with hb'
    have hmax : b'.size = max c.size (c.position + buf.length) := by
      simp only [hb']
      split <;> omega
    refine ⟨b', ?_, ?_, ?_, hend⟩
    · unfold write
      rw [if_neg hnil]
      simp only [← hc, hwf.cur_eq hlt, hloop, hb']
    · refine
        { base := hwf.base
          uniform := hun
          root := ?_
          capacity := ?_
          size_le := ?_
          position_le := ?_
          cur := ?_ }
      · intro hnodes
        have hzero := congrArg List.length hnodes
        rw [hlen] at hzero
        exact hwf.root (List.eq_nil_of_length_eq_zero (by simpa using hzero))
      · rw [hlen]
        exact hwf.capacity
      · rw [hmax]
        exact Nat.max_le.mpr ⟨hwf.size_le, hroom'⟩
      · rw [hmax]
        exact Nat.le_max_right _ _
      · simp only [hb', hk, nodeAt, hlen]
    · rw [← hcont]
      simp only [contents, Flat.write]
      rw [hmax, hflat, take_splice hwf.position_le (by rw [hwf.flatten_length]; exact hroom')]

/-- The loop of `read` on a well-formed object with enough bytes. -/
theorem WellFormed.readLoop (h : b.WellFormed) (size : Nat)
    (hfit : b.position + size ≤ b.size) :
    ∃ k, ByteArray.readLoop (b.nodes.drop (b.position / b.baseSize))
          (b.position % b.baseSize) size =
        some ((b.contents.data.drop b.position).take size, k) ∧
      b.position / b.baseSize + k = (b.position + size) / b.baseSize := by
  have hsize := h.size_le
  have hmod : b.position % b.baseSize < b.baseSize := Nat.mod_lt _ h.base
  have hbehind := h.behind_length
  have hdiv := Nat.div_add_mod b.position b.baseSize
  have hloop := readLoop_spec h.base (h.uniform.drop (b.position / b.baseSize))
    size hmod (by omega)
  have hbytes : ((b.nodes.drop (b.position / b.baseSize)).flatten.drop
      (b.position % b.baseSize)).take size = (b.contents.data.drop b.position).take size := by
    rw [contents, h.behind, List.drop_drop, hdiv, List.drop_take, List.take_take,
      Nat.min_eq_left (by omega)]
  rw [hbytes] at hloop
  refine ⟨_, hloop, ?_⟩
  rw [← Nat.mul_add_div h.base]
  congr 1
  omega

/-- `read` of at least one byte. -/
theorem read_spec (h : b.WellFormed) {size : Nat} (hone : 1 ≤ size) :
    ∃ b', b.read size = ((b.contents.read size).1, b') ∧ b'.WellFormed ∧
      b'.contents = (b.contents.read size).2 ∧ b'.endian = b.endian := by
  have hlen := h.contents_length
  have hpos : b.contents.pos = b.position := rfl
  by_cases hgt : size > b.size - b.position
  · have hflat : b.contents.read size = (.error .outOfRange, b.contents) :=
      if_pos (by rw [hlen, hpos]; exact hgt)
    refine ⟨b, ?_, h, by rw [hflat], rfl⟩
    rw [hflat]
    exact if_pos (by rw [h.getReadSize]; exact hgt)
  · have hflat : b.contents.read size =
        (.ok ((b.contents.data.drop b.position).take size),
          ⟨b.contents.data, b.position + size⟩) :=
      if_neg (by rw [hlen, hpos]; exact hgt)
    have hsize := h.size_le
    obtain ⟨k, hloop, hk⟩ := h.readLoop size (by omega)
    refine
      ⟨{ b with cur := nodeAt b.nodes ((b.position + size) / b.baseSize),
                position := b.position + size }, ?_, ?_, ?_, rfl⟩
    · unfold read
      rw [if_neg (by rw [h.getReadSize]; exact hgt), h.cur_eq (by omega)]
      simp only [hloop, hk, hflat]
    · exact
        { base := h.base
          uniform := h.uniform
          root := h.root
          capacity := h.capacity
          size_le := h.size_le
          position_le := by simp only; omega
          cur := rfl }
    · rw [hflat]
      rfl

/-- `read` of no byte dereferences `m_cur` all the same. -/
theorem read_zero (h : b.WellFormed) :
    b.read 0 = if b.position = b.capacity then (.error .nullDeref, b) else (.ok [], b) := by
  have hle := Nat.le_trans h.position_le h.size_le
  unfold read
  rw [if_neg (by omega)]
  by_cases hend : b.position = b.capacity
  · have hcur : b.cur = none := by
      rw [h.cur, nodeAt, if_neg]
      rw [h.block_lt]
      omega
    rw [if_pos hend, hcur]
  · have hcur := h.cur_eq (by omega)
    rw [if_neg hend, hcur]
    simp only [ByteArray.readLoop, Nat.add_zero]
    rw [← h.cur]

/-- No block was added that was not needed. -/
def Tight (b : ByteArray) : Prop :=
  b.capacity = b.baseSize ∨ b.capacity < b.size + b.baseSize

theorem addCapacity_tight (h : b.WellFormed) (size : Nat) :
    (b.addCapacity size).baseSize = b.baseSize ∧
      ((b.addCapacity size).capacity = b.capacity ∨
        (b.addCapacity size).capacity < b.position + size + b.baseSize) := by
  have hle := Nat.le_trans h.position_le h.size_le
  have hcap := h.getCapacity
  have hB := h.base
  unfold addCapacity
  simp only
  split
  · exact ⟨rfl, Or.inl rfl⟩
  · refine ⟨rfl, Or.inr ?_⟩
    have hdiv := Nat.div_mul_le_self (size - b.getCapacity + b.baseSize - 1) b.baseSize
    simp only
    omega

/-- `write` adds no block that is not needed. -/
theorem write_tight (h : b.WellFormed) (ht : b.Tight) (buf : List UInt8) :
    (b.write buf).2.Tight ∧ (b.write buf).2.baseSize = b.baseSize := by
  by_cases hnil : buf.length = 0
  · rw [write, if_pos hnil]
    exact ⟨ht, rfl⟩
  · obtain ⟨b', hwrite, hwf, hcont, _⟩ := write_spec h buf
    obtain ⟨hbase, hcap⟩ := addCapacity_tight h buf.length
    have hsame : b'.baseSize = (b.addCapacity buf.length).baseSize ∧
        b'.capacity = (b.addCapacity buf.length).capacity := by
      rw [write, if_neg hnil] at hwrite
      simp only at hwrite
      split at hwrite
      · cases hwrite
      · split at hwrite
        · cases hwrite
        · cases hwrite
          exact ⟨rfl, rfl⟩
    have hsize : b'.size = max b.size (b.position + buf.length) := by
      have hlen := congrArg List.length (congrArg Flat.data hcont)
      have hdata := h.contents_length
      have hle := h.position_le
      have hpos : b.contents.pos = b.position := rfl
      rw [hwf.contents_length] at hlen
      simp only [Flat.write, splice, List.length_append, List.length_take, List.length_drop,
        hdata, hpos] at hlen
      omega
    rw [hwrite]
    refine ⟨?_, hsame.1.trans hbase⟩
    rw [Tight, hsame.1, hsame.2, hbase, hsize]
    rcases hcap with hcap | hcap
    · rw [hcap]
      rcases ht with ht | ht
      · exact Or.inl ht
      · exact Or.inr (by omega)
    · exact Or.inr (by omega)

/-- `setPosition` up to the capacity; behind the size it makes the list longer. -/
theorem setPosition_within (h : b.WellFormed) {v : Nat} (hv : v ≤ b.capacity) :
    ∃ b', b.setPosition v = (.ok (), b') ∧ b'.WellFormed ∧ b'.position = v ∧
      b'.size = max b.size v ∧ b'.capacity = b.capacity ∧ b'.baseSize = b.baseSize ∧
      b'.nodes = b.nodes ∧ b'.endian = b.endian := by
  have hseek : seek b.nodes v = some (v / b.baseSize) :=
    seek_spec h.base h.uniform h.root (by rw [h.flatten_length]; exact hv)
  have hsize : (if v > b.size then v else b.size) = max b.size v := by
    split <;> omega
  refine
    ⟨{ b with position := v, size := max b.size v, cur := nodeAt b.nodes (v / b.baseSize) },
      ?_, ?_, rfl, rfl, rfl, rfl, rfl, rfl⟩
  · unfold setPosition
    rw [if_neg (by omega), hseek, hsize]
  · exact
      { base := h.base
        uniform := h.uniform
        root := h.root
        capacity := h.capacity
        size_le := Nat.max_le.mpr ⟨h.size_le, hv⟩
        position_le := Nat.le_max_right _ _
        cur := rfl }

theorem setPosition_spec (h : b.WellFormed) {v : Nat} (hv : v ≤ b.size) :
    ∃ b', b.setPosition v = (.ok (), b') ∧ b'.WellFormed ∧
      b'.contents = { b.contents with pos := v } ∧ b'.endian = b.endian := by
  obtain ⟨b', hset, hwf, hpos, hsize, _, _, hnodes, hendian⟩ :=
    setPosition_within h (Nat.le_trans hv h.size_le)
  refine ⟨b', hset, hwf, ?_, hendian⟩
  simp only [contents]
  rw [hpos, hnodes, hsize, Nat.max_eq_left hv]

theorem clear_contents (b : ByteArray) : b.clear.contents = Flat.empty := by
  simp [clear, contents, Flat.empty]

theorem toString_spec (h : b.WellFormed) : b.toString = .ok b.contents.toString := by
  unfold toString
  rw [h.getReadSize]
  by_cases hzero : b.size - b.position = 0
  · have hempty : b.contents.toString = [] := by
      simp only [Flat.toString, contents]
      rw [List.drop_eq_nil_iff, List.length_take]
      omega
    rw [if_pos hzero, hempty]
  · have hsize := h.size_le
    obtain ⟨k, hloop, _⟩ := h.readLoop (b.size - b.position) (by omega)
    have hall : (b.contents.data.drop b.position).take (b.size - b.position) =
        b.contents.toString :=
      List.take_of_length_le (Nat.le_of_eq (by rw [List.length_drop, h.contents_length]))
    unfold readAt
    rw [if_neg hzero, subSize_of_le h.position_le, if_neg (by omega), h.cur_eq (by omega)]
    simp only [hloop, hall]

end Operations

/-! ## Refinement -/

/-- A call in the domain does what it does on the byte list. -/
theorem call_refines {b : ByteArray} (h : b.WellFormed) {op : Op} {ops : List Op}
    (hadm : Flat.Admissible b.contents (op :: ops)) :
    (b.call op).1 = (b.contents.call op).1 ∧ (b.call op).2.WellFormed ∧
      (b.call op).2.contents = (b.contents.call op).2 := by
  have hop := hadm.1
  cases op with
  | write buf =>
      obtain ⟨b', hwrite, hwf, hcont, _⟩ := write_spec h buf
      rw [call, hwrite]
      exact ⟨rfl, hwf, hcont⟩
  | read size =>
      obtain ⟨b', hread, hwf, hcont, _⟩ := read_spec h hop
      rw [call, hread]
      exact ⟨rfl, hwf, hcont⟩
  | setPosition v =>
      rw [h.contents_length] at hop
      obtain ⟨b', hset, hwf, hcont, _⟩ := setPosition_spec h hop
      rw [call, hset]
      exact ⟨rfl, hwf, hcont⟩
  | clear => exact ⟨rfl, clear_wellFormed h, clear_contents b⟩
  | toString => exact ⟨toString_spec h, h, rfl⟩

/-- A sequence of calls gives the results of the byte list. -/
theorem trace_refines {b : ByteArray} (h : b.WellFormed) (ops : List Op)
    (hadm : b.contents.Admissible ops) : b.trace ops = b.contents.trace ops := by
  induction ops generalizing b with
  | nil => rfl
  | cons op ops ih =>
      obtain ⟨hres, hwf, hcont⟩ := call_refines h hadm
      have hlen := hwf.contents_length
      have hpos : (b.call op).2.contents.pos = (b.call op).2.position := rfl
      have hrest := ih hwf (by rw [hcont]; exact hadm.2)
      simp only [trace, Flat.trace]
      rw [hrest, hcont, hres, ← hlen, ← hpos, hcont]

end ByteArray

/-- **Refinement of the byte list.**  Whatever the block size and the memory that the
blocks are made of, a sequence of calls in the domain gives the bytes, exceptions, sizes
and positions of the byte list; so two block sizes give the same. -/
theorem byteArray_refines_flat {ops : List Op} (hadm : Flat.empty.Admissible ops) :
    (∀ B fresh, 1 ≤ B → (ByteArray.new B fresh).trace ops = Flat.empty.trace ops) ∧
      ∀ B B' fresh fresh', 1 ≤ B → 1 ≤ B' →
        (ByteArray.new B fresh).trace ops = (ByteArray.new B' fresh').trace ops := by
  have hempty : ∀ B fresh, (ByteArray.new B fresh).contents = Flat.empty := by
    intro B fresh
    simp [ByteArray.new, ByteArray.contents, Flat.empty]
  have hflat : ∀ B fresh, 1 ≤ B → (ByteArray.new B fresh).trace ops = Flat.empty.trace ops := by
    intro B fresh hB
    have hrun := ByteArray.trace_refines (ByteArray.new_wellFormed hB fresh) ops
      (by rw [hempty]; exact hadm)
    rw [hrun, hempty]
  exact ⟨hflat, fun B B' fresh fresh' hB hB' =>
    (hflat B fresh hB).trans (hflat B' fresh' hB').symm⟩

/-- Overwriting across a block border, reading to the end, and reading too much. -/
def straddlingOps : List Op :=
  [.write [1, 2, 3], .setPosition 1, .write [7, 8, 9], .setPosition 0, .toString, .read 4, .read 1,
    .clear, .write [5]]

theorem byteArray_refines_flat_straddling :
    (ByteArray.new 2 fun _ _ => 255).trace straddlingOps =
        (ByteArray.new 3 fun _ _ => 0).trace straddlingOps ∧
      (ByteArray.new 2 fun _ _ => 255).trace straddlingOps =
        [⟨.ok [], 3, 3⟩, ⟨.ok [], 3, 1⟩, ⟨.ok [], 4, 4⟩, ⟨.ok [], 4, 0⟩, ⟨.ok [1, 7, 8, 9], 4, 0⟩,
          ⟨.ok [1, 7, 8, 9], 4, 4⟩, ⟨.error .outOfRange, 4, 4⟩, ⟨.ok [], 0, 0⟩, ⟨.ok [], 1, 1⟩] :=
  have hadm : Flat.empty.Admissible straddlingOps := by
    simp [straddlingOps, Flat.Admissible, Flat.empty, Flat.call, Flat.write, splice]
  ⟨(byteArray_refines_flat hadm).2 2 3 _ _ (by decide) (by decide), rfl⟩

end Network
end Hpgs
