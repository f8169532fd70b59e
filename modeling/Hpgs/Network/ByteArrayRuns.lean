import Hpgs.Library.Transition
import Hpgs.Network.StringStream

/-!
# Runs of a `ByteArray`

A run is a sequence of calls of the public member functions, each of which returns or
throws.  The `const` functions that only look at the bytes do not change the object;
`read(buf, size, position)` and `toString` stand for them.  Blocks can be allocated.

**Results.**
* `perform_compact`: every call keeps blocks, sizes, position and cursor consistent,
  whether it returns or throws.
* `representation_invariant`: what holds of them in every reachable state, and that a
  write finds the blocks it needs.
-/

namespace Hpgs
namespace Network

open Transition

/-- The exceptions; after the other faults there is no state. -/
def Fault.thrown : Fault → Bool
  | .outOfRange | .lengthError => true
  | .nullDeref | .overflow => false

/-- The public member functions.  `readFromFile` is given what each `ifs.read` stores in
the buffer until the end of the file is met, or `none` if the file cannot be opened. -/
inductive PublicOp
  | setIsLittleEndian (val : Bool)
  | write (buf : List UInt8)
  | writeValue (v : Value)
  | writeString (c : StringCode) (value : List UInt8)
  | writeStringWithoutLength (value : List UInt8)
  | readFromFile (reads : Option (List (List UInt8)))
  | read (size : Nat)
  | readAt (size position : Nat)
  | readKind (k : Kind)
  | readString (c : StringCode)
  | setPosition (v : Nat)
  | clear
  | toString

namespace ByteArray

/-- The loop of `readFromFile`. -/
def writeReads (b : ByteArray) : List (List UInt8) → Result Unit
  | [] => (.ok (), b)
  | buff :: reads =>
      match b.write buff with
      | (.error e, b') => (.error e, b')
      | (.ok _, b') => writeReads b' reads

def readFromFile (b : ByteArray) : Option (List (List UInt8)) → Result Bool
  | none => (.ok false, b)
  | some reads => ((b.writeReads reads).1.map fun _ => true, (b.writeReads reads).2)

/-- The result of a call without the value it returns. -/
def done {α : Type} (r : Result α) : Result Unit :=
  (r.1.map fun _ => (), r.2)

/-- A call of a public member function. -/
def perform (host : Endian) (b : ByteArray) : PublicOp → Result Unit
  | .setIsLittleEndian val => (.ok (), b.setIsLittleEndian val)
  | .write buf => b.write buf
  | .writeValue v => b.writeValue host v
  | .writeString c value => b.writeString host c value
  | .writeStringWithoutLength value => b.writeStringWithoutLength value
  | .readFromFile reads => done (b.readFromFile reads)
  | .read size => done (b.read size)
  | .readAt size position => ((b.readAt size position).map fun _ => (), b)
  | .readKind k => done (b.readKind host k)
  | .readString c => done (b.readString host c)
  | .setPosition v => b.setPosition v
  | .clear => (.ok (), b.clear)
  | .toString => (b.toString.map fun _ => (), b)

/-- Calls on a new object that return or throw. -/
def calls (host : Endian) (B : Nat) (fresh : Nat → Nat → UInt8) : System ByteArray PublicOp where
  init b := b = new B fresh
  step b op :=
    match b.perform host op with
    | (.ok _, b') => some b'
    | (.error e, b') => if e.thrown then some b' else none

/-! ## What a call keeps -/

section Kept

variable {B : Nat} {b b' : ByteArray}

/-- What only moves the position adds no block. -/
theorem Frame.compact (hf : Frame b b') (hwf : b'.WellFormed) (h : Compact B b) :
    Compact B b' where
  wf := hwf
  tight := by
    rw [Tight, hf.capacity, hf.base, hf.size]
    exact h.tight
  base := hf.base.trans h.base

theorem read_compact (h : Compact B b) (size : Nat) : Compact B (b.read size).2 := by
  refine (read_frame b size).compact ?_ h
  cases size with
  | zero =>
      rw [read_zero h.wf]
      split <;> exact h.wf
  | succ n =>
      obtain ⟨b', hread, hwf, _⟩ := read_spec h.wf (Nat.succ_pos n)
      rw [hread]
      exact hwf

theorem readKind_compact (host : Endian) (h : Compact B b) (k : Kind) :
    Compact B (b.readKind host k).2 :=
  readKind_keeps (P := Compact B) (fun _ size h => read_compact h size) host h k

theorem readString_compact (host : Endian) (h : Compact B b) (c : StringCode) :
    Compact B (b.readString host c).2 := by
  have hkind := readKind_compact host h (lengthValue 0 c).kind
  rw [readString_eq host c 0]
  unfold readBody
  split
  · rename_i e b' hread
    rwa [hread] at hkind
  · rename_i len b' hread
    rw [hread] at hkind
    split
    · exact hkind
    · exact read_compact hkind _

theorem setPosition_compact (h : Compact B b) (v : Nat) : Compact B (b.setPosition v).2 := by
  by_cases hv : v ≤ b.capacity
  · obtain ⟨b', hset, hwf, _, hsize, hcap, hbase, _⟩ := setPosition_within h.wf hv
    rw [hset]
    refine ⟨hwf, ?_, hbase.trans h.base⟩
    rw [Tight, hcap, hbase, hsize]
    rcases h.tight with hone | hlast
    · exact Or.inl hone
    · exact Or.inr (by omega)
  · rw [setPosition, if_pos (by omega)]
    exact h

theorem clear_compact (h : Compact B b) : Compact B b.clear where
  wf := clear_wellFormed h.wf
  tight := Or.inl rfl
  base := h.base

theorem setIsLittleEndian_compact (h : Compact B b) (val : Bool) :
    Compact B (b.setIsLittleEndian val) where
  wf := setIsLittleEndian_wellFormed h.wf val
  tight := h.tight
  base := h.base

theorem write_compact (h : Compact B b) (buf : List UInt8) : Compact B (b.write buf).2 := by
  obtain ⟨b', hwrite, hc', _⟩ := h.write buf
  rw [hwrite]
  exact hc'

theorem writeString_compact (host : Endian) (h : Compact B b) (c : StringCode)
    (value : List UInt8) : Compact B (b.writeString host c value).2 := by
  obtain ⟨b₁, hhead, hc₁, _⟩ := h.write (encoded b.endian (lengthValue value.length c))
  obtain ⟨b₂, hbody, hc₂, _⟩ := hc₁.write value
  rw [writeString_eq, hhead, writeBody, hbody]
  exact hc₂

theorem writeReads_compact (h : Compact B b) (reads : List (List UInt8)) :
    Compact B (b.writeReads reads).2 := by
  induction reads generalizing b with
  | nil => exact h
  | cons buff reads ih =>
      obtain ⟨b', hwrite, hc', _⟩ := h.write buff
      rw [writeReads, hwrite]
      exact ih hc'

/-- **Every call keeps the representation**, also one that throws. -/
theorem perform_compact (host : Endian) (h : Compact B b) (op : PublicOp) :
    Compact B (b.perform host op).2 := by
  cases op with
  | setIsLittleEndian val => exact setIsLittleEndian_compact h val
  | write buf => exact write_compact h buf
  | writeValue v =>
      rw [perform, writeValue_eq]
      exact write_compact h _
  | writeString c value => exact writeString_compact host h c value
  | writeStringWithoutLength value => exact write_compact h value
  | readFromFile reads =>
      cases reads with
      | none => exact h
      | some reads => exact writeReads_compact h reads
  | read size => exact read_compact h size
  | readAt size position => exact h
  | readKind k => exact readKind_compact host h k
  | readString c => exact readString_compact host h c
  | setPosition v => exact setPosition_compact h v
  | clear => exact clear_compact h
  | toString => exact h

theorem calls_step {host : Endian} {fresh : Nat → Nat → UInt8} {op : PublicOp}
    (h : (calls host B fresh).step b op = some b') : b' = (b.perform host op).2 := by
  simp only [calls] at h
  split at h
  · rename_i hdone
    rw [hdone]
    exact (Option.some.inj h).symm
  · rename_i hfault
    rw [hfault]
    split at h
    · exact (Option.some.inj h).symm
    · cases h

theorem reachable_compact {host : Endian} {fresh : Nat → Nat → UInt8} (hB : 1 ≤ B)
    (h : (calls host B fresh).Reachable anyStep b) : Compact B b := by
  refine h.invariant (Compact B) ?_ ?_
  · rintro b rfl
    exact ⟨new_wellFormed hB fresh, Or.inl rfl, rfl⟩
  · intro b op b' hb _ hstep
    rw [calls_step hstep]
    exact perform_compact host hb op

/-- Any bytes can be ahead in a reachable state. -/
theorem stored_reachable (host : Endian) (hB : 1 ≤ B) (fresh : Nat → Nat → UInt8)
    (bytes : List UInt8) :
    ∃ b, (calls host B fresh).Reachable anyStep b ∧ Ahead b bytes := by
  obtain ⟨b₁, hwrite, hwf, hcont, _⟩ := write_spec (new_wellFormed hB fresh) bytes
  obtain ⟨b, hset, hwf', hcont', _⟩ := setPosition_spec hwf (Nat.zero_le b₁.size)
  have hposn : b.position = 0 := congrArg Flat.pos hcont'
  have hempty : (new B fresh).contents = ⟨[], ([] : List UInt8).length⟩ := by
    simp [contents, new]
  have hrun : (calls host B fresh).exec (new B fresh) [.write bytes, .setPosition 0] = some b := by
    simp only [System.exec, calls, perform, hwrite, hset, Option.bind_some]
  rw [hempty, flat_write_end] at hcont
  refine ⟨b, System.exec_reachable rfl hrun, hwf', ?_⟩
  rw [hposn, hcont', hcont]
  simp

theorem addCapacity_room (h : b.WellFormed) (size : Nat) :
    size ≤ (b.addCapacity size).getCapacity := by
  obtain ⟨hwf, _, hpos, _, _, hroom⟩ := addCapacity_spec h size
  rw [hwf.getCapacity, hpos]
  omega

theorem WellFormed.cur_at (h : b.WellFormed) :
    b.cur = if b.position = b.capacity then none else some (b.position / b.baseSize) := by
  have hle := Nat.le_trans h.position_le h.size_le
  by_cases hend : b.position = b.capacity
  · rw [if_pos hend, h.cur, nodeAt, if_neg]
    rw [h.block_lt]
    omega
  · rw [if_neg hend, h.cur_eq (by omega)]

end Kept

end ByteArray

open Hpgs.Network.ByteArray in
/-- **The representation of a `ByteArray`.**  After every run of public calls all blocks
have the base size, the capacity counts them, position, size and capacity are ordered, the
cursor is at the block of the position and null exactly at the end of the last block; so a
write of any length finds its blocks. -/
theorem representation_invariant (host : Endian) {B : Nat} (hB : 1 ≤ B)
    (fresh : Nat → Nat → UInt8) {b : ByteArray}
    (h : (calls host B fresh).Reachable anyStep b) :
    (∀ node ∈ b.nodes, node.length = B) ∧
      b.capacity = B * b.nodes.length ∧
      b.position ≤ b.size ∧ b.size ≤ b.capacity ∧
      b.position + b.getReadSize = b.size ∧ b.position + b.getCapacity = b.capacity ∧
      b.cur = (if b.position = b.capacity then none else some (b.position / B)) ∧
      (∀ k, b.cur = some k → k < b.nodes.length) ∧
      (∀ buf, (b.write buf).1 = .ok ()) ∧
      ∀ size, size ≤ (b.addCapacity size).getCapacity := by
  have hc := reachable_compact hB h
  have hwf := hc.wf
  obtain rfl := hc.base
  have hsize := hwf.size_le
  have hposn := hwf.position_le
  refine ⟨hwf.uniform, hwf.capacity, hposn, hsize, ?_, ?_, hwf.cur_at, ?_, ?_,
    addCapacity_room hwf⟩
  · rw [hwf.getReadSize]
    omega
  · rw [hwf.getCapacity]
    omega
  · intro k hk
    rw [hwf.cur, nodeAt] at hk
    split at hk
    · cases hk
      assumption
    · cases hk
  · intro buf
    obtain ⟨b', hwrite, _⟩ := hc.write buf
    rw [hwrite]

/-- Filling a block, reading it to its end, seeking behind the size and too far, and a
string whose length is read before its body is found to be missing. -/
def cursorOps : List PublicOp :=
  [.write [1, 2], .setPosition 0, .read 2, .write [3], .setPosition 4, .setPosition 5,
    .writeValue ⟨.fuint16, 7⟩, .setPosition 4, .readString .f16, .clear, .writeString .vint [9]]

open Hpgs.Network.ByteArray in
theorem representation_invariant_cursor :
    ∃ b, (calls .little 2 fun _ _ => 0).exec (new 2 fun _ _ => 0) cursorOps = some b ∧
      (∀ node ∈ b.nodes, node.length = 2) ∧
      b.capacity = 2 * b.nodes.length ∧
      b.position ≤ b.size ∧ b.size ≤ b.capacity ∧
      b.position + b.getReadSize = b.size ∧ b.position + b.getCapacity = b.capacity ∧
      b.cur = (if b.position = b.capacity then none else some (b.position / 2)) ∧
      (∀ k, b.cur = some k → k < b.nodes.length) ∧
      (∀ buf, (b.write buf).1 = .ok ()) ∧
      ∀ size, size ≤ (b.addCapacity size).getCapacity := by
  have hrun : ((calls .little 2 fun _ _ => 0).exec (new 2 fun _ _ => 0) cursorOps).isSome := rfl
  obtain ⟨b, hb⟩ := Option.isSome_iff_exists.mp hrun
  exact ⟨b, hb, representation_invariant .little (by decide) _ (System.exec_reachable rfl hb)⟩

end Network
end Hpgs
