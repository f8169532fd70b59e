import Hpgs.Network.PositionalRead

/-!
# A `ByteArray` saved to a file and read back

`writeToFile` writes the unread bytes block by block.  The length of a chunk is the
smaller of what is left and the block size, less the offset in the block, and after each
chunk the walk goes on to the next block.  The offset is kept in an `int`.
`readFromFile` writes what each `ifs.read` of one block size stores.

Sizes are below `2 ^ 53`, so that the casts to `int64_t` keep them.

**Results.**
* `saveLoop_aligned`: from the start of a block on, the bytes are written.
* `saveLoop_zero`, `saveLoop_short`: a walk that starts inside a block and has less than a
  block to write fails.
* `reload_spec`: reading a file into a new object stores its bytes.
* `writeToFile_exact`: when the unread bytes are saved and come back.
-/

namespace Hpgs
namespace Network

open Transition Blocks

/-- How `writeToFile` fails: a null block is dereferenced, a negative length is passed to
`ofs.write`, or bytes before the block are read. -/
inductive SaveFault
  | nullDeref
  | negativeLength
  | beforeBlock
deriving DecidableEq, Repr

namespace ByteArray

/-- `int diff = pos % m_baseSize`. -/
def offsetInt (baseSize pos : Nat) : Int :=
  if pos % baseSize % 2 ^ 32 < 2 ^ 31 then (pos % baseSize % 2 ^ 32 : Nat)
  else (pos % baseSize % 2 ^ 32 : Nat) - 2 ^ 32

/-- The loop of `writeToFile` over the blocks from `cur` on: what is written. -/
def saveLoop (baseSize : Nat) : List (List UInt8) → Nat → Nat → Except SaveFault (List UInt8)
  | _, 0, _ => .ok []
  | [], _ + 1, _ => .error .nullDeref
  | node :: rest, readSize + 1, pos =>
      let diff := offsetInt baseSize pos
      let len : Int := (min (readSize + 1) baseSize : Nat) - diff
      if diff < 0 then .error .beforeBlock
      else if len < 0 then .error .negativeLength
      else
        (saveLoop baseSize rest (readSize + 1 - len.toNat) (pos + len.toNat)).map fun bytes =>
          (node.drop diff.toNat).take len.toNat ++ bytes

/-- `writeToFile`: the content of the file, or `none` if it cannot be opened. -/
def writeToFile (b : ByteArray) (opened : Bool) : Except SaveFault (Option (List UInt8)) :=
  if opened then
    match b.cur with
    | none => if b.getReadSize = 0 then .ok (some []) else .error .nullDeref
    | some c =>
        (saveLoop b.baseSize (b.nodes.drop c) b.getReadSize b.position).map some
  else .ok none

/-- What each `ifs.read` of `m_baseSize` bytes stores until one meets the end of the
file; the last may store nothing. -/
def fileReads (baseSize : Nat) (file : List UInt8) : List (List UInt8) :=
  if file.length < baseSize ∨ baseSize = 0 then [file]
  else file.take baseSize :: fileReads baseSize (file.drop baseSize)
termination_by file.length
decreasing_by
  rw [List.length_drop]
  omega

/-- `readFromFile` into a new object of the given block size, then `setPosition(0)`. -/
def reload (baseSize : Nat) (fresh : Nat → Nat → UInt8) (file : List UInt8) : Result Bool :=
  match (new baseSize fresh).readFromFile (some (fileReads baseSize file)) with
  | (.error e, b) => (.error e, b)
  | (.ok r, b) => ((b.setPosition 0).1.map fun _ => r, (b.setPosition 0).2)

/-- The file holds the unread bytes, and in a new object of any block size they come back
as the string that the object has. -/
def Saved (b : ByteArray) : Prop :=
  b.writeToFile true = .ok (some (b.contents.data.drop b.position)) ∧
    ∀ B' fresh', 1 ≤ B' → ∃ b', reload B' fresh' (b.contents.data.drop b.position) =
        (.ok true, b') ∧
      b'.toString = b.toString

/-- There is nothing to write, or the walk starts at the start of a block, or there is at
least a block to write; and the offset fits into an `int`. -/
def SavesCleanly (b : ByteArray) : Prop :=
  b.position = b.size ∨
    (b.position % b.baseSize < 2 ^ 31 ∧
      (b.position % b.baseSize = 0 ∨ b.baseSize ≤ b.size - b.position))

/-! ## The walk of writeToFile -/

section Save

variable {B : Nat} {nodes : List (List UInt8)} {readSize pos : Nat}

theorem offsetInt_of_lt (h : pos % B < 2 ^ 31) : offsetInt B pos = (pos % B : Nat) := by
  unfold offsetInt
  split <;> omega

theorem offsetInt_of_ge (h : 2 ^ 31 ≤ pos % B) (hB : B ≤ 2 ^ 32) (hone : 1 ≤ B) :
    offsetInt B pos < 0 := by
  have hmod : pos % B < B := Nat.mod_lt _ hone
  unfold offsetInt
  split <;> omega

theorem saveLoop_done : saveLoop B nodes 0 pos = .ok [] := by
  cases nodes <;> rfl

/-- One pass, at an offset that fits into an `int`. -/
theorem saveLoop_cons {node : List UInt8} {rest : List (List UInt8)} (hone : 1 ≤ readSize)
    (hoff : pos % B < 2 ^ 31) :
    saveLoop B (node :: rest) readSize pos =
      if min readSize B < pos % B then .error .negativeLength
      else
        (saveLoop B rest (readSize - (min readSize B - pos % B))
            (pos + (min readSize B - pos % B))).map fun bytes =>
          (node.drop (pos % B)).take (min readSize B - pos % B) ++ bytes := by
  obtain ⟨n, rfl⟩ : ∃ n, readSize = n + 1 := ⟨readSize - 1, by omega⟩
  have hdiff : (offsetInt B pos).toNat = pos % B := by
    rw [offsetInt_of_lt hoff]
    rfl
  have hnonneg : ¬ offsetInt B pos < 0 := by
    rw [offsetInt_of_lt hoff]
    omega
  have hlen : (((min (n + 1) B : Nat) : Int) - offsetInt B pos).toNat =
      min (n + 1) B - pos % B := by
    rw [offsetInt_of_lt hoff]
    omega
  have hneg : ((min (n + 1) B : Nat) : Int) - offsetInt B pos < 0 ↔
      min (n + 1) B < pos % B := by
    rw [offsetInt_of_lt hoff]
    omega
  simp only [saveLoop, if_neg hnonneg, hneg, hdiff, hlen]

/-- At an offset that does not fit, the bytes before the block are read. -/
theorem saveLoop_beforeBlock {node : List UInt8} {rest : List (List UInt8)}
    (hone : 1 ≤ readSize) (hneg : offsetInt B pos < 0) :
    saveLoop B (node :: rest) readSize pos = .error .beforeBlock := by
  obtain ⟨n, rfl⟩ : ∃ n, readSize = n + 1 := ⟨readSize - 1, by omega⟩
  simp only [saveLoop, if_pos hneg]

/-- From the start of a block on, the bytes are written. -/
theorem saveLoop_aligned (hB : 1 ≤ B) (hu : Uniform B nodes) (halign : pos % B = 0)
    (hfit : readSize ≤ nodes.flatten.length) :
    saveLoop B nodes readSize pos = .ok (nodes.flatten.take readSize) := by
  induction nodes generalizing readSize pos with
  | nil =>
      have hzero : readSize = 0 := by
        simp only [List.flatten_nil, List.length_nil] at hfit
        omega
      subst hzero
      rw [saveLoop_done, List.take_zero]
  | cons node rest ih =>
      have hnode : node.length = B := hu node List.mem_cons_self
      have hrest : Uniform B rest := fun c hc => hu c (List.mem_cons_of_mem _ hc)
      simp only [List.flatten_cons, List.length_append] at hfit
      by_cases hzero : readSize = 0
      · subst hzero
        rw [saveLoop_done, List.take_zero]
      · rw [saveLoop_cons (by omega) (by omega), halign, if_neg (by omega), Nat.sub_zero,
          List.drop_zero, List.flatten_cons]
        by_cases hle : readSize ≤ B
        · -- the last block
          rw [Nat.min_eq_left hle, Nat.sub_self,
            List.take_append_of_le_length (by omega : readSize ≤ node.length), saveLoop_done]
          simp [Except.map]
        · have hnext : (pos + B) % B = 0 := by
            rw [Nat.add_mod_right]
            exact halign
          rw [Nat.min_eq_right (by omega), ih hrest hnext (by omega), List.take_append,
            hnode, List.take_of_length_le (Nat.le_of_eq hnode),
            List.take_of_length_le (by omega : node.length ≤ readSize)]
          rfl

/-- From inside a block on, with at least a block to write. -/
theorem saveLoop_full (hB : 1 ≤ B) (hu : Uniform B nodes) (hoff : pos % B < 2 ^ 31)
    (hblock : B ≤ readSize) (hfit : pos % B + readSize ≤ nodes.flatten.length) :
    saveLoop B nodes readSize pos = .ok ((nodes.flatten.drop (pos % B)).take readSize) := by
  have hmod : pos % B < B := Nat.mod_lt _ hB
  have hdiv := Nat.div_add_mod pos B
  cases nodes with
  | nil =>
      simp only [List.flatten_nil, List.length_nil] at hfit
      omega
  | cons node rest =>
      have hnode : node.length = B := hu node List.mem_cons_self
      have hrest : Uniform B rest := fun c hc => hu c (List.mem_cons_of_mem _ hc)
      simp only [List.flatten_cons, List.length_append] at hfit
      -- the first chunk ends with its block
      have hnext : (pos + (B - pos % B)) % B = 0 := by
        have hsum : pos + (B - pos % B) = B * (pos / B + 1) := by
          rw [Nat.mul_add, Nat.mul_one]
          omega
        rw [hsum, Nat.mul_mod_right]
      have hdrop : (node.drop (pos % B)).length = B - pos % B := by
        rw [List.length_drop, hnode]
      rw [saveLoop_cons (by omega) hoff, Nat.min_eq_right hblock, if_neg (by omega),
        saveLoop_aligned hB hrest hnext (by omega), List.flatten_cons,
        List.drop_append_of_le_length (by omega : pos % B ≤ node.length), List.take_append,
        hdrop, List.take_of_length_le (Nat.le_of_eq hdrop),
        List.take_of_length_le (by omega : (node.drop (pos % B)).length ≤ readSize)]
      rfl

/-- A chunk of no byte leaves everything as it is but the block, until there is none. -/
theorem saveLoop_zero (hone : 1 ≤ readSize) (hoff : pos % B < 2 ^ 31)
    (hmin : min readSize B = pos % B) :
    saveLoop B nodes readSize pos = .error .nullDeref := by
  induction nodes with
  | nil =>
      obtain ⟨n, rfl⟩ : ∃ n, readSize = n + 1 := ⟨readSize - 1, by omega⟩
      rfl
  | cons node rest ih =>
      rw [saveLoop_cons hone hoff, hmin, if_neg (Nat.lt_irrefl _), Nat.sub_self, Nat.sub_zero,
        Nat.add_zero, ih]
      rfl

/-- From inside a block on, with less than a block to write, in blocks of at most
4 GiB. -/
theorem saveLoop_short (hB : B ≤ 2 ^ 32) (hone : 1 ≤ readSize) (hshort : readSize < B)
    (hinside : 0 < pos % B) :
    ∀ bytes, saveLoop B nodes readSize pos ≠ .ok bytes := by
  have hmod : pos % B < B := Nat.mod_lt _ (by omega)
  have hmin : min readSize B = readSize := Nat.min_eq_left (Nat.le_of_lt hshort)
  intro bytes
  cases nodes with
  | nil =>
      obtain ⟨n, rfl⟩ : ∃ n, readSize = n + 1 := ⟨readSize - 1, by omega⟩
      exact nofun
  | cons node rest =>
      by_cases hoff : pos % B < 2 ^ 31
      · rcases Nat.lt_trichotomy readSize (pos % B) with hlt | heq | hgt
        · rw [saveLoop_cons hone hoff, hmin, if_pos hlt]
          exact nofun
        · rw [saveLoop_zero hone hoff (hmin.trans heq)]
          exact nofun
        · -- the second chunk has the offset `readSize` and `pos % B` bytes to write
          have hsecond : (pos + (readSize - pos % B)) % B = readSize := by
            have hdiv := Nat.div_add_mod pos B
            have hsum : pos + (readSize - pos % B) = B * (pos / B) + readSize := by omega
            rw [hsum, Nat.mul_add_mod, Nat.mod_eq_of_lt hshort]
          have hleft : readSize - (readSize - pos % B) = pos % B := by omega
          rw [saveLoop_cons hone hoff, hmin, if_neg (by omega), hleft]
          have herror : ∃ e, saveLoop B rest (pos % B) (pos + (readSize - pos % B)) =
              .error e := by
            cases rest with
            | nil =>
                obtain ⟨n, hn⟩ : ∃ n, pos % B = n + 1 := ⟨pos % B - 1, by omega⟩
                rw [hn]
                exact ⟨_, rfl⟩
            | cons next rest =>
                by_cases hbig : readSize < 2 ^ 31
                · rw [saveLoop_cons hinside (by rw [hsecond]; exact hbig), hsecond,
                    if_pos (by omega)]
                  exact ⟨_, rfl⟩
                · exact ⟨_, saveLoop_beforeBlock hinside
                    (offsetInt_of_ge (by rw [hsecond]; omega) hB (by omega))⟩
          obtain ⟨e, he⟩ := herror
          rw [he]
          exact nofun
      · rw [saveLoop_beforeBlock hone (offsetInt_of_ge (by omega) hB (by omega))]
        exact nofun

end Save

/-! ## The file read back -/

theorem flatten_fileReads {B : Nat} (file : List UInt8) :
    (fileReads B file).flatten = file := by
  fun_induction fileReads B file with
  | case1 file _ => simp
  | case2 file _ ih => rw [List.flatten_cons, ih, List.take_append_drop]

/-- Writing at the end of the bytes appends them. -/
theorem writeReads_append {b : ByteArray} (h : b.WellFormed) (reads : List (List UInt8))
    (hend : b.position = b.size) :
    ∃ b', b.writeReads reads = (.ok (), b') ∧ b'.WellFormed ∧
      b'.contents.data = b.contents.data ++ reads.flatten := by
  induction reads generalizing b with
  | nil => exact ⟨b, rfl, h, by simp⟩
  | cons buff reads ih =>
      obtain ⟨b₁, hwrite, hwf₁, hcont, _⟩ := write_spec h buff
      have hlen := h.contents_length
      have hpos : b.contents.pos = b.contents.data.length := by
        rw [hlen]
        exact hend
      have hdata : b₁.contents.data = b.contents.data ++ buff := by
        rw [hcont, Flat.write, splice, hpos, List.take_length,
          List.drop_eq_nil_of_le (by omega), List.append_nil]
      have hend₁ : b₁.position = b₁.size := by
        have hpos₁ : b₁.contents.pos = b.contents.pos + buff.length := by
          rw [hcont]
          rfl
        have hlen₁ := hwf₁.contents_length
        have hcur : b₁.contents.pos = b₁.position := rfl
        rw [hdata, List.length_append] at hlen₁
        omega
      obtain ⟨b', hreads, hwf', hdata'⟩ := ih hwf₁ hend₁
      refine ⟨b', ?_, hwf', ?_⟩
      · rw [writeReads, hwrite]
        exact hreads
      · rw [hdata', hdata, List.flatten_cons, List.append_assoc]

/-- A file read into a new object, from its first byte on. -/
theorem reload_spec {B : Nat} (hB : 1 ≤ B) (fresh : Nat → Nat → UInt8)
    (file : List UInt8) :
    ∃ b', reload B fresh file = (.ok true, b') ∧ b'.toString = .ok file := by
  have hwf := new_wellFormed hB fresh
  obtain ⟨b₁, hreads, hwf₁, hdata⟩ := writeReads_append hwf (fileReads B file) rfl
  have hempty : (new B fresh).contents.data = [] := by simp [new, contents]
  rw [flatten_fileReads, hempty, List.nil_append] at hdata
  obtain ⟨b₂, hset, hwf₂, hcont, _⟩ := setPosition_spec hwf₁ (Nat.zero_le _)
  refine ⟨b₂, ?_, ?_⟩
  · simp only [reload, readFromFile, hreads, Except.map, hset]
  · rw [toString_spec hwf₂, hcont, Flat.toString, hdata, List.drop_zero]

/-! ## Saving -/

section Saving

variable {b : ByteArray}

/-- The walk of `writeToFile`, where there is something to write. -/
theorem writeToFile_eq (h : b.WellFormed) (hlt : b.position < b.size) :
    b.writeToFile true =
      (saveLoop b.baseSize (b.nodes.drop (b.position / b.baseSize)) (b.size - b.position)
        b.position).map some := by
  have hsize := h.size_le
  have hcur := h.cur_eq (by omega)
  simp only [writeToFile, if_true, hcur, h.getReadSize]

/-- The unread bytes, seen from the block of the position on. -/
theorem unread_eq (h : b.WellFormed) :
    b.contents.data.drop b.position =
      ((b.nodes.drop (b.position / b.baseSize)).flatten.drop
        (b.position % b.baseSize)).take (b.size - b.position) := by
  have hdiv := Nat.div_add_mod b.position b.baseSize
  rw [h.behind, List.drop_drop, hdiv, contents, List.drop_take]

/-- Under the condition the file holds the unread bytes. -/
theorem writeToFile_clean (h : b.WellFormed) (hclean : b.SavesCleanly) :
    b.writeToFile true = .ok (some (b.contents.data.drop b.position)) := by
  have hsize := h.size_le
  have hposn := h.position_le
  have hbehind := h.behind_length
  have hun := h.uniform.drop (b.position / b.baseSize)
  by_cases hend : b.position = b.size
  · have hempty : b.contents.data.drop b.position = [] := by
      rw [List.drop_eq_nil_iff, h.contents_length]
      omega
    have hzero : b.getReadSize = 0 := by
      rw [h.getReadSize]
      omega
    rw [hempty]
    cases hcur : b.cur with
    | none => simp [writeToFile, hcur, hzero]
    | some c => simp [writeToFile, hcur, hzero, saveLoop_done, Except.map]
  · obtain ⟨hoff, hblock⟩ := hclean.resolve_left hend
    rw [writeToFile_eq h (by omega), unread_eq h]
    rcases hblock with halign | hblock
    · rw [saveLoop_aligned h.base hun halign (by omega), halign, List.drop_zero]
      rfl
    · rw [saveLoop_full h.base hun hoff hblock (by omega)]
      rfl

/-- In blocks of at most 4 GiB the condition is needed. -/
theorem savesCleanly_of_writeToFile (h : b.WellFormed) (hB : b.baseSize ≤ 2 ^ 32)
    {bytes : Option (List UInt8)} (hsave : b.writeToFile true = .ok bytes) :
    b.SavesCleanly := by
  have hposn := h.position_le
  by_cases hend : b.position = b.size
  · exact Or.inl hend
  · rw [writeToFile_eq h (by omega)] at hsave
    cases hloop : saveLoop b.baseSize (b.nodes.drop (b.position / b.baseSize))
        (b.size - b.position) b.position with
    | error e =>
        rw [hloop] at hsave
        cases hsave
    | ok written =>
        right
        by_contra hc
        by_cases hoff : b.position % b.baseSize < 2 ^ 31
        · have hunclean : 0 < b.position % b.baseSize ∧ b.size - b.position < b.baseSize := by
            omega
          exact saveLoop_short hB (by omega) hunclean.2 hunclean.1 written hloop
        · have hneg := offsetInt_of_ge (Nat.not_lt.mp hoff) hB h.base
          obtain ⟨node, rest, hnodes⟩ : ∃ node rest,
              b.nodes.drop (b.position / b.baseSize) = node :: rest := by
            have hsize := h.size_le
            have hlt := h.block_lt.mpr (by omega : b.position < b.capacity)
            exact ⟨_, _, List.drop_eq_getElem_cons hlt⟩
          rw [hnodes, saveLoop_beforeBlock (by omega) hneg] at hloop
          cases hloop

/-- A file with the unread bytes comes back as the string of the object. -/
theorem saved_of_writeToFile (h : b.WellFormed)
    (hsave : b.writeToFile true = .ok (some (b.contents.data.drop b.position))) :
    b.Saved := by
  refine ⟨hsave, ?_⟩
  intro B' fresh' hB'
  obtain ⟨b', hreload, hstring⟩ := reload_spec hB' fresh' (b.contents.data.drop b.position)
  exact ⟨b', hreload, hstring.trans (toString_spec h).symm⟩

end Saving

end ByteArray

open Hpgs.Network.ByteArray in
/-- **Saving a `ByteArray`.**  In every reachable state in which there is nothing left to
write, or the position starts a block, or at least a block is left to write (and the
offset in the block fits into an `int`): `writeToFile` ends with exactly the unread bytes
in the file, and they come back through `readFromFile` into a new object of any block
size.  In blocks of at most 4 GiB it does so in no other state. -/
theorem writeToFile_exact (host : Endian) {B : Nat} (hB : 1 ≤ B)
    (fresh : Nat → Nat → UInt8) {b : ByteArray}
    (h : (calls host B fresh).Reachable anyStep b) :
    (b.SavesCleanly → b.Saved) ∧ (B ≤ 2 ^ 32 → (b.Saved ↔ b.SavesCleanly)) := by
  have hc := reachable_compact hB h
  have hwf := hc.wf
  obtain rfl := hc.base
  have himp : b.SavesCleanly → b.Saved :=
    fun hclean => saved_of_writeToFile hwf (writeToFile_clean hwf hclean)
  exact ⟨himp, fun hsmall =>
    ⟨fun hsaved => savesCleanly_of_writeToFile hwf hsmall hsaved.1, himp⟩⟩

open Hpgs.Network.ByteArray in
theorem writeToFile_exact_fourBytes :
    ∃ b, (calls .little 2 fun _ _ => 0).Reachable anyStep b ∧ b.Saved := by
  obtain ⟨b, hreach, _, hposn, _⟩ := fourBytes_reachable
  refine ⟨b, hreach, (writeToFile_exact .little (by decide) _ hreach).1 ?_⟩
  right
  rw [hposn, Nat.zero_mod]
  exact ⟨by decide, Or.inl rfl⟩

/-- Four bytes in one block of eight, with the cursor at the second. -/
def insideBlock : List PublicOp :=
  [.write [1, 2, 3, 4], .setPosition 1]

open Hpgs.Network.ByteArray in
/-- The walk writes two of the three unread bytes and then meets the null block; with the
cursor at the fourth byte, the length of the first chunk is negative. -/
theorem writeToFile_inside_block :
    (∃ b, (calls .little 8 fun _ _ => 0).Reachable anyStep b ∧
        b.contents.data.drop b.position = [2, 3, 4] ∧
        b.writeToFile true = .error .nullDeref) ∧
      ∃ b, (calls .little 8 fun _ _ => 0).Reachable anyStep b ∧
        b.contents.data.drop b.position = [4] ∧
        b.writeToFile true = .error .negativeLength := by
  refine ⟨?_, ?_⟩
  · have hrun : ((calls .little 8 fun _ _ => 0).exec (new 8 fun _ _ => 0) insideBlock).map
        (fun b => (b.contents.data.drop b.position, b.writeToFile true)) =
        some ([2, 3, 4], .error .nullDeref) := rfl
    obtain ⟨b, hb, hfields⟩ := Option.map_eq_some_iff.mp hrun
    simp only [Prod.mk.injEq] at hfields
    exact ⟨b, System.exec_reachable rfl hb, hfields⟩
  · have hrun : ((calls .little 8 fun _ _ => 0).exec (new 8 fun _ _ => 0)
        [.write [1, 2, 3, 4], .setPosition 3]).map
        (fun b => (b.contents.data.drop b.position, b.writeToFile true)) =
        some ([4], .error .negativeLength) := rfl
    obtain ⟨b, hb, hfields⟩ := Option.map_eq_some_iff.mp hrun
    simp only [Prod.mk.injEq] at hfields
    exact ⟨b, System.exec_reachable rfl hb, hfields⟩

end Network
end Hpgs
