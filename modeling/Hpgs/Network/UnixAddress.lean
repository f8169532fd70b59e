import Hpgs.Network.Address

/-!
# Paths of Unix sockets

A `UnixAddress` holds a path in a buffer of fixed size, and the length of what is used of
the address.  A name in the file system is stored with its terminator; an abstract name,
which begins with a null character, without one.  `getPath` tells the two apart by the
first byte alone, and so takes the terminator of the empty path for an abstract name.

**Results.**
* `new_ok`, `new_long`: what the constructor stores, and when it throws.
* `getPath_abstract`, `getPath_name`: what is read back.
* `unix_path_iff`: a path is read back as it should exactly if it is not empty.
-/

namespace Hpgs
namespace Network

/-! ## Definitions -/

/-- `sizeof(sun_path)`. -/
def sizeofSunPath : Nat := 108

/-- `offsetof(sockaddr_un, sun_path)`. -/
def offsetofSunPath : Nat := 2

/-- `sizeof(sockaddr_un)`. -/
def sizeofSockaddrUn : Nat := offsetofSunPath + sizeofSunPath

/-- `UnixAddress`, with the fields of `m_addr` and with `m_length`. -/
structure UnixAddress where
  family : BitVec 16
  sunPath : Vector UInt8 sizeofSunPath
  length : BitVec 32
deriving DecidableEq

/-- Why there is no address: an exception, or an access outside of an array. -/
inductive UnixFailure
  | logicError (what : String)
  | undefined (u : Undefined)
deriving DecidableEq, Repr

/-- `memcpy`, `none` where one of the arrays is too short. -/
def memcpy {n : Nat} (dest : Vector UInt8 n) (src : List UInt8) (count : Nat) :
    Option (Vector UInt8 n) :=
  if h : count ≤ n ∧ count ≤ src.length then
    some ⟨(src.take count ++ dest.toList.drop count).toArray, by simp; omega⟩
  else none

namespace UnixAddress

/-- `AF_UNIX`. -/
def afUnix : BitVec 16 := 1

/-- `UnixAddress(path)`. -/
def new (path : List UInt8) : Except UnixFailure UnixAddress :=
  let size := BitVec.ofNat 32 (path.length + 1)
  let size := if path.head? = some 0 then size - 1 else size
  if sizeofSunPath < size.toNat then .error (.logicError "path too long")
  else
    -- `path.c_str()` has a null character behind the path
    match memcpy (.replicate sizeofSunPath 0) (path ++ [0]) size.toNat with
    | none => .error (.undefined .index)
    | some sunPath =>
        .ok {
          family := afUnix
          sunPath := sunPath
          length := size + BitVec.ofNat 32 offsetofSunPath }

def getAddrlen (a : UnixAddress) : BitVec 32 :=
  a.length

/-- `std::string(sun_path + start, count)`. -/
def slice (a : UnixAddress) (start count : Nat) : Option (List UInt8) :=
  if start + count ≤ sizeofSunPath then some ((a.sunPath.toList.drop start).take count)
  else none

/-- The string at `sun_path`, up to a null character. -/
def cString (a : UnixAddress) : Option (List UInt8) :=
  if 0 ∈ a.sunPath.toList then some (a.sunPath.toList.takeWhile (· != 0)) else none

/-- The two characters that stand for the null character of an abstract name. -/
def abstractMark : List UInt8 :=
  "\\0".toList.map Char.toUInt8

/-- `getPath`, and what `insert` writes. -/
def getPath (a : UnixAddress) : Option (List UInt8) :=
  if offsetofSunPath < a.length.toNat ∧ a.sunPath.toList.head? = some 0 then
    (a.slice 1 (a.length.toNat - offsetofSunPath - 1)).map (abstractMark ++ ·)
  else a.cString

end UnixAddress

open UnixAddress

/-! ## What paths are for -/

/-- The bytes that a path takes, with a terminator unless it is abstract. -/
def storedSize (path : List UInt8) : Nat :=
  path.length + (if path.head? = some 0 then 0 else 1)

/-- There is room for the path. -/
def FitsSunPath (path : List UInt8) : Prop :=
  storedSize path ≤ sizeofSunPath

instance (path : List UInt8) : Decidable (FitsSunPath path) :=
  inferInstanceAs (Decidable (_ ≤ _))

/-- A path that fits is read back, with a mark for the null character of an abstract one;
and a longer path is an error. -/
def PathKept (path : List UInt8) : Prop :=
  if FitsSunPath path then
    ∃ a, new path = .ok a ∧ a.getAddrlen.toNat ≤ sizeofSockaddrUn ∧
      (0 ∉ path → a.getPath = some path) ∧
      ∀ rest, path = 0 :: rest → a.getPath = some (abstractMark ++ rest)
  else new path = .error (.logicError "path too long")

/-! ## What is stored -/

theorem memcpy_toList {n count : Nat} {dest dest' : Vector UInt8 n} {src : List UInt8}
    (h : memcpy dest src count = some dest') :
    dest'.toList = src.take count ++ dest.toList.drop count := by
  unfold memcpy at h
  split at h
  · cases h
    simp
  · cases h

theorem storedSize_le (path : List UInt8) : storedSize path ≤ path.length + 1 := by
  unfold storedSize
  split <;> omega

theorem size_toNat {path : List UInt8} (h : path.length < 2 ^ 32 - 1) :
    (if path.head? = some 0 then BitVec.ofNat 32 (path.length + 1) - 1
      else BitVec.ofNat 32 (path.length + 1)).toNat = storedSize path := by
  have hone : (BitVec.ofNat 32 (path.length + 1)).toNat = path.length + 1 :=
    (BitVec.toNat_ofNat _ _).trans (Nat.mod_eq_of_lt (by omega))
  unfold storedSize
  split
  · rw [BitVec.toNat_sub_of_le (by rw [BitVec.le_def, hone]; simp), hone]
    simp
  · exact hone

/-- A path that fits is stored, and the rest of the buffer stays zero. -/
theorem new_ok {path : List UInt8} (hlen : path.length < 2 ^ 32 - 1) (h : FitsSunPath path) :
    ∃ a, new path = .ok a ∧ a.family = afUnix ∧
      a.getAddrlen.toNat = storedSize path + offsetofSunPath ∧
      a.sunPath.toList = (path ++ [0]).take (storedSize path) ++
        List.replicate (sizeofSunPath - storedSize path) 0 := by
  have hsize := size_toNat hlen
  have hle := storedSize_le path
  obtain ⟨sunPath, hcopy⟩ : ∃ sunPath,
      memcpy (.replicate sizeofSunPath 0) (path ++ [0]) (storedSize path) = some sunPath := by
    unfold memcpy
    rw [dif_pos ⟨h, by simpa using hle⟩]
    exact ⟨_, rfl⟩
  unfold new
  simp only [hsize, hcopy]
  rw [if_neg (Nat.not_lt.mpr h)]
  refine ⟨_, rfl, rfl, ?_, ?_⟩
  · simp only [getAddrlen, BitVec.toNat_add, hsize]
    have hbound : storedSize path + offsetofSunPath < 2 ^ 32 := by
      simp only [FitsSunPath, sizeofSunPath, offsetofSunPath] at h ⊢
      omega
    exact Nat.mod_eq_of_lt hbound
  · rw [memcpy_toList hcopy]
    simp

/-- A longer path is an error. -/
theorem new_long {path : List UInt8} (hlen : path.length < 2 ^ 32 - 1)
    (h : ¬ FitsSunPath path) : new path = .error (.logicError "path too long") := by
  have hlong : sizeofSunPath < storedSize path := Nat.lt_of_not_le h
  unfold new
  simp only [size_toNat hlen]
  rw [if_pos hlong]

/-! ## What is read back -/

/-- The buffer begins with the path and, for a name or the empty path, its terminator. -/
theorem stored_eq {path : List UInt8} (h : FitsSunPath path) :
    (path ++ [0]).take (storedSize path) ++ List.replicate (sizeofSunPath - storedSize path) 0 =
      path ++ List.replicate (sizeofSunPath - path.length) 0 := by
  unfold FitsSunPath at h
  unfold storedSize at h ⊢
  split
  · rw [Nat.add_zero, List.take_left]
  · rename_i hname
    rw [if_neg hname] at h
    have hall : path.length + 1 = (path ++ [0]).length := by simp
    have hsucc : sizeofSunPath - path.length = sizeofSunPath - (path.length + 1) + 1 := by omega
    rw [hall, List.take_length, ← hall, hsucc, List.replicate_succ, List.append_assoc]
    rfl

section Read

variable {a : UnixAddress} {path : List UInt8}

/-- An abstract name is read by its length. -/
theorem getPath_abstract {rest : List UInt8} (hfits : FitsSunPath (0 :: rest))
    (hlen : a.getAddrlen.toNat = storedSize (0 :: rest) + offsetofSunPath)
    (hstored : a.sunPath.toList =
      (0 :: rest) ++ List.replicate (sizeofSunPath - (0 :: rest).length) 0) :
    a.getPath = some (abstractMark ++ rest) := by
  have hsize : storedSize (0 :: rest) = rest.length + 1 := by simp [storedSize]
  rw [FitsSunPath, hsize] at hfits
  rw [hsize, getAddrlen] at hlen
  have hcount : a.length.toNat - offsetofSunPath - 1 = rest.length := by omega
  unfold getPath
  rw [if_pos ⟨by omega, by rw [hstored]; rfl⟩, hcount, slice, if_pos (by omega), hstored]
  simp

/-- A name is read up to its terminator. -/
theorem getPath_name (hne : path ≠ []) (hnul : 0 ∉ path) (hfits : FitsSunPath path)
    (hstored : a.sunPath.toList = path ++ List.replicate (sizeofSunPath - path.length) 0) :
    a.getPath = some path := by
  obtain ⟨x, rest, rfl⟩ := List.exists_cons_of_ne_nil hne
  have hx : x ≠ 0 := fun h => hnul (h ▸ List.mem_cons_self)
  have hroom : (x :: rest).length + 1 ≤ sizeofSunPath := by
    simpa [FitsSunPath, storedSize, hx] using hfits
  obtain ⟨k, hk⟩ : ∃ k, sizeofSunPath - (x :: rest).length = k + 1 :=
    Nat.exists_eq_add_of_le' (by omega)
  have hkeep : ∀ y ∈ x :: rest, (y != 0) = true := by
    intro y hy
    rw [bne_iff_ne]
    rintro rfl
    exact hnul hy
  unfold getPath
  rw [if_neg (by rw [hstored]; simp [hx]), cString, hstored, hk, List.replicate_succ,
    if_pos (by simp), List.takeWhile_append_of_pos hkeep]
  simp

end Read

/-- The terminator of the empty path is taken for an abstract name. -/
theorem new_nil : ∃ a, new [] = .ok a ∧ a.getPath = some abstractMark := by
  have hempty : ([] : List UInt8).length < 2 ^ 32 - 1 := by decide
  obtain ⟨a, hnew, _, hlen, hstored⟩ := new_ok hempty (by decide)
  refine ⟨a, hnew, ?_⟩
  have hlen' : a.length.toNat = 3 := hlen
  unfold getPath
  rw [if_pos ⟨by rw [hlen']; decide, by rw [hstored]; decide⟩, slice, hlen']
  simp [offsetofSunPath, sizeofSunPath]

theorem not_pathKept_nil : ¬ PathKept [] := by
  intro h
  rw [PathKept, if_pos (by decide)] at h
  obtain ⟨a, hnew, _, hpath, _⟩ := h
  obtain ⟨a', hnew', hpath'⟩ := new_nil
  rw [hnew] at hnew'
  cases hnew'
  rw [hpath (by simp)] at hpath'
  exact absurd hpath' (by decide)

/-- **Paths of Unix sockets.**  A path is stored inside of the buffer and read back, or
rejected if it is too long, exactly if it is not empty. -/
theorem unix_path_iff {path : List UInt8} (h : path.length < 2 ^ 32 - 1) :
    PathKept path ↔ path ≠ [] := by
  constructor
  · rintro hkept rfl
    exact not_pathKept_nil hkept
  · intro hne
    unfold PathKept
    split
    · rename_i hfits
      obtain ⟨a, hnew, _, hlen, hstored⟩ := new_ok h hfits
      rw [stored_eq hfits] at hstored
      refine ⟨a, hnew, ?_, fun hnul => getPath_name hne hnul hfits hstored, ?_⟩
      · rw [hlen, sizeofSockaddrUn, Nat.add_comm]
        exact Nat.add_le_add_left hfits _
      · rintro rest rfl
        exact getPath_abstract hfits hlen hstored
    · rename_i hlong
      exact new_long h hlong

/-- An abstract name with a null character in it. -/
theorem unix_path_abstract : PathKept [0, 97, 0, 98] :=
  (unix_path_iff (by decide)).mpr (by decide)

/-- The empty path comes back as two characters. -/
theorem unix_path_empty :
    (∃ a, new [] = .ok a ∧ a.getPath = some abstractMark) ∧ ¬ PathKept [] :=
  ⟨new_nil, not_pathKept_nil⟩

/-! ## Addresses of the kernel -/

end Network
end Hpgs
