import Hpgs.Library.Lexicographic
import Hpgs.Network.IPv4Address
import Hpgs.Network.IPv6Address
import Hpgs.Network.UnixAddress

/-!
# The order of addresses

Addresses of all families are compared by the bytes that `getAddr` points to, as many as
`getAddrlen` says: first those that both have, and then the lengths.

**Results.**
* `less_eq`, `equal_iff`: the comparisons, by the bytes of the addresses.
* `address_order`: the order can be the order of the keys of a map.
* `equal_iff_contents`: addresses are equal if they are of one family and made of the same,
  except for the empty path, which equals the empty abstract name.
-/

namespace Hpgs
namespace Network

open Digits Lexicographic

open Hpgs.Network.ByteArray (memory ofMemory ofMemory_memory)

/-! ## Definitions -/

/-- An address as the comparisons see it: the object that `getAddr` points to, and
`getAddrlen`, which does not go beyond it. -/
structure Sockaddr where
  addr : List UInt8
  addrlen : BitVec 32
  addrlen_le : addrlen.toNat ≤ addr.length

/-- `memcmp`: bytes are compared as numbers without a sign. -/
def memcmp (s1 s2 : List UInt8) (n : Nat) : Ordering :=
  compareFront n (s1.map UInt8.toNat) (s2.map UInt8.toNat)

namespace Sockaddr

/-- `operator<`. -/
def less (a b : Sockaddr) : Bool :=
  let minlen := min a.addrlen.toNat b.addrlen.toNat
  match memcmp a.addr b.addr minlen with
  | .lt => true
  | .gt => false
  | .eq => a.addrlen.ult b.addrlen

/-- `operator==`. -/
def equal (a b : Sockaddr) : Bool :=
  a.addrlen == b.addrlen && memcmp a.addr b.addr a.addrlen.toNat == .eq

/-- The bytes of the address, as numbers. -/
def key (a : Sockaddr) : List Nat :=
  (a.addr.take a.addrlen.toNat).map UInt8.toNat

/-! ## The order -/

variable (a b : Sockaddr)

theorem length_key : a.key.length = a.addrlen.toNat := by
  rw [key, List.length_map, List.length_take, Nat.min_eq_left a.addrlen_le]

/-- Only the bytes of the addresses are compared. -/
theorem memcmp_key {n : Nat} (ha : n ≤ a.addrlen.toNat) (hb : n ≤ b.addrlen.toNat) :
    memcmp a.addr b.addr n = compareFront n a.key b.key := by
  rw [key, key, List.map_take, List.map_take, compareFront_take ha hb]
  rfl

theorem less_eq : a.less b = shorter a.key b.key := by
  unfold less shorter
  rw [length_key, length_key]
  simp only [memcmp_key a b (Nat.min_le_left _ _) (Nat.min_le_right _ _)]
  rfl

theorem equal_iff : a.equal b = true ↔ a.key = b.key := by
  unfold equal
  rw [Bool.and_eq_true, beq_iff_eq, beq_iff_eq]
  constructor
  · rintro ⟨hlen, hcmp⟩
    have ha := a.length_key
    have hb := b.length_key
    rw [← hlen] at hb
    rw [memcmp_key a b (Nat.le_refl _) (Nat.le_of_eq (congrArg BitVec.toNat hlen)),
      compareFront_eq_iff (Nat.le_of_eq ha.symm) (Nat.le_of_eq hb.symm)] at hcmp
    rwa [← ha, List.take_length, ha, ← hb, List.take_length] at hcmp
  · intro hkey
    have hlen : a.addrlen = b.addrlen := by
      apply BitVec.eq_of_toNat_eq
      rw [← length_key, ← length_key, hkey]
    refine ⟨hlen, ?_⟩
    rw [memcmp_key a b (Nat.le_refl _) (Nat.le_of_eq (congrArg BitVec.toNat hlen)), hkey,
      compareFront_eq_iff _ _]
    · rw [length_key, hlen]
    · rw [length_key, hlen]

end Sockaddr

/-- **The order of addresses** is a strict total order, and `==` is its equality. -/
theorem address_order : KeyOrder Sockaddr.less Sockaddr.equal :=
  keyOrder_shorter Sockaddr.key Sockaddr.less_eq Sockaddr.equal_iff

/-! ## The bytes of the families -/

section Bytes

variable {w n : Nat} {host : Endian}

theorem length_memory (host : Endian) (v : BitVec w) : (memory host v).length = w / 8 := by
  cases host with
  | little => exact length_digits _ _
  | big => rw [memory, List.length_reverse, length_digits]

theorem memory_inj (hw : w = 8 * n) {v v' : BitVec w} (h : memory host v = memory host v') :
    v = v' := by
  rw [← ofMemory_memory hw host v, h, ofMemory_memory hw]

/-- A number, and what is behind it. -/
theorem memory_append_inj (hw : w = 8 * n) {v v' : BitVec w} {rest rest' : List UInt8}
    (h : memory host v ++ rest = memory host v' ++ rest') : v = v' ∧ rest = rest' := by
  obtain ⟨hv, hrest⟩ := List.append_inj h (by rw [length_memory, length_memory])
  exact ⟨memory_inj hw hv, hrest⟩

theorem toNat_injective : Function.Injective UInt8.toNat :=
  fun _ _ h => UInt8.toNat_inj.mp h

end Bytes

/-- `sockaddr_in`, with zeros in `sin_zero`. -/
def IPv4Address.sockaddr (host : Endian) (a : IPv4Address) : Sockaddr where
  addr := memory host a.family ++ (memory host a.port ++ (memory host a.sAddr ++
    List.replicate 8 0))
  addrlen := 16
  addrlen_le := by simp [length_memory]

/-- `sockaddr_in6`. -/
def IPv6Address.sockaddr (host : Endian) (a : IPv6Address) : Sockaddr where
  addr := memory host a.family ++ (memory host a.port ++ (memory host a.flowinfo ++
    (a.s6Addr.toList.map UInt8.ofBitVec ++ memory host a.scopeId)))
  addrlen := 28
  addrlen_le := by simp [length_memory]

/-- The used part of `sockaddr_un`. -/
def UnixAddress.sockaddr (host : Endian) (a : UnixAddress)
    (h : a.getAddrlen.toNat ≤ sizeofSockaddrUn) : Sockaddr where
  addr := memory host a.family ++ a.sunPath.toList
  addrlen := a.getAddrlen
  addrlen_le := by simpa [length_memory, sizeofSockaddrUn, offsetofSunPath] using h

/-- What an address of each family is made of. -/
inductive Contents
  | inet (port : BitVec 16) (sAddr : BitVec 32)
  | inet6 (port : BitVec 16) (flowinfo : BitVec 32) (s6Addr : Vector (BitVec 8) 16)
      (scopeId : BitVec 32)
  | unix (path : List UInt8)

namespace Contents

/-- The object that is compared, of an address that is made of `x`.  There is none for a path
that is too long, and the length of a path is an `unsigned`. -/
def Makes (host : Endian) (x : Contents) (s : Sockaddr) : Prop :=
  match x with
  | inet port sAddr => s = IPv4Address.sockaddr host ⟨IPv4Address.afInet, port, sAddr⟩
  | inet6 port flowinfo s6Addr scopeId =>
      s = IPv6Address.sockaddr host ⟨IPv6Address.afInet6, port, flowinfo, s6Addr, scopeId⟩
  | unix path => path.length < 2 ^ 32 - 1 ∧ ∃ a h, UnixAddress.new path = .ok a ∧
      s = UnixAddress.sockaddr host a h

def family : Contents → BitVec 16
  | inet _ _ => IPv4Address.afInet
  | inet6 _ _ _ _ => IPv6Address.afInet6
  | unix _ => UnixAddress.afUnix

/-- What is compared behind the family. -/
def rest (host : Endian) : Contents → List UInt8
  | inet port sAddr => memory host port ++ (memory host sAddr ++ List.replicate 8 0)
  | inet6 port flowinfo s6Addr scopeId =>
      memory host port ++ (memory host flowinfo ++
        (s6Addr.toList.map UInt8.ofBitVec ++ memory host scopeId))
  | unix path => (path ++ [0]).take (storedSize path)

/-- The empty path, whose terminator is stored, and the empty abstract name. -/
def Unnamed (x : Contents) : Prop :=
  x = unix [] ∨ x = unix [0]

/-! ## What is compared -/

/-- An address that fills its object is compared as a whole. -/
theorem key_of_full {s : Sockaddr} (h : s.addr.length = s.addrlen.toNat) :
    s.key = s.addr.map UInt8.toNat := by
  rw [Sockaddr.key, ← h, List.take_length]

theorem length_stored (path : List UInt8) :
    ((path ++ [0]).take (storedSize path)).length = storedSize path := by
  have hle := storedSize_le path
  rw [List.length_take, List.length_append, List.length_singleton]
  omega

/-- Of the address of a path, the family is compared and what is stored of the path. -/
theorem key_unix {host : Endian} {path : List UInt8} {a : UnixAddress}
    (hlen : path.length < 2 ^ 32 - 1) (hnew : UnixAddress.new path = .ok a)
    (h : a.getAddrlen.toNat ≤ sizeofSockaddrUn) :
    (a.sockaddr host h).key =
      (memory host UnixAddress.afUnix ++ (path ++ [0]).take (storedSize path)).map
        UInt8.toNat := by
  have hfits : FitsSunPath path := by
    by_contra hnot
    rw [new_long hlen hnot] at hnew
    cases hnew
  obtain ⟨b, hb, hfamily, hsize, hstored⟩ := new_ok hlen hfits
  obtain rfl : b = a := Except.ok.inj (hb.symm.trans hnew)
  have htake : b.getAddrlen.toNat =
      (memory host UnixAddress.afUnix ++ (path ++ [0]).take (storedSize path)).length := by
    rw [hsize, List.length_append, length_stored, length_memory, Nat.add_comm]
    rfl
  rw [Sockaddr.key]
  simp only [UnixAddress.sockaddr]
  rw [hfamily, hstored, ← List.append_assoc, htake, List.take_left]

theorem Makes.key {host : Endian} {x : Contents} {s : Sockaddr} (h : x.Makes host s) :
    s.key = (memory host x.family ++ x.rest host).map UInt8.toNat := by
  cases x with
  | inet port sAddr =>
      obtain rfl : s = _ := h
      exact key_of_full (by simp [IPv4Address.sockaddr, length_memory])
  | inet6 port flowinfo s6Addr scopeId =>
      obtain rfl : s = _ := h
      exact key_of_full (by simp [IPv6Address.sockaddr, length_memory])
  | unix path =>
      obtain ⟨hlen, a, hsize, hnew, rfl⟩ := h
      exact key_unix hlen hnew hsize

/-! ## Equal addresses -/

/-- A name is stored with its terminator, and an abstract name as it is. -/
theorem stored_of_name {path : List UInt8} (h : path.head? ≠ some 0) :
    (path ++ [0]).take (storedSize path) = path ++ [0] := by
  rw [storedSize, if_neg h]
  exact List.take_of_length_le (by simp)

theorem stored_of_abstract {path : List UInt8} (h : path.head? = some 0) :
    (path ++ [0]).take (storedSize path) = path := by
  rw [storedSize, if_pos h, Nat.add_zero, List.take_left]

/-- An abstract name that is stored as a name with its terminator is empty. -/
theorem unnamed_of_stored {path name : List UInt8} (hpath : path.head? = some 0)
    (hname : name.head? ≠ some 0) (h : path = name ++ [0]) : path = [0] ∧ name = [] := by
  cases name with
  | nil => exact ⟨h, rfl⟩
  | cons c name =>
      rw [h] at hpath
      exact absurd hpath hname

theorem unix_of_stored {path path' : List UInt8}
    (h : (path ++ [0]).take (storedSize path) = (path' ++ [0]).take (storedSize path')) :
    path = path' ∨ (unix path).Unnamed ∧ (unix path').Unnamed := by
  by_cases hp : path.head? = some 0
  · rw [stored_of_abstract hp] at h
    by_cases hp' : path'.head? = some 0
    · rw [stored_of_abstract hp'] at h
      exact Or.inl h
    · rw [stored_of_name hp'] at h
      obtain ⟨rfl, rfl⟩ := unnamed_of_stored hp hp' h
      exact Or.inr ⟨Or.inr rfl, Or.inl rfl⟩
  · rw [stored_of_name hp] at h
    by_cases hp' : path'.head? = some 0
    · rw [stored_of_abstract hp'] at h
      obtain ⟨rfl, rfl⟩ := unnamed_of_stored hp' hp h.symm
      exact Or.inr ⟨Or.inl rfl, Or.inr rfl⟩
    · rw [stored_of_name hp'] at h
      exact Or.inl (List.append_cancel_right h)

/-- Contents of one family that are compared as the same are the same. -/
theorem eq_of_rest {host : Endian} {x y : Contents} (hfamily : x.family = y.family)
    (h : x.rest host = y.rest host) : x = y ∨ x.Unnamed ∧ y.Unnamed := by
  cases x with
  | inet port sAddr =>
      cases y with
      | inet port' sAddr' =>
          obtain ⟨hport, h⟩ := memory_append_inj (by decide : 16 = 8 * 2) h
          obtain ⟨haddr, _⟩ := memory_append_inj (by decide : 32 = 8 * 4) h
          exact Or.inl (by rw [hport, haddr])
      | inet6 => exact absurd hfamily (by decide : IPv4Address.afInet ≠ IPv6Address.afInet6)
      | unix => exact absurd hfamily (by decide : IPv4Address.afInet ≠ UnixAddress.afUnix)
  | inet6 port flowinfo s6Addr scopeId =>
      cases y with
      | inet => exact absurd hfamily (by decide : IPv6Address.afInet6 ≠ IPv4Address.afInet)
      | inet6 port' flowinfo' s6Addr' scopeId' =>
          obtain ⟨hport, h⟩ := memory_append_inj (by decide : 16 = 8 * 2) h
          obtain ⟨hflow, h⟩ := memory_append_inj (by decide : 32 = 8 * 4) h
          obtain ⟨haddr, hscope⟩ := List.append_inj h (by simp)
          have hbyte : Function.Injective UInt8.ofBitVec := fun x y h => by cases h; rfl
          have hvec := Vector.toList_inj.mp (List.map_injective_iff.mpr hbyte haddr)
          have hid := memory_inj (by decide : 32 = 8 * 4) hscope
          exact Or.inl (by rw [hport, hflow, hvec, hid])
      | unix => exact absurd hfamily (by decide : IPv6Address.afInet6 ≠ UnixAddress.afUnix)
  | unix path =>
      cases y with
      | inet => exact absurd hfamily (by decide : UnixAddress.afUnix ≠ IPv4Address.afInet)
      | inet6 => exact absurd hfamily (by decide : UnixAddress.afUnix ≠ IPv6Address.afInet6)
      | unix path' => exact (unix_of_stored h).imp_left fun hpath => congrArg unix hpath

/-- Nothing tells the empty path from the empty abstract name. -/
theorem Unnamed.rest (host : Endian) {x : Contents} (h : x.Unnamed) :
    x.family = UnixAddress.afUnix ∧ x.rest host = [0] := by
  rcases h with rfl | rfl <;> exact ⟨rfl, rfl⟩

/-- **Equal addresses.**  Two addresses are equal exactly if they are of one family and made of
the same, or are those of the empty path and of the empty abstract name. -/
theorem equal_iff_contents {host : Endian} {x y : Contents} {s t : Sockaddr}
    (hs : x.Makes host s) (ht : y.Makes host t) :
    s.equal t = true ↔ x = y ∨ x.Unnamed ∧ y.Unnamed := by
  rw [Sockaddr.equal_iff, hs.key, ht.key, (List.map_injective_iff.mpr toNat_injective).eq_iff]
  constructor
  · intro h
    obtain ⟨hfamily, hrest⟩ := memory_append_inj (by decide : 16 = 8 * 2) h
    exact eq_of_rest hfamily hrest
  · rintro (rfl | ⟨hx, hy⟩)
    · rfl
    · obtain ⟨hfamily, hrest⟩ := hx.rest host
      obtain ⟨hfamily', hrest'⟩ := hy.rest host
      rw [hfamily, hrest, hfamily', hrest']

theorem exists_makes_unix (host : Endian) (path : List UInt8) (hlen : path.length < 2 ^ 32 - 1)
    (hfits : FitsSunPath path) : ∃ s, (unix path).Makes host s := by
  obtain ⟨a, hnew, _, hsize, _⟩ := new_ok hlen hfits
  have hbound : a.getAddrlen.toNat ≤ sizeofSockaddrUn := by
    rw [hsize, sizeofSockaddrUn, Nat.add_comm]
    exact Nat.add_le_add_left hfits _
  exact ⟨_, hlen, a, hbound, hnew, rfl⟩

/-- The empty path and the empty abstract name. -/
theorem equal_unnamed : ∃ s t, (unix []).Makes .little s ∧ (unix [0]).Makes .little t ∧
    s.equal t = true := by
  obtain ⟨s, hs⟩ := exists_makes_unix .little [] (by decide) (by decide)
  obtain ⟨t, ht⟩ := exists_makes_unix .little [0] (by decide) (by decide)
  exact ⟨s, t, hs, ht, (equal_iff_contents hs ht).mpr (Or.inr ⟨Or.inl rfl, Or.inr rfl⟩)⟩

end Contents
end Network
end Hpgs
