import Hpgs.Network.Address

/-!
# Networks of IPv6 addresses

The three functions work on the byte in which the prefix ends, and then on the bytes
behind it or before it.  None of them looks whether there is such a byte; and
`networkAddress` keeps the bits of that byte that it should clear, and clears the others.

**Results.**
* `getElem_fill`: what the loops write.
* `networkAddress_spec`, `broadcastAddress_spec`, `subnetMask_spec`: the bytes that the
  functions compute.
* `prefix_operations`: they are right exactly for a prefix that ends in a byte which is zero.
* `prefix_operations_fail`: a prefix of 68 bits, and one of all 128.
-/

namespace Hpgs
namespace Network

open PrefixMask

/-- `IPv6Address`, with `m_addr` as the host finds it in memory. -/
structure IPv6Address where
  family : BitVec 16
  port : BitVec 16
  flowinfo : BitVec 32
  s6Addr : Vector (BitVec 8) 16
  scopeId : BitVec 32
deriving DecidableEq, Repr

namespace IPv6Address

/-- `AF_INET6`. -/
def afInet6 : BitVec 16 := 10

/-- `s6_addr[i]` is changed by `f`. -/
def update (v : Vector (BitVec 8) 16) (i : Nat) (f : BitVec 8 → BitVec 8) :
    Except Undefined (Vector (BitVec 8) 16) :=
  if h : i < 16 then .ok (v.set i (f v[i])) else .error .index

/-- `n` passes of a loop that stores `x`, from `s6_addr[i]` on. -/
def fill (v : Vector (BitVec 8) 16) (x : BitVec 8) : Nat → Nat → Vector (BitVec 8) 16
  | _, 0 => v
  | i, n + 1 => fill (v.setIfInBounds i x) x (i + 1) n

/-- The body that `broadcastAddress` and `networkAddress` share. -/
def changeFrom (a : IPv6Address) (prefixLen : BitVec 32)
    (combine : BitVec 8 → BitVec 8 → BitVec 8) (rest : BitVec 8) : Except Undefined IPv6Address := do
  let mask ← createMask 8 (prefixLen % 8)
  let i := prefixLen.toNat / 8
  let v ← update a.s6Addr i (combine · mask)
  return { a with s6Addr := fill v rest (i + 1) (16 - (i + 1)) }

def broadcastAddress (a : IPv6Address) (prefixLen : BitVec 32) : Except Undefined IPv6Address :=
  a.changeFrom prefixLen (· ||| ·) 0xff

def networkAddress (a : IPv6Address) (prefixLen : BitVec 32) : Except Undefined IPv6Address :=
  a.changeFrom prefixLen (· &&& ·) 0x00

def subnetMask (prefixLen : BitVec 32) : Except Undefined IPv6Address := do
  let mask ← createMask 8 (prefixLen % 8)
  let i := prefixLen.toNat / 8
  let v ← update (.replicate 16 0) i fun _ => ~~~mask
  return { family := afInet6, port := 0, flowinfo := 0, s6Addr := fill v 0xff 0 i, scopeId := 0 }

/-- The `j`-th bit of the address, from the front. -/
def bit (a : IPv6Address) (j : Nat) : Bool :=
  (a.s6Addr[j / 8]?.getD 0).getMsbD (j % 8)

/-! ## What prefixes are for -/

/-- `m` has the bits of the prefix set, `n` is `a` with only them, and `c` is `a` with all
others set; and `n` and `c` have everything else from `a`, and `m` nothing. -/
structure IsPrefix (p : Nat) (a m n c : IPv6Address) : Prop where
  mask : ∀ j < 128, m.bit j = decide (j < p)
  network : ∀ j < 128, n.bit j = (a.bit j && m.bit j)
  broadcast : ∀ j < 128, c.bit j = (a.bit j || !m.bit j)
  keptMask : m.port = 0 ∧ m.flowinfo = 0 ∧ m.scopeId = 0
  keptNetwork : n.port = a.port ∧ n.flowinfo = a.flowinfo ∧ n.scopeId = a.scopeId
  keptBroadcast : c.port = a.port ∧ c.flowinfo = a.flowinfo ∧ c.scopeId = a.scopeId

/-- The functions compute what they should, by defined steps. -/
def Prefixed (p : BitVec 32) (a : IPv6Address) : Prop :=
  ∃ m n c, subnetMask p = .ok m ∧ a.networkAddress p = .ok n ∧ a.broadcastAddress p = .ok c ∧
    IsPrefix p.toNat a m n c

/-! ## What the functions compute -/

section Functions

variable {p : BitVec 32}

/-- **The loops** store in a range of bytes. -/
theorem getElem_fill (v : Vector (BitVec 8) 16) (x : BitVec 8) (i n j : Nat) (hj : j < 16) :
    (fill v x i n)[j] = if i ≤ j ∧ j < i + n then x else v[j] := by
  induction n generalizing v i with
  | zero =>
      rw [fill, if_neg (by omega)]
  | succ n ih =>
      rw [fill, ih, Vector.getElem_setIfInBounds hj]
      by_cases hij : i = j
      · subst hij
        rw [if_pos rfl, ite_self, if_pos (by omega)]
      · rw [if_neg hij]
        congr 1
        rw [eq_iff_iff]
        omega

theorem createMask_byte (p : BitVec 32) :
    createMask 8 (p % 8) = .ok (lowOnes 8 (8 - p.toNat % 8)) := by
  have hmod : (p % 8).toNat = p.toNat % 8 := BitVec.toNat_umod
  have hle : (p % 8).toNat ≤ 8 := by omega
  have heq := createMask_eq (w := 8) (by decide) hle (by omega)
  rwa [hmod] at heq

theorem bit_eq (a : IPv6Address) {j : Nat} (hlt : j / 8 < 16) :
    a.bit j = a.s6Addr[j / 8].getMsbD (j % 8) := by
  rw [bit, Vector.getElem?_eq_getElem hlt, Option.getD_some]

theorem update_ok (v : Vector (BitVec 8) 16) {i : Nat} (hi : i < 16) (f : BitVec 8 → BitVec 8) :
    ∃ u, update v i f = .ok u ∧ ∀ j (hj : j < 16), u[j] = if j = i then f v[j] else v[j] := by
  refine ⟨v.set i (f v[i]), by rw [update, dif_pos hi], fun j hj => ?_⟩
  rw [Vector.getElem_set]
  by_cases hij : i = j
  · subst hij
    rw [if_pos rfl]
  · rw [if_neg hij, if_neg (Ne.symm hij)]

/-- From a prefix of 128 bits on there is no such byte. -/
theorem update_error (v : Vector (BitVec 8) 16) {i : Nat} (hi : ¬ i < 16)
    (f : BitVec 8 → BitVec 8) : update v i f = .error .index := by
  rw [update, dif_neg hi]

theorem subnetMask_error (h : 128 ≤ p.toNat) : subnetMask p = .error .index := by
  have hi : ¬ p.toNat / 8 < 16 := by omega
  rw [subnetMask, createMask_byte]
  simp only [update_error _ hi]
  rfl

section Defined

variable (h : p.toNat < 128)

include h

theorem changeFrom_spec (a : IPv6Address) (combine : BitVec 8 → BitVec 8 → BitVec 8)
    (rest : BitVec 8) :
    ∃ n, a.changeFrom p combine rest = .ok n ∧
      (n.port = a.port ∧ n.flowinfo = a.flowinfo ∧ n.scopeId = a.scopeId) ∧
      ∀ i (hi : i < 16), n.s6Addr[i] =
        if i < p.toNat / 8 then a.s6Addr[i]
        else if i = p.toNat / 8 then combine a.s6Addr[i] (lowOnes 8 (8 - p.toNat % 8))
        else rest := by
  have hlt : p.toNat / 8 < 16 := by omega
  obtain ⟨u, hu, hbytes⟩ := update_ok a.s6Addr hlt (combine · (lowOnes 8 (8 - p.toNat % 8)))
  rw [changeFrom, createMask_byte]
  refine ⟨{ a with s6Addr := fill u rest (p.toNat / 8 + 1) (16 - (p.toNat / 8 + 1)) },
    by simp only [Except.bind, bind, hu]; rfl, ⟨rfl, rfl, rfl⟩, fun i hi => ?_⟩
  rw [getElem_fill _ _ _ _ _ hi, hbytes i hi]
  rcases Nat.lt_trichotomy i (p.toNat / 8) with hi' | hi' | hi'
  · rw [if_neg (by omega), if_neg (by omega), if_pos hi']
  · rw [if_neg (by omega), if_pos hi', if_neg (by omega), if_pos hi']
  · rw [if_pos (by omega), if_neg (by omega), if_neg (by omega)]

/-- **`networkAddress`** keeps the bytes of the prefix, and the end of the byte after them. -/
theorem networkAddress_spec (a : IPv6Address) :
    ∃ n, a.networkAddress p = .ok n ∧
      (n.port = a.port ∧ n.flowinfo = a.flowinfo ∧ n.scopeId = a.scopeId) ∧
      ∀ i (hi : i < 16), n.s6Addr[i] =
        if i < p.toNat / 8 then a.s6Addr[i]
        else if i = p.toNat / 8 then a.s6Addr[i] &&& lowOnes 8 (8 - p.toNat % 8) else 0 :=
  changeFrom_spec h a _ _

/-- **`broadcastAddress`** sets the end of the byte after the prefix, and the bytes behind. -/
theorem broadcastAddress_spec (a : IPv6Address) :
    ∃ c, a.broadcastAddress p = .ok c ∧
      (c.port = a.port ∧ c.flowinfo = a.flowinfo ∧ c.scopeId = a.scopeId) ∧
      ∀ i (hi : i < 16), c.s6Addr[i] =
        if i < p.toNat / 8 then a.s6Addr[i]
        else if i = p.toNat / 8 then a.s6Addr[i] ||| lowOnes 8 (8 - p.toNat % 8) else 0xff :=
  changeFrom_spec h a _ _

/-- **`subnetMask`** sets the bytes of the prefix, and the start of the byte after them. -/
theorem subnetMask_spec :
    ∃ m, subnetMask p = .ok m ∧ (m.port = 0 ∧ m.flowinfo = 0 ∧ m.scopeId = 0) ∧
      ∀ i (hi : i < 16), m.s6Addr[i] =
        if i < p.toNat / 8 then 0xff
        else if i = p.toNat / 8 then ~~~lowOnes 8 (8 - p.toNat % 8) else 0 := by
  have hlt : p.toNat / 8 < 16 := by omega
  obtain ⟨u, hu, hbytes⟩ := update_ok (.replicate 16 0) hlt fun _ => ~~~lowOnes 8 (8 - p.toNat % 8)
  rw [subnetMask, createMask_byte]
  refine ⟨_, by simp only [Except.bind, bind, hu]; rfl, ⟨rfl, rfl, rfl⟩, fun i hi => ?_⟩
  rw [getElem_fill _ _ _ _ _ hi, hbytes i hi, Vector.getElem_replicate]
  rcases Nat.lt_trichotomy i (p.toNat / 8) with hi' | hi' | hi'
  · rw [if_pos (by omega), if_pos hi']
  · rw [if_neg (by omega), if_pos hi', if_neg (by omega)]
  · rw [if_neg (by omega), if_neg (by omega), if_neg (by omega)]

end Defined

end Functions

/-! ## Prefixes -/

section Prefixes

variable {p : BitVec 32}

/-- The bits of the mask that `subnetMask` computes. -/
theorem bit_subnetMask {m : IPv6Address} (hm : ∀ i (hi : i < 16), m.s6Addr[i] =
      if i < p.toNat / 8 then 0xff
      else if i = p.toNat / 8 then ~~~lowOnes 8 (8 - p.toNat % 8) else 0)
    {j : Nat} (hj : j < 128) : m.bit j = decide (j < p.toNat) := by
  have hmod : j % 8 < 8 := Nat.mod_lt _ (by decide)
  have hbits := getMsbD_not_lowOnes (w := 8) (p := p.toNat % 8) (by omega) (j % 8)
  rw [bit_eq m (by omega), hm]
  rcases Nat.lt_trichotomy (j / 8) (p.toNat / 8) with hi | hi | hi
  · have hall : ∀ k < 8, (0xff : BitVec 8).getMsbD k = true := by decide
    rw [if_pos hi, hall _ hmod, eq_comm, decide_eq_true_iff]
    omega
  · rw [if_neg (by omega), if_pos hi, hbits, decide_eq_true hmod, Bool.true_and, decide_eq_decide]
    omega
  · rw [if_neg (by omega), if_neg (by omega), eq_comm]
    simp only [BitVec.ofNat_eq_ofNat, BitVec.getMsbD_zero, decide_eq_false_iff_not]
    omega

/-- The bits of the broadcast address. -/
theorem bit_broadcastAddress {a c : IPv6Address} (hc : ∀ i (hi : i < 16), c.s6Addr[i] =
      if i < p.toNat / 8 then a.s6Addr[i]
      else if i = p.toNat / 8 then a.s6Addr[i] ||| lowOnes 8 (8 - p.toNat % 8) else 0xff)
    {j : Nat} (hj : j < 128) : c.bit j = (a.bit j || !decide (j < p.toNat)) := by
  have hmod : j % 8 < 8 := Nat.mod_lt _ (by decide)
  have hbits := getMsbD_lowOnes (w := 8) (p := p.toNat % 8) (by omega) (j % 8)
  rw [bit_eq c (by omega), bit_eq a (by omega), hc, ← decide_not]
  rcases Nat.lt_trichotomy (j / 8) (p.toNat / 8) with hi | hi | hi
  · rw [if_pos hi, decide_eq_false (by omega), Bool.or_false]
  · rw [if_neg (by omega), if_pos hi, BitVec.getMsbD_or, hbits, decide_eq_true hmod, Bool.true_and]
    congr 1
    rw [decide_eq_decide]
    omega
  · have hall : ∀ k < 8, (0xff : BitVec 8).getMsbD k = true := by decide
    rw [if_neg (by omega), if_neg (by omega), hall _ hmod, decide_eq_true (by omega), Bool.or_true]

/-- The bits that `networkAddress` computes are right if the byte in which the prefix ends is
zero, and only then. -/
theorem bit_networkAddress {a n : IPv6Address} (h : p.toNat / 8 < 16)
    (hn : ∀ i (hi : i < 16), n.s6Addr[i] =
      if i < p.toNat / 8 then a.s6Addr[i]
      else if i = p.toNat / 8 then a.s6Addr[i] &&& lowOnes 8 (8 - p.toNat % 8) else 0) :
    (∀ j < 128, n.bit j = (a.bit j && decide (j < p.toNat))) ↔ a.s6Addr[p.toNat / 8] = 0 := by
  have hend : n.s6Addr[p.toNat / 8] =
      a.s6Addr[p.toNat / 8] &&& lowOnes 8 (8 - p.toNat % 8) := by
    rw [hn, if_neg (Nat.lt_irrefl _), if_pos rfl]
  rw [← and_eq_and_not_iff _ (lowOnes 8 (8 - p.toNat % 8)), ← hend]
  constructor
  · intro hall
    refine BitVec.eq_of_getMsbD_eq fun k hk => ?_
    have hj : 8 * (p.toNat / 8) + k < 128 := by omega
    have hbit := hall _ hj
    rw [bit_eq n (by omega), bit_eq a (by omega)] at hbit
    have hdiv : (8 * (p.toNat / 8) + k) / 8 = p.toNat / 8 := by omega
    have hmod : (8 * (p.toNat / 8) + k) % 8 = k := by omega
    simp only [hdiv, hmod] at hbit
    rw [hbit, BitVec.getMsbD_and, getMsbD_not_lowOnes (by omega), decide_eq_true hk, Bool.true_and]
    congr 1
    rw [decide_eq_decide]
    omega
  · intro heq j hj
    have hmod : j % 8 < 8 := Nat.mod_lt _ (by decide)
    rw [bit_eq n (by omega), bit_eq a (by omega)]
    rcases Nat.lt_trichotomy (j / 8) (p.toNat / 8) with hi | hi | hi
    · rw [hn, if_pos hi, decide_eq_true (by omega), Bool.and_true]
    · simp only [hi]
      rw [heq, BitVec.getMsbD_and, getMsbD_not_lowOnes (by omega), decide_eq_true hmod,
        Bool.true_and]
      congr 1
      rw [decide_eq_decide]
      omega
    · rw [hn, if_neg (by omega), if_neg (by omega), decide_eq_false (by omega), Bool.and_false]
      simp

/-- **Prefix operations** are right, and all steps defined, exactly if the prefix ends before
the last bit and the byte in which it ends is zero in the address. -/
theorem prefix_operations (p : BitVec 32) (h : p.toNat ≤ 128) (a : IPv6Address) :
    Prefixed p a ↔ ∃ hi : p.toNat / 8 < 16, a.s6Addr[p.toNat / 8] = 0 := by
  by_cases hlt : p.toNat < 128
  · have hi : p.toNat / 8 < 16 := by omega
    obtain ⟨m, hm, hkept, hmask⟩ := subnetMask_spec hlt
    obtain ⟨n, hn, hkept', hnetwork⟩ := networkAddress_spec hlt a
    obtain ⟨c, hc, hkept'', hbroadcast⟩ := broadcastAddress_spec hlt a
    have hiff := bit_networkAddress hi hnetwork
    constructor
    · rintro ⟨m₂, n₂, c₂, hm₂, hn₂, _, hright⟩
      obtain rfl : m = m₂ := Except.ok.inj (hm.symm.trans hm₂)
      obtain rfl : n = n₂ := Except.ok.inj (hn.symm.trans hn₂)
      refine ⟨hi, hiff.mp fun j hj => ?_⟩
      rw [hright.network j hj, hright.mask j hj]
    · rintro ⟨_, hzero⟩
      refine ⟨m, n, c, hm, hn, hc, fun j hj => bit_subnetMask hmask hj, fun j hj => ?_,
        fun j hj => ?_, hkept, hkept', hkept''⟩
      · rw [hiff.mpr hzero j hj, bit_subnetMask hmask hj]
      · rw [bit_broadcastAddress hbroadcast hj, bit_subnetMask hmask hj]
  · refine iff_of_false ?_ fun ⟨hi, _⟩ => by omega
    rintro ⟨m, n, c, hm, _⟩
    rw [subnetMask_error (Nat.le_of_not_lt hlt)] at hm
    cases hm

/-- The address of all zeros. -/
def any : IPv6Address where
  family := afInet6
  port := 0
  flowinfo := 0
  s6Addr := .replicate 16 0
  scopeId := 0

/-- `2001:db8::1`. -/
def documentation : IPv6Address :=
  { any with s6Addr := #v[0x20, 0x01, 0x0d, 0xb8, 0, 0, 0, 0, 0, 0, 0, 0, 0, 0, 0, 1] }

/-- A prefix of 68 bits ends in the ninth byte, which is zero. -/
theorem prefix_operations_documentation : Prefixed 68 documentation :=
  (prefix_operations 68 (by decide) documentation).mpr ⟨by decide, by decide⟩

/-- Of `0xab` in the ninth byte the last four bits are kept and the first four are not, and
for 128 bits there is no byte to work on. -/
theorem prefix_operations_fail :
    (¬ ∀ (p : BitVec 32) (a : IPv6Address), p.toNat < 128 → Prefixed p a) ∧
      ¬ Prefixed 128 any := by
  constructor
  · intro hall
    obtain ⟨m, n, c, hm, hn, _, hright⟩ :=
      hall 68 { any with s6Addr := any.s6Addr.set 8 0xab } (by decide)
    have hkept : networkAddress { any with s6Addr := any.s6Addr.set 8 0xab } 68 =
        .ok { any with s6Addr := any.s6Addr.set 8 0x0b } := by
      decide
    obtain rfl := Except.ok.inj (hkept.symm.trans hn)
    have hbit := hright.network 64 (by decide)
    rw [hright.mask 64 (by decide)] at hbit
    exact absurd hbit (by decide)
  · rintro ⟨m, n, c, hm, _⟩
    have hindex : subnetMask 128 = .error .index := by decide
    exact nomatch hindex.symm.trans hm

end Prefixes

end IPv6Address
end Network
end Hpgs
