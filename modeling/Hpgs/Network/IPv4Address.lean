import Hpgs.Network.Address

/-!
# Networks of IPv4 addresses

`subnetMask` complements the result of `CreateMask`, which is the mask of the host part;
`broadcastAddress` sets the host part, and `networkAddress` keeps it where it should clear
it.

**Results.**
* `networkAddress_spec`, `broadcastAddress_spec`, `subnetMask_spec`: what the functions
  compute, on every host.
* `network_masked`: `networkAddress` is the masked address only of the address zero.
* `cidr`: the broadcast address and the mask are right where they are defined, from a
  prefix length of two on.
* `network_not_masked`, `short_prefix_undefined`: a private network, and the prefix of
  length zero.
-/

namespace Hpgs
namespace Network

open PrefixMask

/-- `IPv4Address`, with `m_addr` as the host finds it in memory. -/
structure IPv4Address where
  family : BitVec 16
  port : BitVec 16
  sAddr : BitVec 32
deriving DecidableEq, Repr

namespace IPv4Address

/-- `AF_INET`. -/
def afInet : BitVec 16 := 2

/-- The body that `broadcastAddress` and `networkAddress` share. -/
def combineMask (host : Endian) (a : IPv4Address) (prefixLen : BitVec 32)
    (combine : BitVec 32 → BitVec 32 → BitVec 32) : Except Undefined (Option IPv4Address) :=
  if 32 < prefixLen.toNat then .ok none
  else
    (createMask 32 prefixLen).map fun mask =>
      some { a with sAddr := combine a.sAddr (byteswapOnLittleEndian host mask) }

def broadcastAddress (host : Endian) (a : IPv4Address) (prefixLen : BitVec 32) :
    Except Undefined (Option IPv4Address) :=
  a.combineMask host prefixLen (· ||| ·)

def networkAddress (host : Endian) (a : IPv4Address) (prefixLen : BitVec 32) :
    Except Undefined (Option IPv4Address) :=
  a.combineMask host prefixLen (· &&& ·)

def subnetMask (host : Endian) (prefixLen : BitVec 32) : Except Undefined IPv4Address :=
  (createMask 32 prefixLen).map fun mask =>
    { family := afInet, port := 0, sAddr := ~~~byteswapOnLittleEndian host mask }

/-- The address as a number. -/
def number (host : Endian) (a : IPv4Address) : BitVec 32 :=
  byteswapOnLittleEndian host a.sAddr

/-! ## What networks are for -/

/-- The networks `n` of `a` and `n'` of `b`, with the broadcast address `c` of `a` and the
mask `m`: `n` is the masked address, its own network and not above `a`, which is not above
`c`; and it is the network of `b` if the prefixes agree. -/
structure IsNetwork (host : Endian) (p : BitVec 32) (a b n n' c m : IPv4Address) : Prop where
  masked : n.number host = a.number host &&& m.number host
  port : n.port = a.port
  family : n.family = a.family
  idempotent : n.networkAddress host p = .ok (some n)
  same : n.number host = n'.number host ↔
    ∀ i < p.toNat, (a.number host).getMsbD i = (b.number host).getMsbD i
  lower : (n.number host).toNat ≤ (a.number host).toNat
  upper : (a.number host).toNat ≤ (c.number host).toNat

/-- `networkAddress` computes networks. -/
def NetworkMasked (host : Endian) (p : BitVec 32) (a b : IPv4Address) : Prop :=
  ∃ n n' c m, a.networkAddress host p = .ok (some n) ∧ b.networkAddress host p = .ok (some n') ∧
    a.broadcastAddress host p = .ok (some c) ∧ subnetMask host p = .ok m ∧
    IsNetwork host p a b n n' c m

/-- The mask `m` has the bits of the prefix set, and `c` is `a` with all other bits set. -/
structure IsCidr (host : Endian) (p : BitVec 32) (a m c : IPv4Address) : Prop where
  mask : ∀ i < 32, (m.number host).getMsbD i = decide (i < p.toNat)
  broadcast : c.number host = a.number host ||| ~~~m.number host
  idempotent : c.broadcastAddress host p = .ok (some c)
  agrees : ∀ i < p.toNat, (c.number host).getMsbD i = (a.number host).getMsbD i

/-- `subnetMask` and `broadcastAddress` compute what they should, by defined steps. -/
def Cidr (host : Endian) (p : BitVec 32) (a : IPv4Address) : Prop :=
  ∃ m c, subnetMask host p = .ok m ∧ a.broadcastAddress host p = .ok (some c) ∧
    IsCidr host p a m c

/-! ## What the functions compute -/

section Functions

variable {host : Endian} {p : BitVec 32} {a b : IPv4Address}

theorem number_or (host : Endian) (a : IPv4Address) (x : BitVec 32) :
    ({ a with sAddr := a.sAddr ||| byteswapOnLittleEndian host x } : IPv4Address).number host =
      a.number host ||| x := by
  rw [number, number, byteswapOnLittleEndian_or host (n := 4) rfl,
    byteswapOnLittleEndian_self host (n := 4) rfl]

theorem number_and (host : Endian) (a : IPv4Address) (x : BitVec 32) :
    ({ a with sAddr := a.sAddr &&& byteswapOnLittleEndian host x } : IPv4Address).number host =
      a.number host &&& x := by
  rw [number, number, byteswapOnLittleEndian_and host (n := 4) rfl,
    byteswapOnLittleEndian_self host (n := 4) rfl]

/-- An address is determined by its number, beside port and family. -/
theorem number_inj (h : a.number host = b.number host) : a.sAddr = b.sAddr := by
  have hself := congrArg (byteswapOnLittleEndian host) h
  rwa [number, number, byteswapOnLittleEndian_self host (n := 4) rfl,
    byteswapOnLittleEndian_self host (n := 4) rfl] at hself

/-- For the prefixes of length zero and one nothing is computed. -/
theorem short_undefined (host : Endian) (a : IPv4Address) (h : p.toNat < 2) :
    (∃ u, a.networkAddress host p = .error u) ∧ (∃ u, a.broadcastAddress host p = .error u) ∧
      ∃ u, subnetMask host p = .error u := by
  have hle : p.toNat ≤ 32 := by omega
  rcases createMask32_cases hle with ⟨htwo, _⟩ | ⟨_, u, hmask⟩
  · omega
  · have hcombine : ∀ combine, a.combineMask host p combine = .error u := by
      intro combine
      rw [combineMask, if_neg (Nat.not_lt.mpr hle), hmask]
      rfl
    exact ⟨⟨u, hcombine _⟩, ⟨u, hcombine _⟩, u, by rw [subnetMask, hmask]; rfl⟩

section Defined

variable (h : p.toNat ≤ 32) (htwo : 2 ≤ p.toNat)

include h htwo

theorem createMask_ipv4 : createMask 32 p = .ok (lowOnes 32 (32 - p.toNat)) :=
  createMask_eq (by decide) h (by omega)

theorem combineMask_spec (host : Endian) (a : IPv4Address)
    (combine : BitVec 32 → BitVec 32 → BitVec 32) :
    a.combineMask host p combine = .ok (some { a with
      sAddr := combine a.sAddr (byteswapOnLittleEndian host (lowOnes 32 (32 - p.toNat))) }) := by
  rw [combineMask, if_neg (Nat.not_lt.mpr h), createMask_ipv4 h htwo]
  rfl

/-- **`networkAddress`** keeps the bits behind the prefix. -/
theorem networkAddress_spec (host : Endian) (a : IPv4Address) :
    ∃ n, a.networkAddress host p = .ok (some n) ∧ n.port = a.port ∧ n.family = a.family ∧
      n.number host = a.number host &&& lowOnes 32 (32 - p.toNat) := by
  exact ⟨_, combineMask_spec h htwo host a _, rfl, rfl, number_and host a _⟩

/-- **`broadcastAddress`** sets the bits behind the prefix. -/
theorem broadcastAddress_spec (host : Endian) (a : IPv4Address) :
    ∃ c, a.broadcastAddress host p = .ok (some c) ∧ c.port = a.port ∧ c.family = a.family ∧
      c.number host = a.number host ||| lowOnes 32 (32 - p.toNat) := by
  exact ⟨_, combineMask_spec h htwo host a _, rfl, rfl, number_or host a _⟩

/-- **`subnetMask`** sets the bits of the prefix. -/
theorem subnetMask_spec (host : Endian) :
    ∃ m, subnetMask host p = .ok m ∧ m.number host = ~~~lowOnes 32 (32 - p.toNat) := by
  unfold subnetMask
  rw [createMask_ipv4 h htwo]
  refine ⟨_, rfl, ?_⟩
  rw [number, byteswapOnLittleEndian_not host (n := 4) rfl,
    byteswapOnLittleEndian_self host (n := 4) rfl]

end Defined

theorem ext_number {x : IPv4Address} (hport : x.port = a.port) (hfamily : x.family = a.family)
    (hnumber : x.number host = a.number host) : x = a := by
  obtain ⟨family, port, sAddr⟩ := a
  obtain ⟨family', port', sAddr'⟩ := x
  obtain rfl := hport
  obtain rfl := hfamily
  obtain rfl := number_inj hnumber
  rfl

/-- Clearing bits twice is clearing them once. -/
theorem networkAddress_self {n : IPv4Address} (h : p.toNat ≤ 32) (htwo : 2 ≤ p.toNat)
    (hn : n.number host = n.number host &&& lowOnes 32 (32 - p.toNat)) :
    n.networkAddress host p = .ok (some n) := by
  obtain ⟨n₂, hn₂, hport, hfamily, hnumber⟩ := networkAddress_spec h htwo host n
  rw [hn₂, ext_number hport hfamily (hnumber.trans hn.symm)]

theorem broadcastAddress_self {c : IPv4Address} (h : p.toNat ≤ 32) (htwo : 2 ≤ p.toNat)
    (hc : c.number host = c.number host ||| lowOnes 32 (32 - p.toNat)) :
    c.broadcastAddress host p = .ok (some c) := by
  obtain ⟨c₂, hc₂, hport, hfamily, hnumber⟩ := broadcastAddress_spec h htwo host c
  rw [hc₂, ext_number hport hfamily (hnumber.trans hc.symm)]

end Functions

/-! ## Networks -/

section Networks

variable {host : Endian} {p : BitVec 32}

theorem some_bit {x : BitVec 32} (h : x ≠ 0) : ∃ i < 32, x.getMsbD i = true := by
  by_contra hno
  push Not at hno
  exact h (eq_zero_iff_getMsbD.mpr fun i hi => by simpa using hno i hi)

/-- The bits of the prefix and the bits behind it are both zero or both not. -/
theorem parts_iff {x : BitVec 32} {q : Nat} (hq : q ≤ 32) :
    (x &&& lowOnes 32 (32 - q) = 0 ↔ x &&& ~~~lowOnes 32 (32 - q) = 0) ↔
      x = 0 ∨ (∃ i < q, x.getMsbD i = true) ∧ ∃ i, q ≤ i ∧ i < 32 ∧ x.getMsbD i = true := by
  have hhigh : x &&& ~~~lowOnes 32 (32 - q) = 0 ↔ ∀ i < q, x.getMsbD i = false := by
    have hagree := and_not_lowOnes_eq_iff hq x 0
    simpa using hagree
  rw [hhigh, and_lowOnes_eq_zero_iff hq]
  constructor
  · intro hiff
    by_cases hzero : x = 0
    · exact Or.inl hzero
    · -- a bit that is set lies on one side, and then there is one on the other side
      obtain ⟨i, hi, hx⟩ := some_bit hzero
      have hnot : ¬ ((∀ i < q, x.getMsbD i = false) ∧
          ∀ i, q ≤ i → i < 32 → x.getMsbD i = false) := by
        rintro ⟨hfirst, hrest⟩
        by_cases hiq : i < q
        · simp [hfirst i hiq] at hx
        · simp [hrest i (Nat.le_of_not_lt hiq) hi] at hx
      refine Or.inr ⟨?_, ?_⟩
      · by_contra hno
        push Not at hno
        have hfirst : ∀ i < q, x.getMsbD i = false := fun i hi => by simpa using hno i hi
        exact hnot ⟨hfirst, hiff.mpr hfirst⟩
      · by_contra hno
        push Not at hno
        have hrest : ∀ i, q ≤ i → i < 32 → x.getMsbD i = false := fun i hqi hi => by
          simpa using hno i hqi hi
        exact hnot ⟨hiff.mp hrest, hrest⟩
  · rintro (rfl | ⟨⟨i, hi, hx⟩, j, hqj, hj, hy⟩)
    · simp
    · refine iff_of_false (fun hall => ?_) fun hall => ?_
      · simp [hall j hqj hj] at hy
      · simp [hall i hi] at hx

/-- **Networks.**  With a prefix of at least two bits `networkAddress` gives the network of
the address zero, and tells it from that of another address which has bits set both in the
prefix and behind it; of no other address it gives the network. -/
theorem network_masked (host : Endian) {p : BitVec 32} (h : p.toNat ≤ 32) (a b : IPv4Address) :
    NetworkMasked host p a b ↔
      2 ≤ p.toNat ∧ a.number host = 0 ∧
        (b.number host = 0 ∨ (∃ i < p.toNat, (b.number host).getMsbD i = true) ∧
          ∃ i, p.toNat ≤ i ∧ i < 32 ∧ (b.number host).getMsbD i = true) := by
  by_cases htwo : 2 ≤ p.toNat
  · obtain ⟨n, hn, hport, hfamily, hnumber⟩ := networkAddress_spec h htwo host a
    obtain ⟨n', hn', _, _, hnumber'⟩ := networkAddress_spec h htwo host b
    obtain ⟨c, hc, _, _, hbroad⟩ := broadcastAddress_spec h htwo host a
    obtain ⟨m, hm, hmask⟩ := subnetMask_spec (p := p) h htwo host
    have hmasked : n.number host = a.number host &&& m.number host ↔ a.number host = 0 := by
      rw [hnumber, hmask, and_eq_and_not_iff]
    have hsame : a.number host = 0 →
        ((n.number host = n'.number host ↔
            ∀ i < p.toNat, (a.number host).getMsbD i = (b.number host).getMsbD i) ↔
          (b.number host = 0 ∨ (∃ i < p.toNat, (b.number host).getMsbD i = true) ∧
            ∃ i, p.toNat ≤ i ∧ i < 32 ∧ (b.number host).getMsbD i = true)) := by
      intro ha
      have hzero : ∀ x : BitVec 32, 0 &&& x = 0 := fun _ => BitVec.zero_and
      rw [← parts_iff h, hnumber, hnumber', ← and_not_lowOnes_eq_iff h, ha, hzero, hzero]
      exact iff_congr eq_comm eq_comm
    constructor
    · rintro ⟨n₂, n₂', c₂, m₂, hn₂, hn₂', hc₂, hm₂, hnet⟩
      obtain rfl : n = n₂ := Option.some.inj (Except.ok.inj (hn.symm.trans hn₂))
      obtain rfl : n' = n₂' := Option.some.inj (Except.ok.inj (hn'.symm.trans hn₂'))
      obtain rfl : m = m₂ := Except.ok.inj (hm.symm.trans hm₂)
      have ha := hmasked.mp hnet.masked
      exact ⟨htwo, ha, (hsame ha).mp hnet.same⟩
    · rintro ⟨_, ha, hb⟩
      refine ⟨n, n', c, m, hn, hn', hc, hm, hmasked.mpr ha, hport, hfamily, ?_,
        (hsame ha).mpr hb, ?_, ?_⟩
      · refine networkAddress_self h htwo ?_
        rw [hnumber, BitVec.and_assoc, BitVec.and_self]
      · rw [hnumber, BitVec.toNat_and]
        exact Nat.and_le_left
      · rw [hbroad, BitVec.toNat_or]
        exact Nat.left_le_or
  · refine iff_of_false ?_ fun hcond => htwo hcond.1
    rintro ⟨n, n', c, m, hn, _⟩
    obtain ⟨u, hu⟩ := (short_undefined host a (Nat.lt_of_not_le htwo)).1
    rw [hu] at hn
    cases hn

theorem network_masked_zero :
    NetworkMasked .little 24 ⟨afInet, 0, 0⟩ ⟨afInet, 0, byteswapOnLittleEndian .little 0xC0A8010A⟩ :=
  (network_masked .little (by decide) _ _).mpr
    ⟨by decide, by decide, Or.inr ⟨⟨0, by decide, by decide⟩, 28, by decide, by decide, by decide⟩⟩

/-- The network of 192.168.1.10 with 24 bits is computed as 0.0.0.10. -/
theorem network_not_masked :
    ¬ ∀ (host : Endian) (p : BitVec 32) (a b : IPv4Address), p.toNat ≤ 32 →
      NetworkMasked host p a b := by
  intro hall
  obtain ⟨n, n', c, m, hn, _, _, hm, hnet⟩ :=
    hall .big 24 ⟨afInet, 0, 0xC0A8010A⟩ ⟨afInet, 0, 0⟩ (by decide)
  have hnetwork : networkAddress .big ⟨afInet, 0, 0xC0A8010A⟩ 24 = .ok (some ⟨afInet, 0, 0x0A⟩) := by
    decide
  have hmask : subnetMask .big 24 = .ok ⟨afInet, 0, 0xFFFFFF00⟩ := by decide
  obtain rfl := Option.some.inj (Except.ok.inj (hnetwork.symm.trans hn))
  obtain rfl := Except.ok.inj (hmask.symm.trans hm)
  exact absurd hnet.masked (by decide)

/-- **Broadcast addresses and masks** are right, and all steps defined, exactly if the
prefix has at least two bits. -/
theorem cidr (host : Endian) {p : BitVec 32} (h : p.toNat ≤ 32) (a : IPv4Address) :
    Cidr host p a ↔ 2 ≤ p.toNat := by
  constructor
  · rintro ⟨m, c, hm, _⟩
    by_contra hlt
    obtain ⟨_, _, u, hu⟩ := short_undefined host a (Nat.lt_of_not_le hlt)
    rw [hu] at hm
    cases hm
  · intro htwo
    obtain ⟨c, hc, hport, hfamily, hnumber⟩ := broadcastAddress_spec h htwo host a
    obtain ⟨m, hm, hmask⟩ := subnetMask_spec (p := p) h htwo host
    refine ⟨m, c, hm, hc, ?_, ?_, ?_, ?_⟩
    · intro i hi
      rw [hmask, getMsbD_not_lowOnes h]
      simp [hi]
    · rw [hnumber, hmask, BitVec.not_not]
    · refine broadcastAddress_self h htwo ?_
      rw [hnumber, BitVec.or_assoc, BitVec.or_self]
    · intro i hi
      rw [hnumber, BitVec.getMsbD_or, getMsbD_lowOnes h]
      simp [Nat.not_le.mpr hi]

theorem cidr_private : Cidr .little 24 ⟨afInet, 0, 0x0A01A8C0⟩ :=
  (cidr .little (by decide) _).mpr (by decide)

/-- The mask of no bits needs a shift by 32. -/
theorem short_prefix_undefined :
    ¬ ∀ (host : Endian) (p : BitVec 32) (a : IPv4Address), p.toNat ≤ 32 → Cidr host p a := by
  intro hall
  obtain ⟨m, c, hm, _⟩ := hall .little 0 ⟨afInet, 0, 0⟩ (by decide)
  have hshift : subnetMask .little 0 = .error .shift := by decide
  exact nomatch hshift.symm.trans hm

end Networks

end IPv4Address
end Network
end Hpgs
