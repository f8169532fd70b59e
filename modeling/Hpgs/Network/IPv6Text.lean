import Hpgs.Library.AddressText
import Hpgs.Network.IPv6Address

/-!
# IPv6 addresses as text

`insert` passes once over the eight groups.  The first run of zeros is left out: the pass
that puts the next group puts one more colon, which it knows from the group before and from
a flag; and a run at the end is written behind the loop.

**Results.**
* `written_pass`, `written_passes`: what has been put stands for the groups passed so far.
* `parse_text`: what stands in the brackets is read back.
* `text_round_trip`: the whole text, and the port.
-/

namespace Hpgs
namespace Network
namespace IPv6Address

open AddressText

/-! ## Definitions -/

/-- `s6_addr[j]`. -/
def byte (a : IPv6Address) (j : Nat) : BitVec 8 :=
  a.s6Addr[j]?.getD 0

/-- `addr[i]`, two bytes that the host loads as a `uint16_t`. -/
def addr (host : Endian) (a : IPv6Address) (i : Nat) : BitVec 16 :=
  match host with
  | .little => a.byte (2 * i + 1) ++ a.byte (2 * i)
  | .big => a.byte (2 * i) ++ a.byte (2 * i + 1)

def getPort (host : Endian) (a : IPv6Address) : BitVec 16 :=
  byteswapOnLittleEndian host a.port

/-- The body of the loop: what it puts, and `used_zeros` after it. -/
def pass (host : Endian) (a : IPv6Address) (i : Nat) (usedZeros : Bool) : List Char × Bool :=
  if a.addr host i = 0 ∧ usedZeros = false then ([], usedZeros)
  else
    let group := (if 0 < i then [':'] else []) ++
      Nat.toDigits 16 (byteswapOnLittleEndian host (a.addr host i)).toNat
    if 0 < i ∧ a.addr host (i - 1) = 0 ∧ usedZeros = false then (':' :: group, true)
    else (group, usedZeros)

/-- The first `n` passes of the loop. -/
def passes (host : Endian) (a : IPv6Address) : Nat → List Char × Bool
  | 0 => ([], false)
  | n + 1 =>
      let before := a.passes host n
      let last := a.pass host n before.2
      (before.1 ++ last.1, last.2)

/-- What `insert` puts between the brackets. -/
def text (host : Endian) (a : IPv6Address) : List Char :=
  let loop := a.passes host 8
  loop.1 ++ if loop.2 = false ∧ a.addr host 7 = 0 then [':', ':'] else []

/-- `insert`, on a stream that is new. -/
def insert (host : Endian) (a : IPv6Address) : List Char :=
  '[' :: a.text host ++ ']' :: ':' :: Nat.toDigits 10 (a.getPort host).toNat

/-! ## Groups -/

section Groups

variable (host : Endian) (a : IPv6Address)

/-- The number of a group. -/
def groupAt (i : Nat) : Nat :=
  (byteswapOnLittleEndian host (a.addr host i)).toNat

theorem byteswap_append (x y : BitVec 8) : ByteArray.byteswap (x ++ y) = y ++ x := by
  refine BitVec.eq_of_getLsbD_eq fun i hi => ?_
  rw [getLsbD_byteswap (n := 2) rfl _ hi, BitVec.getLsbD_append, BitVec.getLsbD_append]
  by_cases hlow : i < 8
  · rw [Nat.div_eq_of_lt hlow, Nat.mod_eq_of_lt hlow, if_neg (by omega), if_pos hlow]
    congr 1
    omega
  · obtain ⟨j, rfl⟩ := Nat.exists_eq_add_of_le (Nat.le_of_not_lt hlow)
    rw [if_pos (by omega), if_neg hlow]
    congr 1
    omega

/-- A group is the two bytes, whatever the host. -/
theorem groupAt_eq (i : Nat) :
    groupAt host a i = 256 * (a.byte (2 * i)).toNat + (a.byte (2 * i + 1)).toNat := by
  have hswap : byteswapOnLittleEndian host (a.addr host i) =
      a.byte (2 * i) ++ a.byte (2 * i + 1) := by
    cases host with
    | little => exact byteswap_append _ _
    | big => rfl
  rw [groupAt, hswap, BitVec.toNat_append, ← Nat.shiftLeft_add_eq_or_of_lt (BitVec.isLt _),
    Nat.shiftLeft_eq, Nat.mul_comm]

theorem groupAt_lt (i : Nat) : groupAt host a i < 2 ^ 16 :=
  BitVec.isLt _

/-- The test of the loop is whether the group is zero. -/
theorem addr_eq_zero (i : Nat) : a.addr host i = 0 ↔ groupAt host a i = 0 := by
  have hzero : byteswapOnLittleEndian host (0 : BitVec 16) = 0 := by
    cases host <;> decide
  rw [groupAt, show (0 : Nat) = (0 : BitVec 16).toNat from rfl, BitVec.toNat_inj]
  constructor
  · intro h
    rw [h]
    exact hzero
  · intro h
    rw [← byteswapOnLittleEndian_self host (n := 2) rfl (a.addr host i), h]
    exact hzero

/-- The groups that the first `n` passes have met. -/
def met (n : Nat) : List Nat :=
  (List.range n).map (groupAt host a)

theorem met_succ (n : Nat) : met host a (n + 1) = met host a n ++ [groupAt host a n] := by
  rw [met, List.range_succ, List.map_append]
  rfl

theorem toList_eq : a.s6Addr.toList = (List.range 16).map a.byte := by
  refine List.ext_getElem (by simp) fun j h _ => ?_
  rw [Vector.length_toList] at h
  simp [byte, h]

/-- The bytes of the groups are those of the address. -/
theorem bytes_met : bytes (met host a 8) = a.s6Addr.toList := by
  have hgroup : ∀ i, [BitVec.ofNat 8 (groupAt host a i / 256), BitVec.ofNat 8 (groupAt host a i)] =
      [a.byte (2 * i), a.byte (2 * i + 1)] := by
    intro i
    have hlow := (a.byte (2 * i + 1)).isLt
    have hdiv : groupAt host a i / 256 = (a.byte (2 * i)).toNat := by
      rw [groupAt_eq]
      omega
    have hmod : BitVec.ofNat 8 (groupAt host a i) = a.byte (2 * i + 1) := by
      rw [groupAt_eq]
      refine BitVec.eq_of_toNat_eq ?_
      rw [BitVec.toNat_ofNat]
      omega
    rw [hdiv, hmod, BitVec.ofNat_toNat, BitVec.setWidth_eq]
  rw [toList_eq, bytes, met, List.flatMap_map]
  simp only [hgroup]
  rfl

end Groups

/-! ## Passes -/

section Passes

variable (host : Endian) (a : IPv6Address)

/-- What has been put for the groups met: all up to the zeros at their end, or, once the
first zeros are left out, all of them with `::`. -/
def Written (gs : List Nat) (os : List Char) : Bool → Prop
  | false => ∃ fore k, gs = fore ++ List.replicate k 0 ∧ (∀ g ∈ fore, g ≠ 0) ∧ os = join fore
  | true => ∃ fore k rest, gs = fore ++ List.replicate (k + 1) 0 ++ rest ∧ rest ≠ [] ∧
      os = join fore ++ ':' :: ':' :: join rest

/-- The group before tells whether there are zeros at the end. -/
theorem zeros_iff {n k : Nat} {fore : List Nat}
    (hmet : met host a n = fore ++ List.replicate k 0) (hfore : ∀ g ∈ fore, g ≠ 0) :
    k ≠ 0 ↔ 0 < n ∧ a.addr host (n - 1) = 0 := by
  rw [addr_eq_zero]
  cases n with
  | zero =>
      have hk : k = 0 := by
        have hlen := congrArg List.length hmet
        simp only [met, List.range_zero, List.map_nil, List.length_nil, List.length_append,
          List.length_replicate] at hlen
        omega
      simp [hk]
  | succ n =>
      rw [met_succ] at hmet
      cases k with
      | zero =>
          rw [List.replicate_zero, List.append_nil] at hmet
          have hlast := hfore (groupAt host a n) (by rw [← hmet]; simp)
          simpa using hlast
      | succ k =>
          rw [List.replicate_succ', ← List.append_assoc] at hmet
          have hlast := (List.append_singleton_inj.mp hmet).2
          simpa using hlast

theorem written_pass {n : Nat} {os : List Char} {usedZeros : Bool}
    (h : Written (met host a n) os usedZeros) :
    Written (met host a (n + 1)) (os ++ (a.pass host n usedZeros).1)
      (a.pass host n usedZeros).2 := by
  rw [met_succ]
  cases usedZeros with
  | true =>
      obtain ⟨fore, k, rest, hmet, hne, rfl⟩ := h
      have hpos : 0 < n := by
        have hlen := congrArg List.length hmet
        simp only [met, List.length_map, List.length_range, List.length_append,
          List.length_replicate] at hlen
        omega
      have hpass : a.pass host n true = (':' :: Nat.toDigits 16 (groupAt host a n), true) := by
        simp [pass, hpos, groupAt]
      rw [hpass]
      refine ⟨fore, k, rest ++ [groupAt host a n], by rw [hmet, List.append_assoc], by simp, ?_⟩
      rw [join_append_singleton hne, List.append_assoc]
      rfl
  | false =>
      obtain ⟨fore, k, hmet, hfore, rfl⟩ := h
      have hlook := zeros_iff host a hmet hfore
      by_cases hzero : a.addr host n = 0
      · rw [pass, if_pos ⟨hzero, rfl⟩]
        refine ⟨fore, k + 1, ?_, hfore, by rw [List.append_nil]⟩
        rw [hmet, (addr_eq_zero host a n).mp hzero, List.replicate_succ', List.append_assoc]
      · have hgroup := mt (addr_eq_zero host a n).mpr hzero
        rw [pass, if_neg fun h => hzero h.1]
        by_cases hbehind : 0 < n ∧ a.addr host (n - 1) = 0
        · rw [if_pos ⟨hbehind.1, hbehind.2, rfl⟩]
          obtain ⟨k, rfl⟩ := Nat.exists_eq_succ_of_ne_zero (hlook.mpr hbehind)
          refine ⟨fore, k, [groupAt host a n], by rw [hmet], by simp, ?_⟩
          simp [hbehind.1, join, groupAt]
        · rw [if_neg fun h => hbehind ⟨h.1, h.2.1⟩]
          have hk : k = 0 := by
            by_contra hk
            exact hbehind (hlook.mp hk)
          rw [hk, List.replicate_zero, List.append_nil] at hmet
          refine ⟨fore ++ [groupAt host a n], 0, by rw [hmet]; simp, ?_, ?_⟩
          · intro g hg
            rcases List.mem_append.mp hg with hg | hg
            · exact hfore g hg
            · rw [List.mem_singleton.mp hg]
              exact hgroup
          · cases n with
            | zero =>
                have hnil : fore = [] := by simpa [met] using hmet.symm
                simp [hnil, join, groupAt]
            | succ n =>
                have hne : fore ≠ [] := by
                  rw [← hmet, met_succ]
                  simp
                rw [join_append_singleton hne]
                simp [groupAt]

theorem written_passes (n : Nat) :
    Written (met host a n) (a.passes host n).1 (a.passes host n).2 := by
  induction n with
  | zero => exact ⟨[], 0, rfl, by simp, rfl⟩
  | succ n ih => exact written_pass host a ih

end Passes

/-! ## Round trip -/

section RoundTrip

variable (host : Endian) (a : IPv6Address)

/-- What stands between the brackets is read as the sixteen bytes. -/
theorem parse_text : parse (a.text host) = some a.s6Addr.toList := by
  have hlt : ∀ g ∈ met host a 8, g < 2 ^ 16 := by
    intro g hg
    obtain ⟨i, -, rfl⟩ := List.mem_map.mp hg
    exact groupAt_lt host a i
  have hlen : (met host a 8).length = 8 := by simp [met]
  have hwritten := written_passes host a 8
  rw [← bytes_met host a, text]
  cases hused : (a.passes host 8).2 with
  | true =>
      rw [hused] at hwritten
      obtain ⟨fore, k, rest, hmet, -, hos⟩ := hwritten
      rw [hmet] at hlt hlen ⊢
      simp only [List.length_append, List.length_replicate] at hlen
      have hk : k + 1 = 8 - (fore.length + rest.length) := by omega
      simp only [hos, Bool.true_eq_false, false_and, if_false, List.append_nil]
      rw [hk]
      exact parse_double (by omega) (fun g hg => hlt g (by simp [hg])) fun g hg =>
        hlt g (by simp [hg])
  | false =>
      rw [hused] at hwritten
      obtain ⟨fore, k, hmet, hfore, hos⟩ := hwritten
      have hend := zeros_iff host a hmet hfore
      rw [hmet] at hlt hlen ⊢
      simp only [List.length_append, List.length_replicate] at hlen
      by_cases hzero : a.addr host 7 = 0
      · have hk := hend.mpr ⟨by decide, hzero⟩
        have hcount : 8 - fore.length = k := by omega
        have hfront : ∀ g ∈ fore, g < 2 ^ 16 := fun g hg => hlt g (by simp [hg])
        have hbehind : ∀ g ∈ ([] : List Nat), g < 2 ^ 16 := fun g hg => nomatch hg
        have hdouble := parse_double (by simp; omega) hfront hbehind
        rw [hos, if_pos ⟨rfl, hzero⟩]
        simpa [join, hcount] using hdouble
      · have hk : k = 0 := by
          by_contra hk
          exact hzero (hend.mp hk).2
        subst hk
        rw [List.replicate_zero, List.append_nil] at hlt ⊢
        rw [hos, if_neg fun h => hzero h.2, List.append_nil]
        exact parse_join (by omega) hlt

/-- The text is that of the address, in brackets, with at most one `::`; and behind them
stands the port. -/
theorem text_round_trip (host : Endian) (a : IPv6Address) :
    ∃ t, a.insert host =
        '[' :: t ++ ']' :: ':' :: Nat.toDigits 10 (byteswapOnLittleEndian host a.port).toNat ∧
      parse t = some a.s6Addr.toList ∧ doubles t ≤ 1 :=
  ⟨a.text host, rfl, parse_text host a, doubles_le_one (parse_text host a)⟩

example : insert .little { any with
    s6Addr := #v[0x20, 0x01, 0x0d, 0xb8, 0, 0, 0, 0, 0, 0x01, 0, 0, 0, 0, 0, 0], port := 0x5000 } =
      "[2001:db8::1:0:0:0]:80".toList := by
  decide +kernel

end RoundTrip

end IPv6Address
end Network
end Hpgs
