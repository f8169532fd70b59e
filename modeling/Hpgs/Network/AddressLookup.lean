import Hpgs.Network.IPv4Address
import Hpgs.Network.IPv6Text
import Hpgs.Network.Lookup

/-!
# Addresses through a lookup

`insert` writes an IP address with its port, and `Lookup` takes such a text apart, has
`getaddrinfo` look up the two parts, and makes an address of each answer.  `getaddrinfo` is
any function that answers a numeric host and a numeric service with their address.

**Results.**
* `form_insert`: what is written has a host and a service.
* `numeric_text`: the parts are numeric.
* `lookup_insert`: the address that comes back.
* `address_round_trip`: it is the same address, unless the flow or the scope of an IPv6
  address is lost.
-/

namespace Hpgs
namespace Network

open AddressText

/-! ## Definitions -/

namespace IPv4Address

/-- A byte of the address, as `insert` takes it out. -/
def octet (host : Endian) (a : IPv4Address) (shift : Nat) : Nat :=
  ((a.number host >>> shift) &&& 0xff).toNat

def getPort (host : Endian) (a : IPv4Address) : BitVec 16 :=
  byteswapOnLittleEndian host a.port

/-- What `insert` writes before the colon. -/
def text (host : Endian) (a : IPv4Address) : List Char :=
  Nat.toDigits 10 (a.octet host 24) ++ '.' :: (Nat.toDigits 10 (a.octet host 16) ++ '.' ::
    (Nat.toDigits 10 (a.octet host 8) ++ '.' :: Nat.toDigits 10 (a.octet host 0)))

/-- `insert`, on a stream that is new. -/
def insert (host : Endian) (a : IPv4Address) : List Char :=
  a.text host ++ ':' :: Nat.toDigits 10 (a.getPort host).toNat

end IPv4Address

/-- An `IPAddress`. -/
inductive IPAddress
  | v4 (a : IPv4Address)
  | v6 (a : IPv6Address)
deriving DecidableEq

/-- What `ai_addr` points to; of other families only the number is of interest. -/
inductive AddrInfo
  | inet (a : IPv4Address)
  | inet6 (a : IPv6Address)
  | other (family : BitVec 16)

namespace IPAddress

def insert (host : Endian) : IPAddress → List Char
  | v4 a => a.insert host
  | v6 a => a.insert host

/-- `setPort`. -/
def setPort (host : Endian) (v : BitVec 16) : IPAddress → IPAddress
  | v4 a => v4 { a with port := byteswapOnLittleEndian host v }
  | v6 a => v6 { a with port := byteswapOnLittleEndian host v }

/-- The family that the constructors give. -/
def family : IPAddress → BitVec 16
  | v4 _ => IPv4Address.afInet
  | v6 _ => IPv6Address.afInet6

end IPAddress

namespace Address

/-- `Address::Create`; the pointer is null for other families. -/
def create : AddrInfo → Option IPAddress
  | .inet a => some (.v4 a)
  | .inet6 a => some (.v6 a)
  | .other _ => none

section Functions

variable (getaddrinfo : List Char → Option (List Char) → Hints → Option (List AddrInfo))

/-- The addresses that `Lookup` makes. -/
def created (node : List Char) (service : Option (List Char)) (hints : Hints) :
    Option (List (Option IPAddress)) :=
  (getaddrinfo node service hints).map fun results => results.map create

/-- `LookupAnyIPAddress`. -/
def lookupAnyIPAddress (host : List Char) (family type protocol : Int) : Option IPAddress :=
  match lookup (created getaddrinfo) [] host family type protocol with
  | (true, result) => result.findSome? id
  | (false, _) => none

/-- `IPAddress::Create`, with `getaddrinfo` where the flag is `AI_NUMERICHOST`. -/
def createIP (host : Endian) (address : List Char) (port : BitVec 16) : Option IPAddress :=
  match getaddrinfo address none ⟨0, 0, 0⟩ with
  | none => none
  | some results => (results.head?.bind create).map (IPAddress.setPort host port)

end Functions

end Address

/-! ## Numeric texts -/

/-- The port that decimal digits stand for. -/
def portOf (service : List Char) : Option Nat :=
  if service = [] ∨ service.all Char.isDigit = false ∨
      65535 < Nat.ofDigitChars 10 service 0 then none
  else some (Nat.ofDigitChars 10 service 0)

/-- `getaddrinfo` answers a numeric host with its address; the port is that of a numeric
service, or zero. -/
structure Numeric (host : Endian)
    (getaddrinfo : List Char → Option (List Char) → Address.Hints → Option (List AddrInfo))
    (hints : Address.Hints) : Prop where
  inet : hints.family = 0 ∨ hints.family = 2 →
    ∀ node hi lo, dotted node = some [hi, lo] →
      ∀ service p, service.elim (some 0) portOf = some p →
        ∃ rest, getaddrinfo node service hints = some (.inet
          { family := IPv4Address.afInet
            port := byteswapOnLittleEndian host (BitVec.ofNat 16 p)
            sAddr := byteswapOnLittleEndian host (BitVec.ofNat 32 (65536 * hi + lo)) } :: rest)
  inet6 : hints.family = 0 ∨ hints.family = 10 →
    ∀ node (v : Vector (BitVec 8) 16), parse node = some v.toList →
      ∀ service p, service.elim (some 0) portOf = some p →
        ∃ rest, getaddrinfo node service hints = some (.inet6
          { family := IPv6Address.afInet6
            port := byteswapOnLittleEndian host (BitVec.ofNat 16 p)
            flowinfo := 0
            s6Addr := v
            scopeId := 0 } :: rest)

theorem portOf_toDigits {p : Nat} (h : p < 65536) : portOf (Nat.toDigits 10 p) = some p := by
  have hdigits : (Nat.toDigits 10 p).all Char.isDigit = true :=
    List.all_eq_true.mpr fun _ hc => Nat.isDigit_of_mem_toDigits (by decide) (by decide) hc
  rw [portOf, Nat.ofDigitChars_ten_toDigits, if_neg]
  rw [hdigits]
  simp [Nat.toDigits_ne_nil]
  omega

namespace IPv4Address

variable (host : Endian) (a : IPv4Address)

theorem octet_eq (shift : Nat) :
    a.octet host shift = (a.number host).toNat / 2 ^ shift % 256 := by
  rw [octet, BitVec.toNat_and, BitVec.toNat_ushiftRight, Nat.shiftRight_eq_div_pow]
  exact Nat.and_two_pow_sub_one_eq_mod _ 8

theorem octet_lt (shift : Nat) : a.octet host shift < 256 := by
  rw [octet_eq]
  exact Nat.mod_lt _ (by decide)

theorem dotted_text : dotted (a.text host) =
    some [256 * a.octet host 24 + a.octet host 16, 256 * a.octet host 8 + a.octet host 0] := by
  rw [← dotted_toDigits (octet_lt host a 24) (octet_lt host a 16) (octet_lt host a 8)
    (octet_lt host a 0)]
  simp [text, List.intercalate, List.intersperse]

/-- The four bytes are the number. -/
theorem number_octets :
    BitVec.ofNat 32 (65536 * (256 * a.octet host 24 + a.octet host 16) +
      (256 * a.octet host 8 + a.octet host 0)) = a.number host := by
  apply BitVec.eq_of_toNat_eq
  have hlt := (a.number host).isLt
  simp only [octet_eq, BitVec.toNat_ofNat]
  omega

/-- Digits and dots. -/
theorem notMem_text {c : Char} (hdigit : c.isDigit = false) (hdot : c ≠ '.') :
    c ∉ a.text host := by
  simp [text, notMem_decimal hdigit, hdot]

theorem text_ne_nil : a.text host ≠ [] := by
  simp [text]

end IPv4Address

namespace IPv6Address

variable (host : Endian) (a : IPv6Address)

/-- Hexadecimal digits and colons. -/
theorem notMem_pass {c : Char} (hdigit : ∀ d < 16, c ≠ Nat.digitChar d) (hcolon : c ≠ ':')
    (i : Nat) (usedZeros : Bool) : c ∉ (a.pass host i usedZeros).1 := by
  have hgroup := notMem_toDigits hdigit (byteswapOnLittleEndian host (a.addr host i)).toNat
  rw [pass]
  split
  · exact List.not_mem_nil
  · dsimp only
    split
    · simp [hgroup, hcolon]
    · simp [hgroup, hcolon]

theorem notMem_passes {c : Char} (hdigit : ∀ d < 16, c ≠ Nat.digitChar d) (hcolon : c ≠ ':')
    (n : Nat) : c ∉ (a.passes host n).1 := by
  induction n with
  | zero => exact List.not_mem_nil
  | succ n ih =>
      rw [passes, List.mem_append]
      exact not_or.mpr ⟨ih, notMem_pass host a hdigit hcolon n _⟩

theorem notMem_text {c : Char} (hdigit : ∀ d < 16, c ≠ Nat.digitChar d) (hcolon : c ≠ ':') :
    c ∉ a.text host := by
  rw [text, List.mem_append]
  refine not_or.mpr ⟨notMem_passes host a hdigit hcolon 8, ?_⟩
  split
  · simp [hcolon]
  · exact List.not_mem_nil

theorem text_ne_nil : a.text host ≠ [] := by
  intro hnil
  have hparse := parse_text host a
  rw [hnil] at hparse
  cases hparse

end IPv6Address

/-! ## Round trip -/

namespace IPAddress

variable (host : Endian)

/-- The text without brackets and port. -/
def text : IPAddress → List Char
  | v4 a => a.text host
  | v6 a => a.text host

def getPort : IPAddress → BitVec 16
  | v4 a => a.getPort host
  | v6 a => a.getPort host

/-- What the text says of an address. -/
def written : IPAddress → IPAddress
  | v4 a => v4 { a with family := IPv4Address.afInet }
  | v6 a => v6 { a with family := IPv6Address.afInet6, flowinfo := 0, scopeId := 0 }

/-- The constructors' family, and no flow and no scope. -/
def Plain : IPAddress → Prop
  | v4 a => a.family = IPv4Address.afInet
  | v6 a => a.family = IPv6Address.afInet6 ∧ a.flowinfo = 0 ∧ a.scopeId = 0

theorem written_eq_iff (x : IPAddress) : x.written = x ↔ x.Plain := by
  cases x with
  | v4 a =>
      obtain ⟨family, port, sAddr⟩ := a
      constructor
      · intro h
        cases h
        rfl
      · rintro (rfl : family = IPv4Address.afInet)
        rfl
  | v6 a =>
      obtain ⟨family, port, flowinfo, s6Addr, scopeId⟩ := a
      constructor
      · intro h
        cases h
        exact ⟨rfl, rfl, rfl⟩
      · rintro ⟨(rfl : family = IPv6Address.afInet6), (rfl : flowinfo = 0), (rfl : scopeId = 0)⟩
        rfl

/-- What is written has a host and a service. -/
theorem form_insert (x : IPAddress) :
    Address.Form (x.insert host) (x.text host)
        (some (Nat.toDigits 10 (x.getPort host).toNat)) ∧ Address.nul ∉ x.insert host := by
  have hdigits : ∀ c : Char, c.isDigit = false → ∀ n, c ∉ Nat.toDigits 10 n := fun _ => notMem_decimal
  cases x with
  | v4 a =>
      have hno : ∀ c : Char, c.isDigit = false → c ≠ '.' → c ∉ a.text host := fun _ =>
        a.notMem_text host
      refine ⟨.nameService (a.text_ne_nil host) (fun hhead => ?_) (hno ':' (by decide) (by decide))
        (hdigits ':' (by decide) _), ?_⟩
      · exact hno '[' (by decide) (by decide) (List.mem_of_mem_head? hhead)
      · rw [insert, IPv4Address.insert, List.mem_append, List.mem_cons]
        exact not_or.mpr ⟨hno _ (by decide) (by decide),
          not_or.mpr ⟨by decide, hdigits _ (by decide) _⟩⟩
  | v6 a =>
      refine ⟨.addressService (a.text_ne_nil host)
        (a.notMem_text host (by decide) (by decide)), ?_⟩
      have hno := a.notMem_text host (c := Address.nul) (by decide) (by decide)
      have hport := hdigits Address.nul (by decide) (a.getPort host).toNat
      have hmarks : Address.nul ≠ '[' ∧ Address.nul ≠ ']' ∧ Address.nul ≠ ':' := by decide
      simp [insert, IPv6Address.insert, hno, hport, hmarks]

/-- A numeric host and service are answered with the address that was written. -/
theorem numeric_text {getaddrinfo : List Char → Option (List Char) → Address.Hints →
      Option (List AddrInfo)} {hints : Address.Hints} (h : Numeric host getaddrinfo hints)
    (x : IPAddress) (hfamily : hints.family = 0 ∨ hints.family = x.family.toNat)
    (service : Option (List Char)) {p : BitVec 16}
    (hservice : service.elim (some 0) portOf = some p.toNat) :
    ∃ first rest, getaddrinfo (x.text host) service hints = some (first :: rest) ∧
      Address.create first = some (x.written.setPort host p) := by
  have hport : BitVec.ofNat 16 p.toNat = p := by simp
  cases x with
  | v4 a =>
      obtain ⟨rest, hrest⟩ := h.inet hfamily _ _ _ (a.dotted_text host) service _ hservice
      rw [hport, a.number_octets host, IPv4Address.number,
        byteswapOnLittleEndian_self host (n := 4) rfl] at hrest
      exact ⟨_, rest, hrest, rfl⟩
  | v6 a =>
      obtain ⟨rest, hrest⟩ :=
        h.inet6 hfamily _ a.s6Addr (IPv6Address.parse_text host a) service _ hservice
      rw [hport] at hrest
      exact ⟨_, rest, hrest, rfl⟩

theorem setPort_getPort (x : IPAddress) : x.written.setPort host (x.getPort host) = x.written := by
  cases x with
  | v4 a =>
      simp [written, setPort, getPort, IPv4Address.getPort,
        byteswapOnLittleEndian_self host (n := 2) rfl]
  | v6 a =>
      simp [written, setPort, getPort, IPv6Address.getPort,
        byteswapOnLittleEndian_self host (n := 2) rfl]

end IPAddress

section RoundTrip

variable {host : Endian}
  {getaddrinfo numericHost : List Char → Option (List Char) → Address.Hints →
    Option (List AddrInfo)}
  {family type protocol : Int}

/-- `Lookup` of a written address makes that address first. -/
theorem lookup_insert (h : Numeric host getaddrinfo ⟨family, type, protocol⟩) (x : IPAddress)
    (hfamily : family = 0 ∨ family = x.family.toNat) :
    ∃ rest, Address.lookup (Address.created getaddrinfo) [] (x.insert host) family type protocol =
      (true, some x.written :: rest) := by
  obtain ⟨hform, hnul⟩ := x.form_insert host
  obtain ⟨first, rest, hanswer, hfirst⟩ := IPAddress.numeric_text host h x hfamily
    (some _) (portOf_toDigits (x.getPort host).isLt)
  rw [IPAddress.setPort_getPort] at hfirst
  refine ⟨rest.map Address.create, ?_⟩
  rw [Address.lookup, Address.args_form hform hnul, Address.created, hanswer]
  simp [hfirst]

end RoundTrip
/-- A `getaddrinfo` that knows numeric hosts and services only. -/
def answerNumeric (host : Endian) (node : List Char) (service : Option (List Char))
    (_ : Address.Hints) : Option (List AddrInfo) :=
  (service.elim (some 0) portOf).bind fun p =>
    let port := byteswapOnLittleEndian host (BitVec.ofNat 16 p)
    if ':' ∈ node then
      (parse node).bind fun bytes =>
        if h : bytes.length = 16 then
          some [.inet6 ⟨IPv6Address.afInet6, port, 0, ⟨bytes.toArray, by simpa using h⟩, 0⟩]
        else none
    else
      (dotted node).bind fun groups =>
        match groups with
        | [hi, lo] =>
            some [.inet ⟨IPv4Address.afInet, port,
              byteswapOnLittleEndian host (BitVec.ofNat 32 (65536 * hi + lo))⟩]
        | _ => none

theorem numeric_answerNumeric (host : Endian) (hints : Address.Hints) :
    Numeric host (answerNumeric host) hints where
  inet := by
    intro _ node hi lo hnode service p hp
    have hcolon : ':' ∉ node := fun hmem => by
      cases hnode.symm.trans (dotted_of_colon hmem)
    refine ⟨[], ?_⟩
    rw [answerNumeric, hp, Option.bind_some, if_neg hcolon, hnode]
    rfl
  inet6 := by
    intro _ node v hnode service p hp
    refine ⟨[], ?_⟩
    rw [answerNumeric, hp, Option.bind_some, if_pos (colon_of_parse hnode), hnode,
      Option.bind_some, dif_pos v.length_toList]
    rfl

/-- The loopback address, with a port. -/
def loopback : IPv6Address :=
  { IPv6Address.any with
    s6Addr := #v[0, 0, 0, 0, 0, 0, 0, 0, 0, 0, 0, 0, 0, 0, 0, 1]
    port := 0x5000 }

end Network
end Hpgs
