import Mathlib.Data.List.TakeWhile

/-!
# The host and the service of a lookup

`Lookup` looks for a `]`, and for the first and a second `:`, and hands `getaddrinfo` two
pointers.  The position of the first `:` is kept as the service also where a second one is
found, which then makes the host the whole text.

**Results.**
* `memchr_eq`, `memchr_none`: what a search finds.
* `split_bracketed`, `split_colon`, `split_plain`, `split_colons`: the node and the service
  of each form of text.
* `host_and_service`: they are right unless a bare text has two colons or more, or a null
  character ends one of the two strings early.
* `host_and_service_fail`: an IPv6 address without brackets.
-/

namespace Hpgs
namespace Network
namespace Address

/-! ## Definitions -/

def nul : Char := Char.ofNat 0

/-- `memchr(str + p, c, n)`, as a position in `str`. -/
def memchr (str : List Char) (p : Nat) (c : Char) (n : Nat) : Option Nat :=
  (((str.drop p).take n).findIdx? (· == c)).map (p + ·)

/-- What a callee reads at `str + p`. -/
def cString (str : List Char) (p : Nat) : List Char :=
  (str.drop p).takeWhile (· != nul)

/-- An address in brackets: `node`, and `service` as a position in the text. -/
def splitBrackets (host : List Char) : List Char × Option Nat :=
  let str := host ++ [nul]
  if host.head? = some '[' then
    match memchr str 1 ']' (host.length - 1) with
    | some endipv6 =>
        ((host.drop 1).take (endipv6 - 1),
          if str[endipv6 + 1]? = some ':' then some (endipv6 + 2) else none)
    | none => ([], none)
  else ([], none)

/-- A node and a service with a colon between them, where there is no node yet. -/
def splitColon (host : List Char) (found : List Char × Option Nat) : List Char × Option Nat :=
  let str := host ++ [nul]
  if found.1 = [] then
    match memchr str 0 ':' host.length with
    | some service =>
        if memchr str (service + 1) ':' (host.length - service - 1) = none then
          (host.take service, some (service + 1))
        else (found.1, some service)
    | none => (found.1, none)
  else found

/-- `node` and `service` where `getaddrinfo` is called. -/
def split (host : List Char) : List Char × Option Nat :=
  let found := splitColon host (splitBrackets host)
  if found.1 = [] then (host, found.2) else found

/-- The two strings that `getaddrinfo` reads. -/
def args (host : List Char) : List Char × Option (List Char) :=
  (cString ((split host).1 ++ [nul]) 0, (split host).2.map (cString (host ++ [nul])))

/-- `hints`, whose other fields are zero. -/
structure Hints where
  family : Int
  socktype : Int
  protocol : Int
deriving DecidableEq, Repr

section Functions

variable {α : Type} (getaddrinfo : List Char → Option (List Char) → Hints → Option (List α))

/-- `Lookup`, with the addresses that `getaddrinfo` makes a list of. -/
def lookup (result : List α) (host : List Char) (family type protocol : Int) :
    Bool × List α :=
  match getaddrinfo (args host).1 (args host).2 ⟨family, type, protocol⟩ with
  | none => (false, result)
  | some results => (!(result ++ results).isEmpty, result ++ results)

def lookupAny (host : List Char) (family type protocol : Int) : Option α :=
  match lookup getaddrinfo [] host family type protocol with
  | (true, result) => result[0]?
  | (false, _) => none

end Functions

/-! ## What is asked of the two strings -/

/-- An address in brackets that is not empty stands at the front. -/
def Bracketed (host : List Char) : Prop :=
  ∃ a rest, host = '[' :: a ++ ']' :: rest ∧ a ≠ [] ∧ ']' ∉ a

/-- The forms of a host with an optional service. -/
inductive Form : List Char → List Char → Option (List Char) → Prop
  | address {a} : a ≠ [] → ']' ∉ a → Form ('[' :: a ++ [']']) a none
  | addressService {a s} : a ≠ [] → ']' ∉ a → Form ('[' :: a ++ ']' :: ':' :: s) a (some s)
  | nameService {n s} : n ≠ [] → n.head? ≠ some '[' → ':' ∉ n → ':' ∉ s →
      Form (n ++ ':' :: s) n (some s)
  | name {h} : ':' ∉ h → ¬ Bracketed h → Form h h none

/-- Two colons or more, and no bracket before them. -/
def BareColons (host : List Char) : Prop :=
  host.head? ≠ some '[' ∧ 2 ≤ host.count ':'

/-- The strings are the parts of the text, or the text alone. -/
def SplitRight (host : List Char) : Prop :=
  (∀ node service, Form host node service → args host = (node, service)) ∧
    (BareColons host → args host = (host, none))

/-! ## Searching -/

theorem findIdx?_of_notMem {c : Char} {s : List Char} (h : c ∉ s) :
    s.findIdx? (· == c) = none := by
  rw [List.findIdx?_eq_none_iff]
  intro x hx
  rw [beq_eq_false_iff_ne]
  rintro rfl
  exact h hx

theorem memchr_eq {c : Char} (before : List Char) {mid : List Char} (rest : List Char) {n : Nat}
    (hmid : c ∉ mid) (hn : mid.length < n) :
    memchr (before ++ (mid ++ c :: rest)) before.length c n = some (before.length + mid.length) := by
  obtain ⟨k, hk⟩ : ∃ k, n - mid.length = k + 1 := ⟨n - mid.length - 1, by omega⟩
  rw [memchr, List.drop_left, List.take_append, List.take_of_length_le (by omega), hk,
    List.take_succ_cons, List.findIdx?_append, findIdx?_of_notMem hmid, List.findIdx?_cons]
  simp

theorem memchr_none {c : Char} (before : List Char) {mid : List Char} (rest : List Char)
    (hmid : c ∉ mid) : memchr (before ++ (mid ++ rest)) before.length c mid.length = none := by
  rw [memchr, List.drop_left, List.take_left, findIdx?_of_notMem hmid]
  rfl

/-- A string without a null character is read to its end. -/
theorem cString_eq (before : List Char) {s : List Char} (h : nul ∉ s) :
    cString (before ++ (s ++ [nul])) before.length = s := by
  rw [cString, List.drop_left, List.takeWhile_append_of_pos]
  · simp
  · intro c hc
    rw [bne_iff_ne]
    rintro rfl
    exact h hc

theorem nul_notMem_cString (str : List Char) (p : Nat) : nul ∉ cString str p := by
  intro h
  have hne := List.mem_takeWhile_imp h
  simp at hne

/-! ## The forms -/

section Forms

theorem splitBrackets_eq {a rest : List Char} (ha : ']' ∉ a) :
    splitBrackets ('[' :: a ++ ']' :: rest) =
      (a, if rest.head? = some ':' then some (a.length + 3) else none) := by
  have hfind : memchr ('[' :: a ++ ']' :: rest ++ [nul]) 1 ']'
      (('[' :: a ++ ']' :: rest).length - 1) = some (1 + a.length) := by
    have h := memchr_eq ['['] (rest ++ [nul]) (n := ('[' :: a ++ ']' :: rest).length - 1) ha
      (by simp)
    simpa using h
  have hnext : ('[' :: a ++ ']' :: rest ++ [nul])[1 + a.length + 1]? =
      (rest ++ [nul])[0]? := by
    have hlen : ('[' :: a ++ [']']).length = a.length + 2 := by
      rw [List.length_append, List.length_cons, List.length_singleton]
    have hsplit : '[' :: a ++ ']' :: rest ++ [nul] = ('[' :: a ++ [']']) ++ (rest ++ [nul]) := by
      simp
    rw [hsplit, List.getElem?_append_right (by omega), hlen]
    congr 1
    omega
  have hhead : ('[' :: a ++ ']' :: rest).head? = some '[' := rfl
  rw [splitBrackets, if_pos hhead, hfind]
  simp only [hnext]
  cases rest with
  | nil => simp [nul]
  | cons c rest => simp [Nat.add_comm 1 a.length]

/-- There is a node after the first step only for an address in brackets. -/
theorem splitBrackets_nil {host : List Char} (h : ¬ Bracketed host) :
    (splitBrackets host).1 = [] := by
  by_cases hhead : host.head? = some '['
  · obtain ⟨rest, rfl⟩ : ∃ rest, host = '[' :: rest := by
      cases host with
      | nil => exact nomatch hhead
      | cons c rest => exact ⟨rest, by rw [Option.some.inj hhead]⟩
    by_cases hmem : ']' ∈ rest
    · obtain ⟨a, behind, rfl, ha⟩ := List.eq_append_cons_of_mem hmem
      have hnil : a = [] := by
        by_contra hne
        exact h ⟨a, behind, rfl, hne, ha⟩
      subst hnil
      exact congrArg Prod.fst (splitBrackets_eq ha)
    · have hfind : memchr ('[' :: rest ++ [nul]) 1 ']' (('[' :: rest).length - 1) = none := by
        simpa using memchr_none ['['] [nul] hmem
      rw [splitBrackets, if_pos hhead, hfind]
  · rw [splitBrackets, if_neg hhead]

theorem split_bracketed {a rest : List Char} (hne : a ≠ []) (ha : ']' ∉ a) :
    split ('[' :: a ++ ']' :: rest) =
      (a, if rest.head? = some ':' then some (a.length + 3) else none) := by
  rw [split, splitColon, splitBrackets_eq ha]
  simp only [hne, if_false]

/-- The first colon is found. -/
theorem splitColon_eq {n s : List Char} {found : List Char × Option Nat} (hfound : found.1 = [])
    (hn : ':' ∉ n) : splitColon (n ++ ':' :: s) found =
      if ':' ∈ s then ([], some n.length) else (n, some (n.length + 1)) := by
  have hfirst : memchr (n ++ ':' :: s ++ [nul]) 0 ':' (n ++ ':' :: s).length = some n.length := by
    have h := memchr_eq [] (s ++ [nul]) (n := (n ++ ':' :: s).length) hn (by simp)
    simpa using h
  have hrest : (n ++ ':' :: s).length - n.length - 1 = s.length := by
    simp
  have hstr : n ++ ':' :: s ++ [nul] = (n ++ [':']) ++ (s ++ [nul]) := by
    simp
  have hlen : n.length + 1 = (n ++ [':']).length := by
    simp
  rw [splitColon, if_pos hfound]
  simp only [hfirst, hrest]
  by_cases hs : ':' ∈ s
  · obtain ⟨mid, behind, rfl, hmid⟩ := List.eq_append_cons_of_mem hs
    have hsecond := memchr_eq (n ++ [':']) (behind ++ [nul]) hmid
      (n := (mid ++ ':' :: behind).length) (by simp)
    rw [hstr, hlen, List.append_assoc mid, List.cons_append, hsecond, if_neg (by simp),
      if_pos hs, hfound]
  · rw [hstr, hlen, memchr_none _ _ hs, if_pos rfl, if_neg hs, List.take_left]

theorem not_bracketed {host : List Char} (h : host.head? ≠ some '[') : ¬ Bracketed host := by
  rintro ⟨a, rest, rfl, -⟩
  exact h rfl

theorem split_colon {n s : List Char} (hne : n ≠ []) (hhead : n.head? ≠ some '[') (hn : ':' ∉ n)
    (hs : ':' ∉ s) : split (n ++ ':' :: s) = (n, some (n.length + 1)) := by
  have hbare : ¬ Bracketed (n ++ ':' :: s) := by
    refine not_bracketed ?_
    cases n with
    | nil => exact absurd rfl hne
    | cons c n => exact hhead
  rw [split, splitColon_eq (splitBrackets_nil hbare) hn, if_neg hs]
  simp only [hne, if_false]

theorem split_plain {host : List Char} (hc : ':' ∉ host) (hb : ¬ Bracketed host) :
    split host = (host, none) := by
  have hfind : memchr (host ++ [nul]) 0 ':' host.length = none := by
    simpa using memchr_none [] [nul] hc
  have hnil := splitBrackets_nil hb
  rw [split, splitColon, if_pos hnil]
  simp only [hfind, hnil, if_true]

/-- The first colon stays the service. -/
theorem split_colons {host : List Char} (h : BareColons host) :
    ∃ p, split host = (host, some p) := by
  have hmem : ':' ∈ host := List.count_pos_iff.mp (by have := h.2; omega)
  obtain ⟨n, s, rfl, hn⟩ := List.eq_append_cons_of_mem hmem
  have hs : ':' ∈ s := by
    have hcount := h.2
    rw [List.count_append, List.count_cons_self, List.count_eq_zero_of_not_mem hn] at hcount
    exact List.count_pos_iff.mp (by omega)
  refine ⟨n.length, ?_⟩
  rw [split, splitColon_eq (splitBrackets_nil (not_bracketed h.1)) hn, if_pos hs]
  rfl

end Forms

/-! ## The two strings -/

/-- Without a null character the forms are split as they should be. -/
theorem args_form {host node : List Char} {service : Option (List Char)}
    (h : Form host node service) (hnul : nul ∉ host) : args host = (node, service) := by
  cases h with
  | address hne ha =>
      simp only [List.mem_append, List.mem_cons, not_or] at hnul
      rw [args, split_bracketed hne ha]
      exact Prod.ext (cString_eq [] hnul.1.2) rfl
  | @addressService _ s hne ha =>
      simp only [List.mem_append, List.mem_cons, not_or] at hnul
      have hs := cString_eq ('[' :: node ++ [']', ':']) hnul.2.2.2
      rw [args, split_bracketed hne ha]
      refine Prod.ext (cString_eq [] hnul.1.2) ?_
      simpa using hs
  | @nameService _ s hne hhead hn hs =>
      simp only [List.mem_append, List.mem_cons, not_or] at hnul
      have hservice := cString_eq (node ++ [':']) hnul.2.2
      rw [args, split_colon hne hhead hn hs]
      refine Prod.ext (cString_eq [] hnul.1) ?_
      simpa using hservice
  | name hc hb =>
      rw [args, split_plain hc hb]
      exact Prod.ext (cString_eq [] hnul) rfl

/-- What is read ends at a null character. -/
theorem nul_notMem_args {host node : List Char} {service : Option (List Char)}
    (h : Form host node service) (hargs : args host = (node, service)) : nul ∉ host := by
  have hnode : nul ∉ node := by
    have hread : nul ∉ (args host).1 := nul_notMem_cString _ _
    rwa [hargs] at hread
  have hservice : ∀ s, service = some s → nul ∉ s := by
    intro s hs
    have hmap := (congrArg Prod.snd hargs).trans hs
    obtain ⟨p, -, rfl⟩ := Option.map_eq_some_iff.mp hmap
    exact nul_notMem_cString _ _
  have hmarks : nul ≠ '[' ∧ nul ≠ ']' ∧ nul ≠ ':' := by decide
  cases h with
  | address => simp [hnode, hmarks]
  | addressService => simp [hnode, hmarks, hservice]
  | nameService => simp [hnode, hmarks, hservice]
  | name => exact hnode

/-- The two strings are right exactly for a text that is not bare with two colons or more,
and has a null character only if it has none of the other forms. -/
theorem host_and_service (host : List Char) :
    SplitRight host ↔
      ¬ BareColons host ∧ (nul ∈ host → ∀ node service, ¬ Form host node service) := by
  constructor
  · intro h
    refine ⟨fun hcolons => ?_, fun hnul node service hform => ?_⟩
    · obtain ⟨p, hp⟩ := split_colons hcolons
      have hnone := congrArg Prod.snd (h.2 hcolons)
      rw [args, hp] at hnone
      exact nomatch hnone
    · exact nul_notMem_args hform (h.1 node service hform) hnul
  · rintro ⟨hcolons, hnul⟩
    refine ⟨fun node service hform => args_form hform fun h => ?_, fun h => absurd h hcolons⟩
    exact hnul h node service hform

/-- The service of `::1` is `::1` too. -/
theorem host_and_service_fail :
    BareColons "::1".toList ∧ args "::1".toList = ("::1".toList, some "::1".toList) ∧
      ¬ SplitRight "::1".toList := by
  have hcolons : BareColons "::1".toList := ⟨by decide, by decide⟩
  have hargs : args "::1".toList = ("::1".toList, some "::1".toList) := by decide
  refine ⟨hcolons, hargs, fun h => ?_⟩
  have hright := h.2 hcolons
  rw [hargs] at hright
  exact nomatch congrArg Prod.snd hright

end Address
end Network
end Hpgs
