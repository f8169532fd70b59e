import Hpgs.Library.Blocks
import Hpgs.Network.Address

/-!
# Buffers over SSL

`SSLSocket::send` and `SSLSocket::recv` pass a list of buffers to SSL one by one and add up
in an `int` what each call transfers.  A call that fails makes its own result that of the
function, whatever the calls before it have transferred; and the length of a buffer is
passed as an `int`.

**Results.**
* `toInt_length`: the length that SSL is asked for.
* `transfer_ends`: a run of the loop from any buffer on.
* `accounted_iff`: which ends of the loop account for all bytes.
* `transfer_accounts`: both functions account for all bytes exactly if no call fails after
  another one, the sum is an `int`, and so is the length of all buffers but the last.
* `transfer_forgets`: a buffer that is sent and then forgotten.
-/

namespace Hpgs
namespace Network
namespace SSLSocket

open Blocks

/-! ## Definitions -/

/-- What the calls of `SSL_write` or `SSL_read` return, by their number and the `num` that
they are passed: at most `num`, or a result that is not positive. -/
structure SslCalls where
  result : Nat → Int → Int
  least : ∀ i num, -2 ^ 31 ≤ result i num
  most : ∀ i num, 0 < result i num → result i num ≤ num

/-- `iov_len` where an `int` is expected. -/
def toInt (len : BitVec 64) : Int :=
  (len.setWidth 32).toInt

/-- The loop over the buffers from number `i` on: the returned value, and how many bytes
each call has transferred from the front of its buffer. -/
def transfer (ssl : SslCalls) : List (BitVec 64) → Nat → Int → Except Undefined Int × List Nat
  | [], _, total => (.ok total, [])
  | len :: buffers, i, total =>
      let tmp := ssl.result i (toInt len)
      if tmp ≤ 0 then (.ok tmp, [])
      else if 2 ^ 31 ≤ total + tmp then (.error .overflow, [tmp.toNat])
      else if tmp ≠ toInt len then (.ok (total + tmp), [tmp.toNat])
      else
        let rest := transfer ssl buffers (i + 1) (total + tmp)
        (rest.1, tmp.toNat :: rest.2)

/-- The body that `send` and `recv` share. -/
def transferAll (ssl : Option SslCalls) (buffers : List (BitVec 64)) :
    Except Undefined Int × List Nat :=
  match ssl with
  | none => (.ok (-1), [])
  | some ssl => transfer ssl buffers 0 0

/-- `send` of an array of `iovec`, with what `SSL_write` returns. -/
def send (sslWrite : Option SslCalls) (buffers : List (BitVec 64)) :
    Except Undefined Int × List Nat :=
  transferAll sslWrite buffers

/-- `recv` into an array of `iovec`, with what `SSL_read` returns. -/
def recv (sslRead : Option SslCalls) (buffers : List (BitVec 64)) :
    Except Undefined Int × List Nat :=
  transferAll sslRead buffers

/-! ## What callers count on -/

/-- The lengths of the buffers. -/
def lengths (buffers : List (BitVec 64)) : List Nat :=
  buffers.map BitVec.toNat

/-- The value is the number of bytes transferred, which are the first ones of the buffers in
order; and it is not positive only if there are none. -/
def Accounted (buffers : List (BitVec 64)) (r : Except Undefined Int × List Nat) : Prop :=
  ∃ v, r.1 = .ok v ∧
    (places 0 r.2 ≠ [] → 0 < v ∧ v = (places 0 r.2).length) ∧
    places 0 r.2 <+: places 0 (lengths buffers) ∧
    (v ≤ 0 → places 0 r.2 = [])

section Condition

variable (ssl : SslCalls) (buffers : List (BitVec 64))

/-- What SSL is asked for with buffer `k`. -/
def asked (k : Nat) : Int :=
  toInt (buffers.getD k 0)

/-- What it returns for buffer `k`. -/
def outcome (k : Nat) : Int :=
  ssl.result k (asked buffers k)

/-- What it returns for the first `k` buffers together. -/
def sum (k : Nat) : Int :=
  ((List.range k).map (outcome ssl buffers)).sum

/-- All buffers before number `k` pass whole, as `int`s. -/
def Reached (k : Nat) : Prop :=
  ∀ j < k, 0 < outcome ssl buffers j ∧ outcome ssl buffers j = asked buffers j

/-- No call fails behind another one; the lengths before are `int`s; and so is the sum. -/
def Fits (k : Nat) : Prop :=
  (0 < k → 0 < outcome ssl buffers k ∧ ∀ j < k, (buffers.getD j 0).toNat < 2 ^ 31) ∧
    (0 < outcome ssl buffers k → sum ssl buffers (k + 1) < 2 ^ 31)

/-- All buffers that are reached fit. -/
def AllFit : Prop :=
  ∀ k < buffers.length, Reached ssl buffers k → Fits ssl buffers k

end Condition

/-! ## Lengths -/

/-- A length that stays positive as an `int` is its low 31 bits. -/
theorem toInt_length {len : BitVec 64} (h : 0 < toInt len) :
    (toInt len).toNat ≤ len.toNat ∧ ((toInt len).toNat = len.toNat ↔ len.toNat < 2 ^ 31) := by
  have hbound := len.isLt
  have hset : (len.setWidth 32).toNat = len.toNat % 2 ^ 32 := BitVec.toNat_setWidth 32 len
  rw [toInt, BitVec.toInt_eq_toNat_cond, hset] at h ⊢
  split at h <;> omega

/-! ## Where the loop ends -/

section Loop

variable {ssl : SslCalls} {buffers : List (BitVec 64)}

/-- What the calls for the first `k` buffers have transferred. -/
def taken (ssl : SslCalls) (buffers : List (BitVec 64)) (k : Nat) : List Nat :=
  (List.range k).map fun j => (outcome ssl buffers j).toNat

theorem taken_succ (k : Nat) :
    taken ssl buffers (k + 1) = taken ssl buffers k ++ [(outcome ssl buffers k).toNat] := by
  rw [taken, List.range_succ, List.map_append]
  rfl

theorem sum_succ (k : Nat) :
    sum ssl buffers (k + 1) = sum ssl buffers k + outcome ssl buffers k :=
  List.sum_range_succ (outcome ssl buffers) k

theorem getD_taken {j k : Nat} (h : j < k) :
    (taken ssl buffers k).getD j 0 = (outcome ssl buffers j).toNat := by
  rw [taken, List.getD_eq_getElem?_getD, List.getElem?_map, List.getElem?_range h]
  rfl

/-- Where the loop stops, and what the function then returns. -/
inductive Ends (ssl : SslCalls) (buffers : List (BitVec 64)) :
    Except Undefined Int × List Nat → Prop
  | all : Reached ssl buffers buffers.length →
      (∀ k < buffers.length, sum ssl buffers (k + 1) < 2 ^ 31) →
      Ends ssl buffers (.ok (sum ssl buffers buffers.length), taken ssl buffers buffers.length)
  | failed {k : Nat} : k < buffers.length → Reached ssl buffers k → outcome ssl buffers k ≤ 0 →
      Ends ssl buffers (.ok (outcome ssl buffers k), taken ssl buffers k)
  | overflow {k : Nat} : k < buffers.length → Reached ssl buffers k → 0 < outcome ssl buffers k →
      2 ^ 31 ≤ sum ssl buffers (k + 1) →
      Ends ssl buffers (.error .overflow, taken ssl buffers (k + 1))
  | short {k : Nat} : k < buffers.length → Reached ssl buffers k → 0 < outcome ssl buffers k →
      outcome ssl buffers k ≠ asked buffers k →
      (∀ j < k + 1, sum ssl buffers (j + 1) < 2 ^ 31) →
      Ends ssl buffers (.ok (sum ssl buffers (k + 1)), taken ssl buffers (k + 1))

theorem transfer_ends {todo : List (BitVec 64)} {i : Nat} (htodo : buffers.drop i = todo)
    (hi : i ≤ buffers.length) (hreached : Reached ssl buffers i)
    (hsum : ∀ j < i, sum ssl buffers (j + 1) < 2 ^ 31) :
    Ends ssl buffers ((transfer ssl todo i (sum ssl buffers i)).1,
      taken ssl buffers i ++ (transfer ssl todo i (sum ssl buffers i)).2) := by
  induction todo generalizing i with
  | nil =>
      have hend : i = buffers.length := Nat.le_antisymm hi (List.drop_eq_nil_iff.mp htodo)
      subst hend
      rw [transfer, List.append_nil]
      exact .all hreached hsum
  | cons len todo ih =>
      have hlt : i < buffers.length := by
        by_contra hge
        rw [List.drop_eq_nil_iff.mpr (Nat.le_of_not_lt hge)] at htodo
        exact nomatch htodo
      have hlen : buffers.getD i 0 = len := by
        rw [List.drop_eq_getElem_cons hlt] at htodo
        rw [List.getD_eq_getElem _ _ hlt]
        exact (List.cons.inj htodo).1
      have hrest : buffers.drop (i + 1) = todo := by
        rw [← List.drop_drop, htodo, List.drop_one, List.tail_cons]
      have htmp : ssl.result i (toInt len) = outcome ssl buffers i := by
        rw [outcome, asked, hlen]
      have hasked : toInt len = asked buffers i := by rw [asked, hlen]
      rw [transfer, htmp, hasked, ← sum_succ]
      by_cases hpos : outcome ssl buffers i ≤ 0
      · rw [if_pos hpos, List.append_nil]
        exact .failed hlt hreached hpos
      · rw [if_neg hpos]
        by_cases hover : 2 ^ 31 ≤ sum ssl buffers (i + 1)
        · rw [if_pos hover, ← taken_succ]
          exact .overflow hlt hreached (Int.lt_of_not_ge hpos) hover
        · have hsum' : ∀ j < i + 1, sum ssl buffers (j + 1) < 2 ^ 31 :=
            Nat.forall_lt_succ_right.mpr ⟨hsum, Int.lt_of_not_ge hover⟩
          rw [if_neg hover]
          by_cases hshort : outcome ssl buffers i ≠ asked buffers i
          · rw [if_pos hshort, ← taken_succ]
            exact .short hlt hreached (Int.lt_of_not_ge hpos) hshort hsum'
          · rw [if_neg hshort]
            have hreached' : Reached ssl buffers (i + 1) :=
              Nat.forall_lt_succ_right.mpr
                ⟨hreached, Int.lt_of_not_ge hpos, not_not.mp hshort⟩
            have hnext := ih hrest hlt hreached' hsum'
            rw [taken_succ, List.append_assoc] at hnext
            exact hnext

/-! ## Accounts -/

theorem sum_taken {k : Nat} (h : ∀ j < k, 0 < outcome ssl buffers j) :
    ((taken ssl buffers k).sum : Int) = sum ssl buffers k := by
  induction k with
  | zero => rfl
  | succ k ih =>
      obtain ⟨hfore, hpos⟩ := Nat.forall_lt_succ_right.mp h
      rw [taken_succ, sum_succ, List.sum_append, ← ih hfore]
      simp
      omega

/-- Positive results are accounted for exactly if no buffer but the last has a length that is
no `int`. -/
theorem accounted_taken {k : Nat} (hreached : Reached ssl buffers k)
    (hpos : 0 < outcome ssl buffers k) :
    Accounted buffers (.ok (sum ssl buffers (k + 1)), taken ssl buffers (k + 1)) ↔
      ∀ j < k, (buffers.getD j 0).toNat < 2 ^ 31 := by
  have hall : ∀ j < k + 1, 0 < outcome ssl buffers j :=
    Nat.forall_lt_succ_right.mpr ⟨fun j hj => (hreached j hj).1, hpos⟩
  have hlen : ∀ j, (lengths buffers).getD j 0 = (buffers.getD j 0).toNat := by
    intro j
    simp only [lengths, List.getD_eq_getElem?_getD, List.getElem?_map]
    cases buffers[j]? <;> rfl
  have hcount : ((places 0 (taken ssl buffers (k + 1))).length : Int) = sum ssl buffers (k + 1) := by
    rw [length_places, sum_taken hall]
  have hsum : 0 < sum ssl buffers (k + 1) := by
    have hfore := sum_taken fun j hj => (hreached j hj).1
    rw [sum_succ]
    omega
  have hcalls : (taken ssl buffers (k + 1)).length = k + 1 := by simp [taken]
  have hbound : ∀ j < (taken ssl buffers (k + 1)).length,
      0 < (taken ssl buffers (k + 1)).getD j 0 ∧
        (taken ssl buffers (k + 1)).getD j 0 ≤ (lengths buffers).getD j 0 := by
    intro j hj
    rw [hcalls] at hj
    have hone := hall j hj
    have hasked : outcome ssl buffers j ≤ asked buffers j := ssl.most _ _ hone
    have hpositive : 0 < toInt (buffers.getD j 0) := Int.lt_of_lt_of_le hone hasked
    have hle := (toInt_length hpositive).1
    rw [getD_taken hj, hlen]
    rw [← asked] at hle
    omega
  have hfront := places_prefix_iff 0 hbound
  have hwhole : ∀ j < k, (taken ssl buffers (k + 1)).getD j 0 = (lengths buffers).getD j 0 ↔
      (buffers.getD j 0).toNat < 2 ^ 31 := by
    intro j hj
    obtain ⟨hone, hsame⟩ := hreached j hj
    have hpositive : 0 < toInt (buffers.getD j 0) := lt_of_lt_of_eq hone hsame
    have hiff := (toInt_length hpositive).2
    rw [getD_taken (Nat.lt_succ_of_lt hj), hlen, hsame]
    exact hiff
  constructor
  · rintro ⟨-, -, -, hfirst, -⟩ j hj
    exact (hwhole j hj).mp (hfront.mp hfirst j (by omega))
  · intro hshort
    refine ⟨_, rfl, fun _ => ⟨hsum, hcount.symm⟩, hfront.mpr fun j hj => ?_, fun h => by omega⟩
    have hj' : j < k := by omega
    exact (hwhole j hj').mpr (hshort j hj')

/-- If the last buffer reached is passed, whole or not, only the lengths matter. -/
theorem allFit_iff {k : Nat} (hk : k < buffers.length) (hreached : Reached ssl buffers k)
    (hpos : 0 < outcome ssl buffers k)
    (hlast : ∀ j < buffers.length, Reached ssl buffers j → j ≤ k)
    (hsum : ∀ j < k + 1, sum ssl buffers (j + 1) < 2 ^ 31) :
    AllFit ssl buffers ↔ ∀ j < k, (buffers.getD j 0).toNat < 2 ^ 31 := by
  constructor
  · intro hall j hj
    exact ((hall k hk hreached).1 (by omega)).2 j hj
  · intro hshort i hi hr
    have hik := hlast i hi hr
    refine ⟨fun _ => ⟨?_, fun j hj => hshort j (by omega)⟩, fun _ => hsum i (by omega)⟩
    rcases Nat.eq_or_lt_of_le hik with rfl | hlt
    · exact hpos
    · exact (hreached i hlt).1

/-- What the loop returns is accounted for exactly if all buffers that it reaches fit. -/
theorem accounted_iff {r : Except Undefined Int × List Nat} (h : Ends ssl buffers r) :
    Accounted buffers r ↔ AllFit ssl buffers := by
  cases h with
  | all hreached hsum =>
      cases hn : buffers.length with
      | zero =>
          refine ⟨fun _ k hk => absurd hk (by omega), fun _ => ⟨_, rfl, ?_⟩⟩
          simp [taken, places]
      | succ k =>
          rw [hn] at hreached hsum
          have hk : k < buffers.length := by omega
          have hfore : Reached ssl buffers k := fun j hj => hreached j (Nat.lt_succ_of_lt hj)
          have hpos := (hreached k (Nat.lt_succ_self k)).1
          rw [accounted_taken hfore hpos,
            allFit_iff hk hfore hpos (fun j hj _ => by omega) hsum]
  | @failed k hk hreached hfail =>
      constructor
      · rintro ⟨v, hv, hpositive, -⟩ i hi hr
        have hv : outcome ssl buffers k = v := Except.ok.inj hv
        have hzero : k = 0 := by
          by_contra hne
          have hnonempty : places 0 (taken ssl buffers k) ≠ [] := by
            intro hnil
            have hlen := congrArg List.length hnil
            have hfore := sum_taken fun j hj => (hreached j hj).1
            obtain ⟨j, rfl⟩ := Nat.exists_eq_succ_of_ne_zero hne
            rw [length_places, taken_succ, List.sum_append] at hlen
            have hlastPos := (hreached j (Nat.lt_succ_self j)).1
            simp at hlen
            omega
          have := (hpositive hnonempty).1
          omega
        subst hzero
        have hizero : i = 0 := by
          by_contra hne
          have := (hr 0 (Nat.pos_of_ne_zero hne)).1
          omega
        subst hizero
        exact ⟨fun h => absurd h (Nat.lt_irrefl 0), fun h => by omega⟩
      · intro hall
        have hzero : k = 0 := by
          by_contra hne
          have := ((hall k hk hreached).1 (Nat.pos_of_ne_zero hne)).1
          omega
        subst hzero
        exact ⟨_, rfl, by simp [taken, places]⟩
  | @overflow k hk hreached hpos hover =>
      constructor
      · rintro ⟨v, hv, -⟩
        cases hv
      · intro hall
        have := (hall k hk hreached).2 hpos
        omega
  | @short k hk hreached hpos hshort hsum =>
      rw [accounted_taken hreached hpos, allFit_iff hk hreached hpos ?_ hsum]
      intro i hi hr
      by_contra hgt
      exact hshort (hr k (by omega)).2

end Loop

theorem transferAll_accounts (ssl : Option SslCalls) (buffers : List (BitVec 64)) :
    Accounted buffers (transferAll ssl buffers) ↔ ∀ calls ∈ ssl, AllFit calls buffers := by
  cases ssl with
  | none =>
      constructor
      · exact fun _ calls hmem => nomatch hmem
      · exact fun _ => ⟨-1, rfl, by simp [places, transferAll]⟩
  | some calls =>
      have hends : Ends calls buffers (transferAll (some calls) buffers) :=
        transfer_ends rfl (Nat.zero_le _) (fun j hj => absurd hj (Nat.not_lt_zero j))
          fun j hj => absurd hj (Nat.not_lt_zero j)
      have hiff := accounted_iff hends
      constructor
      · rintro h _ ⟨rfl⟩
        exact hiff.mp h
      · exact fun h => hiff.mpr (h calls rfl)

/-- Both functions account for all bytes exactly if all buffers that are reached fit. -/
theorem transfer_accounts (sslWrite sslRead : Option SslCalls) (buffers : List (BitVec 64)) :
    (Accounted buffers (send sslWrite buffers) ↔ ∀ ssl ∈ sslWrite, AllFit ssl buffers) ∧
      (Accounted buffers (recv sslRead buffers) ↔ ∀ ssl ∈ sslRead, AllFit ssl buffers) :=
  ⟨transferAll_accounts sslWrite buffers, transferAll_accounts sslRead buffers⟩

/-- SSL that passes the first buffer and is closed then. -/
def closing : SslCalls where
  result i num := if i = 0 ∧ 0 ≤ num then num else 0
  least i num := by
    split <;> omega
  most i num h := by
    split at h <;> omega

/-- Three bytes are sent, and the result is that of the next call. -/
theorem transfer_forgets :
    send (some closing) [3, 5] = (.ok 0, [3]) ∧ ¬ Accounted [3, 5] (send (some closing) [3, 5]) := by
  have hsend : send (some closing) [3, 5] = (.ok 0, [3]) := by decide
  refine ⟨hsend, ?_⟩
  rw [hsend]
  rintro ⟨v, hv, hpositive, -⟩
  have hv : 0 = v := Except.ok.inj hv
  have hpos := (hpositive (by decide)).1
  omega

end SSLSocket
end Network
end Hpgs
