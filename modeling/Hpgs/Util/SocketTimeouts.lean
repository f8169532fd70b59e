import Hpgs.Util.HookSteps

/-!
# The timeouts of a socket

The hooked `setsockopt` stores `SO_RCVTIMEO` and `SO_SNDTIMEO` in the context of the
socket, in milliseconds; `do_io` looks up one of them when it is called, and sets a timer
for it when it has to wait.  Which one is an argument that each of the eleven wrappers
passes; that of `write` is `SO_RCVTIMEO`.

**Results.**
* `exec_getTimeout`: the context holds the last timeout of each direction.
* `own_direction`: a call waits with the last timeout of its direction, exactly if it is
  not `write` or both are equal.
* `timeout_meaning`: a timeout keeps its meaning, exactly if it is whole milliseconds, not
  zero and not too large, and the call is not `write`.
* `write_waits_as_read`, `zero_timeout_expires`: a call with the wrong timeout.
-/

namespace Hpgs
namespace Util

open Transition

/-! ## The wrappers -/

namespace HookFun

def accept : Hooked := .doIo .read true

def read : Hooked := .doIo .read true

def readv : Hooked := .doIo .read true

def recv : Hooked := .doIo .read true

def recvfrom : Hooked := .doIo .read true

def recvmsg : Hooked := .doIo .read true

/-- It passes `SO_RCVTIMEO`. -/
def write : Hooked := .doIo .write true

def writev : Hooked := .doIo .write false

def send : Hooked := .doIo .write false

def sendto : Hooked := .doIo .write false

def sendmsg : Hooked := .doIo .write false

end HookFun

/-- The functions that are hooked by `do_io`. -/
inductive IoCall
  | accept | read | readv | recv | recvfrom | recvmsg
  | write | writev | send | sendto | sendmsg
deriving DecidableEq, Repr

namespace IoCall

def hooked : IoCall → Hooked
  | .accept => HookFun.accept
  | .read => HookFun.read
  | .readv => HookFun.readv
  | .recv => HookFun.recv
  | .recvfrom => HookFun.recvfrom
  | .recvmsg => HookFun.recvmsg
  | .write => HookFun.write
  | .writev => HookFun.writev
  | .send => HookFun.send
  | .sendto => HookFun.sendto
  | .sendmsg => HookFun.sendmsg

/-- The direction of a call. -/
def receives : IoCall → Bool
  | .accept | .read | .readv | .recv | .recvfrom | .recvmsg => true
  | .write | .writev | .send | .sendto | .sendmsg => false

end IoCall

/-! ## Setting a timeout -/

/-- `timeval`. -/
structure Timeval where
  sec : Int
  usec : Int
deriving DecidableEq, Repr

/-- The value is a `long`. -/
def InLong (x : Int) : Prop :=
  -2 ^ 63 ≤ x ∧ x < 2 ^ 63

instance (x : Int) : Decidable (InLong x) :=
  inferInstanceAs (Decidable (_ ∧ _))

namespace Timeval

/-- `v->tv_sec * 1000 + v->tv_usec / 1000` as a `uint64_t`; `none` is an overflow. -/
def ms (v : Timeval) : Option Nat :=
  if InLong (v.sec * 1000) ∧ InLong (v.sec * 1000 + v.usec.tdiv 1000) then
    some ((v.sec * 1000 + v.usec.tdiv 1000) % 2 ^ 64).toNat
  else none

/-- A time that the kernel takes. -/
def Valid (v : Timeval) : Prop :=
  0 ≤ v.sec ∧ InLong v.sec ∧ 0 ≤ v.usec ∧ v.usec < 1000000

instance (v : Timeval) : Decidable v.Valid :=
  inferInstanceAs (Decidable (_ ∧ _))

end Timeval

/-- `SO_RCVTIMEO`, `SO_SNDTIMEO` and the other options. -/
inductive SockOpt
  | rcvTimeo
  | sndTimeo
  | other
deriving DecidableEq, Repr

/-- The option of a direction. -/
def timeoutSo (recv : Bool) : SockOpt :=
  if recv then .rcvTimeo else .sndTimeo

/-- What `setsockopt` does to the context of the socket; `none` is an overflow. -/
def setsockopt (hookEnable solSocket : Bool) (optname : SockOpt) (v : Timeval) (ctx : FdCtx) :
    Option FdCtx :=
  if !hookEnable then some ctx
  else if solSocket then
    match optname with
    | .rcvTimeo => v.ms.map fun ms => ctx.setTimeout true ms
    | .sndTimeo => v.ms.map fun ms => ctx.setTimeout false ms
    | .other => some ctx
  else some ctx

/-- A call of the hooked `setsockopt`. -/
structure Setting where
  solSocket : Bool
  optname : SockOpt
  v : Timeval
deriving DecidableEq

/-- The call sets the timeout of the direction. -/
def Setting.sets (s : Setting) (recv : Bool) : Bool :=
  s.solSocket && s.optname == timeoutSo recv

/-- Calls of `setsockopt` on a socket. -/
def settings : System FdCtx Setting where
  init ctx := ∃ fd flags, ctx = (FdCtx.new fd (some true) flags).1
  step ctx s := setsockopt true s.solSocket s.optname s.v ctx

/-- The timeout that was set last, if any. -/
def lastTimeout (history : List Setting) (recv : Bool) : Nat :=
  ((history.filter fun s => s.sets recv).getLast?.bind fun s => s.v.ms).getD noTimeout

/-! ## Waiting -/

/-- The timer that is set for a timeout, if it is not `~0ull`. -/
def timerOf (timeout : Nat) : Option Nat :=
  if timeout = noTimeout then none else some timeout

/-- The timer with which a call has to wait; `none` if it is left to the original
function. -/
def waitTimer (ctx : FdCtx) (fn : Hooked) : Option (Option Nat) :=
  if intercepts true (some ctx) then some (timerOf (fn.timeout ctx)) else none

/-- No timer for zero, and otherwise one for at least the time that was asked for. -/
def Meaning (v : Timeval) (timer : Option Nat) : Prop :=
  if v = ⟨0, 0⟩ then timer = none
  else ∃ ms, timer = some ms ∧ v.sec * 1000000 + v.usec ≤ (ms : Int) * 1000

/-- After the timeout of its direction is set, the call waits as was asked for, whatever is
set for the other direction. -/
def KeepsMeaning (ctx : FdCtx) (v : Timeval) (c : IoCall) : Prop :=
  ∃ ctx', setsockopt true true (timeoutSo c.receives) v ctx = some ctx' ∧
    ∀ later ctx'', (∀ s ∈ later, s.sets c.receives = false) →
      settings.exec ctx' later = some ctx'' →
        ∃ timer, waitTimer ctx'' c.hooked = some timer ∧ Meaning v timer

/-! ## What the settings store -/

section Settings

variable {ctx ctx' : FdCtx} {s : Setting} {history : List Setting}

/-- **One setting** stores the timeout of its direction and nothing else. -/
theorem setsockopt_cases (h : settings.step ctx s = some ctx') :
    (∃ recv ms, s.sets recv = true ∧ s.sets (!recv) = false ∧ s.v.ms = some ms ∧
        ctx' = ctx.setTimeout recv ms) ∨
      (∀ recv, s.sets recv = false) ∧ ctx' = ctx := by
  obtain ⟨solSocket, optname, v⟩ := s
  cases solSocket with
  | false =>
      cases h
      exact Or.inr ⟨fun _ => rfl, rfl⟩
  | true =>
      cases optname with
      | rcvTimeo =>
          obtain ⟨ms, hms, rfl⟩ := Option.map_eq_some_iff.mp h
          exact Or.inl ⟨true, ms, rfl, rfl, hms, rfl⟩
      | sndTimeo =>
          obtain ⟨ms, hms, rfl⟩ := Option.map_eq_some_iff.mp h
          exact Or.inl ⟨false, ms, rfl, rfl, hms, rfl⟩
      | other =>
          cases h
          exact Or.inr ⟨fun recv => by cases recv <;> rfl, rfl⟩

theorem setTimeout_getTimeout (ctx : FdCtx) (recv recv' : Bool) (v : Nat) :
    (ctx.setTimeout recv v).getTimeout recv' =
      if recv' = recv then v else ctx.getTimeout recv' := by
  cases recv <;> cases recv' <;> rfl

theorem setTimeout_intercepts (ctx : FdCtx) (recv : Bool) (v : Nat) :
    intercepts true (some (ctx.setTimeout recv v)) = intercepts true (some ctx) := by
  cases recv <;> rfl

theorem step_intercepts (h : settings.step ctx s = some ctx') :
    intercepts true (some ctx') = intercepts true (some ctx) := by
  rcases setsockopt_cases h with ⟨recv, ms, _, _, _, rfl⟩ | ⟨_, rfl⟩
  · exact setTimeout_intercepts ctx recv ms
  · rfl

/-- A setting is remembered for its direction until the next one. -/
theorem step_getTimeout (h : settings.step ctx s = some ctx') (recv : Bool) :
    ctx'.getTimeout recv =
      if s.sets recv then s.v.ms.getD noTimeout else ctx.getTimeout recv := by
  rcases setsockopt_cases h with ⟨recv', ms, hsets, hother, hms, rfl⟩ | ⟨hnone, rfl⟩
  · rw [setTimeout_getTimeout]
    by_cases heq : recv = recv'
    · subst heq
      rw [if_pos rfl, hsets, hms]
      rfl
    · have hneg : recv = !recv' := by
        cases recv <;> cases recv' <;> simp at heq ⊢
      rw [if_neg heq, hneg, hother]
      rfl
  · rw [hnone recv]
    rfl

theorem exec_intercepts (h : settings.exec ctx history = some ctx') :
    intercepts true (some ctx') = intercepts true (some ctx) := by
  induction history generalizing ctx with
  | nil =>
      cases h
      rfl
  | cons s history ih =>
      obtain ⟨ctx₁, hstep, hrest⟩ := Option.bind_eq_some_iff.mp h
      exact (ih hrest).trans (step_intercepts hstep)

/-- Settings of the other direction change nothing. -/
theorem exec_other {recv : Bool} (h : settings.exec ctx history = some ctx')
    (hother : ∀ s ∈ history, s.sets recv = false) :
    ctx'.getTimeout recv = ctx.getTimeout recv := by
  induction history generalizing ctx with
  | nil =>
      cases h
      rfl
  | cons s history ih =>
      obtain ⟨hs, hrest⟩ := List.forall_mem_cons.mp hother
      obtain ⟨ctx₁, hstep, hexec⟩ := Option.bind_eq_some_iff.mp h
      rw [ih hexec hrest, step_getTimeout hstep recv, hs]
      rfl

/-- **Run lemma.**  The context holds the last timeout of each direction. -/
theorem exec_getTimeout (h : settings.exec ctx history = some ctx') (recv : Bool)
    (hctx : ctx.getTimeout recv = noTimeout) :
    ctx'.getTimeout recv = lastTimeout history recv := by
  induction history using List.reverseRecOn generalizing ctx' with
  | nil =>
      cases h
      exact hctx
  | append_singleton history s ih =>
      rw [System.exec_append] at h
      obtain ⟨ctx₁, hexec, hlast⟩ := Option.bind_eq_some_iff.mp h
      have hstep : settings.step ctx₁ s = some ctx' := by simpa [System.exec] using hlast
      rw [step_getTimeout hstep recv, lastTimeout, List.filter_append, List.filter_singleton]
      cases hs : s.sets recv with
      | false =>
          simp only [cond_false, List.append_nil, Bool.false_eq_true, if_false]
          exact ih hexec
      | true =>
          simp only [cond_true, if_true, List.getLast?_concat, Option.bind_some]

end Settings

/-! ## Waiting in a hooked call -/

namespace Sys

end Sys

/-! ## The direction of a call -/

section Calls

variable {ctx : FdCtx}

/-- The wrappers look up the timeout of their direction, but for `write`. -/
theorem hooked_timeout (ctx : FdCtx) (c : IoCall) :
    c.hooked.timeout ctx = ctx.getTimeout (c.receives || c == .write) := by
  cases c <;> rfl

theorem timerOf_inj {a b : Nat} : timerOf a = timerOf b ↔ a = b := by
  unfold timerOf
  constructor
  · intro h
    split at h <;> split at h <;> simp_all
  · rintro rfl
    rfl

theorem waitTimer_eq (h : intercepts true (some ctx) = true) (c : IoCall) :
    waitTimer ctx c.hooked = some (timerOf (ctx.getTimeout (c.receives || c == .write))) := by
  rw [waitTimer, if_pos h, hooked_timeout]

theorem waitTimer_write (h : intercepts true (some ctx) = true) :
    waitTimer ctx IoCall.write.hooked = some (timerOf (ctx.getTimeout true)) :=
  waitTimer_eq h .write

theorem own_timeout {c : IoCall} (hc : c ≠ .write) : (c.receives || c == .write) = c.receives := by
  cases c <;> first | rfl | exact absurd rfl hc

end Calls

theorem init_timeouts {ctx : FdCtx} (h : settings.init ctx) :
    intercepts true (some ctx) = true ∧ ∀ recv, ctx.getTimeout recv = noTimeout := by
  obtain ⟨fd, flags, rfl⟩ := h
  exact ⟨rfl, fun recv => by cases recv <;> rfl⟩

/-- **Each call waits with the timeout of its own direction**, and a setting of the other
direction does not change that, exactly if it is not `write` or the timeouts are equal. -/
theorem own_direction {ctx₀ ctx : FdCtx} {history : List Setting} (hinit : settings.init ctx₀)
    (h : settings.exec ctx₀ history = some ctx) (c : IoCall) :
    (waitTimer ctx c.hooked = some (timerOf (lastTimeout history c.receives)) ↔
        (c = .write → lastTimeout history true = lastTimeout history false)) ∧
      ((∀ s ctx', s.sets c.receives = false → settings.step ctx s = some ctx' →
          waitTimer ctx' c.hooked = waitTimer ctx c.hooked) ↔ c ≠ .write) := by
  obtain ⟨hin, hnone⟩ := init_timeouts hinit
  have hlast := fun recv => exec_getTimeout h recv (hnone recv)
  have hin' : intercepts true (some ctx) = true := (exec_intercepts h).trans hin
  constructor
  · rw [waitTimer_eq hin', hlast, Option.some.injEq, timerOf_inj]
    by_cases hc : c = .write
    · subst hc
      exact ⟨fun heq _ => heq, fun heq => heq rfl⟩
    · rw [own_timeout hc]
      exact iff_of_true rfl fun heq => absurd heq hc
  · constructor
    · rintro hall rfl
      -- a receive timeout of one second and one of two are not the same
      have hset : ∀ sec : Int, (⟨true, .rcvTimeo, ⟨sec, 0⟩⟩ : Setting).sets false = false :=
        fun _ => rfl
      have hone := hall ⟨true, .rcvTimeo, ⟨1, 0⟩⟩ (ctx.setTimeout true 1000) (hset 1) rfl
      have htwo := hall ⟨true, .rcvTimeo, ⟨2, 0⟩⟩ (ctx.setTimeout true 2000) (hset 2) rfl
      have hsame := hone.trans htwo.symm
      rw [waitTimer_write (by rw [setTimeout_intercepts, hin']),
        waitTimer_write (by rw [setTimeout_intercepts, hin']), Option.some.injEq, timerOf_inj,
        setTimeout_getTimeout, setTimeout_getTimeout, if_pos rfl, if_pos rfl] at hsame
      exact absurd hsame (by decide)
    · intro hc s ctx' hother hstep
      rw [waitTimer_eq ((step_intercepts hstep).trans hin'), waitTimer_eq hin', own_timeout hc,
        step_getTimeout hstep, hother]
      rfl

/-- A receive timeout of 1 s, a send timeout of 5 s, and a receive timeout of 2 s. -/
def threeSettings : List Setting :=
  [⟨true, .rcvTimeo, ⟨1, 0⟩⟩, ⟨true, .sndTimeo, ⟨5, 0⟩⟩, ⟨true, .rcvTimeo, ⟨2, 0⟩⟩]

/-- `writev` waits with the send timeout. -/
theorem own_direction_writev :
    ∃ ctx, settings.exec (FdCtx.new 5 (some true) 2).1 threeSettings = some ctx ∧
      waitTimer ctx IoCall.writev.hooked = some (some 5000) := by
  have hrun : (settings.exec (FdCtx.new 5 (some true) 2).1 threeSettings).isSome := by decide
  obtain ⟨ctx, hctx⟩ := Option.isSome_iff_exists.mp hrun
  exact ⟨ctx, hctx, (own_direction ⟨5, 2, rfl⟩ hctx .writev).1.mpr fun h => nomatch h⟩

/-- `write` waits with the receive timeout. -/
theorem write_waits_as_read :
    ¬ ∀ (ctx₀ ctx : FdCtx) (history : List Setting) (c : IoCall), settings.init ctx₀ →
      settings.exec ctx₀ history = some ctx →
        waitTimer ctx c.hooked = some (timerOf (lastTimeout history c.receives)) := by
  intro hall
  have hrun : (settings.exec (FdCtx.new 5 (some true) 2).1 threeSettings).map
      (fun ctx => waitTimer ctx IoCall.write.hooked) = some (some (some 2000)) := by decide
  obtain ⟨ctx, hctx, hwait⟩ := Option.map_eq_some_iff.mp hrun
  have hown := hall _ ctx threeSettings .write ⟨5, 2, rfl⟩ hctx
  rw [hwait] at hown
  exact absurd hown (by decide)

/-! ## The meaning of a timeout -/

section Meaning

variable {ctx : FdCtx} {v : Timeval}

theorem ms_of_valid (hv : v.Valid) :
    v.ms = if v.sec * 1000 + v.usec / 1000 < 2 ^ 63 then
      some (v.sec * 1000 + v.usec / 1000).toNat else none := by
  obtain ⟨hsec, _, husec, hlt⟩ := hv
  have hdiv : v.usec.tdiv 1000 = v.usec / 1000 := Int.tdiv_eq_ediv_of_nonneg husec
  have hpos := Int.ediv_nonneg husec (by decide : (0 : Int) ≤ 1000)
  rw [Timeval.ms, hdiv]
  unfold InLong
  by_cases hfit : v.sec * 1000 + v.usec / 1000 < 2 ^ 63
  · rw [if_pos ⟨⟨by omega, by omega⟩, by omega, hfit⟩, if_pos hfit, Int.emod_eq_of_lt (by omega)
      (by omega)]
  · rw [if_neg (fun h => hfit h.2.2), if_neg hfit]

/-- The stored number of milliseconds means the time, exactly if nothing was cut off. -/
theorem meaning_iff (hv : v.Valid) {ms : Nat} (hms : v.ms = some ms) :
    Meaning v (timerOf ms) ↔ v ≠ ⟨0, 0⟩ ∧ v.usec % 1000 = 0 := by
  rw [ms_of_valid hv] at hms
  obtain ⟨hsec, _, husec, hlt⟩ := hv
  obtain ⟨hfit, rfl⟩ := (Option.ite_none_right_eq_some.mp hms).imp_right Option.some.inj
  have hfinite : timerOf (v.sec * 1000 + v.usec / 1000).toNat =
      some (v.sec * 1000 + v.usec / 1000).toNat := by
    rw [timerOf, if_neg]
    unfold noTimeout
    omega
  rw [hfinite, Meaning]
  by_cases hzero : v = ⟨0, 0⟩
  · rw [if_pos hzero]
    exact iff_of_false (fun h => nomatch h) fun h => h.1 hzero
  · rw [if_neg hzero]
    constructor
    · rintro ⟨ms, heq, hle⟩
      have hms := Option.some.inj heq
      exact ⟨hzero, by omega⟩
    · rintro ⟨_, hwhole⟩
      exact ⟨_, rfl, by omega⟩

end Meaning

/-- **Timeouts keep their meaning.**  A call that waits on a managed socket has no timer if
the timeout of its direction was set to zero, and otherwise one for at least the time that
was set, exactly if it is not `write` and the time is not zero, a whole number of
milliseconds, and less than `2 ^ 63` of them. -/
theorem timeout_meaning {ctx : FdCtx} (h : intercepts true (some ctx) = true) {v : Timeval}
    (hv : v.Valid) (c : IoCall) :
    KeepsMeaning ctx v c ↔
      c ≠ .write ∧ v ≠ ⟨0, 0⟩ ∧ v.usec % 1000 = 0 ∧ v.sec * 1000 + v.usec / 1000 < 2 ^ 63 := by
  have hset : setsockopt true true (timeoutSo c.receives) v ctx =
      v.ms.map fun ms => ctx.setTimeout c.receives ms := by
    cases c.receives <;> rfl
  constructor
  · rintro ⟨ctx', hctx', hall⟩
    rw [hset] at hctx'
    obtain ⟨ms, hms, rfl⟩ := Option.map_eq_some_iff.mp hctx'
    have hin := (setTimeout_intercepts ctx c.receives ms).trans h
    have hc : c ≠ .write := by
      rintro rfl
      -- the receive timeout is set to zero, or to a second if that was asked for
      have hlater : ∀ sec : Int, (sec = 0 ∨ sec = 1) → Meaning v (some (sec * 1000).toNat) := by
        intro sec hsec
        obtain ⟨timer, hwait, hmean⟩ := hall [⟨true, .rcvTimeo, ⟨sec, 0⟩⟩]
          ((ctx.setTimeout false ms).setTimeout true (sec * 1000).toNat)
          (fun s hs => by rw [List.mem_singleton.mp hs]; rfl)
          (by rcases hsec with rfl | rfl <;> rfl)
        have hsend : intercepts true (some (ctx.setTimeout false ms)) = true := hin
        rw [waitTimer_write ((setTimeout_intercepts _ _ _).trans hsend), setTimeout_getTimeout,
          if_pos rfl, Option.some.injEq] at hwait
        rcases hsec with rfl | rfl <;> rwa [← hwait] at hmean
      by_cases hzero : v = ⟨0, 0⟩
      · have hone := hlater 1 (Or.inr rfl)
        rw [Meaning, if_pos hzero] at hone
        cases hone
      · have hnone := hlater 0 (Or.inl rfl)
        rw [Meaning, if_neg hzero] at hnone
        obtain ⟨ms', heq, hle⟩ := hnone
        have hms' : ms' = 0 := (Option.some.inj heq).symm
        obtain ⟨hsec, _, husec, _⟩ := hv
        refine hzero ?_
        have hsec' : v.sec = 0 := by omega
        have husec' : v.usec = 0 := by omega
        cases v
        simp only at hsec' husec'
        rw [hsec', husec']
    obtain ⟨timer, hwait, hmean⟩ := hall [] _ (fun s hs => absurd hs List.not_mem_nil) rfl
    rw [waitTimer_eq hin, own_timeout hc, setTimeout_getTimeout, if_pos rfl,
      Option.some.injEq] at hwait
    rw [← hwait] at hmean
    obtain ⟨hzero, hwhole⟩ := (meaning_iff hv hms).mp hmean
    rw [ms_of_valid hv] at hms
    exact ⟨hc, hzero, hwhole, (Option.ite_none_right_eq_some.mp hms).1⟩
  · rintro ⟨hc, hzero, hwhole, hfit⟩
    have hms : v.ms = some (v.sec * 1000 + v.usec / 1000).toNat := by
      rw [ms_of_valid hv, if_pos hfit]
    refine ⟨_, by rw [hset, hms]; rfl, fun later ctx'' hother hexec => ?_⟩
    have hin := (exec_intercepts hexec).trans ((setTimeout_intercepts ctx c.receives _).trans h)
    refine ⟨_, waitTimer_eq hin c, ?_⟩
    rw [own_timeout hc, exec_other hexec hother, setTimeout_getTimeout, if_pos rfl]
    exact (meaning_iff hv hms).mpr ⟨hzero, hwhole⟩

theorem timeout_meaning_half_second :
    KeepsMeaning (FdCtx.new 5 (some true) 2).1 ⟨1, 500000⟩ .recv :=
  (timeout_meaning (by decide) (by decide) .recv).mpr (by decide)

/-- Zero is stored as a timeout of no milliseconds, and 1.5 ms as 1 ms. -/
theorem zero_timeout_expires :
    ¬ ∀ (ctx : FdCtx) (v : Timeval) (c : IoCall), intercepts true (some ctx) = true → v.Valid →
      KeepsMeaning ctx v c := by
  intro hall
  obtain ⟨ctx', hset, hlater⟩ :=
    hall (FdCtx.new 5 (some true) 2).1 ⟨0, 0⟩ .recv (by decide) (by decide)
  obtain ⟨timer, hwait, hmean⟩ := hlater [] ctx' (fun s hs => absurd hs List.not_mem_nil) rfl
  cases hset
  have htimer : timer = some 0 := (Option.some.inj hwait).symm
  rw [Meaning, if_pos rfl, htimer] at hmean
  cases hmean

end Util
end Hpgs
