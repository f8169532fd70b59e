import Hpgs.Library.SortedMap
import Hpgs.Library.Trimming
import Mathlib.Data.String.Basic

/-!
# The command line

`Env::init` goes over `argv` from the program name on, keeps the last option as the pending
key, and adds it without a value when the next one comes.  An argument that does not begin
with `-` is an error, the program name and the value of an option among them.

**Results.**
* `initLoop_returns`, `initLoop_find`: when the loop ends well, and what it adds.
* `init_parses`: options are parsed exactly if the program name looks like one of them and
  none has a value.
* `init_rejects`: a program that is called without options.
-/

namespace Hpgs
namespace Configuration

open Trimming

/-! ## Definitions -/

/-- `Env`, without the help texts. -/
structure Env where
  args : SortedMap String String
  program : String
  exe : String
  cwd : String

namespace Env

/-- The environment before `init`. -/
def empty : Env where
  args := .empty
  program := ""
  exe := ""
  cwd := ""

def add (env : Env) (key val : String) : Env :=
  { env with args := env.args.set key val }

def has (env : Env) (key : String) : Bool :=
  (env.args.find? key).isSome

def get (env : Env) (key defaultValue : String) : String :=
  (env.args.find? key).getD defaultValue

/-- `if(now_key) add(now_key, "")`. -/
def addPending (env : Env) : Option String → Env
  | none => env
  | some key => env.add key ""

/-- The loop of `init` and what is behind it. -/
def initLoop : Env → Option String → List String → Bool × Env
  | env, nowKey, [] => (true, env.addPending nowKey)
  | env, nowKey, arg :: argv =>
      match arg.toList with
      | '-' :: key =>
          if key.length + 1 > 1 then
            initLoop (env.addPending nowKey) (some (String.ofList key)) argv
          else (false, env)
      | _ => (false, env)

/-- `exe.substr(0, exe.find_last_of("/")) + "/"`. -/
def directory (exe : String) : String :=
  String.ofList
    (match findLast? (fun c => c != '/') exe.toList with
      | none => exe.toList
      | some pos => exe.toList.take pos) ++ "/"

/-- `init`, where `link` is what `readlink` reads, `none` where it fails. -/
def init (env : Env) (link : Option String) (argv : List String) : Bool × Env :=
  match link with
  | none => (false, env)
  | some path =>
      initLoop
        { env with
          exe := path
          cwd := directory path
          program := argv.headD "" }
        none argv

end Env

/-- An option with or without a value. -/
structure CommandOption where
  key : String
  value : Option String
  key_ne : key ≠ ""
  value_plain : ∀ v ∈ value, v.toList.head? ≠ some '-'

namespace CommandOption

/-- How an option is written in `argv`. -/
def render (o : CommandOption) : List String :=
  ("-" ++ o.key) :: o.value.toList

/-- The last occurrence of a key. -/
def last (options : List CommandOption) (k : String) : Option CommandOption :=
  options.reverse.find? fun o => o.key = k

end CommandOption

open CommandOption

/-- What `init` should do for a program with options. -/
structure Parses (link program : String) (options : List CommandOption) : Prop where
  returns : (Env.empty.init (some link) (program :: options.flatMap render)).1 = true
  has : ∀ k, (Env.empty.init (some link) (program :: options.flatMap render)).2.has k = true ↔
    ∃ o ∈ options, o.key = k
  get : ∀ k d, ∀ o ∈ last options k,
    (Env.empty.init (some link) (program :: options.flatMap render)).2.get k d = o.value.getD ""

namespace Env

/-! ## The loop -/

/-- The argument is a dash with a key behind it. -/
def IsKey (arg key : String) : Prop :=
  key ≠ "" ∧ arg = "-" ++ key

theorem toList_dash (key : String) : ("-" ++ key).toList = '-' :: key.toList := by
  rw [String.toList_append]
  rfl

theorem initLoop_key (env : Env) (nowKey : Option String) {key : String} (hne : key ≠ "")
    (argv : List String) :
    initLoop env nowKey (("-" ++ key) :: argv) =
      initLoop (env.addPending nowKey) (some key) argv := by
  have hlen : key.toList.length + 1 > 1 := by
    have hpos : key.toList ≠ [] := fun hnil => hne (String.toList_inj.mp hnil)
    have := List.length_pos_iff.mpr hpos
    omega
  rw [initLoop, toList_dash]
  simp only [hlen, if_true, String.ofList_toList]

/-- Anything that is no key is an error. -/
theorem initLoop_error (env : Env) (nowKey : Option String) {arg : String}
    (h : ∀ key, ¬ IsKey arg key) (argv : List String) :
    initLoop env nowKey (arg :: argv) = (false, env) := by
  rw [initLoop]
  split
  · rename_i key harg
    rw [if_neg]
    intro hlen
    refine h (String.ofList key) ⟨?_, ?_⟩
    · rw [Ne, ← String.toList_inj, String.toList_ofList]
      rintro rfl
      exact absurd hlen (by decide)
    · rw [← String.toList_inj, toList_dash, String.toList_ofList, harg]
  · rfl

/-- **When the loop ends well**: every argument is a key. -/
theorem initLoop_returns (env : Env) (nowKey : Option String) (argv : List String) :
    (initLoop env nowKey argv).1 = true ↔ ∀ arg ∈ argv, ∃ key, IsKey arg key := by
  induction argv generalizing env nowKey with
  | nil => simp [initLoop]
  | cons arg argv ih =>
      rw [List.forall_mem_cons]
      by_cases harg : ∃ key, IsKey arg key
      · obtain ⟨key, hne, rfl⟩ := harg
        rw [initLoop_key env nowKey hne, ih]
        exact ⟨fun h => ⟨⟨key, hne, rfl⟩, h⟩, And.right⟩
      · rw [initLoop_error env nowKey (not_exists.mp harg)]
        exact ⟨fun h => absurd h Bool.false_ne_true, fun h => absurd h.1 harg⟩

theorem find_addPending (env : Env) (nowKey : Option String) (k : String) :
    (env.addPending nowKey).args.find? k =
      if nowKey = some k then some "" else env.args.find? k := by
  cases nowKey with
  | none => rfl
  | some key =>
      simp only [addPending, add, SortedMap.find?_set, Option.some.injEq]
      exact ite_congr (propext eq_comm) (fun _ => rfl) (fun _ => rfl)

/-- **What the loop adds**: all keys, without a value. -/
theorem initLoop_find (env : Env) (nowKey : Option String) {keys : List String}
    (hne : ∀ key ∈ keys, key ≠ "") (k : String) :
    (initLoop env nowKey (keys.map ("-" ++ ·))).2.args.find? k =
      if nowKey = some k ∨ k ∈ keys then some "" else env.args.find? k := by
  induction keys generalizing env nowKey with
  | nil => simp [initLoop, find_addPending]
  | cons key keys ih =>
      rw [List.forall_mem_cons] at hne
      rw [List.map_cons, initLoop_key env nowKey hne.1, ih _ _ hne.2, find_addPending]
      by_cases hnow : nowKey = some k
      · simp [hnow]
      · simp only [hnow, if_false, false_or, List.mem_cons, Option.some.injEq, eq_comm (a := key)]

end Env

/-! ## Options -/

open Env

variable {link program : String} {options : List CommandOption}

/-- The loop of a successful `readlink` starts without keys. -/
theorem init_eq (link program : String) (argv : List String) :
    Env.empty.init (some link) (program :: argv) =
      initLoop { Env.empty with exe := link, cwd := directory link, program := program } none
        (program :: argv) :=
  rfl

/-- Without values only the keys are written. -/
theorem flatMap_render (h : ∀ o ∈ options, o.value = none) :
    options.flatMap render = (options.map CommandOption.key).map ("-" ++ ·) := by
  induction options with
  | nil => rfl
  | cons o options ih =>
      rw [List.forall_mem_cons] at h
      rw [List.flatMap_cons, ih h.2, List.map_cons, List.map_cons, render, h.1]
      rfl

/-- The value of an option is no key. -/
theorem value_none (h : ∀ arg ∈ options.flatMap render, ∃ key, IsKey arg key)
    {o : CommandOption} (ho : o ∈ options) : o.value = none := by
  cases hvalue : o.value with
  | none => rfl
  | some v =>
      have hmem : v ∈ options.flatMap render := by
        refine List.mem_flatMap.mpr ⟨o, ho, ?_⟩
        rw [render, hvalue]
        exact List.mem_cons_of_mem _ (List.mem_singleton.mpr rfl)
      obtain ⟨key, _, rfl⟩ := h v hmem
      exact absurd (by rw [toList_dash]; rfl) (o.value_plain _ hvalue)

/-- The keys after a command line without values, whose program name is a key as well. -/
theorem find_init (h : ∀ o ∈ options, o.value = none) {key : String} (hne : key ≠ "")
    (k : String) :
    (Env.empty.init (some link) (("-" ++ key) :: options.flatMap render)).2.args.find? k =
      if k = key ∨ ∃ o ∈ options, o.key = k then some "" else none := by
  have hkeys : ∀ k ∈ key :: options.map CommandOption.key, k ≠ "" := by
    refine List.forall_mem_cons.mpr ⟨hne, fun k hk => ?_⟩
    obtain ⟨o, _, rfl⟩ := List.mem_map.mp hk
    exact o.key_ne
  have hfind := initLoop_find
    { Env.empty with exe := link, cwd := directory link, program := "-" ++ key } none hkeys k
  rw [List.map_cons, ← flatMap_render h] at hfind
  rw [init_eq, hfind]
  simp [Env.empty, eq_comm]

/-- **The command line.**  For every program name and every list of options, with a link
that can be read: `init` returns `true` with the keys and the values of the options, exactly
if no option has a value and the program name is one of the options. -/
theorem init_parses (link program : String) (options : List CommandOption) :
    Parses link program options ↔
      (∀ o ∈ options, o.value = none) ∧ ∃ o ∈ options, program = "-" ++ o.key := by
  constructor
  · intro h
    have hargs := h.returns
    rw [init_eq, initLoop_returns, List.forall_mem_cons] at hargs
    obtain ⟨⟨key, hne, rfl⟩, hrest⟩ := hargs
    have hnone : ∀ o ∈ options, o.value = none := fun o ho => value_none hrest ho
    have hkey : (Env.empty.init (some link) (("-" ++ key) :: options.flatMap render)).2.has key =
        true := by
      rw [has, find_init hnone hne, if_pos (Or.inl rfl)]
      rfl
    obtain ⟨o, ho, rfl⟩ := (h.has key).mp hkey
    exact ⟨hnone, o, ho, rfl⟩
  · rintro ⟨hnone, o, ho, rfl⟩
    refine ⟨?_, fun k => ?_, fun k d x hx => ?_⟩
    · rw [init_eq, initLoop_returns, flatMap_render hnone]
      refine List.forall_mem_cons.mpr ⟨⟨o.key, o.key_ne, rfl⟩, fun arg harg => ?_⟩
      obtain ⟨key, hkey, rfl⟩ := List.mem_map.mp harg
      obtain ⟨x, _, rfl⟩ := List.mem_map.mp hkey
      exact ⟨x.key, x.key_ne, rfl⟩
    · rw [has, find_init hnone o.key_ne, Option.isSome_ite]
      exact ⟨fun hk => hk.elim (fun heq => ⟨o, ho, heq.symm⟩) id, Or.inr⟩
    · have hmem : x ∈ options := List.mem_reverse.mp (List.mem_of_find?_eq_some hx)
      have hkey : x.key = k := by simpa using List.find?_some (Option.mem_def.mp hx)
      rw [Env.get, find_init hnone o.key_ne, if_pos (Or.inr ⟨x, hmem, hkey⟩), hnone x hmem]
      rfl

/-- A program that is called with one option without a value. -/
theorem init_rejects :
    (Env.empty.init (some "/usr/bin/server") ["./server", "-d"]).1 = false ∧
      ¬ Parses "/usr/bin/server" "./server" [⟨"d", none, by decide, by simp⟩] := by
  have hfalse : (Env.empty.init (some "/usr/bin/server") ["./server", "-d"]).1 = false := by
    decide
  refine ⟨hfalse, fun h => ?_⟩
  have htrue : (Env.empty.init (some "/usr/bin/server") ["./server", "-d"]).1 = true := h.returns
  rw [hfalse] at htrue
  cases htrue

end Configuration
end Hpgs
