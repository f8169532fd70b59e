import Hpgs.Configuration.Yaml
import Mathlib.Data.List.Nodup
import Mathlib.Data.Option.Basic

/-!
# The registry of config variables

`Config` maps names to variables of any type.  A variable is named by the number of
variables that were made before it, and has a name of its own, in lower case.

`τ` are the types of variables with `Val t` their values; `fromStr` converts a text to
a value, or is `none` where the conversion throws.

**Results.**
* `lookups_keys`: the keys of the registry are the names that were looked up.
* `registry_addressable`: every variable can be addressed by its own name, exactly if no
  name with a letter in upper case was looked up.
* `registry_unaddressable`: such a name.
-/

namespace Hpgs
namespace Configuration

variable {τ : Type} {Val : τ → Type}

/-- `tolower` on every character. -/
def toLower (s : String) : String :=
  String.ofList (s.toList.map Char.toLower)

/-- The characters that `Lookup` accepts. -/
def nameChars : List Char :=
  "abcdefghijklmnopqrstuvwxyzABCDEFGHIJKLMNOPQRSTUVWXYZ._0123456789".toList

/-- The characters that `ListAllMember` accepts. -/
def pathChars : List Char :=
  "abcdefghijklmnopqrstuvwxyz._0123456789".toList

/-- `find_first_not_of` finds nothing. -/
def OnlyOf (chars : List Char) (s : String) : Prop :=
  ∀ c ∈ s.toList, c ∈ chars

instance (chars : List Char) (s : String) : Decidable (OnlyOf chars s) :=
  List.decidableBAll (· ∈ chars) s.toList

/-- A `ConfigVar<T>` with what its base class holds. -/
structure Var (Val : τ → Type) where
  name : String
  description : String
  type : τ
  val : Val type

/-- The constructor of `ConfigVar<T>`. -/
def Var.new (name : String) (type : τ) (defaultValue : Val type) (description : String) :
    Var Val where
  name := toLower name
  description := description
  type := type
  val := defaultValue

/-- `fromString`. -/
def Var.fromString (fromStr : (t : τ) → String → Option (Val t)) (v : Var Val) (val : String) :
    Var Val :=
  match fromStr v.type val with
  | none => v
  | some w => { v with val := w }

/-- `GetDatas()`, and all variables that were made. -/
structure Config (Val : τ → Type) where
  datas : SortedMap String Nat
  vars : List (Var Val)

/-- How `Lookup` with a default value ends. -/
inductive LookedUp
  | var (p : Nat)
  | nullptr
  | invalidArgument
deriving DecidableEq

/-- The arguments of `Lookup`. -/
structure LookupCall (Val : τ → Type) where
  name : String
  type : τ
  defaultValue : Val type
  description : String

namespace Config

def empty : Config Val where
  datas := .empty
  vars := []

/-- `Lookup` with a default value. -/
def lookup [DecidableEq τ] (c : Config Val) (l : LookupCall Val) : LookedUp × Config Val :=
  match c.datas.find? l.name with
  | some p =>
      if (c.vars[p]?).map Var.type = some l.type then (.var p, c) else (.nullptr, c)
  | none =>
      if OnlyOf nameChars l.name then
        (.var c.vars.length,
          { datas := c.datas.set l.name c.vars.length
            vars := c.vars ++ [Var.new l.name l.type l.defaultValue l.description] })
      else (.invalidArgument, c)

/-- The registry after calls of `Lookup`. -/
def lookups [DecidableEq τ] (c : Config Val) : List (LookupCall Val) → Config Val
  | [] => c
  | l :: ls => lookups (c.lookup l).2 ls

def lookupBase (c : Config Val) (name : String) : Option Nat :=
  c.datas.find? name

/-- `getName()` of a variable. -/
def getName (c : Config Val) (p : Nat) : Option String :=
  (c.vars[p]?).map Var.name

/-! ## Loading -/

mutual

/-- `ListAllMember`. -/
def listAllMember (path : String) (node : Node) : List (String × Node) :=
  if OnlyOf pathChars path then
    (path, node) ::
      match node with
      | .map entries => listEntries path entries
      | _ => []
  else []

/-- Its loop over the entries of a map. -/
def listEntries (path : String) : List (Node × Node) → List (String × Node)
  | [] => []
  | (key, value) :: entries =>
      listAllMember (if path = "" then key.text else path ++ "." ++ key.text) value ++
        listEntries path entries

end

/-- The text that `fromString` is called with. -/
def nodeText (emit : Node → String) (node : Node) : String :=
  if node.isScalar then node.text else emit node

/-- `fromString` of the variable `p`. -/
def fromString (fromStr : (t : τ) → String → Option (Val t)) (c : Config Val) (p : Nat)
    (val : String) : Config Val :=
  { c with vars := c.vars.modify p fun v => v.fromString fromStr val }

/-- The loop of `LoadFromYaml`, with the calls of `fromString` that it makes. -/
def loadNodes (emit : Node → String) (fromStr : (t : τ) → String → Option (Val t))
    (c : Config Val) : List (String × Node) → List (Nat × String) × Config Val
  | [] => ([], c)
  | (key, node) :: nodes =>
      if key = "" then loadNodes emit fromStr c nodes
      else
        match c.lookupBase (toLower key) with
        | none => loadNodes emit fromStr c nodes
        | some p =>
            let r := loadNodes emit fromStr (c.fromString fromStr p (nodeText emit node)) nodes
            ((p, nodeText emit node) :: r.1, r.2)

/-- `LoadFromYaml`. -/
def loadFromYaml (emit : Node → String) (fromStr : (t : τ) → String → Option (Val t))
    (c : Config Val) (root : Node) : List (Nat × String) × Config Val :=
  loadNodes emit fromStr c (listAllMember "" root)

/-- Keys are the names of their variables, no name comes twice, and a map with the name of
a variable as its only key reaches the variable. -/
structure Addressable (emit : Node → String) (fromStr : (t : τ) → String → Option (Val t))
    (c : Config Val) : Prop where
  key : ∀ e ∈ c.datas.entries, c.getName e.2 = some e.1
  distinct : (c.datas.entries.map fun e => c.getName e.2).Nodup
  loads : ∀ e ∈ c.datas.entries, ∀ name ∈ c.getName e.2, ∀ value,
    ∃ call ∈ (c.loadFromYaml emit fromStr (.map [(.scalar name, value)])).1, call.1 = e.2

/-! ## Names in lower case -/

theorem toList_toLower (s : String) : (toLower s).toList = s.toList.map Char.toLower :=
  String.toList_ofList

theorem nameChars_toLower :
    ∀ c ∈ nameChars, c.toLower ∈ pathChars ∧ (c.toLower = c ↔ c.isUpper = false) := by
  have hall : nameChars.all (fun c =>
      decide (c.toLower ∈ pathChars ∧ (c.toLower = c ↔ c.isUpper = false))) = true := by
    decide
  exact fun c hc => of_decide_eq_true (List.all_eq_true.mp hall c hc)

theorem toLower_path {s : String} (h : OnlyOf nameChars s) : OnlyOf pathChars (toLower s) := by
  intro c hc
  rw [toList_toLower, List.mem_map] at hc
  obtain ⟨x, hx, rfl⟩ := hc
  exact (nameChars_toLower x (h x hx)).1

/-- A name is its own name in lower case exactly if it has no letter in upper case. -/
theorem toLower_eq_iff {s : String} (h : OnlyOf nameChars s) :
    toLower s = s ↔ ∀ c ∈ s.toList, c.isUpper = false := by
  have hmap : s.toList.map Char.toLower = s.toList.map id ↔
      ∀ c ∈ s.toList, c.toLower = id c :=
    List.map_inj_left
  rw [List.map_id] at hmap
  rw [← String.toList_inj, toList_toLower, hmap]
  constructor
  · exact fun heq c hc => (nameChars_toLower c (h c hc)).2.mp (heq c hc)
  · exact fun hlow c hc => (nameChars_toLower c (h c hc)).2.mpr (hlow c hc)

/-! ## Registration -/

section Registration

variable {c : Config Val}

/-- The keys are `names`, and the variable of a key has its name in lower case. -/
structure Registered (c : Config Val) (names : List String) : Prop where
  keys : ∀ k, (c.datas.find? k).isSome ↔ k ∈ names
  name : ∀ k p, c.datas.find? k = some p → c.getName p = some (toLower k)

theorem empty_registered : (empty : Config Val).Registered [] where
  keys := fun k => by simp [empty]
  name := fun k p h => by cases h

theorem getName_lt {p : Nat} {name : String} (h : c.getName p = some name) :
    p < c.vars.length := by
  obtain ⟨v, hv, _⟩ := Option.map_eq_some_iff.mp h
  exact (List.getElem?_eq_some_iff.mp hv).1

/-- An accepted name is a key afterwards, and the keys that were there stay. -/
theorem lookup_registered [DecidableEq τ] {names : List String} (h : c.Registered names)
    {l : LookupCall Val} (hl : OnlyOf nameChars l.name) :
    (c.lookup l).2.Registered (names ++ [l.name]) := by
  unfold lookup
  split
  · rename_i p hfind
    have hold : c.Registered (names ++ [l.name]) := by
      refine ⟨fun k => ?_, h.name⟩
      rw [h.keys, List.mem_append, List.mem_singleton]
      refine ⟨Or.inl, fun hk => hk.elim id ?_⟩
      rintro rfl
      exact (h.keys l.name).mp (by rw [hfind]; rfl)
    split <;> exact hold
  · rename_i hnone
    rw [if_pos hl]
    constructor
    · intro k
      simp only [SortedMap.find?_set, List.mem_append, List.mem_singleton]
      by_cases hk : k = l.name
      · simp [hk]
      · simp [hk, h.keys]
    · intro k p hfind
      simp only [SortedMap.find?_set] at hfind
      split at hfind
      · rename_i hk
        cases hfind
        rw [hk]
        simp [getName, Var.new]
      · have hname := h.name k p hfind
        have hlt := getName_lt hname
        rw [getName, List.getElem?_append_left hlt]
        exact hname

/-- **Keys of the registry.** -/
theorem lookups_keys [DecidableEq τ] {names : List String} (h : c.Registered names)
    (ls : List (LookupCall Val)) (hls : ∀ l ∈ ls, OnlyOf nameChars l.name) :
    (c.lookups ls).Registered (names ++ ls.map LookupCall.name) := by
  induction ls generalizing c names with
  | nil => simpa [lookups] using h
  | cons l ls ih =>
      have hone := lookup_registered h (hls l List.mem_cons_self)
      have hrest := ih hone fun x hx => hls x (List.mem_cons_of_mem _ hx)
      rwa [List.append_assoc] at hrest

end Registration

/-! ## Addressing -/

variable {c : Config Val} {emit : Node → String} {fromStr : (t : τ) → String → Option (Val t)}

theorem listAllMember_self {path : String} (h : OnlyOf pathChars path) (node : Node) :
    ∃ rest, listAllMember path node = (path, node) :: rest := by
  unfold listAllMember
  rw [if_pos h]
  exact ⟨_, rfl⟩

/-- A key in lower case reaches its variable. -/
theorem load_key {k : String} {p : Nat} (hfind : c.datas.find? k = some p) (hne : k ≠ "")
    (hpath : OnlyOf pathChars k) (hlow : toLower k = k) (value : Node) :
    ∃ call ∈ (c.loadFromYaml emit fromStr (.map [(.scalar k, value)])).1, call.1 = p := by
  obtain ⟨rest, hrest⟩ := listAllMember_self hpath value
  have hroot : OnlyOf pathChars "" := by decide
  have hlist : listAllMember "" (.map [(.scalar k, value)]) =
      ("", .map [(.scalar k, value)]) :: (k, value) :: rest := by
    rw [listAllMember, if_pos hroot]
    simp only [listEntries, if_true, Node.text, hrest, List.append_nil]
  have hbase : c.lookupBase (toLower k) = some p := by
    rw [lookupBase, hlow, hfind]
  rw [loadFromYaml, hlist, loadNodes, if_pos rfl, loadNodes, if_neg hne]
  simp only [hbase]
  exact ⟨_, List.mem_cons_self, rfl⟩

end Config

open Config in
/-- **Addressing by name.**  After any calls of `Lookup` with names that it accepts, every
variable can be addressed by its own name, exactly if no name has a letter in upper
case. -/
theorem registry_addressable [DecidableEq τ] (emit : Node → String)
    (fromStr : (t : τ) → String → Option (Val t)) (ls : List (LookupCall Val))
    (hls : ∀ l ∈ ls, l.name ≠ "" ∧ OnlyOf nameChars l.name) :
    ((empty : Config Val).lookups ls).Addressable emit fromStr ↔
      ∀ l ∈ ls, ∀ c ∈ l.name.toList, c.isUpper = false := by
  have hreg : ((empty : Config Val).lookups ls).Registered (ls.map LookupCall.name) :=
    lookups_keys empty_registered ls fun l hl => (hls l hl).2
  constructor
  · intro haddr l hl
    have hkey := (hreg.keys l.name).mpr (List.mem_map_of_mem hl)
    obtain ⟨p, hfind⟩ := Option.isSome_iff_exists.mp hkey
    have hname := haddr.key (l.name, p) ((SortedMap.mem_entries_iff _).mpr hfind)
    rw [hreg.name l.name p hfind] at hname
    exact (toLower_eq_iff (hls l hl).2).mp (Option.some.inj hname)
  · intro hlow
    -- every key is a name that was looked up, and is in lower case
    have hkeys : ∀ e ∈ ((empty : Config Val).lookups ls).datas.entries,
        ((empty : Config Val).lookups ls).datas.find? e.1 = some e.2 ∧ e.1 ≠ "" ∧
          OnlyOf pathChars e.1 ∧ toLower e.1 = e.1 := by
      intro e he
      have hfind := (SortedMap.mem_entries_iff _).mp he
      have hmem := (hreg.keys e.1).mp (by rw [hfind]; rfl)
      obtain ⟨l, hl, hname⟩ := List.mem_map.mp hmem
      obtain ⟨hne, hchars⟩ := hls l hl
      have hself := (toLower_eq_iff hchars).mpr (hlow l hl)
      have hpath := toLower_path hchars
      rw [hself] at hpath
      rw [← hname]
      exact ⟨by rw [hname]; exact hfind, hne, hpath, hself⟩
    have hname : ∀ e ∈ ((empty : Config Val).lookups ls).datas.entries,
        ((empty : Config Val).lookups ls).getName e.2 = some e.1 := by
      intro e he
      obtain ⟨hfind, _, _, hself⟩ := hkeys e he
      rw [hreg.name e.1 e.2 hfind, hself]
    refine ⟨hname, ?_, ?_⟩
    · rw [List.map_congr_left hname]
      have hnodup := ((empty : Config Val).lookups ls).datas.nodup_keys
      have hsome := List.Nodup.map (Option.some_injective String) hnodup
      rwa [List.map_map] at hsome
    · intro e he name hn value
      rw [hname e he] at hn
      obtain rfl := Option.some.inj hn
      obtain ⟨hfind, hne, hpath, hself⟩ := hkeys e he
      exact load_key hfind hne hpath hself value

/-- Variables of two types. -/
inductive ValueType
  | int
  | text
deriving DecidableEq

def ValueType.Value : ValueType → Type
  | .int => Int
  | .text => String

/-- A conversion that knows no text. -/
def convertNone (t : ValueType) (_ : String) : Option t.Value :=
  none

/-- Two variables, and one of the names again with the other type. -/
def portAndName : List (LookupCall ValueType.Value) :=
  [⟨"system.port", .int, (8080 : Int), "port"⟩, ⟨"logs_0", .text, "root", ""⟩,
    ⟨"system.port", .text, "8080", ""⟩]

open Config in
theorem registry_addressable_port :
    ((empty : Config ValueType.Value).lookups portAndName).Addressable Node.text convertNone ↔
      ∀ l ∈ portAndName, ∀ c ∈ l.name.toList, c.isUpper = false :=
  registry_addressable Node.text convertNone portAndName (by decide)

/-- A name with letters in upper case. -/
def upperName : List (LookupCall ValueType.Value) :=
  [⟨"TCP.timeout", .int, (5000 : Int), ""⟩]

open Config in
/-- It is registered as it is, but its variable has another name. -/
theorem registry_unaddressable :
    ¬ ∀ (emit : Node → String) (fromStr : (t : ValueType) → String → Option t.Value)
      (ls : List (LookupCall ValueType.Value)),
      (∀ l ∈ ls, l.name ≠ "" ∧ OnlyOf nameChars l.name) →
      ((empty : Config ValueType.Value).lookups ls).Addressable emit fromStr := by
  intro hall
  have haddr := hall Node.text convertNone upperName (by decide)
  have hkey := haddr.key ("TCP.timeout", 0) (by decide)
  exact absurd hkey (by decide)

end Configuration
end Hpgs
