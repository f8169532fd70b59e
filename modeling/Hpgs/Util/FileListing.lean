import Hpgs.Util.FileRemoval

/-!
# Listing files

`FSUtil::ListAllFile` collects the regular files of a tree whose names end in a text, by
the types that `readdir` gives.  It goes into directories, of which some cannot be opened,
and not through symbolic links; an entry that `readdir` gives no type of is passed over.  The
path that it is called with is given as a text and as what the text leads to.

**Results.**
* `hasSubfix_iff`: which names are listed.
* `listAllFile_lists`: one call, by induction on the depth of the tree.
* `listAllFile_exact`: the files that are listed are those that can be reached, each once.
-/

namespace Hpgs
namespace Util

open FileSystem

/-- `access` with the mode 0, and whether it succeeds. -/
def FileSystem.access (refused : Refusals) (fs : FileSystem) (p : Path) : Bool :=
  !refused.looking p && (fs.file? p).isSome

/-- The type of an entry, unless `readdir` gives `DT_UNKNOWN`. -/
def FileSystem.entryType (refused : Refusals) (fs : FileSystem) (path : Path) (name : String) :
    Option FileType :=
  if refused.typing (path ++ [name]) then none
  else if name = "." ∨ name = ".." then some .directory
  else (fs.file? (path ++ [name])).map File.type

namespace FSUtil

/-- The tests of a name against `subfix`. -/
def hasSubfix (filename subfix : String) : Bool :=
  if subfix = "" then true
  else if filename.length < subfix.length then false
  else filename.toList.drop (filename.length - subfix.length) = subfix.toList

/-- The body of the loop in `ListAllFile`, with the files so far. -/
def listEntry (list : List String → String → Path → Option (List String))
    (refused : Refusals) (fs : FileSystem) (subfix text : String) (path : Path)
    (files : List String) (name : String) : Option (List String) :=
  match fs.entryType refused path name with
  | some .directory =>
      if name = "." ∨ name = ".." then some files
      else list files (text ++ "/" ++ name) (path ++ [name])
  | some .regular =>
      some (if hasSubfix name subfix then files ++ [text ++ "/" ++ name] else files)
  | _ => some files

/-- `ListAllFile`, with calls inside each other to a depth.  `text` is the argument and
`path` what it leads to. -/
def listAllFile (refused : Refusals) (fs : FileSystem) (subfix : String) :
    Nat → List String → String → Path → Option (List String)
  | 0, _, _, _ => none
  | depth + 1, files, text, path =>
      if fs.access refused path = false then some files
      else
        match fs.opendir refused path with
        | none => some files
        | some entries =>
            entries.foldlM
              (listEntry (listAllFile refused fs subfix depth) refused fs subfix text path) files

end FSUtil

/-! ## What is listed -/

/-- The text of what is at `q` under `text`. -/
def textOf (text : String) (q : Path) : String :=
  q.foldl (fun t n => t ++ "/" ++ n) text

section Listing

variable {refused : Refusals} {fs : FileSystem} {subfix text : String} {path q : Path}
  {files : List String}

/-- A directory that is looked at and opened. -/
def Refusals.enters (refused : Refusals) (p : Path) : Bool :=
  !refused.looking p && !refused.opening p

/-- A regular file with the suffix, all of whose directories from `path` on can be looked at
and opened; below `path`, `readdir` gives the types of them and of the file. -/
structure Listed (refused : Refusals) (fs : FileSystem) (subfix : String) (path q : Path) :
    Prop where
  regular : ∃ file, fs.file? (path ++ q) = some file ∧ file.type = .regular
  subfix : ∃ n ∈ q.getLast?, subfix.toList <:+ n.toList
  entered : ∀ r, r <+: q → r ≠ q → refused.enters (path ++ r) = true
  typed : ∀ r, r <+: q → r ≠ [] → refused.typing (path ++ r) = false

/-- The files are the listed ones, each once. -/
structure Lists (refused : Refusals) (fs : FileSystem) (subfix : String) (path : Path)
    (found : List Path) : Prop where
  nodup : found.Nodup
  mem : ∀ q, q ∈ found ↔ Listed refused fs subfix path q

theorem hasSubfix_iff {filename subfix : String} :
    FSUtil.hasSubfix filename subfix = true ↔ subfix.toList <:+ filename.toList := by
  rw [FSUtil.hasSubfix]
  split_ifs with hempty hshort
  · simp [hempty]
  · refine iff_of_false id fun hsuffix => ?_
    have hle := hsuffix.length_le
    rw [String.length_toList, String.length_toList] at hle
    omega
  · rw [decide_eq_true_iff]
    constructor
    · intro heq
      rw [← heq]
      exact List.drop_suffix _ _
    · rintro ⟨front, hfront⟩
      have hlen := congrArg List.length hfront
      rw [List.length_append, String.length_toList, String.length_toList] at hlen
      rw [← hfront, List.drop_left' (by omega)]

/-- Something under a path means that there is a directory. -/
theorem directory_of_behind {file : File} {n : String}
    (h : fs.file? (path ++ n :: q) = some file) :
    ∃ d, fs.file? path = some d ∧ d.isDirectory = true := by
  have hcons : path ++ n :: q = (path ++ [n]) ++ q := by simp
  rw [hcons] at h
  obtain ⟨file', hfile'⟩ := Hierarchy.find?_front h
  exact Hierarchy.find?_parent hfile'

theorem Listed.ne_nil (h : Listed refused fs subfix path q) : q ≠ [] := by
  rintro rfl
  obtain ⟨n, hn, _⟩ := h.subfix
  cases hn

/-- Nothing is listed where nothing can be entered. -/
theorem Listed.opendir_ne_none (h : Listed refused fs subfix path q) :
    ∃ d, fs.file? path = some d ∧ d.isDirectory = true ∧ refused.enters path = true := by
  cases q with
  | nil => exact absurd rfl h.ne_nil
  | cons n q =>
      obtain ⟨file, hfile, _⟩ := h.regular
      obtain ⟨d, hd, hdir⟩ := directory_of_behind hfile
      have hentered := h.entered [] (List.nil_prefix) (List.cons_ne_nil n q).symm
      rw [List.append_nil] at hentered
      exact ⟨d, hd, hdir, hentered⟩

theorem Listed.head_typed {n : String} (h : Listed refused fs subfix path (n :: q)) :
    refused.typing (path ++ [n]) = false :=
  h.typed [n] (List.prefix_append [n] q) (List.cons_ne_nil n [])

theorem access_of_enters {d : File} (h : fs.file? path = some d)
    (henters : refused.enters path = true) : fs.access refused path = true := by
  rw [Refusals.enters, Bool.and_eq_true] at henters
  rw [FileSystem.access, henters.1, h]
  rfl

theorem enters_of_access (h : fs.access refused path = true)
    (hopening : refused.opening path = false) : refused.enters path = true := by
  rw [FileSystem.access, Bool.and_eq_true] at h
  rw [Refusals.enters, h.1, hopening]
  rfl

theorem opendir_isSome :
    (fs.opendir refused path).isSome = true ↔
      ∃ d, fs.file? path = some d ∧ d.isDirectory = true ∧ refused.opening path = false := by
  rw [opendir]
  cases fs.file? path with
  | none => simp
  | some d => simp

theorem opening_of_enters (h : refused.enters path = true) : refused.opening path = false := by
  rw [Refusals.enters, Bool.and_eq_true, Bool.not_eq_true'] at h
  simpa using h.2

/-- What is listed is an entry, or is listed under one. -/
theorem listed_cons {n : String} (henters : refused.enters path = true)
    (htyped : refused.typing (path ++ [n]) = false) :
    Listed refused fs subfix path (n :: q) ↔
      (q = [] ∧ (∃ file, fs.file? (path ++ [n]) = some file ∧ file.type = .regular) ∧
        subfix.toList <:+ n.toList) ∨ Listed refused fs subfix (path ++ [n]) q := by
  constructor
  · intro h
    cases hq : q with
    | nil =>
        subst hq
        obtain ⟨m, hm, hsuffix⟩ := h.subfix
        obtain rfl := Option.some.inj hm
        exact Or.inl ⟨rfl, h.regular, hsuffix⟩
    | cons m rest =>
        rw [← hq]
        right
        refine ⟨?_, ?_, fun r hr hne => ?_, fun r hr _ => ?_⟩
        · obtain ⟨file, hfile, htype⟩ := h.regular
          exact ⟨file, by rw [← hfile]; simp, htype⟩
        · obtain ⟨last, hlast, hsuffix⟩ := h.subfix
          exact ⟨last, by rw [hq] at hlast ⊢; exact hlast, hsuffix⟩
        · have hentered := h.entered (n :: r) (List.cons_prefix_cons.mpr ⟨rfl, hr⟩)
            fun heq => hne (List.cons.inj heq).2
          rw [← hentered]
          simp
        · have hlast := h.typed (n :: r) (List.cons_prefix_cons.mpr ⟨rfl, hr⟩)
            (List.cons_ne_nil n r)
          rw [← hlast]
          simp
  · rintro (⟨rfl, hregular, hsuffix⟩ | h)
    · refine ⟨hregular, ⟨n, rfl, hsuffix⟩, fun r hr hne => ?_, fun r hr hne => ?_⟩
      · rcases List.prefix_cons_iff.mp hr with rfl | ⟨r', rfl, hr'⟩
        · rw [List.append_nil]
          exact henters
        · rw [List.prefix_nil.mp hr'] at hne
          exact absurd rfl hne
      · rcases List.prefix_cons_iff.mp hr with rfl | ⟨r', rfl, hr'⟩
        · exact absurd rfl hne
        · rw [List.prefix_nil.mp hr']
          exact htyped
    · refine ⟨?_, ?_, fun r hr hne => ?_, fun r hr hne => ?_⟩
      · obtain ⟨file, hfile, htype⟩ := h.regular
        exact ⟨file, by rw [← hfile]; simp, htype⟩
      · obtain ⟨last, hlast, hsuffix⟩ := h.subfix
        refine ⟨last, ?_, hsuffix⟩
        rw [List.getLast?_cons, Option.mem_def]
        rw [Option.mem_def] at hlast
        rw [hlast]
        rfl
      · rcases List.prefix_cons_iff.mp hr with rfl | ⟨r', rfl, hr'⟩
        · rw [List.append_nil]
          exact henters
        · have hentered := h.entered r' hr' fun heq => hne (by rw [heq])
          rw [← hentered]
          simp
      · rcases List.prefix_cons_iff.mp hr with rfl | ⟨r', rfl, hr'⟩
        · exact absurd rfl hne
        · by_cases hnil : r' = []
          · rw [hnil]
            exact htyped
          · rw [← h.typed r' hr' hnil]
            simp

/-- The entries `.` and `..` are passed over, with a type or without. -/
theorem listEntry_dots {list : List String → String → Path → Option (List String)} {name : String}
    (h : name = "." ∨ name = "..") :
    FSUtil.listEntry list refused fs subfix text path files name = some files := by
  rw [FSUtil.listEntry, FileSystem.entryType]
  by_cases htyping : refused.typing (path ++ [name]) = true
  · rw [if_pos htyping]
  · rw [if_neg htyping, if_pos h]
    exact if_pos h

/-- The part of what is listed that starts with one of `names`. -/
structure ListsUnder (refused : Refusals) (fs : FileSystem) (subfix : String) (path : Path)
    (names : List String) (found : List Path) : Prop where
  nodup : found.Nodup
  mem : ∀ q, q ∈ found ↔
    (∃ n ∈ names, ∃ q', q = n :: q') ∧ Listed refused fs subfix path q

/-- Nothing is listed below what is no directory. -/
theorem not_listed_of_file {file : File} (hfile : fs.file? path = some file)
    (hdir : file.isDirectory = false) (q : Path) : ¬ Listed refused fs subfix path q := by
  intro hq
  obtain ⟨d, hd, hholds, _⟩ := hq.opendir_ne_none
  rw [hfile, Option.some.injEq] at hd
  rw [← hd, hdir] at hholds
  cases hholds

section Entry

variable {n : String}

theorem listsUnder_nil (h : ∀ q, ¬ Listed refused fs subfix path (n :: q)) :
    ListsUnder refused fs subfix path [n] [] := by
  refine ⟨List.nodup_nil, fun q => iff_of_false List.not_mem_nil ?_⟩
  rintro ⟨⟨m, hm, q', rfl⟩, hlisted⟩
  rw [List.mem_singleton.mp hm] at hlisted
  exact h q' hlisted

/-- A regular file with the ending is listed, and nothing else at its name. -/
theorem listsUnder_file {file : File} (henters : refused.enters path = true)
    (htyped : refused.typing (path ++ [n]) = false) (hfile : fs.file? (path ++ [n]) = some file)
    (hregular : file.type = .regular) (hsuffix : subfix.toList <:+ n.toList) :
    ListsUnder refused fs subfix path [n] [[n]] := by
  have hno : ∀ q, ¬ Listed refused fs subfix (path ++ [n]) q :=
    not_listed_of_file hfile (by rw [File.isDirectory, hregular]; rfl)
  refine ⟨List.nodup_singleton _, fun q => ?_⟩
  rw [List.mem_singleton]
  constructor
  · rintro rfl
    exact ⟨⟨n, List.mem_singleton_self n, [], rfl⟩, (listed_cons henters htyped).mpr
      (Or.inl ⟨rfl, ⟨file, hfile, hregular⟩, hsuffix⟩)⟩
  · rintro ⟨⟨m, hm, q', rfl⟩, hlisted⟩
    obtain rfl := List.mem_singleton.mp hm
    rcases (listed_cons henters htyped).mp hlisted with ⟨rfl, _⟩ | hbehind
    · rfl
    · exact absurd hbehind (hno q')

/-- Under a directory what is listed in it is listed. -/
theorem listsUnder_directory {file : File} {found : List Path}
    (henters : refused.enters path = true) (htyped : refused.typing (path ++ [n]) = false)
    (hfile : fs.file? (path ++ [n]) = some file) (hdir : file.type = .directory)
    (hlists : Lists refused fs subfix (path ++ [n]) found) :
    ListsUnder refused fs subfix path [n] (found.map (n :: ·)) := by
  refine ⟨hlists.nodup.map List.cons_injective, fun q => ?_⟩
  rw [List.mem_map]
  constructor
  · rintro ⟨q', hq', rfl⟩
    exact ⟨⟨n, List.mem_singleton_self n, q', rfl⟩,
      (listed_cons henters htyped).mpr (Or.inr ((hlists.mem q').mp hq'))⟩
  · rintro ⟨⟨m, hm, q', rfl⟩, hlisted⟩
    obtain rfl := List.mem_singleton.mp hm
    rcases (listed_cons henters htyped).mp hlisted with
      ⟨rfl, ⟨file', hfile', hregular⟩, _⟩ | hbehind
    · rw [hfile, Option.some.injEq] at hfile'
      rw [← hfile', hdir] at hregular
      cases hregular
    · exact ⟨q', (hlists.mem q').mpr hbehind, rfl⟩

/-- The body of the loop, for an entry of the directory. -/
theorem listEntry_lists {depth : Nat} (text : String)
    (hcall : ∀ files text p, Within depth fs p →
      ∃ found, FSUtil.listAllFile refused fs subfix depth files text p =
          some (files ++ found.map (textOf text)) ∧ Lists refused fs subfix p found)
    (henters : refused.enters path = true) (hwithin : Within (depth + 1) fs path)
    (hn : n ∈ fs.tree.names path) (files : List String) :
    ∃ found, FSUtil.listEntry (FSUtil.listAllFile refused fs subfix depth) refused fs subfix text
        path files n = some (files ++ found.map (textOf text)) ∧
      ListsUnder refused fs subfix path [n] found := by
  obtain ⟨file, hfile⟩ := mem_names.mp hn
  have hproper := not_or.mpr (fs.proper path n hn)
  by_cases htyped : refused.typing (path ++ [n]) = true
  · -- an entry without a type is passed over, and nothing under it is listed
    refine ⟨[], ?_, listsUnder_nil fun q hlisted => ?_⟩
    · rw [FSUtil.listEntry, FileSystem.entryType, if_pos htyped, List.map_nil, List.append_nil]
    · rw [hlisted.head_typed] at htyped
      cases htyped
  rw [Bool.not_eq_true] at htyped
  have htype : fs.entryType refused path n = some file.type := by
    rw [FileSystem.entryType, if_neg (by simp [htyped]), if_neg hproper, hfile]
    rfl
  rw [FSUtil.listEntry, htype]
  by_cases hdir : file.type = .directory
  · rw [hdir]
    obtain ⟨found, hrun, hlists⟩ := hcall files (text ++ "/" ++ n) (path ++ [n]) (hwithin.entry hn)
    refine ⟨found.map (n :: ·), ?_, listsUnder_directory henters htyped hfile hdir hlists⟩
    simp only [if_neg hproper]
    rw [hrun, List.map_map]
    rfl
  have hno : ∀ q, ¬ Listed refused fs subfix (path ++ [n]) q :=
    not_listed_of_file hfile (decide_eq_false hdir)
  by_cases hregular : file.type = .regular
  · rw [hregular]
    by_cases hsuffix : FSUtil.hasSubfix n subfix = true
    · refine ⟨[[n]], ?_,
        listsUnder_file henters htyped hfile hregular (hasSubfix_iff.mp hsuffix)⟩
      simp only [if_pos hsuffix]
      rfl
    · refine ⟨[], ?_, listsUnder_nil fun q hlisted => ?_⟩
      · simp only [if_neg hsuffix]
        rw [List.map_nil, List.append_nil]
      · rcases (listed_cons henters htyped).mp hlisted with ⟨_, _, hmatch⟩ | hbehind
        · exact hsuffix (hasSubfix_iff.mpr hmatch)
        · exact hno q hbehind
  · refine ⟨[], ?_, listsUnder_nil fun q hlisted => ?_⟩
    · rw [List.map_nil, List.append_nil]
      cases htype' : file.type with
      | directory => exact absurd htype' hdir
      | regular => exact absurd htype' hregular
      | _ => rfl
    · rcases (listed_cons henters htyped).mp hlisted with
        ⟨_, ⟨file', hfile', htype'⟩, _⟩ | hbehind
      · rw [hfile, Option.some.injEq] at hfile'
        rw [← hfile'] at htype'
        exact hregular htype'
      · exact hno q hbehind

end Entry

/-- The loop over the entries of a directory. -/
theorem entries_list {depth : Nat} (text : String)
    (hcall : ∀ files text p, Within depth fs p →
      ∃ found, FSUtil.listAllFile refused fs subfix depth files text p =
          some (files ++ found.map (textOf text)) ∧ Lists refused fs subfix p found)
    (henters : refused.enters path = true) (hwithin : Within (depth + 1) fs path)
    (names : List String) (hnames : ∀ n ∈ names, n ∈ fs.tree.names path) (hnodup : names.Nodup)
    (files : List String) :
    ∃ found, names.foldlM
        (FSUtil.listEntry (FSUtil.listAllFile refused fs subfix depth) refused fs subfix text path)
          files = some (files ++ found.map (textOf text)) ∧
      ListsUnder refused fs subfix path names found := by
  induction names generalizing files with
  | nil =>
      refine ⟨[], ?_, List.nodup_nil, fun q => ?_⟩
      · rw [List.map_nil, List.append_nil]
        rfl
      · refine iff_of_false List.not_mem_nil ?_
        rintro ⟨⟨n, hn, _⟩, _⟩
        cases hn
  | cons n names ih =>
      obtain ⟨hn, hrest⟩ := List.forall_mem_cons.mp hnames
      obtain ⟨hnotin, hnodup'⟩ := List.nodup_cons.mp hnodup
      obtain ⟨first, hrun, hfirst⟩ := listEntry_lists text hcall henters hwithin hn files
      obtain ⟨rest, hruns, hlists⟩ := ih hrest hnodup' (files ++ first.map (textOf text))
      refine ⟨first ++ rest, ?_, ?_, fun q => ?_⟩
      · rw [List.foldlM_cons, hrun, List.map_append, ← List.append_assoc]
        exact hruns
      · refine List.nodup_append.mpr ⟨hfirst.nodup, hlists.nodup, ?_⟩
        intro q hq q' hq'
        rintro rfl
        obtain ⟨⟨m, hm, r, rfl⟩, _⟩ := (hfirst.mem q).mp hq
        obtain ⟨⟨m', hm', r', heq⟩, _⟩ := (hlists.mem _).mp hq'
        rw [List.mem_singleton.mp hm, List.cons.injEq] at heq
        exact hnotin (heq.1 ▸ hm')
      · rw [List.mem_append, hfirst.mem, hlists.mem, ← or_and_right]
        simp only [List.mem_cons, List.not_mem_nil, or_false, exists_eq_left, exists_eq_or_imp]

/-- **One call**, by induction on the depth. -/
theorem listAllFile_lists {depth : Nat} (files : List String) (text : String) (path : Path)
    (h : Within depth fs path) :
    ∃ found, FSUtil.listAllFile refused fs subfix depth files text path =
        some (files ++ found.map (textOf text)) ∧ Lists refused fs subfix path found := by
  induction depth generalizing files text path with
  | zero => exact absurd h.1 (Nat.lt_irrefl 0)
  | succ depth ih =>
      have hnone : (¬ ∃ d, fs.file? path = some d ∧ d.isDirectory = true ∧
          refused.enters path = true) → Lists refused fs subfix path [] := fun hno =>
        ⟨List.nodup_nil, fun q => iff_of_false List.not_mem_nil fun hq =>
          hno hq.opendir_ne_none⟩
      rw [FSUtil.listAllFile]
      by_cases habsent : fs.access refused path = false
      · rw [if_pos habsent]
        refine ⟨[], by simp, hnone ?_⟩
        rintro ⟨d, hd, _, henters⟩
        rw [access_of_enters hd henters] at habsent
        cases habsent
      · rw [if_neg habsent]
        by_cases hopens : ∃ d, fs.file? path = some d ∧ d.isDirectory = true ∧
            refused.enters path = true
        · obtain ⟨d, hd, hdir, henters⟩ := hopens
          rw [opendir_eq_some hd hdir (opening_of_enters henters)]
          obtain ⟨found, hrun, hlists⟩ := entries_list text ih henters h
            (fs.tree.names path) (fun _ hn => hn) (fs.tree.nodup_names path) files
          refine ⟨found, ?_, hlists.nodup, fun q => ?_⟩
          · simp only [List.foldlM_cons, listEntry_dots (Or.inl rfl), listEntry_dots (Or.inr rfl)]
            exact hrun
          rw [hlists.mem]
          refine and_iff_right_of_imp fun hq => ?_
          cases q with
          | nil => exact absurd rfl hq.ne_nil
          | cons n q =>
              obtain ⟨file, hfile, _⟩ := hq.regular
              have hcons : path ++ n :: q = (path ++ [n]) ++ q := by simp
              rw [hcons] at hfile
              exact ⟨n, mem_names.mpr (Hierarchy.find?_front hfile), q, rfl⟩
        · have hclosed : fs.opendir refused path = none := by
            rw [← Option.not_isSome_iff_eq_none, opendir_isSome]
            rintro ⟨d, hd, hdir, hopening⟩
            rw [Bool.not_eq_false] at habsent
            exact hopens ⟨d, hd, hdir, enters_of_access habsent hopening⟩
          rw [hclosed]
          exact ⟨[], by simp, hnone hopens⟩

/-! ## Any depth -/

/-- More depth does not change what the loop over entries returns. -/
theorem listEntries_mono {f g : List String → String → Path → Option (List String)}
    (h : ∀ files text p r, f files text p = some r → g files text p = some r)
    {names : List String} {r : List String}
    (hrun : names.foldlM (FSUtil.listEntry f refused fs subfix text path) files = some r) :
    names.foldlM (FSUtil.listEntry g refused fs subfix text path) files = some r := by
  induction names generalizing files with
  | nil => exact hrun
  | cons n names ih =>
      rw [List.foldlM_cons] at hrun ⊢
      obtain ⟨files₁, hentry, hrest⟩ := Option.bind_eq_some_iff.mp hrun
      refine Option.bind_eq_some_iff.mpr ⟨files₁, ?_, ih hrest⟩
      rw [FSUtil.listEntry] at hentry ⊢
      cases htype : fs.entryType refused path n with
      | none =>
          rw [htype] at hentry
          exact hentry
      | some type =>
          rw [htype] at hentry
          cases type with
          | directory =>
              simp only at hentry ⊢
              split_ifs at hentry ⊢ with hdot
              · exact hentry
              · exact h _ _ _ _ hentry
          | _ => exact hentry

theorem listAllFile_succ {depth : Nat} {r : List String}
    (h : FSUtil.listAllFile refused fs subfix depth files text path = some r) :
    FSUtil.listAllFile refused fs subfix (depth + 1) files text path = some r := by
  induction depth generalizing files text path r with
  | zero => cases h
  | succ depth ih =>
      rw [FSUtil.listAllFile] at h ⊢
      by_cases habsent : fs.access refused path = false
      · rw [if_pos habsent] at h ⊢
        exact h
      · rw [if_neg habsent] at h ⊢
        cases hopen : fs.opendir refused path with
        | none =>
            rw [hopen] at h
            exact h
        | some entries =>
            rw [hopen] at h
            exact listEntries_mono (fun _ _ _ _ hcall => ih hcall) h

theorem listAllFile_mono {depth depth' : Nat} {r : List String} (hle : depth ≤ depth')
    (h : FSUtil.listAllFile refused fs subfix depth files text path = some r) :
    FSUtil.listAllFile refused fs subfix depth' files text path = some r := by
  induction hle with
  | refl => exact h
  | step _ ih => exact listAllFile_succ ih

end Listing

/-- **`ListAllFile`** returns, and appends the texts of all regular files that have the
suffix and whose directories, from the path on, can be looked at and opened, as far as
`readdir` tells their types: these and no others, each once. -/
theorem listAllFile_exact (refused : Refusals) (fs : FileSystem) (subfix text : String)
    (path : Path) (files : List String) :
    ∃ (n : Nat) (found : List Path), (∀ depth, n ≤ depth →
        FSUtil.listAllFile refused fs subfix depth files text path =
          some (files ++ found.map (textOf text))) ∧
      found.Nodup ∧ ∀ q, q ∈ found ↔ Listed refused fs subfix path q := by
  obtain ⟨n, hwithin⟩ := exists_within fs path
  obtain ⟨found, hrun, hlists⟩ := listAllFile_lists files text path hwithin
  exact ⟨n, found, fun _ hle => listAllFile_mono hle hrun, hlists.nodup, hlists.mem⟩

end Util
end Hpgs
