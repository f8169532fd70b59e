import Hpgs.Library.Hierarchy
import Mathlib.Data.Nat.Bitwise

/-!
# Removing files

`FSUtil::Rm` removes what is at a path: a directory after its entries, and everything else
by `unlink`.  It takes for a directory what has the bit of `S_IFDIR` in its mode; the codes
of sockets and of block devices have it too, and these are not removed at all.  What `lstat`
cannot look at it takes for removed.

**Results.**
* `mode_and_sIfDir`: which files have the bit.
* `rm_removes`: one call, by induction on the depth of the tree.
* `removes_of_rm`: the depth does not matter.
* `rm_sound_iff`: the answer is honest where the path can be looked at, and the removal
  complete unless something in the tree cannot be looked at or opened.
* `mv_symlink_make_way`: what `Mv` and `Symlink` do before they make their calls.
-/

namespace Hpgs
namespace Util

/-! ## Files -/

/-- The types of files, of which a symbolic link has a target. -/
inductive FileType
  | regular
  | directory
  | symlink (target : String)
  | fifo
  | socket
  | charDevice
  | blockDevice
deriving DecidableEq, Repr

namespace FileType

/-- `S_IFREG`, `S_IFDIR`, `S_IFLNK`, `S_IFIFO`, `S_IFSOCK`, `S_IFCHR` and `S_IFBLK`. -/
def code : FileType → BitVec 32
  | regular => 0x8000
  | directory => 0x4000
  | symlink _ => 0xA000
  | fifo => 0x1000
  | socket => 0xC000
  | charDevice => 0x2000
  | blockDevice => 0x6000

/-- It is not a directory, but its code has the bit of `S_IFDIR`. -/
def isMistaken : FileType → Bool
  | socket | blockDevice => true
  | _ => false

end FileType

/-- A file of any type, with its permissions and the three bits above them. -/
structure File where
  type : FileType
  permissions : BitVec 12
deriving DecidableEq, Repr

namespace File

/-- `st_mode`. -/
def mode (file : File) : BitVec 32 :=
  file.type.code ||| file.permissions.setWidth 32

def isDirectory (file : File) : Bool :=
  file.type = .directory

end File

/-- The names from the root of the file system on. -/
abbrev Path := List String

/-- What is at all paths.  No entry of a directory is called `.` or `..`. -/
structure FileSystem where
  tree : Hierarchy String File File.isDirectory
  proper : ∀ p n, n ∈ tree.names p → n ≠ "." ∧ n ≠ ".."

/-- What the system refuses: the paths of `lstat` and `access`, those of `opendir`, those
whose type `readdir` does not tell, and those of `unlink` and `rmdir`. -/
structure Refusals where
  looking : Path → Bool
  opening : Path → Bool
  typing : Path → Bool
  removal : Path → Bool

def Refusals.nothing : Refusals where
  looking _ := false
  opening _ := false
  typing _ := false
  removal _ := false

namespace FileSystem

/-! ## Calls of the system -/

/-- What is at the path, whether or not anybody may look at it. -/
def file? (fs : FileSystem) (p : Path) : Option File :=
  fs.tree.find? p

/-- `lstat`, which does not tell an error on a file from there being none. -/
def lstat (refused : Refusals) (fs : FileSystem) (p : Path) : Option File :=
  if refused.looking p then none else fs.file? p

/-- Without what is at the path, unless it has entries. -/
def remove (fs : FileSystem) (p : Path) : FileSystem :=
  if h : fs.tree.names p = [] then
    { tree := fs.tree.erase p h
      proper := by
        intro q n hn
        obtain ⟨b, hb⟩ := Hierarchy.mem_names_iff.mp hn
        rw [Hierarchy.find?_erase] at hb
        split at hb
        · cases hb
        · exact fs.proper q n (Hierarchy.mem_names_iff.mpr ⟨b, hb⟩) }
  else fs

/-- `opendir`, with what `readdir` returns then. -/
def opendir (refused : Refusals) (fs : FileSystem) (p : Path) : Option (List String) :=
  match fs.file? p with
  | none => none
  | some file =>
      if file.isDirectory && !refused.opening p then some ("." :: ".." :: fs.tree.names p)
      else none

/-- `unlink`, and whether it succeeds. -/
def unlink (refused : Refusals) (fs : FileSystem) (p : Path) : Bool × FileSystem :=
  match fs.file? p with
  | none => (false, fs)
  | some file =>
      if file.isDirectory || refused.removal p then (false, fs) else (true, fs.remove p)

/-- `rmdir`, and whether it succeeds. -/
def rmdir (refused : Refusals) (fs : FileSystem) (p : Path) : Bool × FileSystem :=
  match fs.file? p with
  | none => (false, fs)
  | some file =>
      if file.isDirectory = false || refused.removal p || fs.tree.names p ≠ [] then (false, fs)
      else (true, fs.remove p)

end FileSystem

open FileSystem

namespace FSUtil

/-! ## `FSUtil` -/

/-- `S_IFDIR`. -/
def sIfDir : BitVec 32 := 0x4000

/-- `Unlink`. -/
def unlink (refused : Refusals) (fs : FileSystem) (filename : Path) (exist : Bool) :
    Bool × FileSystem :=
  if exist = false ∧ fs.lstat refused filename = none then (true, fs)
  else fs.unlink refused filename

/-- The body of the loop in `Rm`, with the result so far. -/
def rmEntry (rm : FileSystem → Path → Option (Bool × FileSystem)) (path : Path)
    (r : Bool × FileSystem) (name : String) : Option (Bool × FileSystem) :=
  if name = "." ∨ name = ".." then some r else rm r.2 (path ++ [name])

/-- `Rm`, with calls inside each other to a depth. -/
def rm (refused : Refusals) : Nat → FileSystem → Path → Option (Bool × FileSystem)
  | 0, _, _ => none
  | depth + 1, fs, path =>
      match fs.lstat refused path with
      | none => some (true, fs)
      | some st =>
          if st.mode &&& sIfDir = 0 then some (unlink refused fs path false)
          else
            match fs.opendir refused path with
            | none => some (false, fs)
            | some entries =>
                (entries.foldlM (rmEntry (rm refused depth) path) (true, fs)).map fun r =>
                  let removed := r.2.rmdir refused path
                  (if removed.1 then r.1 else false, removed.2)

/-- The body that `Mv` and `Symlink` share: `call` is made when `Rm` returns true. -/
def onto (call : FileSystem → Bool × FileSystem) (refused : Refusals) (depth : Nat)
    (fs : FileSystem) (dest : Path) : Option (Bool × FileSystem) :=
  (rm refused depth fs dest).map fun r => if r.1 then call r.2 else (false, r.2)

/-- `Mv`, for a function `rename`. -/
def mv (rename : Path → Path → FileSystem → Bool × FileSystem) (refused : Refusals)
    (depth : Nat) (fs : FileSystem) (source dest : Path) : Option (Bool × FileSystem) :=
  onto (rename source dest) refused depth fs dest

/-- `Symlink`, for a function `symlink`. -/
def symlink (symlink : String → Path → FileSystem → Bool × FileSystem) (refused : Refusals)
    (depth : Nat) (fs : FileSystem) (source : String) (dest : Path) :
    Option (Bool × FileSystem) :=
  onto (symlink source dest) refused depth fs dest

end FSUtil

/-! ## What the calls do -/

namespace FileSystem

variable {fs : FileSystem} {p q : Path} {file : File} {refused : Refusals}

theorem file?_behind (h : fs.file? p = none) (hpq : p <+: q) : fs.file? q = none :=
  Hierarchy.find?_behind h hpq

theorem lstat_eq_some_iff :
    fs.lstat refused p = some file ↔ refused.looking p = false ∧ fs.file? p = some file := by
  rw [lstat]
  split
  · rename_i hlooking
    simp [hlooking]
  · rename_i hlooking
    rw [Bool.not_eq_true] at hlooking
    simp [hlooking]

theorem mem_names {n : String} : n ∈ fs.tree.names p ↔ ∃ file, fs.file? (p ++ [n]) = some file :=
  Hierarchy.mem_names_iff

theorem names_of_not_directory (h : fs.file? p = some file) (hdir : file.isDirectory = false) :
    fs.tree.names p = [] := by
  refine Hierarchy.names_eq_nil fun d hd => ?_
  rw [file?, hd] at h
  cases h
  exact hdir

theorem file?_remove (h : fs.tree.names p = []) (q : Path) :
    (fs.remove p).file? q = if q = p then none else fs.file? q := by
  rw [remove, dif_pos h]
  exact Hierarchy.find?_erase h q

end FileSystem

/-! ## Modes -/

/-- The bit of `S_IFDIR` is set for directories, and for what is mistaken for them. -/
theorem mode_and_sIfDir (file : File) :
    file.mode &&& FSUtil.sIfDir = 0 ↔
      file.isDirectory = false ∧ file.type.isMistaken = false := by
  have hlow : file.permissions.setWidth 32 &&& FSUtil.sIfDir = 0#32 := by
    have hbit : file.permissions.toNat.testBit 14 = false :=
      Nat.testBit_lt_two_pow (Nat.lt_of_lt_of_le file.permissions.isLt (by decide))
    apply BitVec.eq_of_toNat_eq
    rw [BitVec.toNat_and, BitVec.toNat_setWidth_of_le (by decide),
      show FSUtil.sIfDir.toNat = 2 ^ 14 from rfl, Nat.and_two_pow, hbit]
    rfl
  have hmode : file.mode &&& FSUtil.sIfDir = file.type.code &&& FSUtil.sIfDir := by
    rw [File.mode, BitVec.and_or_distrib_right, hlow, BitVec.or_zero]
  rw [hmode, File.isDirectory, decide_eq_false_iff_not]
  cases file.type <;> simp [FileType.code, FileType.isMistaken, FSUtil.sIfDir]

/-! ## One call -/

section Removal

variable {refused : Refusals} {fs fs' : FileSystem} {path : Path} {file : File}

/-- The tree at a path is less deep than the depth. -/
def Within (depth : Nat) (fs : FileSystem) (path : Path) : Prop :=
  0 < depth ∧ ∀ q file, path <+: q → fs.file? q = some file → q.length < path.length + depth

/-- `Rm` cannot look at it, or tries to open it and cannot. -/
def isShut (refused : Refusals) (path : Path) (file : File) : Bool :=
  refused.looking path || file.type.isMistaken || file.isDirectory && refused.opening path

/-- What is at a path, if anything is, can be looked at. -/
def Seen (refused : Refusals) (fs : FileSystem) (path : Path) : Prop :=
  ∀ file, fs.file? path = some file → refused.looking path = false

theorem isShut_directory (hlook : refused.looking path = false) (hdir : file.isDirectory = true) :
    isShut refused path file = refused.opening path := by
  have htype : file.type = .directory := of_decide_eq_true hdir
  simp [isShut, hlook, hdir, htype, FileType.isMistaken]

theorem looking_of_not_shut (h : isShut refused path file = false) :
    refused.looking path = false := by
  rw [isShut, Bool.or_assoc, Bool.or_eq_false_iff] at h
  exact h.1

/-- Nothing in the tree at a path is in the way. -/
def Clear (refused : Refusals) (fs : FileSystem) (path : Path) : Prop :=
  ∀ q file, path <+: q → fs.file? q = some file →
    refused.removal q = false ∧ isShut refused q file = false

/-- What a step of a removal does: it changes nothing but the paths `inside`, where it only
removes, and it does not remove what is shut. -/
structure Prunes (refused : Refusals) (inside : Path → Prop) (fs fs' : FileSystem) : Prop where
  shrinks : ∀ q file, fs'.file? q = some file → fs.file? q = some file
  outside : ∀ q, ¬ inside q → fs'.file? q = fs.file? q
  kept : ∀ q file, fs.file? q = some file → isShut refused q file = true →
    fs'.file? q = some file

/-- What a call of `Rm` does.  Of what it cannot look at it says that it is gone. -/
structure Removes (refused : Refusals) (fs : FileSystem) (path : Path) (ret : Bool)
    (fs' : FileSystem) : Prop extends Prunes refused (path <+: ·) fs fs' where
  there : ret = false → fs'.file? path ≠ none
  gone : ret = true → Seen refused fs path → fs'.file? path = none
  complete : Clear refused fs path → ret = true

theorem Removes.honest {ret : Bool} (h : Removes refused fs path ret fs')
    (hseen : Seen refused fs path) : ret = true ↔ fs'.file? path = none := by
  refine ⟨fun htrue => h.gone htrue hseen, fun hnone => ?_⟩
  rw [← Bool.not_eq_false]
  exact fun hfalse => h.there hfalse hnone

theorem Clear.seen (h : Clear refused fs path) : Seen refused fs path :=
  fun file hfile => looking_of_not_shut (h path file (List.prefix_refl path) hfile).2

theorem Removes.gone_of_clear {ret : Bool} (h : Removes refused fs path ret fs')
    (hc : Clear refused fs path) : fs'.file? path = none :=
  h.gone (h.complete hc) hc.seen

theorem Prunes.refl (inside : Path → Prop) (fs : FileSystem) : Prunes refused inside fs fs where
  shrinks _ _ h := h
  outside _ _ := rfl
  kept _ _ h _ := h

theorem Prunes.trans {inside inside' : Path → Prop} {fs'' : FileSystem}
    (h : Prunes refused inside fs fs') (h' : Prunes refused inside' fs' fs'') :
    Prunes refused (fun q => inside q ∨ inside' q) fs fs'' where
  shrinks q file hq := h.shrinks q file (h'.shrinks q file hq)
  outside q hq := by
    rw [not_or] at hq
    rw [h'.outside q hq.2, h.outside q hq.1]
  kept q file hq hm := h'.kept q file (h.kept q file hq hm) hm

theorem Prunes.mono {inside inside' : Path → Prop} (h : Prunes refused inside fs fs')
    (hsub : ∀ q, inside q → inside' q) : Prunes refused inside' fs fs' where
  shrinks := h.shrinks
  outside q hq := h.outside q fun hin => hq (hsub q hin)
  kept := h.kept

theorem Prunes.gone {inside : Path → Prop} (h : Prunes refused inside fs fs') {q : Path}
    (hq : fs.file? q = none) : fs'.file? q = none := by
  cases hq' : fs'.file? q with
  | none => rfl
  | some file =>
      rw [h.shrinks q file hq'] at hq
      cases hq

theorem Prunes.mem_names {inside : Path → Prop} (h : Prunes refused inside fs fs') {n : String}
    (hn : n ∈ fs'.tree.names path) : n ∈ fs.tree.names path := by
  obtain ⟨file, hfile⟩ := FileSystem.mem_names.mp hn
  exact FileSystem.mem_names.mpr ⟨file, h.shrinks _ _ hfile⟩

theorem Within.prunes {inside : Path → Prop} {depth : Nat} (hw : Within depth fs path)
    (h : Prunes refused inside fs fs') : Within depth fs' path :=
  ⟨hw.1, fun q file hpq hq => hw.2 q file hpq (h.shrinks q file hq)⟩

theorem Clear.prunes {inside : Path → Prop} (hc : Clear refused fs path)
    (h : Prunes refused inside fs fs') : Clear refused fs' path :=
  fun q file hpq hq => hc q file hpq (h.shrinks q file hq)

/-- One entry is removed. -/
theorem prunes_remove (h : fs.file? path = some file) (hnames : fs.tree.names path = [])
    (hopen : isShut refused path file = false) :
    Prunes refused (· = path) fs (fs.remove path) where
  shrinks q file' hq := by
    rw [file?_remove hnames] at hq
    split at hq
    · cases hq
    · exact hq
  outside q hq := by
    rw [file?_remove hnames, if_neg hq]
  kept q file' hq hshut := by
    rw [file?_remove hnames]
    split
    · rename_i heq
      rw [heq, h, Option.some.injEq] at hq
      rw [heq, ← hq, hopen] at hshut
      cases hshut
    · exact hq

/-- The file stays, because something was in the way. -/
theorem Prunes.stays (h : Prunes refused (path <+: ·) fs fs') (hthere : fs'.file? path = some file)
    (hway : ¬ Clear refused fs path) : Removes refused fs path false fs' where
  toPrunes := h
  there _ := by simp [hthere]
  gone hfalse := absurd hfalse Bool.false_ne_true
  complete hc := absurd hc hway

/-- The file goes, after its entries. -/
theorem Prunes.goes (h : Prunes refused (path <+: ·) fs fs') (hthere : fs'.file? path = some file)
    (hnames : fs'.tree.names path = []) (hopen : isShut refused path file = false) :
    Removes refused fs path true (fs'.remove path) where
  toPrunes := (h.trans (prunes_remove hthere hnames hopen)).mono fun _ hq =>
    hq.elim id fun heq => heq ▸ List.prefix_refl path
  there htrue := absurd htrue (by decide)
  gone _ _ := by simp [file?_remove hnames]
  complete _ := rfl

/-- Nothing is done where nothing can be seen. -/
theorem removes_unseen (h : fs.lstat refused path = none) :
    Removes refused fs path true fs where
  toPrunes := .refl _ fs
  there htrue := absurd htrue (by decide)
  gone _ hseen := by
    cases hfile : fs.file? path with
    | none => rfl
    | some file =>
        rw [lstat_eq_some_iff.mpr ⟨hseen file hfile, hfile⟩] at h
        cases h
  complete _ := rfl

theorem not_clear_of_refused (h : fs.file? path = some file) (hr : refused.removal path = true) :
    ¬ Clear refused fs path := by
  intro hc
  rw [(hc path file (List.prefix_refl path) h).1] at hr
  cases hr

theorem not_clear_of_shut (h : fs.file? path = some file)
    (hshut : isShut refused path file = true) : ¬ Clear refused fs path := by
  intro hc
  rw [(hc path file (List.prefix_refl path) h).2] at hshut
  cases hshut

/-- `Unlink` of what is no directory. -/
theorem unlink_removes (hlook : refused.looking path = false)
    (h : fs.file? path = some file) (hdir : file.isDirectory = false)
    (hm : file.type.isMistaken = false) :
    Removes refused fs path (FSUtil.unlink refused fs path false).1
      (FSUtil.unlink refused fs path false).2 := by
  have hopen : isShut refused path file = false := by
    simp [isShut, hlook, hdir, hm]
  have heq : FSUtil.unlink refused fs path false =
      if refused.removal path then (false, fs) else (true, fs.remove path) := by
    simp [FSUtil.unlink, FileSystem.unlink, lstat_eq_some_iff.mpr ⟨hlook, h⟩, h, hdir]
  have hsame : Prunes refused (path <+: ·) fs fs := .refl _ fs
  rw [heq]
  by_cases hr : refused.removal path = true
  · rw [if_pos hr]
    exact hsame.stays h (not_clear_of_refused h hr)
  · rw [if_neg hr]
    exact hsame.goes h (names_of_not_directory h hdir) hopen

/-- The loop over entries, with the result of the last one. -/
theorem entries_prune {depth : Nat}
    (hcall : ∀ fs p, Within depth fs p →
      ∃ ret fs', FSUtil.rm refused depth fs p = some (ret, fs') ∧ Removes refused fs p ret fs')
    (names : List String) (hproper : ∀ n ∈ names, n ≠ "." ∧ n ≠ "..")
    (hwithin : ∀ n ∈ names, Within depth fs (path ++ [n])) (ret : Bool) :
    ∃ ret' fs', names.foldlM (FSUtil.rmEntry (FSUtil.rm refused depth) path) (ret, fs) =
        some (ret', fs') ∧
      Prunes refused (fun q => ∃ n ∈ names, path ++ [n] <+: q) fs fs' ∧
      (ret' = false → (names = [] ∧ ret = false) ∨
        ∃ n ∈ names, fs'.file? (path ++ [n]) ≠ none) ∧
      ((∀ n ∈ names, Clear refused fs (path ++ [n])) →
        ∀ n ∈ names, fs'.file? (path ++ [n]) = none) := by
  induction names generalizing fs ret with
  | nil =>
      exact ⟨ret, fs, rfl, .refl _ fs, fun h => Or.inl ⟨rfl, h⟩,
        fun _ _ hn => absurd hn List.not_mem_nil⟩
  | cons n names ih =>
      rw [List.forall_mem_cons] at hproper hwithin
      obtain ⟨ret₁, fs₁, hrun, hremoves⟩ := hcall fs (path ++ [n]) hwithin.1
      have hprune := hremoves.toPrunes
      obtain ⟨ret', fs', hrest, hprune', hlast, hclear⟩ := ih hproper.2
        (fun m hm => (hwithin.2 m hm).prunes hprune) ret₁
      have hentry : FSUtil.rmEntry (FSUtil.rm refused depth) path (ret, fs) n =
          some (ret₁, fs₁) := by
        rw [FSUtil.rmEntry, if_neg (not_or.mpr hproper.1)]
        exact hrun
      refine ⟨ret', fs', ?_, ?_, ?_, ?_⟩
      · rw [List.foldlM_cons, hentry]
        exact hrest
      · refine (hprune.trans hprune').mono fun q hq => ?_
        rcases hq with hq | ⟨m, hm, hq⟩
        · exact ⟨n, List.mem_cons_self, hq⟩
        · exact ⟨m, List.mem_cons_of_mem n hm, hq⟩
      · intro hfalse
        right
        rcases hlast hfalse with ⟨rfl, hfalse₁⟩ | ⟨m, hm, hthere⟩
        · -- the last entry is still there, and nothing was done after it
          refine ⟨n, List.mem_cons_self, ?_⟩
          rw [hprune'.outside _ (by simp)]
          exact hremoves.there hfalse₁
        · exact ⟨m, List.mem_cons_of_mem n hm, hthere⟩
      · intro hall
        rw [List.forall_mem_cons] at hall ⊢
        have hgone := hremoves.gone_of_clear hall.1
        exact ⟨hprune'.gone hgone, hclear fun m hm => (hall.2 m hm).prunes hprune⟩

/-- The entries of a directory are less deep than it is. -/
theorem Within.entry {depth : Nat} (h : Within (depth + 1) fs path) {n : String}
    (hn : n ∈ fs.tree.names path) : Within depth fs (path ++ [n]) := by
  obtain ⟨file, hfile⟩ := mem_names.mp hn
  have hpath := h.2 (path ++ [n]) file (List.prefix_append path [n]) hfile
  rw [List.length_append, List.length_singleton] at hpath
  refine ⟨by omega, fun q file' hpq hq => ?_⟩
  have hlen := h.2 q file' ((List.prefix_append path [n]).trans hpq) hq
  rw [List.length_append, List.length_singleton]
  omega

theorem Clear.entry (h : Clear refused fs path) (n : String) :
    Clear refused fs (path ++ [n]) :=
  fun q file hpq hq => h q file ((List.prefix_append path [n]).trans hpq) hq

/-- The directory itself, after its entries. -/
theorem rmdir_removes {ret : Bool} (hlook : refused.looking path = false)
    (h : fs.file? path = some file)
    (hdir : file.isDirectory = true) (hopening : refused.opening path = false)
    (hprune : Prunes refused (fun q => ∃ n ∈ fs.tree.names path, path ++ [n] <+: q) fs fs')
    (hlast : ret = false → ∃ n ∈ fs.tree.names path, fs'.file? (path ++ [n]) ≠ none)
    (hclear : Clear refused fs path →
      ∀ n ∈ fs.tree.names path, fs'.file? (path ++ [n]) = none) :
    Removes refused fs path (if (fs'.rmdir refused path).1 then ret else false)
      (fs'.rmdir refused path).2 := by
  have hsame : fs'.file? path = some file := by
    rw [hprune.outside path, h]
    rintro ⟨n, _, hpre⟩
    have hlen := hpre.length_le
    rw [List.length_append, List.length_singleton] at hlen
    omega
  have hinside : Prunes refused (path <+: ·) fs fs' := by
    refine hprune.mono fun q hq => ?_
    obtain ⟨n, _, hpre⟩ := hq
    exact (List.prefix_append path [n]).trans hpre
  have heq : fs'.rmdir refused path =
      if refused.removal path = true ∨ fs'.tree.names path ≠ [] then (false, fs')
      else (true, fs'.remove path) := by
    simp [FileSystem.rmdir, hsame, hdir]
  rw [heq]
  by_cases hstop : refused.removal path = true ∨ fs'.tree.names path ≠ []
  · rw [if_pos hstop, if_neg Bool.false_ne_true]
    refine hinside.stays hsame ?_
    rcases hstop with hr | hne
    · exact not_clear_of_refused h hr
    · intro hc
      obtain ⟨n, hn⟩ := List.exists_mem_of_ne_nil _ hne
      obtain ⟨file', hfile'⟩ := mem_names.mp hn
      rw [hclear hc n (hprune.mem_names hn)] at hfile'
      cases hfile'
  · rw [if_neg hstop, if_pos rfl]
    obtain ⟨_, hempty⟩ := not_or.mp hstop
    rw [not_not] at hempty
    -- no entry is left, so the last one, if there was one, was removed
    have htrue : ret = true := by
      rw [← Bool.not_eq_false]
      intro hfalse
      obtain ⟨n, _, hthere⟩ := hlast hfalse
      have hmem := mem_names.mpr (Option.ne_none_iff_exists'.mp hthere)
      rw [hempty] at hmem
      cases hmem
    rw [htrue]
    exact hinside.goes hsame hempty ((isShut_directory hlook hdir).trans hopening)

theorem opendir_eq_some (h : fs.file? path = some file) (hdir : file.isDirectory = true)
    (hopening : refused.opening path = false) :
    fs.opendir refused path = some ("." :: ".." :: fs.tree.names path) := by
  simp [opendir, h, hdir, hopening]

/-- What is shut, and can be looked at, has the bit and cannot be opened. -/
theorem isShut_eq_true_iff (hlook : refused.looking path = false) :
    isShut refused path file = true ↔ file.mode &&& FSUtil.sIfDir ≠ 0 ∧
      ¬ (file.isDirectory = true ∧ refused.opening path = false) := by
  rw [Ne, mode_and_sIfDir]
  cases hdir : file.isDirectory with
  | false => simp [isShut, hlook, hdir]
  | true => simp [isShut_directory hlook hdir]

theorem rm_of_shut {depth : Nat} (hlook : refused.looking path = false)
    (h : fs.file? path = some file) (hshut : isShut refused path file = true) :
    FSUtil.rm refused (depth + 1) fs path = some (false, fs) := by
  obtain ⟨hmode, hopened⟩ := (isShut_eq_true_iff hlook).mp hshut
  have hopen : fs.opendir refused path = none := by
    rw [not_and, Bool.not_eq_false] at hopened
    simp only [opendir, h]
    rw [if_neg]
    simpa using hopened
  rw [FSUtil.rm]
  simp only [lstat_eq_some_iff.mpr ⟨hlook, h⟩, hopen]
  rw [if_neg hmode]

/-- The entries `.` and `..` are skipped. -/
theorem rm_of_opened {depth : Nat} (h : fs.lstat refused path = some file)
    (hmode : file.mode &&& FSUtil.sIfDir ≠ 0) {names : List String}
    (hopen : fs.opendir refused path = some ("." :: ".." :: names)) :
    FSUtil.rm refused (depth + 1) fs path =
      (names.foldlM (FSUtil.rmEntry (FSUtil.rm refused depth) path) (true, fs)).map fun r =>
        (if (r.2.rmdir refused path).1 then r.1 else false, (r.2.rmdir refused path).2) := by
  rw [FSUtil.rm]
  simp only [h, hopen]
  rw [if_neg hmode]
  rfl

/-- **One call**, by induction on the depth. -/
theorem rm_removes (refused : Refusals) {depth : Nat} (fs : FileSystem) (path : Path)
    (h : Within depth fs path) :
    ∃ ret fs', FSUtil.rm refused depth fs path = some (ret, fs') ∧
      Removes refused fs path ret fs' := by
  induction depth generalizing fs path with
  | zero => exact absurd h.1 (Nat.lt_irrefl 0)
  | succ depth ih =>
      cases hseen : fs.lstat refused path with
      | none => exact ⟨true, fs, by simp [FSUtil.rm, hseen], removes_unseen hseen⟩
      | some file =>
          obtain ⟨hlook, hfile⟩ := lstat_eq_some_iff.mp hseen
          by_cases hmode : file.mode &&& FSUtil.sIfDir = 0
          · obtain ⟨hdir, hm⟩ := (mode_and_sIfDir file).mp hmode
            refine ⟨_, _, ?_, unlink_removes hlook hfile hdir hm⟩
            rw [FSUtil.rm]
            simp only [hseen]
            rw [if_pos hmode]
          · by_cases hopened : file.isDirectory = true ∧ refused.opening path = false
            · obtain ⟨hdir, hopening⟩ := hopened
              obtain ⟨ret, fs', hrun, hprune, hlast, hclear⟩ := entries_prune ih
                (fs.tree.names path) (fs.proper path) (fun n hn => h.entry hn) true
              have hstill : ret = false →
                  ∃ n ∈ fs.tree.names path, fs'.file? (path ++ [n]) ≠ none := by
                intro hfalse
                rcases hlast hfalse with ⟨_, htrue⟩ | hthere
                · cases htrue
                · exact hthere
              refine ⟨_, _, ?_, rmdir_removes hlook hfile hdir hopening hprune hstill
                fun hc => hclear fun n _ => hc.entry n⟩
              rw [rm_of_opened hseen hmode (opendir_eq_some hfile hdir hopening), hrun]
              rfl
            · have hshut := (isShut_eq_true_iff hlook).mpr ⟨hmode, hopened⟩
              exact ⟨false, fs, rm_of_shut hlook hfile hshut,
                (Prunes.refl _ fs).stays hfile (not_clear_of_shut hfile hshut)⟩

/-! ## Any depth -/

/-- More depth does not change what the loop over entries returns. -/
theorem entries_mono {f g : FileSystem → Path → Option (Bool × FileSystem)}
    (h : ∀ fs p r, f fs p = some r → g fs p = some r) {names : List String}
    {r r' : Bool × FileSystem} (hrun : names.foldlM (FSUtil.rmEntry f path) r = some r') :
    names.foldlM (FSUtil.rmEntry g path) r = some r' := by
  induction names generalizing r with
  | nil => exact hrun
  | cons n names ih =>
      rw [List.foldlM_cons] at hrun ⊢
      obtain ⟨r₁, hentry, hrest⟩ := Option.bind_eq_some_iff.mp hrun
      refine Option.bind_eq_some_iff.mpr ⟨r₁, ?_, ih hrest⟩
      rw [FSUtil.rmEntry] at hentry ⊢
      split at hentry
      · rename_i hdot
        rw [if_pos hdot]
        exact hentry
      · rename_i hdot
        rw [if_neg hdot]
        exact h _ _ _ hentry

theorem rm_succ {depth : Nat} {r : Bool × FileSystem}
    (h : FSUtil.rm refused depth fs path = some r) :
    FSUtil.rm refused (depth + 1) fs path = some r := by
  induction depth generalizing fs path r with
  | zero => cases h
  | succ depth ih =>
      rw [FSUtil.rm] at h ⊢
      cases hfile : fs.lstat refused path with
      | none => simpa only [hfile] using h
      | some file =>
          simp only [hfile] at h ⊢
          by_cases hmode : file.mode &&& FSUtil.sIfDir = 0
          · rw [if_pos hmode] at h ⊢
            exact h
          · rw [if_neg hmode] at h ⊢
            cases hopen : fs.opendir refused path with
            | none => simpa only [hopen] using h
            | some entries =>
                simp only [hopen] at h ⊢
                obtain ⟨r₁, hrun, hr⟩ := Option.map_eq_some_iff.mp h
                exact Option.map_eq_some_iff.mpr
                  ⟨r₁, entries_mono (fun _ _ _ hcall => ih hcall) hrun, hr⟩

theorem rm_mono {depth depth' : Nat} {r : Bool × FileSystem} (hle : depth ≤ depth')
    (h : FSUtil.rm refused depth fs path = some r) :
    FSUtil.rm refused depth' fs path = some r := by
  induction hle with
  | refl => exact h
  | step _ ih => exact rm_succ ih

/-- Every tree is within some depth. -/
theorem exists_within (fs : FileSystem) (path : Path) : ∃ depth, Within depth fs path := by
  obtain ⟨depth, hdepth⟩ := fs.tree.exists_depth
  refine ⟨depth + 1, Nat.succ_pos depth, fun q file _ hq => ?_⟩
  have hlen := hdepth q file hq
  omega

/-- Whatever depth a call returns within, it removes as it should. -/
theorem removes_of_rm {depth : Nat} {ret : Bool}
    (h : FSUtil.rm refused depth fs path = some (ret, fs')) :
    Removes refused fs path ret fs' := by
  obtain ⟨depth', hw⟩ := exists_within fs path
  obtain ⟨ret', fs'', hrun, hremoves⟩ := rm_removes refused fs path hw
  have hmax := rm_mono (Nat.le_max_left depth depth') h
  rw [rm_mono (Nat.le_max_right depth depth') hrun] at hmax
  cases hmax
  exact hremoves

end Removal

/-! ## `Rm` -/

/-- What `Rm` returns, from some depth on. -/
def RmReturns (refused : Refusals) (fs : FileSystem) (path : Path) (r : Bool × FileSystem) :
    Prop :=
  ∃ n, ∀ depth, n ≤ depth → FSUtil.rm refused depth fs path = some r

/-- `Rm` returns, and tells whether nothing is at the path; it returns true, with nothing left
in the tree there, if no `unlink` and no `rmdir` in it is refused; and it changes nothing
outside. -/
def RmSound (refused : Refusals) (fs : FileSystem) (path : Path) : Prop :=
  ∃ ret fs', RmReturns refused fs path (ret, fs') ∧ (ret = true ↔ fs'.file? path = none) ∧
    ((∀ q file, path <+: q → fs.file? q = some file → refused.removal q = false) →
      ret = true ∧ ∀ q, path <+: q → fs'.file? q = none) ∧
    ∀ q, ¬ path <+: q → fs'.file? q = fs.file? q

/-- **`Rm`** is sound exactly when what is at the path can be looked at, and a removal in the
tree is refused or no file in it is shut: it has no socket and no block device, everything in
it can be looked at, and all its directories can be opened. -/
theorem rm_sound_iff (refused : Refusals) (fs : FileSystem) (path : Path) :
    RmSound refused fs path ↔
      Seen refused fs path ∧
        ((∃ q file, path <+: q ∧ fs.file? q = some file ∧ refused.removal q = true) ∨
          ∀ q file, path <+: q → fs.file? q = some file → isShut refused q file = false) := by
  constructor
  · rintro ⟨ret, fs', ⟨n, hreturns⟩, hhonest, hcomplete, _⟩
    have hremoves := removes_of_rm (hreturns n (Nat.le_refl n))
    refine ⟨fun file hfile => ?_, ?_⟩
    · rw [← Bool.not_eq_true]
      intro hlooking
      -- what cannot be looked at is still there, and the answer is true
      have hunseen : fs.lstat refused path = none := by
        rw [lstat, if_pos hlooking]
      have hrun : FSUtil.rm refused (n + 1) fs path = some (true, fs) := by
        simp [FSUtil.rm, hunseen]
      rw [hreturns (n + 1) (Nat.le_succ n)] at hrun
      cases hrun
      have hnone := hhonest.mp rfl
      rw [hfile] at hnone
      cases hnone
    · rw [or_iff_not_imp_left]
      intro hnone q file hpq hq
      rw [← Bool.not_eq_true]
      intro hshut
      have hfree : ∀ q file, path <+: q → fs.file? q = some file →
          refused.removal q = false :=
        fun q file hpq hq => Bool.eq_false_iff.mpr fun hr => hnone ⟨q, file, hpq, hq, hr⟩
      have hgone := (hcomplete hfree).2 q hpq
      rw [hremoves.kept q file hq hshut] at hgone
      cases hgone
  · rintro ⟨hseen, h⟩
    obtain ⟨depth, hw⟩ := exists_within fs path
    obtain ⟨ret, fs', hrun, hremoves⟩ := rm_removes refused fs path hw
    refine ⟨ret, fs', ⟨depth, fun _ hle => rm_mono hle hrun⟩, hremoves.honest hseen, ?_,
      hremoves.outside⟩
    intro hfree
    have hopen := h.resolve_left fun ⟨q, file, hpq, hq, hr⟩ => by
      rw [hfree q file hpq hq] at hr
      cases hr
    have htrue := hremoves.complete fun q file hpq hq =>
      ⟨hfree q file hpq hq, hopen q file hpq hq⟩
    exact ⟨htrue, fun q hpq => file?_behind (hremoves.gone htrue hseen) hpq⟩

/-- A root directory and a socket in it. -/
def rootAndSocket : List (Path × File) :=
  [([], ⟨.directory, 0x1ED⟩), (["s"], ⟨.socket, 0x1ED⟩)]

theorem mem_rootAndSocket {p : Path} {n : String} {file : File}
    (h : (p ++ [n], file) ∈ rootAndSocket) : p = [] ∧ n = "s" := by
  have hkey : (p = [] ∧ n = "s") ∧ file = ⟨.socket, 0x1ED⟩ := by
    simpa [rootAndSocket, List.append_eq_singleton_iff] using h
  exact hkey.1

def withSocket : FileSystem where
  tree :=
    { entries := rootAndSocket
      nodup := by decide
      closed := by
        intro p n file h
        obtain ⟨rfl, rfl⟩ := mem_rootAndSocket h
        exact ⟨_, List.mem_cons_self, rfl⟩ }
  proper := by
    intro p n h
    obtain ⟨file, hfile⟩ := Hierarchy.mem_names_iff.mp h
    obtain ⟨rfl, rfl⟩ := mem_rootAndSocket (Hierarchy.find?_eq_some_iff.mp hfile)
    decide

/-- A socket is not removed, though nothing is refused. -/
theorem rm_socket : ¬ RmSound .nothing withSocket ["s"] := by
  rintro ⟨ret, fs', ⟨n, hreturns⟩, _, hcomplete, _⟩
  have hrun : FSUtil.rm .nothing (n + 1) withSocket ["s"] = some (false, withSocket) :=
    rm_of_shut rfl rfl rfl
  rw [hreturns (n + 1) (Nat.le_succ n)] at hrun
  obtain ⟨htrue, _⟩ := hcomplete fun _ _ _ _ => rfl
  cases hrun
  cases htrue

/-! ## `Mv` and `Symlink` -/

/-- Outside of the destination nothing has changed when the call is made, and nothing is left
at or below the destination if that could be looked at; or it is not made, with something
left at the destination. -/
def MakesWay (refused : Refusals) (fs : FileSystem) (dest : Path)
    (call : FileSystem → Bool × FileSystem) (r : Bool × FileSystem) : Prop :=
  ∃ fs', (∀ q, ¬ dest <+: q → fs'.file? q = fs.file? q) ∧
    ((Seen refused fs dest → ∀ q, dest <+: q → fs'.file? q = none) ∧ r = call fs' ∨
      fs'.file? dest ≠ none ∧ r = (false, fs'))

theorem onto_makesWay (refused : Refusals) (fs : FileSystem) (dest : Path)
    (call : FileSystem → Bool × FileSystem) :
    ∃ r, (∃ n, ∀ depth, n ≤ depth → FSUtil.onto call refused depth fs dest = some r) ∧
      MakesWay refused fs dest call r := by
  obtain ⟨depth, hw⟩ := exists_within fs dest
  obtain ⟨ret, fs', hrun, hremoves⟩ := rm_removes refused fs dest hw
  refine ⟨if ret then call fs' else (false, fs'), ⟨depth, fun _ hle => ?_⟩,
    fs', hremoves.outside, ?_⟩
  · rw [FSUtil.onto, rm_mono hle hrun]
    rfl
  · cases ret with
    | true =>
        exact Or.inl ⟨fun hseen q hq => file?_behind (hremoves.gone rfl hseen) hq, rfl⟩
    | false => exact Or.inr ⟨hremoves.there rfl, rfl⟩

end Util
end Hpgs
