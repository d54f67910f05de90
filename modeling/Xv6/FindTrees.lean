import Xv6.KernelParameters
import Xv6.PathNames
import Mathlib.Data.Fintype.Card
import Mathlib.Data.List.DropRight

/-!
# The paths that find prints

`find` of `find.c` walks a directory tree. At each directory it holds a descriptor while it reads
the entries and calls itself for each of them. The file system is what `open` finds for a path.
Every call keeps its path in an array on the user stack, so that only so many nested calls fit; how
many is a parameter. The kernel kills the process at the call that does not fit.
-/

namespace Xv6.Find
open Function

open Fs (Path Dirent slash dot dotdot components)

/-- What is behind a path: a directory with its entries, or something else. -/
inductive Inode where
  | dir (entries : List Dirent)
  | other
  deriving DecidableEq, Repr

structure File where
  ip : Inode
  off : ℕ
  deriving DecidableEq, Repr

inductive Line where
  | path (path : Path)
  | tooLong
  deriving DecidableEq, Repr

/-- The descriptors of the process, the lines that it has printed, and the paths that it could not
open. -/
structure State where
  ofile : Fin nOFile → Option File
  out : List Line
  err : List Path

/-- How a call ends: it returns, or the process is killed for want of stack. -/
inductive End where
  | returns (s : State)
  | killed (s : State)

def fdalloc (ofile : Fin nOFile → Option File) : Option (Fin nOFile) :=
  (List.finRange nOFile).find? fun fd => (ofile fd).isNone

def openFile (fs : Path → Option Inode) (path : Path) (s : State) : Option (Fin nOFile × State) :=
  if maxPath ≤ path.length then
    none
  else
    match fs path with
    | none => none
    | some ip =>
      match fdalloc s.ofile with
      | none => none
      | some fd => some (fd, { s with ofile := update s.ofile fd (some ⟨ip, 0⟩) })

def State.close (s : State) (fd : Fin nOFile) : State :=
  { s with ofile := update s.ofile fd none }

/-- `read(fd, &de, sizeof(de))`, if it returns an entry. -/
def readEntry (s : State) (fd : Fin nOFile) : Option (Dirent × State) :=
  match s.ofile fd with
  | some ⟨.dir entries, off⟩ =>
    match entries[off]? with
    | none => none
    | some de =>
      let file : File := ⟨.dir entries, off + 1⟩
      some (de, { s with ofile := update s.ofile fd (some file) })
  | _ => none

def fmtname (path : Path) : Path := path.rtakeWhile (· ≠ slash)

def bufSize : ℕ := 512

def State.print (s : State) (line : Line) : State := { s with out := s.out ++ [line] }

/-- `printf` of the path, if its last part is the name. -/
def State.report (s : State) (target : List UInt8) (path : Path) : State :=
  if fmtname path = target then s.print (.path path) else s

/-- The path of an entry: `buf` after the name has been moved behind the slash. -/
def child (path : Path) (name : List UInt8) : Path := path ++ slash :: name

section Program

variable (fs : Path → Option Inode) (target : List UInt8)

mutual

/-- `find`, on a stack that holds `frames` nested calls. An open file can always be asked for its
type. -/
def find : (fuel frames : ℕ) → Path → State → Option End
  | 0, _, _, _ => none
  | _ + 1, 0, _, s => some (.killed s)
  | n + 1, k + 1, path, s =>
    let s := s.report target path
    match openFile fs path s with
    | none => some (.returns { s with err := s.err ++ [path] })
    | some (fd, s) =>
      match s.ofile fd with
      | some ⟨.dir _, _⟩ =>
        if path.length + 1 + dirSiz + 1 > bufSize then
          some (.returns ((s.print .tooLong).close fd))
        else
          readLoop n k path fd s
      | _ => some (.returns (s.close fd))

/-- The loop of `find` over the entries. -/
def readLoop : (fuel frames : ℕ) → Path → Fin nOFile → State → Option End
  | 0, _, _, _, _ => none
  | n + 1, k, path, fd, s =>
    match readEntry s fd with
    | none => some (.returns (s.close fd))
    | some (de, s) =>
      if de.inum = 0 then
        readLoop n k path fd s
      else if de.name = dot ∨ de.name = dotdot then
        readLoop n k path fd s
      else
        match find n k (child path de.name) s with
        | some (.returns s) => readLoop n k path fd s
        | r => r

end

end Program

/-! ### Trees -/

/-- The entries of a directory, each a directory with its own entries or something else. -/
inductive Forest where
  | nil
  | file (name : List UInt8) (rest : Forest)
  | dir (name : List UInt8) (sub rest : Forest)
  deriving DecidableEq, Repr

/-- An entry that `find` looks at. -/
def Live (de : Dirent) : Prop := de.inum ≠ 0 ∧ de.name ≠ dot ∧ de.name ≠ dotdot

/-- The entries of the directory at a path, read in this order, are those of the tree, and each full
path is shorter than `MAXPATH`. -/
inductive Holds (fs : Path → Option Inode) : Path → List Dirent → Forest → Prop where
  | nil {path : Path} : Holds fs path [] .nil
  | skip {path : Path} {de : Dirent} {es : List Dirent} {f : Forest} : ¬Live de →
      Holds fs path es f → Holds fs path (de :: es) f
  | file {path : Path} {de : Dirent} {es : List Dirent} {rest : Forest} : Live de →
      slash ∉ de.name → (child path de.name).length < maxPath →
      (∀ es', fs (child path de.name) ≠ some (.dir es')) →
      Holds fs path es rest → Holds fs path (de :: es) (.file de.name rest)
  | dir {path : Path} {de : Dirent} {es es' : List Dirent} {sub rest : Forest} : Live de →
      slash ∉ de.name → (child path de.name).length < maxPath →
      fs (child path de.name) = some (.dir es') → Holds fs (child path de.name) es' sub →
      Holds fs path es rest → Holds fs path (de :: es) (.dir de.name sub rest)

namespace Forest

def named (target : List UInt8) : Path → Forest → List Path
  | _, nil => []
  | path, file name rest =>
    (if name = target then [child path name] else []) ++ rest.named target path
  | path, dir name sub rest =>
    (if name = target then [child path name] else []) ++ sub.named target (child path name) ++
      rest.named target path

/-- The full paths of those entries that are met when `k` descriptors are free while the directory
is read. -/
def reached (target : List UInt8) : (k : ℕ) → Path → Forest → List Path
  | _, _, nil => []
  | k, path, file name rest =>
    (if name = target then [child path name] else []) ++ rest.reached target k path
  | 0, path, dir name _ rest =>
    (if name = target then [child path name] else []) ++ rest.reached target 0 path
  | k + 1, path, dir name sub rest =>
    (if name = target then [child path name] else []) ++ sub.reached target k (child path name) ++
      rest.reached target (k + 1) path

/-- The depths of the entries with a name, if the entries of the directory itself are at depth
`d`. -/
def depths (target : List UInt8) : (d : ℕ) → Forest → List ℕ
  | _, nil => []
  | d, file name rest => (if name = target then [d] else []) ++ rest.depths target d
  | d, dir name sub rest =>
    (if name = target then [d] else []) ++ sub.depths target (d + 1) ++ rest.depths target d

/-- How deep the deepest entry is, if the entries of the directory itself are at depth 1. -/
def height : Forest → ℕ
  | nil => 0
  | file _ rest => max 1 rest.height
  | dir _ sub rest => max (1 + sub.height) rest.height

end Forest

/-! ### Descriptors -/

def free (ofile : Fin nOFile → Option File) : Finset (Fin nOFile) :=
  Finset.univ.filter fun fd => ofile fd = none

variable {fs : Path → Option Inode} {target : List UInt8} {path : Path} {s : State}
  {fd : Fin nOFile} {ofile : Fin nOFile → Option File}

theorem mem_free : fd ∈ free ofile ↔ ofile fd = none := by simp [free]

theorem free_update_some (file : File) :
    free (update ofile fd (some file)) = (free ofile).erase fd := by
  ext fd'
  rw [Finset.mem_erase, mem_free, mem_free]
  by_cases h : fd' = fd
  · simp [h]
  · simp [h]

theorem fdalloc_cases (ofile : Fin nOFile → Option File) :
    (fdalloc ofile = none ∧ (free ofile).card = 0) ∨
      ∃ fd, fdalloc ofile = some fd ∧ fd ∈ free ofile := by
  cases h : fdalloc ofile with
  | none =>
    refine .inl ⟨rfl, Finset.card_eq_zero.mpr ?_⟩
    refine Finset.eq_empty_of_forall_notMem fun fd hfd => ?_
    rw [fdalloc, List.find?_eq_none] at h
    exact h fd (List.mem_finRange fd) (by simp [mem_free.mp hfd])
  | some fd =>
    refine .inr ⟨fd, rfl, mem_free.mpr ?_⟩
    simpa using List.find?_some h

theorem openFile_cases {ip : Inode} (hfs : fs path = some ip) (hlen : path.length < maxPath) :
    (openFile fs path s = none ∧ (free s.ofile).card = 0) ∨
      ∃ fd, openFile fs path s =
          some (fd, { s with ofile := update s.ofile fd (some ⟨ip, 0⟩) }) ∧
        s.ofile fd = none ∧
        (free (update s.ofile fd (some ⟨ip, 0⟩))).card + 1 = (free s.ofile).card := by
  simp only [openFile, if_neg (Nat.not_le.mpr hlen), hfs]
  obtain ⟨hnone, hcard⟩ | ⟨fd, hsome, hfd⟩ := fdalloc_cases s.ofile
  · exact .inl ⟨by rw [hnone], hcard⟩
  · refine .inr ⟨fd, by rw [hsome], mem_free.mp hfd, ?_⟩
    rw [free_update_some]
    exact Finset.card_erase_add_one hfd

variable {name : List UInt8}

theorem fmtname_child (h : slash ∉ name) : fmtname (child path name) = name := by
  have hname : ∀ c ∈ name.reverse, decide (c ≠ slash) = true := fun c hc =>
    decide_eq_true (ne_of_mem_of_not_mem (List.mem_reverse.mp hc) h)
  rw [fmtname, child, List.rtakeWhile, List.reverse_append, List.reverse_cons, List.append_assoc,
    List.takeWhile_append_of_pos hname]
  simp

def own (target : List UInt8) (path : Path) : List Line :=
  if fmtname path = target then [.path path] else []

theorem report_eq (s : State) (path : Path) :
    s.report target path = { s with out := s.out ++ own target path } := by
  unfold State.report own State.print
  split <;> simp

def reported (s : State) (target : List UInt8) (path : Path) : State :=
  ⟨s.ofile, s.out ++ own target path, s.err⟩

/-- With enough fuel, a run returns with these descriptors and lines if there is room for it on the
stack, and the process is killed otherwise. -/
def Runs (run : ℕ → Option End) (room : Prop) (ofile : Fin nOFile → Option File)
    (out : List Line) : Prop :=
  ∃ N, (room → ∃ err, ∀ n ≥ N, run n = some (.returns ⟨ofile, out, err⟩)) ∧
    (¬room → ∃ s, ∀ n ≥ N, run n = some (.killed s))

variable {run run' : ℕ → Option End} {room room' : Prop} {out : List Line} {frames : ℕ}

theorem Runs.congr (h : Runs run room ofile out) (hroom : room ↔ room') :
    Runs run room' ofile out := by
  rwa [← propext hroom]

/-- One more unit of fuel does not matter. -/
theorem Runs.succ (h : Runs run room ofile out) (hrun : ∀ n, run' (n + 1) = run n) :
    Runs run' room ofile out := by
  obtain ⟨N, hok, hkilled⟩ := h
  have hrun' {n : ℕ} {e : End} (h : ∀ n ≥ N, run n = some e) (hn : n ≥ N + 1) :
      run' n = some e := by
    obtain ⟨n, rfl⟩ := Nat.exists_eq_add_of_le' (Nat.le_of_add_left_le hn)
    rw [hrun, h n (by omega)]
  refine ⟨N + 1, fun hroom => ?_, fun hroom => ?_⟩
  · obtain ⟨err, h⟩ := hok hroom
    exact ⟨err, fun n hn => hrun' h hn⟩
  · obtain ⟨s, h⟩ := hkilled hroom
    exact ⟨s, fun n hn => hrun' h hn⟩

/-- A call and what is done after it. -/
theorem Runs.andThen {call : ℕ → Option End} {rest : ℕ → State → Option End} {out' : List Line}
    {ofile' : Fin nOFile → Option File} (hcall : Runs call room ofile' out)
    (hrest : ∀ err, Runs (fun n => rest n ⟨ofile', out, err⟩) room' ofile out')
    (hrun : ∀ n, run (n + 1) = match call n with
      | some (.returns s) => rest n s
      | r => r) : Runs run (room ∧ room') ofile out' := by
  obtain ⟨N, hok, hkilled⟩ := hcall
  by_cases hroom : room
  · obtain ⟨err, hcall⟩ := hok hroom
    obtain ⟨N', hok', hkilled'⟩ := hrest err
    have hrun' (n : ℕ) (hn : n ≥ max N N' + 1) :
        ∃ m ≥ N', run n = rest m ⟨ofile', out, err⟩ := by
      obtain ⟨m, rfl⟩ := Nat.exists_eq_add_of_le' (Nat.le_of_add_left_le hn)
      exact ⟨m, by omega, by rw [hrun, hcall m (by omega)]⟩
    refine ⟨max N N' + 1, fun h => ?_, fun h => ?_⟩
    · obtain ⟨err', hrest⟩ := hok' h.2
      refine ⟨err', fun n hn => ?_⟩
      obtain ⟨m, hm, hrun'⟩ := hrun' n hn
      exact hrun'.trans (hrest m hm)
    · obtain ⟨s', hrest⟩ := hkilled' fun hroom' => h ⟨hroom, hroom'⟩
      refine ⟨s', fun n hn => ?_⟩
      obtain ⟨m, hm, hrun'⟩ := hrun' n hn
      exact hrun'.trans (hrest m hm)
  · obtain ⟨s', hcall⟩ := hkilled hroom
    refine ⟨N + 1, fun h => absurd h.1 hroom, fun _ => ⟨s', fun n hn => ?_⟩⟩
    obtain ⟨m, rfl⟩ := Nat.exists_eq_add_of_le' (Nat.le_of_add_left_le hn)
    rw [hrun, hcall m (by omega)]

/-- A call of `find` needs one frame more than its loop. -/
theorem Runs.call {loop : ℕ → ℕ → Option End} {c : ℕ} (frames : ℕ)
    (hfind : ∀ n k, find fs target (n + 1) (k + 1) path s = loop n k)
    (hloop : ∀ k, Runs (fun n => loop n k) (c ≤ k) ofile out) :
    Runs (fun n => find fs target n frames path s) (c + 1 ≤ frames) ofile out := by
  cases frames with
  | zero =>
    refine ⟨1, fun hroom => by omega, fun _ => ⟨s, fun n hn => ?_⟩⟩
    obtain ⟨n, rfl⟩ := Nat.exists_eq_add_of_le' hn
    simp only [find]
  | succ k =>
    exact ((hloop k).congr Nat.add_le_add_iff_right.symm).succ fun n => hfind n k

theorem find_returns (err : List Path)
    (h : ∀ n k, find fs target (n + 1) (k + 1) path s = some (.returns ⟨ofile, out, err⟩)) :
    Runs (fun n => find fs target n frames path s) (1 ≤ frames) ofile out :=
  Runs.call (c := 0) frames h fun _ =>
    ⟨0, fun _ => ⟨err, fun _ _ => rfl⟩, fun h => absurd (Nat.zero_le _) h⟩

theorem find_of_none (h : openFile fs path (reported s target path) = none) :
    Runs (fun n => find fs target n frames path s) (1 ≤ frames) s.ofile
      (s.out ++ own target path) := by
  refine find_returns (s.err ++ [path]) fun n k => ?_
  simp only [find, report_eq]
  rw [← reported, h]

theorem find_other (target : List UInt8) (hfs : ∀ es, fs path ≠ some (.dir es)) (s : State)
    (frames : ℕ) :
    Runs (fun n => find fs target n frames path s) (1 ≤ frames) s.ofile
      (s.out ++ own target path) := by
  by_cases hlen : path.length < maxPath
  · cases hip : fs path with
    | none => exact find_of_none (by simp [openFile, hip])
    | some ip =>
      cases ip with
      | dir es => exact absurd hip (hfs es)
      | other =>
        obtain ⟨hopen, -⟩ | ⟨fd, hopen, hfd, -⟩ :=
          openFile_cases (s := reported s target path) hip hlen
        · exact find_of_none hopen
        · refine find_returns s.err fun n k => ?_
          have hback : update s.ofile fd none = s.ofile := by
            rw [← hfd]
            exact update_eq_self ..
          simp only [find, report_eq]
          rw [← reported, hopen]
          simp [State.close, reported, hback]
  · exact find_of_none (by simp [openFile, Nat.not_lt.mp hlen])

/-- At a directory `find` gives up if no descriptor is free, or else it takes one and goes on with
its loop. -/
theorem find_dir {es : List Dirent} (target : List UInt8) (hfs : fs path = some (.dir es))
    (hlen : path.length < maxPath) (s : State) :
    ((free s.ofile).card = 0 ∧ ∀ frames, Runs (fun n => find fs target n frames path s)
      (1 ≤ frames) s.ofile (s.out ++ own target path)) ∨
    ∃ fd, s.ofile fd = none ∧
      (free (update s.ofile fd (some ⟨.dir es, 0⟩))).card + 1 = (free s.ofile).card ∧
      ∀ n k, find fs target (n + 1) (k + 1) path s = readLoop fs target n k path fd
        ⟨update s.ofile fd (some ⟨.dir es, 0⟩), s.out ++ own target path, s.err⟩ := by
  obtain ⟨hopen, hcard⟩ | ⟨fd, hopen, hfd, hcard⟩ :=
    openFile_cases (s := reported s target path) hfs hlen
  · exact .inl ⟨hcard, fun _ => find_of_none hopen⟩
  · refine .inr ⟨fd, hfd, hcard, fun n k => ?_⟩
    have hbuf : ¬path.length + 1 + dirSiz + 1 > bufSize := by
      simp only [maxPath, dirSiz, bufSize] at *
      omega
    simp only [find, report_eq]
    rw [← reported, hopen]
    simp only [update_self, if_neg hbuf]
    rfl

theorem readEntry_cons {entries es : List Dirent} {off : ℕ} {de : Dirent}
    (hfd : s.ofile fd = some ⟨.dir entries, off⟩) (hes : entries.drop off = de :: es) :
    readEntry s fd =
      some (de, { s with ofile := update s.ofile fd (some ⟨.dir entries, off + 1⟩) }) := by
  have hget : entries[off]? = some de := by
    rw [← List.head?_drop, hes]
    rfl
  simp [readEntry, hfd, hget]

theorem free_advance {file file' : File} (hfd : s.ofile fd = some file) :
    free (update s.ofile fd (some file')) = free s.ofile := by
  rw [free_update_some, Finset.erase_eq_of_notMem]
  simp [mem_free, hfd]

theorem own_child (h : slash ∉ name) : own target (child path name) =
      (if name = target then [child path name] else []).map Line.path := by
  rw [own, fmtname_child h]
  split <;> rfl

def advance (s : State) (fd : Fin nOFile) (entries : List Dirent) (off : ℕ) : State :=
  { s with ofile := update s.ofile fd (some ⟨.dir entries, off + 1⟩) }

section Loop

variable {entries es : List Dirent} {off : ℕ} {de : Dirent} {paths paths' : List Path}
  (hfd : s.ofile fd = some ⟨.dir entries, off⟩) (hes : entries.drop off = de :: es)

include hfd hes

theorem Runs.skip (hdead : ¬Live de)
    (h : Runs (fun n => readLoop fs target n frames path fd (advance s fd entries off)) room
      ofile out) :
    Runs (fun n => readLoop fs target n frames path fd s) room ofile out := by
  refine h.succ fun n => ?_
  simp only [readLoop, readEntry_cons hfd hes]
  by_cases hinum : de.inum = 0
  · rw [if_pos hinum]
    rfl
  · have hdot : de.name = dot ∨ de.name = dotdot := by
      simp only [Live] at hdead
      tauto
    rw [if_neg hinum, if_pos hdot]
    rfl

/-- The loop calls `find` for an entry and goes on, or the process is killed in that call or
later. -/
theorem Runs.visit {ofile' : Fin nOFile → Option File} (hlive : Live de)
    (hfind : Runs (fun n => find fs target n frames (child path de.name)
      (advance s fd entries off)) room ofile' (s.out ++ paths.map .path))
    (hrest : ∀ out err, Runs (fun n => readLoop fs target n frames path fd ⟨ofile', out, err⟩)
      room' ofile (out ++ paths'.map .path)) :
    Runs (fun n => readLoop fs target n frames path fd s) (room ∧ room') ofile
      (s.out ++ (paths ++ paths').map .path) := by
  have hloop (n : ℕ) : readLoop fs target (n + 1) frames path fd s =
      match find fs target n frames (child path de.name) (advance s fd entries off) with
      | some (.returns s) => readLoop fs target n frames path fd s
      | r => r := by
    obtain ⟨hinum, hdot, hdotdot⟩ := hlive
    simp only [readLoop, readEntry_cons hfd hes]
    rw [if_neg hinum, if_neg (by tauto)]
    rfl
  rw [List.map_append, ← List.append_assoc]
  exact hfind.andThen (fun err => hrest _ err) hloop

end Loop

variable {f : Forest}

/-- The loop over the entries of a tree prints what it reaches with the free descriptors. It needs
one frame for each level of the tree that it reaches. -/
theorem Holds.prints {es : List Dirent} (target : List UInt8) (h : Holds fs path es f) (frames : ℕ)
    (s : State) (fd : Fin nOFile) {entries : List Dirent} {off : ℕ}
    (hfd : s.ofile fd = some ⟨.dir entries, off⟩) (hes : entries.drop off = es) :
    Runs (fun n => readLoop fs target n frames path fd s)
      (min f.height ((free s.ofile).card + 1) ≤ frames) (update s.ofile fd none)
      (s.out ++ (f.reached target (free s.ofile).card path).map .path) := by
  induction h generalizing frames s fd entries off with
  | nil =>
    refine ⟨1, fun _ => ⟨s.err, fun n hn => ?_⟩, fun h => by simp [Forest.height] at h⟩
    obtain ⟨n, rfl⟩ := Nat.exists_eq_add_of_le' hn
    have hget : entries[off]? = none := by
      rw [← List.head?_drop, hes]
      rfl
    simp [readLoop, readEntry, hfd, hget, Forest.reached, State.close]
  | @skip path de es f hdead h ih =>
    have hes' : entries.drop (off + 1) = es := by rw [← List.tail_drop, hes, List.tail_cons]
    have hrest := ih frames (advance s fd entries off) fd (update_self ..) hes'
    rw [advance, update_idem, free_advance hfd] at hrest
    exact hrest.skip hfd hes hdead
  | @file path de es rest hlive hslash hlen hfs h ih =>
    have hes' : entries.drop (off + 1) = es := by rw [← List.tail_drop, hes, List.tail_cons]
    have hfind := find_other target hfs (advance s fd entries off) frames
    rw [own_child hslash] at hfind
    have hrest (out : List Line) (err : List Path) :=
      ih frames ⟨(advance s fd entries off).ofile, out, err⟩ fd (update_self ..) hes'
    simp only [advance, update_idem, free_advance hfd] at hrest
    refine (Runs.visit hfd hes hlive hfind hrest).congr ?_
    simp only [Forest.height]
    omega
  | @dir path de es es' sub rest hlive hslash hlen hfs hsub h ihsub ih =>
    have hes' : entries.drop (off + 1) = es := by rw [← List.tail_drop, hes, List.tail_cons]
    have hadvance : free (advance s fd entries off).ofile = free s.ofile := free_advance hfd
    have hrest (out : List Line) (err : List Path) :=
      ih frames ⟨(advance s fd entries off).ofile, out, err⟩ fd (update_self ..) hes'
    simp only [advance, update_idem, free_advance hfd] at hrest
    obtain ⟨hcard, hfind⟩ | ⟨fd', hfree, hcard, hfind⟩ :=
      find_dir target hfs hlen (advance s fd entries off)
    · replace hfind := hfind frames
      rw [own_child hslash] at hfind
      rw [hadvance] at hcard
      rw [hcard] at hrest ⊢
      refine (Runs.visit hfd hes hlive hfind hrest).congr ?_
      simp only [Forest.height]
      omega
    · have hback : update (update (advance s fd entries off).ofile fd' (some ⟨.dir es', 0⟩))
          fd' none = (advance s fd entries off).ofile := by
        rw [update_idem, ← hfree]
        exact update_eq_self ..
      have hloop (k : ℕ) := ihsub k
        ⟨update (advance s fd entries off).ofile fd' (some ⟨.dir es', 0⟩),
          s.out ++ own target (child path de.name), s.err⟩ fd' (update_self ..)
        (List.drop_zero ..)
      have hcall := Runs.call frames hfind hloop
      rw [hback, own_child hslash, List.append_assoc, ← List.map_append] at hcall
      rw [hadvance] at hcard
      rw [← hcard] at hrest ⊢
      rw [Forest.reached]
      refine (Runs.visit hfd hes hlive hcall hrest).congr ?_
      simp only [Forest.height]
      omega

/-! ### What is lost -/

namespace Forest

theorem le_of_mem_depths {d e : ℕ} (h : e ∈ f.depths target d) : d ≤ e := by
  induction f generalizing d with
  | nil => simp [depths] at h
  | file name rest ih =>
    simp only [depths, List.mem_append, List.mem_ite_nil_right, List.mem_singleton] at h
    obtain ⟨-, rfl⟩ | h := h
    · exact le_rfl
    · exact ih h
  | dir name sub rest ihsub ih =>
    simp only [depths, List.mem_append, List.mem_ite_nil_right, List.mem_singleton] at h
    obtain (⟨-, rfl⟩ | h) | h := h
    · exact le_rfl
    · exact Nat.le_of_succ_le (ihsub h)
    · exact ih h

theorem length_depths (f : Forest) (d : ℕ) (path : Path) :
    (f.depths target d).length = (f.named target path).length := by
  induction f generalizing d path with
  | nil => rfl
  | file name rest ih =>
    rw [depths, named, List.length_append, List.length_append, ih d path]
    split <;> rfl
  | dir name sub rest ihsub ih =>
    simp only [depths, named, List.length_append, ih d path, ihsub (d + 1) (child path name)]
    split <;> rfl

theorem reached_sublist (target : List UInt8) (f : Forest) (k : ℕ) (path : Path) :
    (f.reached target k path).Sublist (f.named target path) := by
  induction f generalizing k path with
  | nil => exact List.Sublist.refl _
  | file name rest ih =>
    rw [reached, named]
    exact (List.append_sublist_append_left _).mpr (ih k path)
  | dir name sub rest ihsub ih =>
    cases k with
    | zero =>
      rw [reached, named, List.append_assoc]
      exact (List.append_sublist_append_left _).mpr
        ((ih 0 path).trans (List.sublist_append_right _ _))
    | succ k =>
      rw [reached, named, List.append_assoc, List.append_assoc]
      exact (List.append_sublist_append_left _).mpr ((ihsub k _).append (ih (k + 1) path))

theorem length_reached_eq_iff (f : Forest) (k d : ℕ) (path : Path) :
    (f.reached target k path).length = (f.named target path).length ↔
      ∀ e ∈ f.depths target d, e ≤ d + k := by
  induction f generalizing k d path with
  | nil => simp [reached, named, depths]
  | file name rest ih =>
    rw [reached, named, depths, List.length_append, List.length_append, List.forall_mem_append,
      Nat.add_left_cancel_iff, ih k d path]
    refine (and_iff_right ?_).symm
    split <;> simp
  | dir name sub rest ihsub ih =>
    have hown : ∀ e ∈ (if name = target then [d] else []), e ≤ d + k := by split <;> simp
    have hle := (reached_sublist target rest k path).length_le
    rw [named, depths, List.forall_mem_append, List.forall_mem_append, and_iff_right hown,
      ← ih k d path]
    cases k with
    | zero =>
      have hnone : (sub.named target (child path name)).length = 0 ↔
          ∀ e ∈ sub.depths target (d + 1), e ≤ d + 0 := by
        rw [← length_depths sub (d + 1), List.length_eq_zero_iff]
        constructor
        · intro h
          simp [h]
        · intro h
          refine List.eq_nil_iff_forall_not_mem.mpr fun e he => ?_
          have := le_of_mem_depths he
          have := h e he
          omega
      rw [reached, ← hnone]
      simp only [List.length_append]
      omega
    | succ k =>
      have hsub := (reached_sublist target sub k (child path name)).length_le
      have hdepth := ihsub k (d + 1) (child path name)
      rw [Nat.add_right_comm, Nat.add_assoc] at hdepth
      rw [reached, ← hdepth]
      simp only [List.length_append]
      omega

theorem length_lt_of_mem_named {path p : Path} (h : p ∈ f.named target path) :
    path.length < p.length := by
  induction f generalizing path with
  | nil => simp [named] at h
  | file name rest ih =>
    simp only [named, List.mem_append, List.mem_ite_nil_right, List.mem_singleton] at h
    obtain ⟨-, rfl⟩ | h := h
    · simp [child]
    · exact ih h
  | dir name sub rest ihsub ih =>
    simp only [named, List.mem_append, List.mem_ite_nil_right, List.mem_singleton] at h
    obtain (⟨-, rfl⟩ | h) | h := h
    · simp [child]
    · have := ihsub h
      simp only [child, List.length_append, List.length_cons] at this
      omega
    · exact ih h

end Forest

/-- The tree at a path: its entries if it is a directory, and none otherwise. -/
def At (fs : Path → Option Inode) (path : Path) (f : Forest) : Prop :=
  (∃ es, fs path = some (.dir es) ∧ Holds fs path es f) ∨
    (f = .nil ∧ ∀ es, fs path ≠ some (.dir es))

/-- What should be printed: the path if its last component is the name, and the full path of every
entry with the name. -/
def expected (target : List UInt8) (path : Path) (f : Forest) : List Line :=
  (if (components path).getLast? = some target then [.path path] else []) ++
    (f.named target path).map .path

/-- A whole run of `find`: it prints what it reaches with the free descriptors, if the stack holds
a call for each level that it reaches and one for the path itself. -/
theorem find_runs (target : List UInt8) (h : At fs path f) (hlen : path.length < maxPath) {k : ℕ}
    (hk : (free ofile).card = k + 1) (frames : ℕ) :
    Runs (fun n => find fs target n frames path ⟨ofile, [], []⟩)
      (min f.height (k + 1) + 1 ≤ frames) ofile
      (own target path ++ (f.reached target k path).map .path) := by
  obtain ⟨es, hfs, hholds⟩ | ⟨rfl, hfs⟩ := h
  · obtain ⟨hcard, -⟩ | ⟨fd, hfree, hcard, hfind⟩ :=
      find_dir target hfs hlen ⟨ofile, [], []⟩
    · exact absurd (hk.symm.trans hcard) (by omega)
    · have hback : update ofile fd none = ofile := by
        rw [← hfree]
        exact update_eq_self ..
      have hcard' : (free (update ofile fd (some ⟨.dir es, 0⟩))).card = k :=
        Nat.succ_injective (hcard.trans hk)
      refine Runs.call frames hfind fun k' => ?_
      have hloop := hholds.prints target k'
        ⟨update ofile fd (some ⟨.dir es, 0⟩), own target path, []⟩ fd
        (update_self ..) (List.drop_zero ..)
      rwa [update_idem, hback, hcard'] at hloop
  · have hrun := find_other target hfs ⟨ofile, [], []⟩ frames
    simpa [Forest.reached, Forest.height] using hrun

theorem perm_expected_iff {k : ℕ} :
    (own target path ++ (f.reached target k path).map Line.path).Perm (expected target path f) ↔
      (fmtname path = target ↔ (components path).getLast? = some target) ∧
        ∀ d ∈ f.depths target 1, d ≤ 1 + k := by
  have hsub := Forest.reached_sublist target f k path
  have hnamed : Line.path path ∉ (f.named target path).map Line.path := by
    intro h
    obtain ⟨p, hp, heq⟩ := List.mem_map.mp h
    obtain rfl := Line.path.inj heq
    exact lt_irrefl _ (Forest.length_lt_of_mem_named hp)
  have hreached : Line.path path ∉ (f.reached target k path).map Line.path :=
    fun h => hnamed ((hsub.map Line.path).mem h)
  rw [← Forest.length_reached_eq_iff f k 1 path, own, expected]
  constructor
  · intro h
    have hcount := h.count_eq (Line.path path)
    rw [List.count_append, List.count_append, List.count_eq_zero_of_not_mem hnamed,
      List.count_eq_zero_of_not_mem hreached] at hcount
    have hflag : fmtname path = target ↔ (components path).getLast? = some target := by
      split at hcount <;> split at hcount <;> simp_all
    refine ⟨hflag, ?_⟩
    simp only [hflag] at h
    simpa using ((List.perm_append_left_iff _).mp h).length_eq
  · rintro ⟨hflag, hlen⟩
    simp only [hflag, hsub.eq_of_length hlen]
    exact List.Perm.refl _

/-- `find` returns with no descriptor left open, and prints the paths that it should, each once, if
and only if the path ends with its last component, no entry with the name is deeper than 13, and the
stack holds a call for the path and one for each level of the tree, of which 13 are reached at
most. -/
theorem find_reports_iff (fs : Path → Option Inode) (target : List UInt8) (path : Path) (f : Forest)
    (h : At fs path f) (hlen : path.length < maxPath) (ofile : Fin nOFile → Option File)
    (hofile : ∀ fd, ofile fd = none ↔ 3 ≤ fd.val) (frames : ℕ) :
    (∃ N out err, (∀ n ≥ N, find fs target n frames path ⟨ofile, [], []⟩ =
      some (.returns ⟨ofile, out, err⟩)) ∧ out.Perm (expected target path f)) ↔
      (fmtname path = target ↔ (components path).getLast? = some target) ∧
        (∀ d ∈ f.depths target 1, d ≤ 13) ∧ min f.height 13 + 1 ≤ frames := by
  have hfree : free ofile = Finset.univ.filter fun fd : Fin nOFile => 3 ≤ fd.val := by
    simp only [free, hofile]
  have hcard : (free ofile).card = 12 + 1 := by
    rw [hfree]
    decide
  obtain ⟨N, hok, hkilled⟩ := find_runs target h hlen hcard frames
  rw [← and_assoc, ← perm_expected_iff (k := 12)]
  constructor
  · rintro ⟨N', out, err', hrun', hperm⟩
    by_cases hroom : min f.height 13 + 1 ≤ frames
    · obtain ⟨err, hrun⟩ := hok hroom
      have heq := (hrun (max N N') (le_max_left ..)).symm.trans (hrun' _ (le_max_right ..))
      rw [Option.some_inj, End.returns.injEq, State.mk.injEq] at heq
      exact ⟨by rwa [heq.2.1], hroom⟩
    · obtain ⟨s, hrun⟩ := hkilled hroom
      have heq := (hrun (max N N') (le_max_left ..)).symm.trans (hrun' _ (le_max_right ..))
      exact absurd (Option.some_inj.mp heq) (by simp)
  · rintro ⟨hperm, hroom⟩
    obtain ⟨err, hrun⟩ := hok hroom
    exact ⟨N, _, err, hrun, hperm⟩

/-! ### Paths of a file system -/

/-- The inodes of a file system, and the root and the current directory. -/
structure Graph where
  inode : ℕ → Inode
  root : ℕ
  cwd : ℕ

namespace Graph

def lookup (g : Graph) (i : ℕ) (name : List UInt8) : Option ℕ :=
  match g.inode i with
  | .dir entries => (entries.find? fun de => de.inum ≠ 0 ∧ de.name = name).map Dirent.inum
  | .other => none

/-- `namei`: the inode that the elements of a path lead to. -/
def resolve (g : Graph) (path : Path) : Option ℕ :=
  (Fs.elements path.length path).foldlM g.lookup
    (if path.head? = some slash then g.root else g.cwd)

def files (g : Graph) (path : Path) : Option Inode := (g.resolve path).map g.inode

/-- The entries of directory `i` are those of the tree. Each of them is what is found under its
name, and each full path is shorter than `MAXPATH`. -/
inductive Unfolds (g : Graph) : Path → (i : ℕ) → List Dirent → Forest → Prop where
  | nil {path : Path} {i : ℕ} : Unfolds g path i [] .nil
  | skip {path : Path} {i : ℕ} {de : Dirent} {es : List Dirent} {f : Forest} : ¬Live de →
      Unfolds g path i es f → Unfolds g path i (de :: es) f
  | file {path : Path} {i : ℕ} {de : Dirent} {es : List Dirent} {rest : Forest} : Live de →
      de.name ≠ [] → de.name.length ≤ dirSiz → slash ∉ de.name →
      g.lookup i de.name = some de.inum → (child path de.name).length < maxPath →
      g.inode de.inum = .other →
      Unfolds g path i es rest → Unfolds g path i (de :: es) (.file de.name rest)
  | dir {path : Path} {i : ℕ} {de : Dirent} {es es' : List Dirent} {sub rest : Forest} : Live de →
      de.name ≠ [] → de.name.length ≤ dirSiz → slash ∉ de.name →
      g.lookup i de.name = some de.inum → (child path de.name).length < maxPath →
      g.inode de.inum = .dir es' → Unfolds g (child path de.name) de.inum es' sub →
      Unfolds g path i es rest → Unfolds g path i (de :: es) (.dir de.name sub rest)

theorem components_child (hne : name ≠ []) (hslash : slash ∉ name) :
    components (child path name) = components path ++ [name] := by
  rw [components, child, List.splitOn_append_cons_self, List.splitOn_eq_singleton hslash,
    List.filter_append, List.filter_cons_of_pos (by simpa using hne)]
  rfl

theorem resolve_eq (g : Graph) (path : Path) :
    g.resolve path = ((components path).map (List.take dirSiz)).foldlM g.lookup
      (if path.head? = some slash then g.root else g.cwd) := by
  rw [resolve, Fs.elements_eq path le_rfl]

theorem resolve_child {g : Graph} {i : ℕ} (hpath : path ≠ []) (hne : name ≠ [])
    (hlen : name.length ≤ dirSiz) (hslash : slash ∉ name) (h : g.resolve path = some i) :
    g.resolve (child path name) = g.lookup i name := by
  have hhead : (child path name).head? = path.head? := by
    obtain ⟨c, tail, rfl⟩ := List.exists_cons_of_ne_nil hpath
    rfl
  rw [resolve_eq] at h ⊢
  rw [components_child hne hslash, List.map_append, hhead, List.foldlM_append, h]
  simp [List.take_of_length_le hlen]

theorem Unfolds.holds {g : Graph} {i : ℕ} {es : List Dirent} (h : Unfolds g path i es f)
    (hpath : path ≠ []) (hi : g.resolve path = some i) : Holds g.files path es f := by
  induction h with
  | nil => exact .nil
  | skip hdead _ ih => exact .skip hdead (ih hpath hi)
  | @file path i de es rest hlive hne hlen hslash hlookup hmax hother _ ih =>
    refine .file hlive hslash hmax (fun es' => ?_) (ih hpath hi)
    rw [files, resolve_child hpath hne hlen hslash hi, hlookup]
    simp [hother]
  | @dir path i de es es' sub rest hlive hne hlen hslash hlookup hmax hdir _ _ ihsub ih =>
    have hchild : g.resolve (child path de.name) = some de.inum :=
      (resolve_child hpath hne hlen hslash hi).trans hlookup
    refine .dir hlive hslash hmax ?_ (ihsub (by simp [child]) hchild) (ih hpath hi)
    rw [files, hchild, Option.map_some, hdir]

end Graph

/-! ### A chain of directories -/

/-- Directories `a/a/…` down to depth `m`, the last of which has the entry `b`. -/
def chain (m : ℕ) (path : Path) : Option Inode :=
  if path.length < 2 * m + 1 then some (.dir [⟨1, [97]⟩])
  else if path.length = 2 * m + 1 then some (.dir [⟨1, [98]⟩])
  else some .other

/-- The tree below a directory of the chain, `n` levels above the last. -/
def chainForest : ℕ → Forest
  | 0 => .file [98] .nil
  | n + 1 => .dir [97] (chainForest n) .nil

theorem length_child (path : Path) (c : UInt8) : (child path [c]).length = path.length + 2 := by
  simp [child]

theorem chain_holds {m n : ℕ} (hm : m ≤ 62) {path : Path}
    (hpath : path.length + 2 * n = 2 * m + 1) :
    ∃ es, chain m path = some (.dir es) ∧ Holds (chain m) path es (chainForest n) := by
  induction n generalizing path with
  | zero =>
    have hshort : (child path [98]).length < maxPath := by
      rw [length_child, maxPath]
      omega
    have hleaf (es : List Dirent) : chain m (child path [98]) ≠ some (.dir es) := by
      rw [chain, length_child, if_neg (by omega), if_neg (by omega)]
      simp
    refine ⟨[⟨1, [98]⟩], by rw [chain, if_neg (by omega), if_pos (by omega)], ?_⟩
    exact @Holds.file _ _ ⟨1, [98]⟩ _ _ (by simp [Live, dot, dotdot]) (by decide) hshort hleaf .nil
  | succ n ih =>
    have hshort : (child path [97]).length < maxPath := by
      rw [length_child, maxPath]
      omega
    have hnext : (child path [97]).length + 2 * n = 2 * m + 1 := by
      rw [length_child]
      omega
    obtain ⟨es, hfs, hholds⟩ := ih hnext
    refine ⟨[⟨1, [97]⟩], by rw [chain, if_pos (by omega)], ?_⟩
    exact @Holds.dir _ _ ⟨1, [97]⟩ _ _ _ _ (by simp [Live, dot, dotdot]) (by decide) hshort hfs
      hholds .nil

def consoleFiles (fd : Fin nOFile) : Option File := if fd.val < 3 then some ⟨.other, 0⟩ else none

/-- The stack is one page and each call keeps a buffer on it, so that at most this many calls
fit. -/
def stackCalls : ℕ := (userStack * 4096 - 1) / bufSize

theorem find_reports_shallow :
    ∃ N out err, (∀ n ≥ N, find (chain 1) [98] n stackCalls [97] ⟨consoleFiles, [], []⟩ =
      some (.returns ⟨consoleFiles, out, err⟩)) ∧
      out.Perm (expected [98] [97] (chainForest 1)) :=
  (find_reports_iff (chain 1) [98] [97] (chainForest 1)
    (.inl (chain_holds (by decide) (by decide))) (by decide) consoleFiles (by decide)
    stackCalls).mpr (by decide)

/-- On the way to an entry at depth 7 the process is killed: no path is printed. -/
theorem find_misses_deep_entry :
    At (chain 6) [97] (chainForest 6) ∧
    (∃ s, find (chain 6) [98] 40 stackCalls [97] ⟨consoleFiles, [], []⟩ = some (.killed s) ∧
      s.out = []) ∧
    (expected [98] [97] (chainForest 6)).length = 1 := by
  refine ⟨.inl (chain_holds (by decide) (by decide)), ?_, ?_⟩
  · have hrun : (find (chain 6) [98] 40 stackCalls [97] ⟨consoleFiles, [], []⟩).any
        (fun e => match e with
          | .returns _ => false
          | .killed s => s.out == []) = true := by decide +kernel
    obtain ⟨e, hfind, he⟩ := (Option.any_eq_true _ _).mp hrun
    cases e with
    | returns s => exact absurd he (by simp)
    | killed s => exact ⟨s, hfind, by simpa using he⟩
  · decide +kernel

end Xv6.Find
