import Mathlib.Data.List.Infix
import Mathlib.Data.List.TakeWhile
import MPIre.Library.Files
import MPIre.Mkpath
import MPIre.RecordNames
/-
# The log on disk

A log is a directory of the file system with a file `nprocs` and one file for each record. Both
libraries name these files by `snprintf` from the path of the directory.

| here | there |
| --- | --- |
| `printInt`, `scanInt`  | `%d` of `fprintf`, of `fscanf` |
| `Disk.locate`          | how `fopen` and `MPI_File_open` find or make the file of a name |
| `Disk.prepare`         | the `stat` and `mkpath` of `init_MPIre` (capture:93-97) |
| `entryName`, `fileName` | `nprocs` and the numbers; their paths |
| `Disk.log`             | the log in the directory of a path |

`Disk.Ready` is a disk on which the path leads to a directory whose log files can be opened.
There a name that is not cut finds its own file (`locate_fileName`), and a file that is written
changes the log in its own entry (`log_put_record`, `log_put_nprocs`).
-/
namespace MPIre
open FileTree Gather

/-! ## The text of a number -/

def ascii (cs : List Char) : List Byte := cs.map Char.toUInt8

def chars (bs : List Byte) : List Char := bs.map Char.ofUInt8

def printInt (n : Int) : List Char :=
  if n < 0 then '-' :: decimal n.natAbs else decimal n.natAbs

def isSpace (c : Char) : Bool := c = ' ' ∨ '\t' ≤ c ∧ c ≤ '\r'

def scanNat (cs : List Char) : Option Nat :=
  if cs.takeWhile Char.isDigit = [] then none
  else some (Nat.ofDigitChars 10 (cs.takeWhile Char.isDigit) 0)

/-- `none`: nothing is stored. A number beyond an `int` is kept as it is. -/
def scanInt (cs : List Char) : Option Int :=
  match cs.dropWhile isSpace with
  | '-' :: ds => (scanNat ds).map fun n => -(n : Int)
  | '+' :: ds => (scanNat ds).map fun n => (n : Int)
  | ds => (scanNat ds).map fun n => (n : Int)

theorem isDigit_of_mem_decimal {i : Nat} {c : Char} (h : c ∈ decimal i) : c.isDigit = true :=
  Nat.isDigit_of_mem_toDigits (by decide) (by decide) h

theorem decimal_ne_nil (i : Nat) : decimal i ≠ [] := Nat.toDigits_ne_nil

theorem digit_bounds {c : Char} (h : c.isDigit = true) : 48 ≤ c.toNat ∧ c.toNat ≤ 57 := by
  simpa [Char.isDigit, UInt32.le_iff_toNat_le] using h

theorem isSpace_of_isDigit {c : Char} (h : c.isDigit = true) : isSpace c = false := by
  have hlow := (digit_bounds h).1
  unfold isSpace
  refine decide_eq_false ?_
  rintro (rfl | ⟨-, hle⟩)
  · exact absurd hlow (by decide)
  · have hle' : c.toNat ≤ 13 := hle
    omega

theorem ofUInt8_toUInt8 {c : Char} (h : c.toNat < 256) : Char.ofUInt8 c.toUInt8 = c := by
  refine Char.ext (UInt32.toNat_inj.1 ?_)
  show (c.val.toUInt8.toUInt32).toNat = c.val.toNat
  rw [UInt8.toNat_toUInt32, UInt32.toNat_toUInt8]
  exact Nat.mod_eq_of_lt h

theorem chars_ascii {cs : List Char} (h : ∀ c ∈ cs, c.toNat < 256) : chars (ascii cs) = cs := by
  unfold chars ascii
  rw [List.map_map]
  exact (List.map_congr_left fun c hc => ofUInt8_toUInt8 (h c hc)).trans (List.map_id cs)

theorem printInt_ascii {n : Int} {c : Char} (h : c ∈ printInt n) : c.toNat < 256 := by
  have hdigit : ∀ c ∈ decimal n.natAbs, c.toNat < 256 := fun c hc => by
    have hle := (digit_bounds (isDigit_of_mem_decimal hc)).2
    omega
  unfold printInt at h
  split at h
  · rcases List.mem_cons.1 h with rfl | h
    · decide
    · exact hdigit c h
  · exact hdigit c h

theorem scanNat_decimal (i : Nat) : scanNat (decimal i) = some i := by
  have hall : (decimal i).takeWhile Char.isDigit = decimal i :=
    List.takeWhile_eq_self_iff.2 fun c hc => isDigit_of_mem_decimal hc
  unfold scanNat
  rw [hall, if_neg (decimal_ne_nil i)]
  exact congrArg some Nat.ofDigitChars_ten_toDigits

theorem scanInt_decimal (i : Nat) : scanInt (decimal i) = some (i : Int) := by
  obtain ⟨c, cs, hcs⟩ := List.exists_cons_of_ne_nil (decimal_ne_nil i)
  have hc : c.isDigit = true := isDigit_of_mem_decimal (i := i) (by simp [hcs])
  have hdrop : (decimal i).dropWhile isSpace = c :: cs := by
    rw [hcs, List.dropWhile_cons_of_neg (by simp [isSpace_of_isDigit hc])]
  have hlow := (digit_bounds hc).1
  unfold scanInt
  rw [hdrop]
  split
  · next h =>
    cases h
    exact absurd hlow (by decide)
  · next h =>
    cases h
    exact absurd hlow (by decide)
  · rw [← hcs, scanNat_decimal]
    rfl

/-- A number that was printed is scanned. -/
theorem scanInt_printInt (n : Int) : scanInt (printInt n) = some n := by
  unfold printInt
  split
  · next h =>
    have hdrop : ('-' :: decimal n.natAbs).dropWhile isSpace = '-' :: decimal n.natAbs := by
      rw [List.dropWhile_cons_of_neg (by decide)]
    unfold scanInt
    rw [hdrop]
    simp only [scanNat_decimal]
    show some (-(n.natAbs : Int)) = some n
    exact congrArg some (by omega)
  · next h =>
    rw [scanInt_decimal]
    exact congrArg some (by omega)

/-! ## The names of a log -/

/-- `nprocs`, or the number of a record. -/
def entryName : Option Nat → Path
  | none => "nprocs".toList
  | some i => decimal i

def fileName (path : Path) (e : Option Nat) : Path := snprintf 1024 (path ++ '/' :: entryName e)

/-- The name is not cut. -/
def Path.Fits (p : Path) (e : Option Nat) : Prop := p.length + 1 + (entryName e).length ≤ 1023

instance (p : Path) (e : Option Nat) : Decidable (p.Fits e) :=
  inferInstanceAs (Decidable (p.length + 1 + (entryName e).length ≤ 1023))

theorem fileName_nprocs (path : Path) : nprocsName path = fileName path none := rfl

theorem fileName_eq {p : Path} {e : Option Nat} (h : p.Fits e) :
    fileName p e = p ++ '/' :: entryName e := by
  refine snprintf_eq ?_
  unfold Path.Fits at h
  rw [List.length_append, List.length_cons]
  omega

theorem entryName_ne_nil : ∀ e, entryName e ≠ []
  | none => by decide
  | some i => decimal_ne_nil i

theorem notMem_decimal {c : Char} (h : c.isDigit = false) (i : Nat) : c ∉ decimal i := by
  intro hm
  rw [isDigit_of_mem_decimal hm] at h
  cases h

theorem slash_notMem_entryName : ∀ e, '/' ∉ entryName e
  | none => by decide
  | some i => notMem_decimal rfl i

theorem dot_notMem_entryName : ∀ e, '.' ∉ entryName e
  | none => by decide
  | some i => notMem_decimal rfl i

theorem entryName_injective : Function.Injective entryName := by
  have hne : ∀ i, decimal i ≠ "nprocs".toList := fun i h => by
    have hmem : 'n' ∈ decimal i := by
      rw [h]
      decide
    exact notMem_decimal rfl i hmem
  rintro (_ | i) (_ | j) h
  · rfl
  · exact absurd h.symm (hne j)
  · exact absurd h (hne i)
  · exact congrArg some (decimal_injective h)

theorem components_name {q : Path} (hs : '/' ∉ q) (hd : '.' ∉ q) (hne : q ≠ []) :
    components q = [.down q] := by
  have hhop : toHop q = .down q := by
    unfold toHop
    split
    · exact absurd (List.mem_singleton.2 rfl) hd
    · exact absurd List.mem_cons_self hd
    · rfl
  rw [← hhop]
  unfold components
  rw [List.splitOn_eq_singleton hs]
  simp [hne]

theorem components_entryName (e : Option Nat) : components (entryName e) = [.down (entryName e)] :=
  components_name (slash_notMem_entryName e) (dot_notMem_entryName e) (entryName_ne_nil e)

theorem components_nil : components [] = [] := by decide

/-- No number of an `int` has more than ten digits. -/
theorem Path.fits_of_short {p : Path} (hp : p.length ≤ 1012) :
    ∀ e : Option Nat, (∀ i ∈ e, i < 2 ^ 31) → p.Fits e
  | none, _ => by
    have hlen : (entryName none).length = 6 := rfl
    unfold Path.Fits
    omega
  | some i, hi => by
    have hlen : (entryName (some i)).length ≤ 10 :=
      (Nat.length_toDigits_le_iff (by decide) (by decide)).2 (by have := hi i rfl; omega)
    unfold Path.Fits
    omega

/-- What is left of a name after a path that the capture library holds. -/
theorem fileName_cut {p : Path} (hp : p.length ≤ 127) (e : Option Nat) :
    ∃ ds, ds <+: entryName e ∧ ds ≠ [] ∧ fileName p e = p ++ '/' :: ds := by
  refine ⟨(entryName e).take (1022 - p.length), List.take_prefix _ _, ?_, ?_⟩
  · have hpos := List.length_pos_iff.2 (entryName_ne_nil e)
    refine List.ne_nil_of_length_pos ?_
    rw [List.length_take]
    omega
  · have hlen : 1024 - 1 - p.length = (1022 - p.length) + 1 := by omega
    unfold fileName snprintf
    rw [List.take_append, List.take_of_length_le (by omega), hlen, List.take_succ_cons]

/-! ## Files and their contents -/

/-- The file system of a process, and what is in its files. -/
structure Disk where
  fs : FileSystem
  data : Place Path → List Byte

namespace Disk

def files (d : Disk) : Files Path Byte := ⟨d.fs.tree, d.data⟩

def get (d : Disk) (x : Place Path) : Option (List Byte) := d.files.get x

def put (d : Disk) (x : Place Path) (bs : List Byte) : Disk where
  fs := { d.fs with
    tree := (d.files.put x bs).tree
    cwd_dir := (d.files.put_dirs x bs d.fs.cwd).2 d.fs.cwd_dir }
  data := (d.files.put x bs).data

/-- A name that ends in a slash is not that of a file. -/
def locate (d : Disk) (name : Path) : Option (Place Path) :=
  if name = [] ∨ name.getLast? = some '/' then none
  else d.fs.tree.locate (d.fs.start name) (components name)

/-- What is in the file of a name. -/
def read (d : Disk) (name : Path) : Option (List Byte) := (d.locate name).bind d.get

/-- `if(stat(path, &info) == -1) mkpath(path, 0777);` -/
def prepare (d : Disk) (path : Path) : Option Disk :=
  if d.fs.stat path = none then
    (mkpath FileSystem.mkdir d.fs path).map fun m => { d with fs := m.files }
  else some d

/-- Where the log of a path is. -/
def logPlace (d : Disk) (path : Path) : Place Path := d.fs.place (path ++ ['/'])

def logGet (d : Disk) (path : Path) (e : Option Nat) : Option (List Byte) :=
  d.get (entryName e :: d.logPlace path)

/-- An `nprocs` without a number leaves `MPIre_size` at 0. -/
def log (d : Disk) (path : Path) : Dir where
  nprocs := (d.logGet path none).map fun bs => (scanInt (chars bs)).getD 0
  record i := d.logGet path (some i)

/-- The path leads to a directory, and none of the log's own names is one. -/
structure Ready (d : Disk) (path : Path) : Prop where
  dir : d.fs.IsDir (path ++ ['/'])
  free : ∀ e, d.fs.tree.kind (entryName e :: d.logPlace path) ≠ some .dir

/-- Nothing a process does to files moves a directory. -/
structure SameDirs (d d' : Disk) : Prop where
  cwd : d'.fs.cwd = d.fs.cwd
  dirs : FileTree.SameDirs d.fs.tree d'.fs.tree

variable {d d' : Disk} {path : Path} {x y : Place Path} {bs : List Byte}

theorem put_sameDirs (d : Disk) (x : Place Path) (bs : List Byte) : SameDirs d (d.put x bs) :=
  ⟨rfl, d.files.put_dirs x bs⟩

theorem start_cwd (h : d'.fs.cwd = d.fs.cwd) (path : Path) : d'.fs.start path = d.fs.start path := by
  unfold FileSystem.start
  rw [h]

theorem logPlace_cwd (h : d'.fs.cwd = d.fs.cwd) (path : Path) :
    d'.logPlace path = d.logPlace path := by
  unfold Disk.logPlace FileSystem.place
  rw [start_cwd h]

theorem SameDirs.ready (h : SameDirs d d') (hd : d.Ready path) : d'.Ready path := by
  have hne : path ++ ['/'] ≠ [] := by simp
  refine ⟨(FileSystem.isDir_iff hne).2 fun as has => ?_, fun e he => ?_⟩
  · rw [start_cwd h.cwd]
    exact (h.dirs _).2 ((FileSystem.isDir_iff hne).1 hd.dir as has)
  · rw [logPlace_cwd h.cwd] at he
    exact hd.free e ((h.dirs _).1 he)

theorem get_put (h : d.fs.tree.Open x) : (d.put x bs).get x = some bs :=
  Files.get_put (d := d.files) h

theorem get_put_ne (h : y ≠ x) : (d.put x bs).get y = d.get y :=
  Files.get_put_ne (d := d.files) h

theorem isSome_put (h : d.fs.tree.Open x) :
    ((d.put x bs).get y).isSome ↔ (d.get y).isSome ∨ y = x := by
  by_cases hy : y = x
  · subst hy
    rw [get_put h]
    exact iff_of_true rfl (.inr rfl)
  · rw [get_put_ne hy, or_iff_left hy]

/-! ## The files of a log -/

theorem start_slash (fs : FileSystem) (path rest : Path) :
    fs.start (path ++ '/' :: rest) = fs.start (path ++ ['/']) := by
  unfold FileSystem.start
  cases path <;> rfl

theorem components_dir (path : Path) : components (path ++ ['/']) = components path := by
  rw [components_slash, components_nil, List.append_nil]

theorem logPlace_eq (d : Disk) (path : Path) :
    d.logPlace path = follow (d.fs.start (path ++ ['/'])) (components path) := by
  unfold logPlace FileSystem.place
  rw [components_dir]

/-- A name that is not cut finds its own file. -/
theorem locate_fileName (h : d.fs.IsDir (path ++ ['/'])) {e : Option Nat} (hf : path.Fits e) :
    d.locate (fileName path e) =
      if d.fs.tree.kind (entryName e :: d.logPlace path) = some .dir then none
      else some (entryName e :: d.logPlace path) := by
  have hne : path ++ ['/'] ≠ [] := by simp
  have hname : ¬ (path ++ '/' :: entryName e = [] ∨
      (path ++ '/' :: entryName e).getLast? = some '/') := by
    rintro (hnil | hl)
    · simp at hnil
    · rw [List.append_cons, List.getLast?_append_of_ne_nil _ (entryName_ne_nil e)] at hl
      exact slash_notMem_entryName e (List.mem_of_getLast? hl)
  have hdirs := (FileSystem.isDir_iff hne).1 h
  rw [components_dir] at hdirs
  rw [fileName_eq hf]
  unfold locate Tree.locate
  rw [if_neg hname, start_slash, components_slash, components_entryName, Tree.walk_concat hdirs,
    ← logPlace_eq]
  by_cases hk : d.fs.tree.kind (entryName e :: d.logPlace path) = some .dir
  · rw [if_pos hk, Option.filter_some, if_neg (by simp [hk])]
  · rw [if_neg hk, Option.filter_some, if_pos (by simp [hk])]

theorem Ready.locate_fileName (h : d.Ready path) {e : Option Nat} (hf : path.Fits e) :
    d.locate (fileName path e) = some (entryName e :: d.logPlace path) :=
  (Disk.locate_fileName h.dir hf).trans (if_neg (h.free e))

/-- A reader finds the log. A directory in the place of a file is none to it. -/
theorem read_fileName (h : d.fs.IsDir (path ++ ['/'])) {e : Option Nat} (hf : path.Fits e) :
    d.read (fileName path e) = d.logGet path e := by
  unfold read
  rw [locate_fileName h hf]
  split
  · next hdir =>
    have hnofile : d.fs.tree.kind (entryName e :: d.logPlace path) ≠ some .file := by
      rw [hdir]
      exact fun hk => by cases hk
    exact (if_neg hnofile).symm
  · rfl

theorem Ready.open (h : d.Ready path) (e : Option Nat) :
    d.fs.tree.Open (entryName e :: d.logPlace path) := by
  have hne : path ++ ['/'] ≠ [] := by simp
  refine ⟨?_, h.free e⟩
  exact (FileSystem.isDir_iff hne).1 h.dir _ List.prefix_rfl

theorem components_fileName (hp : path.length ≤ 127) (e : Option Nat) :
    ∃ ds, components ds = [.down ds] ∧ fileName path e = path ++ '/' :: ds := by
  obtain ⟨ds, hpre, hne, hname⟩ := fileName_cut hp e
  refine ⟨ds, components_name (fun hm => ?_) (fun hm => ?_) hne, hname⟩
  · exact slash_notMem_entryName e (hpre.subset hm)
  · exact dot_notMem_entryName e (hpre.subset hm)

/-- Even a name that is cut is that of a file in the directory. -/
theorem locate_tail (hp : path.length ≤ 127) {e : Option Nat}
    (h : d.locate (fileName path e) = some x) : x.tail = d.logPlace path := by
  obtain ⟨ds, hds, hname⟩ := components_fileName hp e
  unfold locate at h
  split at h
  · cases h
  · rw [hname, start_slash, components_slash, hds] at h
    obtain ⟨hwalk, -⟩ := Option.filter_eq_some_iff.1 h
    obtain ⟨rfl, -⟩ := Tree.walk_eq_some_iff.1 hwalk
    rw [follow_concat, logPlace_eq]
    rfl

/-- A log file that is written, and any log file after it. -/
theorem Ready.logGet_put (h : d.Ready path) (e e' : Option Nat) (bs : List Byte) :
    (d.put (entryName e :: d.logPlace path) bs).logGet path e' =
      if e' = e then some bs else d.logGet path e' := by
  unfold logGet
  rw [logPlace_cwd (d.put_sameDirs _ bs).cwd]
  by_cases he : e' = e
  · subst he
    rw [if_pos rfl, get_put (h.open e')]
  · rw [if_neg he, get_put_ne fun hx => he (entryName_injective (List.cons.inj hx).1)]

theorem Ready.log_put_record (h : d.Ready path) (i : Nat) (new : List Byte) :
    (d.put (entryName (some i) :: d.logPlace path)
      (Journal.overwrite ((d.logGet path (some i)).getD []) new)).log path =
      { d.log path with record := Journal.write (d.log path).record i new } := by
  unfold log
  rw [h.logGet_put, if_neg (Option.some_ne_none i).symm]
  congr 1
  funext j
  rw [h.logGet_put]
  by_cases hj : j = i
  · subst hj
    rw [if_pos rfl, Journal.write_self]
  · rw [if_neg fun he => hj (Option.some.inj he), Journal.write_ne hj]

theorem Ready.log_put_nprocs (h : d.Ready path) (n : Int) :
    (d.put (entryName none :: d.logPlace path) (ascii (printInt n))).log path =
      { d.log path with nprocs := some n } := by
  have hrecord : ∀ i, (d.put (entryName none :: d.logPlace path) (ascii (printInt n))).logGet path
      (some i) = d.logGet path (some i) := fun i => by
    rw [h.logGet_put, if_neg (Option.some_ne_none i)]
  have hscan : scanInt (chars (ascii (printInt n))) = some n := by
    rw [chars_ascii fun c => printInt_ascii, scanInt_printInt]
  unfold log
  rw [funext hrecord, h.logGet_put, if_pos rfl, Option.map_some, hscan]
  rfl

/-! ## Making the directory -/

/-- The same current directory and the same files. -/
structure SameFiles (fs fs' : FileSystem) : Prop where
  cwd : fs'.cwd = fs.cwd
  file : ∀ x, fs'.tree.kind x = some .file ↔ fs.tree.kind x = some .file

theorem mkdir_sameFiles (fs : FileSystem) (q : Path) : SameFiles fs (fs.mkdir q).1 := by
  unfold FileSystem.mkdir
  split
  · exact ⟨rfl, fun _ => Iff.rfl⟩
  · exact ⟨rfl, fun _ => Tree.mkdir_file⟩

theorem mkdirs_sameFiles (qs : List Path) (fs : FileSystem) :
    SameFiles fs (mkdirs FileSystem.mkdir fs qs).1 := by
  induction qs generalizing fs with
  | nil => exact ⟨rfl, fun _ => Iff.rfl⟩
  | cons q qs ih =>
    have hone := mkdir_sameFiles fs q
    by_cases he : (fs.mkdir q).2 = .error
    · rw [mkdirs_cons_of_error he]
      exact hone
    · rw [mkdirs_cons_of_ne he]
      have hrest := ih (fs.mkdir q).1
      exact ⟨hrest.cwd.trans hone.cwd, fun x => (hrest.file x).trans (hone.file x)⟩

theorem SameFiles.place {fs fs' : FileSystem} (h : SameFiles fs fs') (q : Path) :
    fs'.place q = fs.place q := by
  unfold FileSystem.place FileSystem.start
  rw [h.cwd]

/-- What the directory costs. -/
theorem prepare_cases (h : d.prepare path = some d') :
    d' = d ∨ d' = { d with
      fs := (mkdirs FileSystem.mkdir d.fs (prefixes [] (cString path))).1 } := by
  unfold prepare at h
  split at h
  · obtain ⟨m, hm, rfl⟩ := Option.map_eq_some_iff.1 h
    have hne : cString path ≠ [] := fun he => by
      unfold mkpath at hm
      rw [if_pos he] at hm
      cases hm
    rw [mkpath_eq d.fs hne] at hm
    cases hm
    exact .inr rfl
  · cases h
    exact .inl rfl

/-- Making the directory leaves all files alone. -/
theorem prepare_sameFiles (h : d.prepare path = some d') : SameFiles d.fs d'.fs := by
  rcases prepare_cases h with rfl | rfl
  · exact ⟨rfl, fun _ => Iff.rfl⟩
  · exact mkdirs_sameFiles (prefixes [] (cString path)) d.fs

theorem prepare_get (h : d.prepare path = some d') (x : Place Path) : d'.get x = d.get x := by
  have hdata : d'.data = d.data := by rcases prepare_cases h with rfl | rfl <;> rfl
  exact if_congr ((prepare_sameFiles h).file x) (by rw [files, files, hdata]) rfl

theorem mkdir_new {fs : FileSystem} {q : Path} (h : (fs.mkdir q).1.tree.kind x = some .dir) :
    fs.tree.kind x = some .dir ∨ x = fs.place q := by
  unfold FileSystem.mkdir at h
  split at h
  · exact .inl h
  · exact Tree.mkdir_new h

theorem mkdirs_new {qs : List Path} {fs : FileSystem}
    (h : (mkdirs FileSystem.mkdir fs qs).1.tree.kind x = some .dir) :
    fs.tree.kind x = some .dir ∨ ∃ q ∈ qs, x = fs.place q := by
  induction qs generalizing fs with
  | nil => exact .inl h
  | cons q qs ih =>
    have hone : (fs.mkdir q).1.tree.kind x = some .dir →
        fs.tree.kind x = some .dir ∨ ∃ p ∈ q :: qs, x = fs.place p := fun h =>
      (mkdir_new h).imp_right fun hx => ⟨q, List.mem_cons_self, hx⟩
    by_cases he : (fs.mkdir q).2 = .error
    · rw [mkdirs_cons_of_error he] at h
      exact hone h
    · rw [mkdirs_cons_of_ne he] at h
      rcases ih h with hx | ⟨p, hp, hx⟩
      · exact hone hx
      · refine .inr ⟨p, List.mem_cons_of_mem q hp, ?_⟩
        rw [hx, (mkdir_sameFiles fs q).place]

theorem mkdirs_dir {qs : List Path} {fs : FileSystem} (h : fs.tree.kind x = some .dir) :
    (mkdirs FileSystem.mkdir fs qs).1.tree.kind x = some .dir := by
  have hone : ∀ {fs : FileSystem} (q : Path), fs.tree.kind x = some .dir →
      (fs.mkdir q).1.tree.kind x = some .dir := fun {fs} q h => by
    unfold FileSystem.mkdir
    split
    · exact h
    · exact Tree.mkdir_dir h
  induction qs generalizing fs with
  | nil => exact h
  | cons q qs ih =>
    by_cases he : (fs.mkdir q).2 = .error
    · rw [mkdirs_cons_of_error he]
      exact hone q h
    · rw [mkdirs_cons_of_ne he]
      exact ih (hone q h)

/-- A directory that the path leads to is not in `x`, nor one it leads through. -/
def Clear (d : Disk) (path : Path) (x : Place Path) : Prop :=
  ∀ as ∈ (components path).inits, as ≠ [] → (follow (d.fs.start path) as).tail ≠ x

instance (d : Disk) (path : Path) (x : Place Path) : Decidable (d.Clear path x) :=
  inferInstanceAs (Decidable (∀ as ∈ _, _))

/-- Only directories on the way of the path are made. -/
theorem prepare_new (h : d.prepare path = some d') (hx : d'.fs.tree.kind x = some .dir) :
    d.fs.tree.kind x = some .dir ∨
      ∃ as ∈ (components path).inits, as ≠ [] ∧ x = follow (d.fs.start path) as := by
  rcases prepare_cases h with rfl | hd
  · exact .inl hx
  · rw [hd] at hx
    rcases mkdirs_new hx with hx | ⟨q, hq, rfl⟩
    · exact .inl hx
    · obtain ⟨hne, r, hr⟩ := mem_prefixes_nil.1 hq
      obtain ⟨rest, hrest⟩ : cString path <+: path := List.takeWhile_prefix _
      have hpath : path = q ++ '/' :: (r ++ rest) := by
        rw [← hrest, hr]
        simp
      by_cases hnil : components q = []
      · refine .inl ?_
        unfold FileSystem.place
        rw [hnil]
        exact d.fs.start_dir q
      · have hpre : components q <+: components path := by
          rw [hpath, components_slash]
          exact List.prefix_append _ _
        have hstart : d.fs.start path = d.fs.start q := by
          rw [hpath, FileSystem.start_append _ hne]
        exact .inr ⟨components q, (List.mem_inits _ _).2 hpre, hnil, by rw [hstart]; rfl⟩

/-- An empty path is refused. -/
theorem prepare_ne_nil (h : d.prepare path = some d') : path ≠ [] := by
  rintro rfl
  cases h

/-- It is not made twice. -/
theorem Ready.prepare (h : d.Ready path) (hne : path ≠ []) : d.prepare path = some d := by
  have hdir : d.fs.IsDir path := by
    have hne' : path ++ ['/'] ≠ [] := by simp
    refine (FileSystem.isDir_iff hne).2 fun as has => ?_
    have hd := (FileSystem.isDir_iff hne').1 h.dir as (by rwa [components_dir])
    rwa [FileSystem.start_append d.fs hne] at hd
  unfold Disk.prepare
  rw [show d.fs.stat path = some .dir from hdir, if_neg (Option.some_ne_none _)]

/-! ## Other processes -/

/-- What is in the directory `x` is left alone, and every route still leads where it did. -/
structure Spares (x : Place Path) (d d' : Disk) : Prop where
  cwd : d'.fs.cwd = d.fs.cwd
  dirs : ∀ y, d.fs.tree.kind y = some .dir → d'.fs.tree.kind y = some .dir
  files : ∀ y, y.tail = x → d'.get y = d.get y
  free : ∀ y, y.tail = x → d'.fs.tree.kind y = some .dir → d.fs.tree.kind y = some .dir

theorem Spares.refl (x : Place Path) (d : Disk) : Spares x d d :=
  ⟨rfl, fun _ h => h, fun _ _ => rfl, fun _ _ h => h⟩

theorem Spares.trans {d'' : Disk} (h : Spares x d d') (h' : Spares x d' d'') : Spares x d d'' where
  cwd := h'.cwd.trans h.cwd
  dirs y hy := h'.dirs y (h.dirs y hy)
  files y hy := (h'.files y hy).trans (h.files y hy)
  free y hy hd := h.free y hy (h'.free y hy hd)

theorem Clear.cwd (h : d'.fs.cwd = d.fs.cwd) (hc : d.Clear path x) : d'.Clear path x := by
  unfold Clear
  rw [start_cwd h]
  exact hc

theorem put_spares (h : y.tail ≠ x) (bs : List Byte) : Spares x d (d.put y bs) where
  cwd := rfl
  dirs z hz := ((d.put_sameDirs y bs).dirs z).2 hz
  files z hz := get_put_ne fun he => h (by rw [← he, hz])
  free z _ hd := ((d.put_sameDirs y bs).dirs z).1 hd

theorem prepare_spares (h : d.prepare path = some d') (hc : d.Clear path x) : Spares x d d' where
  cwd := (prepare_sameFiles h).cwd
  dirs y hy := by
    rcases prepare_cases h with rfl | rfl
    · exact hy
    · exact mkdirs_dir hy
  files y _ := prepare_get h y
  free y hy hd := by
    rcases prepare_new h hd with hd | ⟨as, has, hne, rfl⟩
    · exact hd
    · exact absurd hy (hc as has hne)

theorem Spares.log (h : Spares (d.logPlace path) d d') : d'.log path = d.log path := by
  have hget : ∀ e, d'.logGet path e = d.logGet path e := fun e => by
    unfold logGet
    rw [logPlace_cwd h.cwd]
    exact h.files _ rfl
  unfold Disk.log
  rw [hget, funext fun i => hget (some i)]

theorem Spares.ready (h : Spares (d.logPlace path) d d') (hd : d.Ready path) :
    d'.Ready path := by
  have hne : path ++ ['/'] ≠ [] := by simp
  refine ⟨(FileSystem.isDir_iff hne).2 fun as has => ?_, fun e he => ?_⟩
  · rw [start_cwd h.cwd]
    exact h.dirs _ ((FileSystem.isDir_iff hne).1 hd.dir as has)
  · rw [logPlace_cwd h.cwd] at he
    exact hd.free e (h.free _ rfl he)

/-- A name in the directory is only found if there is the directory. -/
theorem isDir_of_locate (hp : path.length ≤ 127) {e : Option Nat}
    (h : d.locate (fileName path e) = some x) : d.fs.IsDir (path ++ ['/']) := by
  obtain ⟨ds, hds, hname⟩ := components_fileName hp e
  have hne : path ++ ['/'] ≠ [] := by simp
  unfold locate at h
  split at h
  · cases h
  · rw [hname, start_slash, components_slash, hds] at h
    obtain ⟨hwalk, -⟩ := Option.filter_eq_some_iff.1 h
    obtain ⟨-, hdirs⟩ := Tree.walk_eq_some_iff.1 hwalk
    refine (FileSystem.isDir_iff hne).2 fun as has => hdirs as ?_ ?_
    · rw [components_dir] at has
      exact has.trans (List.prefix_append _ _)
    · rintro rfl
      have hlen := has.length_le
      rw [components_dir, List.length_append, List.length_singleton] at hlen
      omega

/-- On a disk with the directory made and no directory in it, the log can be written. -/
theorem prepare_ready (h : d.prepare path = some d') (hc : d.Clear path (d.logPlace path))
    (hfree : ∀ e, d.fs.tree.kind (entryName e :: d.logPlace path) ≠ some .dir)
    (hdir : d'.fs.IsDir (path ++ ['/'])) : d'.Ready path := by
  have hs := prepare_spares h hc
  refine ⟨hdir, fun e he => hfree e (hs.free _ rfl ?_)⟩
  rwa [logPlace_cwd hs.cwd] at he

/-- No files, and no directory but the current one. -/
def bare : Disk := ⟨.bare, fun _ => []⟩

theorem bare_free (e : Option Nat) (pl : Place Path) :
    bare.fs.tree.kind (entryName e :: pl) ≠ some .dir := by
  simp [bare, FileSystem.bare]

end Disk

end MPIre
