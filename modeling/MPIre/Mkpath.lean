import MPIre.Host
import MPIre.Library.FileTree
/-
# `mkpath`

| here | there |
| --- | --- |
| `cString`, `strchr`    | the string at the start of a buffer; `strchr` of `<string.h>` |
| `mkpathLoop`, `mkpath` | `mkpath` (capture:18-30); `mkdir`, its mode included, is a parameter |
| `components`           | how a path is taken apart: slashes repeat, `.` and `..` are no names |
| `FileSystem`           | a tree of directories and other files, and the current directory |
| `FileSystem.mkdir`     | `mkdir` of `<sys/stat.h>` |

The loop cuts the path at every slash from the second character on, so what it hands to
`mkdir` is `prefixes [] path`, up to a call that fails, and the buffer comes back as it was
(`mkpath_eq`, `mkpath_calls`). The whole path is not among them: a path that does not end in
a slash is never made itself, whatever the return value (`makesPath_iff`).
-/
namespace MPIre

open FileTree

/-! ## The loop -/

def nul : Char := Char.ofNat 0

def cString (buf : List Char) : Path := buf.takeWhile (· ≠ nul)

/-- `strchr(buf + i, c)`, as an index of `buf`. -/
def strchr (buf : List Char) (i : Nat) (c : Char) : Option Nat :=
  ((cString (buf.drop i)).findIdx? (· == c)).map (i + ·)

/-- What a call leaves: the files, the caller's buffer and the return value. -/
structure Mkpath (σ : Type) where
  files : σ
  filePath : List Char
  ret : Int
deriving DecidableEq, Repr

section Calls

variable {σ : Type} (mkdir : σ → Path → σ × MkdirResult)

def mkpathLoop : Nat → σ → List Char → Option Nat → Option (Mkpath σ)
  | _, fs, buf, none => some ⟨fs, buf, 0⟩
  | 0, _, _, some _ => none
  | fuel + 1, fs, buf, some p =>
    let cut := buf.set p nul
    let back := cut.set p '/'
    match mkdir fs (cString cut) with
    | (fs, .error) => some ⟨fs, back, -1⟩
    | (fs, _) => mkpathLoop fuel fs back (strchr back (p + 1) '/')

/-- The assertion refuses the empty path. -/
def mkpath (fs : σ) (filePath : List Char) : Option (Mkpath σ) :=
  if cString filePath = [] then none
  else mkpathLoop mkdir filePath.length fs filePath (strchr filePath 1 '/')

/-- The parts of a path before each of its slashes, after `seen` and unless empty. -/
def prefixes (seen : Path) : Path → List Path
  | [] => []
  | c :: rest =>
    if c = '/' ∧ seen ≠ [] then seen :: prefixes (seen ++ [c]) rest
    else prefixes (seen ++ [c]) rest

/-- `mkdir` of each path, until one fails otherwise than with `EEXIST`. -/
def mkdirs : σ → List Path → σ × Int
  | fs, [] => (fs, 0)
  | fs, q :: qs =>
    match mkdir fs q with
    | (fs, .error) => (fs, -1)
    | (fs, _) => mkdirs fs qs

variable {mkdir}

theorem cString_append {seen : List Char} (h : nul ∉ seen) (rest : List Char) :
    cString (seen ++ rest) = seen ++ cString rest := by
  refine List.takeWhile_append_of_pos fun c hc => ?_
  have hne : c ≠ nul := fun he => h (he ▸ hc)
  simpa using hne

theorem cString_eq {buf : List Char} (h : nul ∉ buf) : cString buf = buf := by
  have happ := cString_append h []
  rwa [List.append_nil, show cString [] = [] from rfl, List.append_nil] at happ

theorem cString_cons {c : Char} (h : c ≠ nul) (rest : List Char) :
    cString (c :: rest) = c :: cString rest := by
  simp [cString, h]

theorem cString_nul (rest : List Char) : cString (nul :: rest) = [] := by
  simp [cString]

theorem strchr_append (seen rest : List Char) (c : Char) :
    strchr (seen ++ rest) seen.length c =
      ((cString rest).findIdx? (· == c)).map (seen.length + ·) := by
  unfold strchr
  rw [List.drop_left]

/-- Cut at the slash after `seen`, the buffer holds `seen`. -/
theorem cString_cut {seen rest : List Char} (c : Char) (h : nul ∉ seen) :
    cString ((seen ++ c :: rest).set seen.length nul) = seen := by
  rw [List.set_append_right _ _ (Nat.le_refl _), Nat.sub_self, List.set_cons_zero,
    cString_append h]
  simp [cString]

theorem mkdirs_cons_of_error {fs : σ} {q : Path} {qs : List Path} (h : (mkdir fs q).2 = .error) :
    mkdirs mkdir fs (q :: qs) = ((mkdir fs q).1, -1) := by
  rw [mkdirs]
  rcases hr : mkdir fs q with ⟨fs', r⟩
  rw [hr] at h
  cases h
  rfl

theorem mkdirs_cons_of_ne {fs : σ} {q : Path} {qs : List Path} (h : (mkdir fs q).2 ≠ .error) :
    mkdirs mkdir fs (q :: qs) = mkdirs mkdir (mkdir fs q).1 qs := by
  rw [mkdirs]
  rcases hr : mkdir fs q with ⟨fs', _ | _ | _⟩
  · rfl
  · rfl
  · exact absurd (by rw [hr]) h

theorem strchr_hit {c : Char} (h : c ≠ nul) (seen rest : List Char) :
    strchr (seen ++ c :: rest) seen.length c = some seen.length := by
  rw [strchr_append, cString_cons h, List.findIdx?_cons]
  simp

theorem strchr_skip {c d : Char} (h : d ≠ nul) (hd : d ≠ c) (seen rest : List Char) :
    strchr (seen ++ d :: rest) seen.length c =
      strchr (seen ++ d :: rest) (seen.length + 1) c := by
  have hnext : seen ++ d :: rest = (seen ++ [d]) ++ rest := by simp
  have hlen : seen.length + 1 = (seen ++ [d]).length := by simp
  rw [strchr_append, hnext, hlen, strchr_append, cString_cons h, List.findIdx?_cons]
  simp [hd, Function.comp_def, Nat.add_assoc, Nat.add_comm 1]

/-- The step lemma: a turn at the slash after `seen` makes `seen` and restores the slash. -/
theorem mkpathLoop_slash {seen : List Char} (fuel : Nat) (fs : σ) (rest : List Char)
    (h : nul ∉ seen) :
    mkpathLoop mkdir (fuel + 1) fs (seen ++ '/' :: rest) (some seen.length) =
      if (mkdir fs seen).2 = .error then some ⟨(mkdir fs seen).1, seen ++ '/' :: rest, -1⟩
      else mkpathLoop mkdir fuel (mkdir fs seen).1 (seen ++ '/' :: rest)
        (strchr (seen ++ '/' :: rest) (seen.length + 1) '/') := by
  have hback : ((seen ++ '/' :: rest).set seen.length nul).set seen.length '/' =
      seen ++ '/' :: rest := by simp
  rw [mkpathLoop]
  simp only [hback, cString_cut '/' h]
  rcases mkdir fs seen with ⟨fs', _ | _ | _⟩ <;> rfl

theorem prefixes_cons (seen : Path) (c : Char) (rest : Path) :
    prefixes seen (c :: rest) =
      (if c = '/' ∧ seen ≠ [] then [seen] else []) ++ prefixes (seen ++ [c]) rest := by
  rw [prefixes]
  split <;> rfl

/-- The run lemma: past `seen` the loop makes the prefixes that end at a later slash of the
string, and gives the buffer back as it was. -/
theorem mkpathLoop_eq (rest : List Char) {seen : List Char} {fuel : Nat} (fs : σ)
    (hseen : seen ≠ []) (hnul : nul ∉ seen) (hfuel : rest.length ≤ fuel) :
    mkpathLoop mkdir fuel fs (seen ++ rest) (strchr (seen ++ rest) seen.length '/') =
      some ⟨(mkdirs mkdir fs (prefixes seen (cString rest))).1, seen ++ rest,
        (mkdirs mkdir fs (prefixes seen (cString rest))).2⟩ := by
  induction rest generalizing seen fuel fs with
  | nil =>
    rw [strchr_append]
    simp [mkpathLoop, cString, prefixes, mkdirs]
  | cons c rest ih =>
    by_cases hend : c = nul
    · -- the string ends here, whatever the buffer holds after it
      subst hend
      rw [strchr_append, cString_nul]
      simp [mkpathLoop, prefixes, mkdirs]
    rw [List.length_cons] at hfuel
    have hnext : (seen ++ [c]) ++ rest = seen ++ c :: rest := by simp
    have hlen : (seen ++ [c]).length = seen.length + 1 := by simp
    have hnul' : nul ∉ seen ++ [c] := by
      intro h
      rcases List.mem_append.1 h with h | h
      · exact hnul h
      · exact hend (List.mem_singleton.1 h).symm
    -- the rest of the loop, from the character after `c` on
    have hlater : ∀ {n : Nat} (fs : σ), rest.length ≤ n →
        mkpathLoop mkdir n fs (seen ++ c :: rest)
            (strchr (seen ++ c :: rest) (seen.length + 1) '/') =
          some ⟨(mkdirs mkdir fs (prefixes (seen ++ [c]) (cString rest))).1, seen ++ c :: rest,
            (mkdirs mkdir fs (prefixes (seen ++ [c]) (cString rest))).2⟩ := by
      intro n fs hn
      have h := @ih (seen ++ [c]) n fs (by simp) hnul' hn
      rwa [hnext, hlen] at h
    rw [cString_cons hend, prefixes_cons]
    by_cases hc : c = '/'
    · subst hc
      obtain ⟨fuel, rfl⟩ := Nat.exists_eq_add_of_le' (Nat.le_of_add_left_le hfuel)
      rw [if_pos ⟨rfl, hseen⟩, List.singleton_append, strchr_hit hend,
        mkpathLoop_slash fuel fs rest hnul]
      by_cases herr : (mkdir fs seen).2 = .error
      · rw [if_pos herr, mkdirs_cons_of_error herr]
      · rw [if_neg herr, mkdirs_cons_of_ne herr]
        exact hlater _ (Nat.le_of_succ_le_succ hfuel)
    · rw [if_neg fun h => hc h.1, List.nil_append, strchr_skip hend hc]
      exact hlater fs (by omega)

/-- **What `mkpath` does.** It makes the prefixes from the left until one fails, and gives
its argument back. -/
theorem mkpath_eq {filePath : List Char} (fs : σ) (h : cString filePath ≠ []) :
    mkpath mkdir fs filePath =
      some ⟨(mkdirs mkdir fs (prefixes [] (cString filePath))).1, filePath,
        (mkdirs mkdir fs (prefixes [] (cString filePath))).2⟩ := by
  cases filePath with
  | nil => exact absurd rfl h
  | cons c rest =>
    have hc : c ≠ nul := by
      rintro rfl
      exact h (cString_nul rest)
    unfold mkpath
    rw [if_neg h, cString_cons hc]
    have hpre : prefixes [] (c :: cString rest) = prefixes [c] (cString rest) := by simp [prefixes]
    rw [hpre]
    have hnul : nul ∉ [c] := fun hm => hc (List.mem_singleton.1 hm).symm
    exact mkpathLoop_eq rest fs (List.cons_ne_nil c []) hnul (Nat.le_succ rest.length)

end Calls

/-! ## The calls -/

/-- The parts of a path that end just before a slash at position 1 or later, in increasing
length. -/
def beforeSlashes (path : Path) : List Path :=
  ((List.range path.length).filter fun i => 0 < i ∧ path[i]? = some '/').map fun i => path.take i

/-- A `mkdir` whose calls are answered in turn; the state is the calls made so far. -/
def answered (answer : Nat → MkdirResult) (calls : List Path) (path : Path) :
    List Path × MkdirResult :=
  (calls ++ [path], answer calls.length)

/-- `run` gives the buffer back, and calls `mkdir` on the parts of the path before its slashes
up to the first call that fails otherwise than with `EEXIST`; -1 says that there is one. -/
structure CallsRight (answer : Nat → MkdirResult) (filePath : List Char)
    (run : Mkpath (List Path)) : Prop where
  restored : run.filePath = filePath
  calls : run.files <+: beforeSlashes (cString filePath)
  /-- No call before the last one fails. -/
  upTo : ∀ i, i + 1 < run.files.length → answer i ≠ .error
  /-- If a part is left out, the last call fails. -/
  stops : run.files ≠ beforeSlashes (cString filePath) →
    ∃ i, i + 1 = run.files.length ∧ answer i = .error
  fails : run.ret = -1 ↔ ∃ i < run.files.length, answer i = .error
  succeeds : run.ret ≠ -1 → run.ret = 0

theorem prefixes_eq (seen rest : Path) :
    prefixes seen rest =
      ((List.range rest.length).filter fun i => (0 < i ∨ seen ≠ []) ∧ rest[i]? = some '/').map
        fun i => seen ++ rest.take i := by
  induction rest generalizing seen with
  | nil => rfl
  | cons c rest ih =>
    rw [prefixes_cons, ih, List.length_cons, List.range_succ_eq_map, List.filter_cons,
      List.filter_map]
    by_cases h : c = '/' ∧ seen ≠ []
    · simp [h.1, h.2, Function.comp_def]
    · have h0 : ¬ ((0 < 0 ∨ seen ≠ []) ∧ (c :: rest)[0]? = some '/') := by
        simpa [and_comm] using h
      rw [if_neg h, if_neg (by simpa using h0), List.nil_append, List.map_map]
      simp [Function.comp_def]

/-- The recursion over the path finds the parts before its slashes. -/
theorem prefixes_nil (path : Path) : prefixes [] path = beforeSlashes path := by
  rw [prefixes_eq]
  simp [beforeSlashes]

/-- Either no call fails, or the calls end with the first one that does. -/
theorem mkdirs_answered (answer : Nat → MkdirResult) (qs : List Path) {calls : List Path} :
    (mkdirs (answered answer) calls qs = (calls ++ qs, 0) ∧
      ∀ i < qs.length, answer (calls.length + i) ≠ .error) ∨
    ∃ n < qs.length, mkdirs (answered answer) calls qs = (calls ++ qs.take (n + 1), -1) ∧
      answer (calls.length + n) = .error ∧ ∀ i < n, answer (calls.length + i) ≠ .error := by
  induction qs generalizing calls with
  | nil => exact .inl ⟨by simp [mkdirs], by simp⟩
  | cons q qs ih =>
    by_cases herr : answer calls.length = .error
    · refine .inr ⟨0, by simp, ?_, herr, by simp⟩
      rw [mkdirs_cons_of_error herr]
      rfl
    · have hshift : ∀ i, (calls ++ [q]).length + i = calls.length + (i + 1) := by
        intro i
        simp only [List.length_append, List.length_singleton]
        omega
      -- the answers to the rest, with the first one in front
      have hbefore : ∀ n, (∀ i < n, answer ((calls ++ [q]).length + i) ≠ .error) →
          ∀ i < n + 1, answer (calls.length + i) ≠ .error := by
        intro n h i hi
        cases i with
        | zero => exact herr
        | succ i => exact hshift i ▸ h i (Nat.lt_of_succ_lt_succ hi)
      rw [mkdirs_cons_of_ne herr]
      show (mkdirs _ (calls ++ [q]) qs = _ ∧ _) ∨ ∃ n < _, mkdirs _ (calls ++ [q]) qs = _ ∧ _
      rcases @ih (calls ++ [q]) with ⟨hrun, hok⟩ | ⟨n, hn, hrun, hfail, hok⟩
      · refine .inl ⟨?_, hbefore _ hok⟩
        rw [hrun, List.append_assoc, List.singleton_append]
      · refine .inr ⟨n + 1, Nat.succ_lt_succ hn, ?_, hshift n ▸ hfail, hbefore n hok⟩
        rw [hrun, List.append_assoc, List.singleton_append, List.take_succ_cons]

/-- **The calls of `mkpath`.** For every buffer that holds a path, whatever follows the path
in it, and whatever `mkdir` answers, `mkpath` returns, with the right calls made. -/
theorem mkpath_calls (answer : Nat → MkdirResult) {filePath : List Char}
    (h : cString filePath ≠ []) :
    ∃ run, mkpath (answered answer) [] filePath = some run ∧ CallsRight answer filePath run := by
  refine ⟨_, mkpath_eq [] h, ?_⟩
  rw [prefixes_nil]
  generalize hqs : beforeSlashes (cString filePath) = qs
  rcases @mkdirs_answered answer qs [] with ⟨hrun, hok⟩ | ⟨n, hn, hrun, hfail, hok⟩
  · rw [hrun]
    simp only [List.nil_append, List.length_nil, Nat.zero_add] at hok ⊢
    subst hqs
    refine ⟨rfl, List.prefix_rfl, fun i hi => hok i (Nat.lt_of_succ_lt hi), ?_, ?_, fun _ => rfl⟩
    · intro hne
      exact absurd rfl hne
    · refine iff_of_false (by simp) ?_
      rintro ⟨i, hi, hfail⟩
      exact hok i hi hfail
  · rw [hrun]
    simp only [List.nil_append, List.length_nil, Nat.zero_add] at hfail hok ⊢
    subst hqs
    have hlen : (List.take (n + 1) (beforeSlashes (cString filePath))).length = n + 1 := by
      rw [List.length_take]
      omega
    refine ⟨rfl, List.take_prefix _ _, fun i hi => hok i ?_, fun _ => ⟨n, hlen.symm, hfail⟩, ?_, ?_⟩
    · rw [hlen] at hi
      exact Nat.lt_of_succ_lt_succ hi
    · exact iff_of_true rfl ⟨n, by rw [hlen]; exact Nat.lt_succ_self n, hfail⟩
    · intro hne
      exact absurd rfl hne

/-- The second of three calls finds the directory, and the third fails. -/
example : mkpath (answered fun n => [.ok, .eexist].getD n .error) []
    ("/a//b/c".toList ++ nul :: "/d".toList) =
      some ⟨["/a".toList, "/a/".toList, "/a//b".toList],
        "/a//b/c".toList ++ nul :: "/d".toList, -1⟩ := by decide

theorem mkpath_calls_third :
    ∃ run, mkpath (answered fun n => [.ok, .eexist].getD n .error) []
        ("/a//b/c".toList ++ nul :: "/d".toList) = some run ∧
      CallsRight (fun n => [.ok, .eexist].getD n .error)
        ("/a//b/c".toList ++ nul :: "/d".toList) run :=
  mkpath_calls _ (by decide)

/-! ## Paths -/

theorem prefixes_append (seen a b : Path) :
    prefixes seen (a ++ b) = prefixes seen a ++ prefixes (seen ++ a) b := by
  induction a generalizing seen with
  | nil => simp [prefixes]
  | cons c a ih =>
    rw [List.cons_append, prefixes_cons, prefixes_cons, ih]
    simp

theorem mem_prefixes {seen rest q : Path} :
    q ∈ prefixes seen rest ↔ q ≠ [] ∧ ∃ a r, q = seen ++ a ∧ rest = a ++ '/' :: r := by
  induction rest generalizing seen with
  | nil => simp [prefixes]
  | cons c rest ih =>
    have hmore : (∃ a r, q = (seen ++ [c]) ++ a ∧ rest = a ++ '/' :: r) ↔
        ∃ a r, q = seen ++ c :: a ∧ rest = a ++ '/' :: r := by simp
    have hsplit : (∃ a r, q = seen ++ a ∧ c :: rest = a ++ '/' :: r) ↔
        q = seen ∧ c = '/' ∨ ∃ a r, q = seen ++ c :: a ∧ rest = a ++ '/' :: r := by
      constructor
      · rintro ⟨_ | ⟨d, a⟩, r, rfl, hr⟩
        · exact .inl ⟨List.append_nil seen, (List.cons.inj hr).1⟩
        · obtain ⟨rfl, rfl⟩ := List.cons.inj hr
          exact .inr ⟨a, r, rfl, rfl⟩
      · rintro (⟨rfl, rfl⟩ | ⟨a, r, rfl, rfl⟩)
        · exact ⟨[], rest, (List.append_nil q).symm, rfl⟩
        · exact ⟨c :: a, r, rfl, rfl⟩
    rw [hsplit, prefixes_cons, List.mem_append, ih, hmore]
    have hat : q ∈ (if c = '/' ∧ seen ≠ [] then [seen] else []) ↔ q ≠ [] ∧ q = seen ∧ c = '/' := by
      split
      · next h =>
        rw [List.mem_singleton]
        exact ⟨fun hq => ⟨hq ▸ h.2, hq, h.1⟩, fun hq => hq.2.1⟩
      · next h =>
        refine iff_of_false List.not_mem_nil ?_
        rintro ⟨hq, rfl, hc⟩
        exact h ⟨hc, hq⟩
    rw [hat, and_or_left]

theorem mem_prefixes_nil {path q : Path} :
    q ∈ prefixes [] path ↔ q ≠ [] ∧ ∃ r, path = q ++ '/' :: r := by
  simp [mem_prefixes]

def toHop : Path → Hop Path
  | ['.'] => .stay
  | ['.', '.'] => .up
  | name => .down name

def components (path : Path) : List (Hop Path) :=
  ((path.splitOn '/').filter (· ≠ [])).map toHop

theorem components_slash (p r : Path) :
    components (p ++ '/' :: r) = components p ++ components r := by
  unfold components
  rw [List.splitOn_append_cons_self, List.filter_append, List.map_append]

theorem components_of_notMem {p : Path} (h : '/' ∉ p) :
    components p = [] ∨ components p = [toHop p] := by
  unfold components
  rw [List.splitOn_eq_singleton h]
  by_cases hp : p = []
  · exact .inl (by simp [hp])
  · exact .inr (by simp [hp])

/-- Fewer components are those of a part before a slash. -/
theorem exists_prefix (path : Path) {as : List (Hop Path)} (has : as <+: components path)
    (hne : as ≠ components path) (hnil : as ≠ []) :
    ∃ q r, path = q ++ '/' :: r ∧ components q = as := by
  by_cases hs : '/' ∈ path
  · obtain ⟨first, rest, heq, hfirst⟩ := List.eq_append_cons_of_mem hs
    have hshort : rest.length < path.length := by
      rw [heq, List.length_append, List.length_cons]
      omega
    have hlater : ∀ {bs}, bs <+: components rest → bs ≠ components rest → bs ≠ [] →
        ∃ q r, path = q ++ '/' :: r ∧ components q = components first ++ bs := by
      intro bs hbs hne hnil
      obtain ⟨q, r, hrest, hq⟩ := exists_prefix rest hbs hne hnil
      exact ⟨first ++ '/' :: q, r, by simp [heq, hrest], by rw [components_slash, hq]⟩
    rw [heq, components_slash] at has hne
    rcases components_of_notMem hfirst with hc | hc <;> rw [hc] at has hne hlater
    · exact hlater has hne hnil
    · rcases List.prefix_cons_iff.1 has with rfl | ⟨bs, rfl, hbs⟩
      · exact absurd rfl hnil
      · by_cases hbnil : bs = []
        · subst hbnil
          exact ⟨first, rest, heq, hc⟩
        · exact hlater hbs (fun h => hne (by rw [h]; rfl)) hbnil
  · rcases components_of_notMem hs with hc | hc <;> rw [hc] at has hne
    · exact absurd (List.prefix_nil.1 has) hnil
    · rcases List.prefix_cons_iff.1 has with rfl | ⟨bs, rfl, hbs⟩
      · exact absurd rfl hnil
      · exact absurd (by rw [List.prefix_nil.1 hbs]) hne
termination_by path.length

/-! ## The files -/

/-- The files a process sees. -/
structure FileSystem where
  tree : FileTree.Tree Path
  cwd : Place Path
  cwd_dir : tree.kind cwd = some .dir

namespace FileSystem

def start (fs : FileSystem) (path : Path) : Place Path :=
  if path.head? = some '/' then [] else fs.cwd

def place (fs : FileSystem) (path : Path) : Place Path :=
  follow (fs.start path) (components path)

/-- The empty path names nothing. -/
def mkdir (fs : FileSystem) (path : Path) : FileSystem × MkdirResult :=
  if path = [] then (fs, .error)
  else
    ({ fs with
        tree := (fs.tree.mkdir (fs.start path) (components path)).1
        cwd_dir := Tree.mkdir_dir fs.cwd_dir },
      (fs.tree.mkdir (fs.start path) (components path)).2)

/-- A path that ends in a slash names nothing but a directory. -/
def stat (fs : FileSystem) (path : Path) : Option Kind :=
  if path = [] then none
  else ((fs.tree.walk (fs.start path) (components path)).bind fs.tree.kind).filter fun k =>
    k = .dir ∨ path.getLast? ≠ some '/'

def IsDir (fs : FileSystem) (path : Path) : Prop := fs.stat path = some .dir

instance (fs : FileSystem) (path : Path) : Decidable (fs.IsDir path) :=
  inferInstanceAs (Decidable (fs.stat path = some .dir))

/-- The path runs through a file. -/
def Blocked (fs : FileSystem) (path : Path) : Prop :=
  fs.tree.Blocked (fs.start path) (components path)

theorem mkdir_of_ne (fs : FileSystem) {path : Path} (h : path ≠ []) :
    (fs.mkdir path).1.tree = (fs.tree.mkdir (fs.start path) (components path)).1 ∧
      (fs.mkdir path).1.cwd = fs.cwd ∧
      (fs.mkdir path).2 = (fs.tree.mkdir (fs.start path) (components path)).2 := by
  unfold mkdir
  rw [if_neg h]
  exact ⟨rfl, rfl, rfl⟩

theorem start_dir (fs : FileSystem) (path : Path) : fs.tree.kind (fs.start path) = some .dir := by
  unfold start
  split
  · exact fs.tree.root
  · exact fs.cwd_dir

theorem start_append (fs : FileSystem) {q : Path} (hq : q ≠ []) (r : Path) :
    fs.start (q ++ r) = fs.start q := by
  unfold start
  rw [List.head?_append_of_ne_nil _ hq]

theorem place_of_mem {fs : FileSystem} {path q : Path} (hq : q ∈ prefixes [] path) :
    fs.place q = follow (fs.start path) (components q) := by
  obtain ⟨hne, r, rfl⟩ := mem_prefixes_nil.1 hq
  rw [start_append fs hne]
  rfl

theorem isDir_iff {fs : FileSystem} {path : Path} (hne : path ≠ []) :
    fs.IsDir path ↔
      ∀ as, as <+: components path → fs.tree.kind (follow (fs.start path) as) = some .dir := by
  unfold IsDir stat
  rw [if_neg hne, Option.filter_eq_some_iff, and_iff_left (by simp), Option.bind_eq_some_iff]
  constructor
  · rintro ⟨x, hw, hx⟩ as has
    obtain ⟨rfl, hdirs⟩ := Tree.walk_eq_some_iff.1 hw
    by_cases heq : as = components path
    · rw [heq]
      exact hx
    · exact hdirs as has heq
  · intro h
    refine ⟨_, Tree.walk_eq_some_iff.2 ⟨rfl, fun as has _ => h as has⟩, ?_⟩
    exact h _ List.prefix_rfl

/-- `fs` is `fs₀` with directories at the places of `qs` that were free. -/
structure Made (fs₀ : FileSystem) (qs : List Path) (fs : FileSystem) : Prop where
  cwd : fs.cwd = fs₀.cwd
  grown : Grown fs₀.tree (qs.map fs₀.place) fs.tree

variable {fs₀ fs : FileSystem} {qs : List Path}

theorem Made.start (h : Made fs₀ qs fs) (path : Path) : fs.start path = fs₀.start path := by
  unfold FileSystem.start
  rw [h.cwd]

/-- One more call, of a path whose own prefixes have been made. -/
theorem made_mkdir {q : Path} (h : Made fs₀ (prefixes [] q) fs) (hq : q ≠ []) :
    (fs₀.Blocked q ∧ (fs.mkdir q).2 = .error) ∨
      (¬ fs₀.Blocked q ∧ (fs.mkdir q).2 ≠ .error ∧
        Made fs₀ (prefixes [] q ++ [q]) (fs.mkdir q).1) := by
  have hbelow : ∀ as, as <+: components q → as ≠ components q → as ≠ [] →
      follow (fs₀.start q) as ∈ (prefixes [] q).map fs₀.place := by
    intro as has hne hnil
    obtain ⟨p, r, rfl, rfl⟩ := exists_prefix q has hne hnil
    have hp : p ≠ [] := by
      rintro rfl
      exact hnil rfl
    have hmem : p ∈ prefixes [] (p ++ '/' :: r) := mem_prefixes_nil.2 ⟨hp, r, rfl⟩
    exact List.mem_map.2 ⟨p, hmem, place_of_mem hmem⟩
  obtain ⟨htree, hcwd, hres⟩ := mkdir_of_ne fs hq
  rw [hres]
  rw [h.start] at htree hres ⊢
  rcases h.grown.mkdir (fs₀.start_dir q) hbelow with ⟨hb, hr⟩ | ⟨hb, hr, hg⟩
  · exact .inl ⟨hb, by rw [hr]⟩
  · refine .inr ⟨hb, hr, hcwd.trans h.cwd, ?_⟩
    rw [htree, List.map_append]
    exact hg

/-- The calls of the loop after `seen`: they stop at a path that runs through a file, and
only there. -/
theorem made_mkdirs {seen : Path} (rest : Path) (h : Made fs₀ (prefixes [] seen) fs) :
    ((mkdirs mkdir fs (prefixes seen rest)).2 = -1 ∧ ∃ q ∈ prefixes seen rest, fs₀.Blocked q) ∨
      ((mkdirs mkdir fs (prefixes seen rest)).2 = 0 ∧
        (∀ q ∈ prefixes seen rest, ¬ fs₀.Blocked q) ∧
        Made fs₀ (prefixes [] (seen ++ rest)) (mkdirs mkdir fs (prefixes seen rest)).1) := by
  induction rest generalizing seen fs with
  | nil => exact .inr ⟨rfl, by simp [prefixes], by simpa [prefixes, mkdirs] using h⟩
  | cons c rest ih =>
    have hnext : seen ++ c :: rest = (seen ++ [c]) ++ rest := by simp
    have hseen : prefixes [] (seen ++ [c]) =
        prefixes [] seen ++ if c = '/' ∧ seen ≠ [] then [seen] else [] := by
      rw [prefixes_append, prefixes_cons]
      simp [prefixes]
    rw [prefixes_cons, hnext]
    by_cases hc : c = '/' ∧ seen ≠ []
    · rw [if_pos hc] at hseen ⊢
      rw [List.singleton_append]
      rcases made_mkdir h hc.2 with ⟨hb, hr⟩ | ⟨hb, hr, hmade⟩
      · rw [mkdirs_cons_of_error hr]
        exact .inl ⟨rfl, seen, List.mem_cons_self, hb⟩
      · rw [mkdirs_cons_of_ne hr]
        rcases ih (hseen ▸ hmade) with ⟨hret, q, hq, hqb⟩ | ⟨hret, hqs, hall⟩
        · exact .inl ⟨hret, q, List.mem_cons_of_mem _ hq, hqb⟩
        · exact .inr ⟨hret, List.forall_mem_cons.2 ⟨hb, hqs⟩, hall⟩
    · rw [if_neg hc] at hseen ⊢
      rw [List.append_nil] at hseen
      exact ih (by rw [hseen]; exact h)

/-- `path` itself and its parts before and after each slash are directories. -/
def IsDirs (fs : FileSystem) (path : Path) : Prop :=
  ∀ q r, path = q ++ r → q ≠ [] → (r = [] ∨ r.head? = some '/' ∨ q.getLast? = some '/') →
    fs.IsDir q

/-- It is enough to look at the places the components lead through. -/
theorem isDirs_iff {path : Path} (hne : path ≠ []) :
    fs.IsDirs path ↔
      ∀ as, as <+: components path → fs.tree.kind (follow (fs.start path) as) = some .dir := by
  constructor
  · intro h
    exact (isDir_iff hne).1 (h path [] (List.append_nil path).symm hne (.inl rfl))
  · rintro h q r rfl hq hend
    rw [start_append fs hq] at h
    refine (isDir_iff hq).2 fun as has => h as (has.trans ?_)
    rcases hend with rfl | hr | hl
    · simp
    · obtain ⟨r, rfl⟩ := List.head?_eq_some_iff.1 hr
      rw [components_slash]
      exact List.prefix_append _ _
    · obtain ⟨p, rfl⟩ := List.getLast?_eq_some_iff.1 hl
      rw [components_slash, List.append_assoc, List.singleton_append, components_slash]
      exact List.prefix_append_right_inj _ |>.2 List.nil_prefix

theorem Made.isDirs_iff {path : Path} (h : Made fs₀ (prefixes [] path) fs) (hne : path ≠ []) :
    fs.IsDirs path ↔
      (∀ q ∈ prefixes [] path, fs₀.tree.kind (fs₀.place q) ≠ some .file) ∧
        (fs₀.tree.kind (fs₀.place path) = some .dir ∨
          ∃ q ∈ prefixes [] path, fs₀.place q = fs₀.place path) := by
  rw [FileSystem.isDirs_iff hne, h.start]
  constructor
  · intro hdirs
    refine ⟨fun q hq hfile => ?_, ?_⟩
    · obtain ⟨-, r, hr⟩ := mem_prefixes_nil.1 hq
      have hd := hdirs (components q) (by rw [hr, components_slash]; exact List.prefix_append _ _)
      rw [← place_of_mem hq, h.grown.file_iff.2 hfile] at hd
      cases hd
    · rcases h.grown.dir_iff.1 (hdirs (components path) List.prefix_rfl) with hd | ⟨-, hmem⟩
      · exact .inl hd
      · exact .inr (List.mem_map.1 hmem)
  · rintro ⟨hfiles, hlast⟩ as has
    have hmade : ∀ q ∈ prefixes [] path, fs.tree.kind (fs₀.place q) = some .dir := fun q hq =>
      h.grown.dir_iff.2 (.inr ⟨hfiles q hq, List.mem_map_of_mem hq⟩)
    by_cases heq : as = components path
    · subst heq
      rcases hlast with hd | ⟨q, hq, hplace⟩
      · exact h.grown.dir_iff.2 (.inl hd)
      · have hd := hmade q hq
        rwa [hplace] at hd
    · by_cases hnil : as = []
      · subst hnil
        exact h.grown.dir_iff.2 (.inl (fs₀.start_dir path))
      · obtain ⟨q, r, hr, rfl⟩ := exists_prefix path has heq hnil
        have hq : q ∈ prefixes [] path := by
          refine mem_prefixes_nil.2 ⟨?_, r, hr⟩
          rintro rfl
          exact hnil rfl
        rw [← place_of_mem hq]
        exact hmade q hq

end FileSystem

/-! ## The directory -/

/-- A call that returns 0 leaves the whole directory behind. -/
def MakesPath (fs : FileSystem) (path : Path) : Prop :=
  ∃ run, mkpath FileSystem.mkdir fs path = some run ∧ (run.ret = 0 → run.files.IsDirs path)

/-- **The directory.** If it returns 0 then the path is there as a directory, if and only
if it fails, for a part of the path runs through a file, or no part before a slash is a file
and the whole path is a directory already or leads where such a part does. -/
theorem makesPath_iff {fs : FileSystem} {path : Path} (hne : path ≠ []) (hnul : nul ∉ path) :
    MakesPath fs path ↔
      (∃ q ∈ prefixes [] path, fs.Blocked q) ∨
        (∀ q ∈ prefixes [] path, fs.tree.kind (fs.place q) ≠ some .file) ∧
          (fs.tree.kind (fs.place path) = some .dir ∨
            ∃ q ∈ prefixes [] path, fs.place q = fs.place path) := by
  have hstring : cString path = path := cString_eq hnul
  have hcall : mkpath FileSystem.mkdir fs path = _ := mkpath_eq fs (by rwa [hstring])
  rw [hstring] at hcall
  have hstart : FileSystem.Made fs (prefixes [] []) fs := ⟨rfl, grown_nil fs.tree⟩
  have hreturns : MakesPath fs path ↔
      ((mkdirs FileSystem.mkdir fs (prefixes [] path)).2 = 0 →
        (mkdirs FileSystem.mkdir fs (prefixes [] path)).1.IsDirs path) := by
    unfold MakesPath
    rw [hcall]
    constructor
    · rintro ⟨run, hrun, h⟩
      cases hrun
      exact h
    · intro h
      exact ⟨_, rfl, h⟩
  rw [hreturns]
  rcases FileSystem.made_mkdirs path hstart with ⟨hret, hblocked⟩ | ⟨hret, hfree, hmade⟩
  · simp only [hret]
    exact iff_of_true (by simp) (.inl hblocked)
  · rw [List.nil_append] at hmade
    have hfree' : ¬ ∃ q ∈ prefixes [] path, fs.Blocked q := by
      rintro ⟨q, hq, hb⟩
      exact hfree q hq hb
    rw [or_iff_right hfree', ← hmade.isDirs_iff hne]
    exact ⟨fun h => h hret, fun h _ => h⟩

/-- Only the current directory, at the root. -/
def FileSystem.bare : FileSystem where
  tree :=
    { kind := fun pl => if pl = [] then some .dir else none
      root := rfl
      above := fun h => absurd (if_neg (List.cons_ne_nil _ _)) h }
  cwd := []
  cwd_dir := rfl

theorem makesPath_slash : MakesPath FileSystem.bare "your/path/".toList :=
  (makesPath_iff (by decide) (by decide)).2
    (.inr ⟨by decide, .inr ⟨"your/path".toList, by decide, by decide⟩⟩)

/-- The path of the tutorial is not made, and 0 is returned. -/
theorem makesPath_tutorial : ¬ MakesPath FileSystem.bare "your/path".toList := by
  rintro ⟨run, hrun, h⟩
  have hret : run.ret = 0 ∧ ¬ run.files.IsDir "your/path".toList := by
    have hall : ∀ r ∈ mkpath FileSystem.mkdir FileSystem.bare "your/path".toList,
        r.ret = 0 ∧ ¬ r.files.IsDir "your/path".toList := by decide
    exact hall run hrun
  refine hret.2 (h hret.1 _ [] (List.append_nil _).symm (by decide) (.inl rfl))

end MPIre
