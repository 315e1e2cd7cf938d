/-
# A tree of directories and `mkdir`

A place is the list of the names that lead to it, innermost first: `[]` is the root and the
tail of a place is its parent. A route is a list of hops; `follow` says where it leads, and
`Tree.walk` resolves it in a tree, where every place it passes must be a directory. There
are no links.

`Tree.mkdir` makes the place a route leads to. `Grown t xs t'` says that `t'` is `t` with a
directory put at every free place of `xs`; `Grown.mkdir` is the rule for one more call, of a
route all of whose proper prefixes lead to places of `xs`, as in a loop that makes a path
from the left.
-/
namespace FileTree

abbrev Place (ν : Type) := List ν

inductive Hop (ν : Type) where
  | stay
  | up
  | down (name : ν)
deriving DecidableEq, Repr

variable {ν : Type}

def hop (pl : Place ν) : Hop ν → Place ν
  | .stay => pl
  | .up => pl.tail
  | .down name => name :: pl

def follow (pl : Place ν) (hs : List (Hop ν)) : Place ν := hs.foldl hop pl

theorem follow_concat (pl : Place ν) (hs : List (Hop ν)) (h : Hop ν) :
    follow pl (hs ++ [h]) = hop (follow pl hs) h := by
  simp [follow]

inductive Kind where
  | dir
  | file
deriving DecidableEq, Repr

/-- The root is a directory, and so is what contains anything. -/
structure Tree (ν : Type) where
  kind : Place ν → Option Kind
  root : kind [] = some .dir
  above {name : ν} {pl : Place ν} : kind (name :: pl) ≠ none → kind pl = some .dir

theorem Tree.tail_dir (t : Tree ν) {pl : Place ν} (h : t.kind pl ≠ none) :
    t.kind pl.tail = some .dir := by
  cases pl with
  | nil => exact t.root
  | cons name pl => exact t.above h

/-- Where the hops lead, if everything they pass is a directory. -/
def Tree.walk (t : Tree ν) : Place ν → List (Hop ν) → Option (Place ν)
  | pl, [] => some pl
  | pl, h :: hs => if t.kind pl = some .dir then t.walk (hop pl h) hs else none

/-- The hops pass a file before the end. -/
def Tree.Blocked (t : Tree ν) (pl : Place ν) (hs : List (Hop ν)) : Prop :=
  ∃ as, as <+: hs ∧ as ≠ hs ∧ t.kind (follow pl as) = some .file

theorem Tree.walk_eq_some_iff {t : Tree ν} {pl x : Place ν} {hs : List (Hop ν)} :
    t.walk pl hs = some x ↔
      x = follow pl hs ∧ ∀ as, as <+: hs → as ≠ hs → t.kind (follow pl as) = some .dir := by
  induction hs generalizing pl with
  | nil =>
    have hnone : ∀ as : List (Hop ν), as <+: [] → as ≠ [] → t.kind (follow pl as) = some .dir :=
      fun as has hne => absurd (List.prefix_nil.1 has) hne
    show some pl = some x ↔ x = pl ∧ _
    rw [Option.some.injEq, eq_comm, and_iff_left hnone]
  | cons h hs ih =>
    have hall : (∀ as, as <+: h :: hs → as ≠ h :: hs → t.kind (follow pl as) = some .dir) ↔
        t.kind pl = some .dir ∧
          ∀ as, as <+: hs → as ≠ hs → t.kind (follow (hop pl h) as) = some .dir := by
      constructor
      · intro H
        refine ⟨H [] List.nil_prefix (List.cons_ne_nil h hs).symm, fun as has hne => ?_⟩
        exact H (h :: as) (List.cons_prefix_cons.2 ⟨rfl, has⟩) (by simpa using hne)
      · rintro ⟨hd, H⟩ as has hne
        rcases List.prefix_cons_iff.1 has with rfl | ⟨bs, rfl, hbs⟩
        · exact hd
        · exact H bs hbs (by simpa using hne)
    unfold walk
    rw [hall]
    by_cases hd : t.kind pl = some .dir
    · rw [if_pos hd, ih, and_iff_right hd]
      rfl
    · simp [hd]

/-- What a route from a directory leads to can be made, when its last place is free. -/
theorem Tree.tail_dir_of_walk {t : Tree ν} {pl x : Place ν} {hs : List (Hop ν)}
    (hpl : t.kind pl = some .dir) (hw : t.walk pl hs = some x) (hx : t.kind x = none) :
    t.kind x.tail = some .dir := by
  obtain ⟨rfl, hdirs⟩ := Tree.walk_eq_some_iff.1 hw
  rcases List.eq_nil_or_concat hs with rfl | ⟨as, h, rfl⟩
  · exact absurd (hpl.symm.trans hx) (Option.some_ne_none _)
  · rw [List.concat_eq_append] at hdirs hx ⊢
    have hd : t.kind (follow pl as) = some .dir :=
      hdirs as (List.prefix_append as [h]) (by simp)
    rw [follow_concat] at hx ⊢
    cases h with
    | stay => exact absurd (hd.symm.trans hx) (Option.some_ne_none _)
    | up =>
      have hup := t.tail_dir (show t.kind (follow pl as) ≠ none by simp [hd])
      exact absurd (hup.symm.trans hx) (Option.some_ne_none _)
    | down name => exact hd

/-- A directory is put at `x`. -/
def Tree.create [DecidableEq ν] (t : Tree ν) (x : Place ν) (h : t.kind x.tail = some .dir) :
    Tree ν where
  kind y := if y = x then some .dir else t.kind y
  root := by split <;> simp [t.root]
  above := by
    intro name pl hk
    by_cases hx : pl = x
    · rw [if_pos hx]
    · rw [if_neg hx]
      by_cases hn : name :: pl = x
      · subst hn
        exact h
      · rw [if_neg hn] at hk
        exact t.above hk

inductive MkdirResult where
  | ok
  | eexist
  | error
deriving DecidableEq, Repr

/-- A name that exists, of whatever kind, is `EEXIST`. -/
def Tree.mkdir [DecidableEq ν] (t : Tree ν) (pl : Place ν) (hs : List (Hop ν)) :
    Tree ν × MkdirResult :=
  match t.walk pl hs with
  | none => (t, .error)
  | some x =>
    if t.kind x ≠ none then (t, .eexist)
    else if h : t.kind x.tail = some .dir then (t.create x h, .ok)
    else (t, .error)

/-- `t'` is `t` with a directory at every free place of `xs`. -/
def Grown [DecidableEq ν] (t : Tree ν) (xs : List (Place ν)) (t' : Tree ν) : Prop :=
  ∀ x, t'.kind x = (t.kind x).or (if x ∈ xs then some .dir else none)

section Rules

variable [DecidableEq ν] {t t' : Tree ν} {pl x : Place ν} {hs : List (Hop ν)} {xs : List (Place ν)}

theorem grown_nil (t : Tree ν) : Grown t [] t := by
  intro x
  simp

theorem Grown.file_iff (hg : Grown t xs t') : t'.kind x = some .file ↔ t.kind x = some .file := by
  rw [hg x]
  cases t.kind x with
  | none => by_cases hx : x ∈ xs <;> simp [hx]
  | some k => rfl

theorem Grown.dir_iff (hg : Grown t xs t') :
    t'.kind x = some .dir ↔ t.kind x = some .dir ∨ t.kind x ≠ some .file ∧ x ∈ xs := by
  rw [hg x]
  cases hk : t.kind x with
  | none => by_cases hx : x ∈ xs <;> simp [hx]
  | some k => cases k <;> simp

/-- Places that exist may be listed too. -/
theorem Grown.concat_of_ne (hg : Grown t xs t') (hx : t'.kind x ≠ none) :
    Grown t (xs ++ [x]) t' := by
  intro y
  rw [hg y]
  by_cases hy : y = x
  · subst hy
    have hk := hg y
    cases hty : t.kind y with
    | none =>
      rw [hty] at hk
      by_cases hm : y ∈ xs
      · simp [hm]
      · simp [hm] at hk
        exact absurd hk hx
    | some k => rfl
  · simp [hy]

theorem Grown.create (hg : Grown t xs t') (hx : t'.kind x = none)
    (h : t'.kind x.tail = some .dir) : Grown t (xs ++ [x]) (t'.create x h) := by
  intro y
  show (if y = x then some Kind.dir else t'.kind y) = _
  by_cases hy : y = x
  · subst hy
    have hk := hg y
    rw [hx] at hk
    have hty : t.kind y = none := (Option.or_eq_none_iff.1 hk.symm).1
    simp [hty]
  · rw [if_neg hy, hg y]
    simp [hy]

theorem Tree.mkdir_dir (h : t.kind x = some .dir) : (t.mkdir pl hs).1.kind x = some .dir := by
  unfold Tree.mkdir
  split
  · exact h
  · next y _ =>
    split
    · exact h
    · split
      · show (if x = y then some Kind.dir else t.kind x) = _
        rw [h, ite_self]
      · exact h

/-- **One more `mkdir`.** -/
theorem Grown.mkdir (hg : Grown t xs t') (hpl : t.kind pl = some .dir)
    (hbelow : ∀ as, as <+: hs → as ≠ hs → as ≠ [] → follow pl as ∈ xs) :
    (t.Blocked pl hs ∧ t'.mkdir pl hs = (t', .error)) ∨
      (¬ t.Blocked pl hs ∧ (t'.mkdir pl hs).2 ≠ .error ∧
        Grown t (xs ++ [follow pl hs]) (t'.mkdir pl hs).1) := by
  have hpl' : t'.kind pl = some .dir := hg.dir_iff.2 (.inl hpl)
  unfold Tree.mkdir
  by_cases hb : t.Blocked pl hs
  · refine .inl ⟨hb, ?_⟩
    obtain ⟨as, has, hne, hfile⟩ := hb
    cases hw : t'.walk pl hs with
    | none => rfl
    | some x =>
      have hd := (Tree.walk_eq_some_iff.1 hw).2 as has hne
      rw [hg.file_iff.2 hfile] at hd
      cases hd
  · refine .inr ⟨hb, ?_⟩
    have hw : t'.walk pl hs = some (follow pl hs) := by
      refine Tree.walk_eq_some_iff.2 ⟨rfl, fun as has hne => ?_⟩
      by_cases hnil : as = []
      · subst hnil
        exact hpl'
      · have hfile : t.kind (follow pl as) ≠ some .file := fun h => hb ⟨as, has, hne, h⟩
        exact hg.dir_iff.2 (.inr ⟨hfile, hbelow as has hne hnil⟩)
    rw [hw]
    by_cases hx : t'.kind (follow pl hs) = none
    · have htail := Tree.tail_dir_of_walk hpl' hw hx
      simp only [hx, ne_eq, not_true_eq_false, if_false, htail, dif_pos]
      exact ⟨by simp, hg.create hx htail⟩
    · simp only [ne_eq, hx, not_false_eq_true, if_true]
      exact ⟨by simp, hg.concat_of_ne hx⟩

end Rules

end FileTree
