import Mathlib.Logic.Function.Basic
import MPIre.Library.FileTree
/-
# Files in a tree

`Files` is a tree with what is in its files. A file can be put where the tree is `Open`: in a
directory, and not over one. `Tree.locate` says where the route of a file leads.

Files come and go without moving a directory (`SameDirs`). `Files.get` reads back what
`Files.put` put there last, and a file put elsewhere does not matter to it.
-/
namespace FileTree

variable {ν β : Type}

/-! ## The same directories -/

def SameDirs (t t' : Tree ν) : Prop := ∀ x, t'.kind x = some .dir ↔ t.kind x = some .dir

theorem SameDirs.refl (t : Tree ν) : SameDirs t t := fun _ => Iff.rfl

/-! ## Where a file can be -/

/-- A file can be put at `x`. -/
def Tree.Open (t : Tree ν) (x : Place ν) : Prop :=
  t.kind x.tail = some .dir ∧ t.kind x ≠ some .dir

instance (t : Tree ν) (x : Place ν) : Decidable (t.Open x) := inferInstanceAs (Decidable (_ ∧ _))

/-- Where the file of a route is, or can be made. -/
def Tree.locate (t : Tree ν) (pl : Place ν) (hs : List (Hop ν)) : Option (Place ν) :=
  (t.walk pl hs).filter fun x => t.kind x ≠ some .dir

/-- A name in the directory that a route leads to. -/
theorem Tree.walk_concat {t : Tree ν} {pl : Place ν} {hs : List (Hop ν)} {name : ν}
    (hdirs : ∀ as, as <+: hs → t.kind (follow pl as) = some .dir) :
    t.walk pl (hs ++ [.down name]) = some (name :: follow pl hs) := by
  refine Tree.walk_eq_some_iff.2 ⟨?_, fun as has hne => ?_⟩
  · rw [follow_concat]
    rfl
  · rcases List.prefix_concat_iff.1 has with rfl | has
    · exact absurd rfl hne
    · exact hdirs as has

variable [DecidableEq ν]

/-- A file at `x`, as a new one if there is none. -/
def Tree.touch (t : Tree ν) (x : Place ν) (h : t.Open x) : Tree ν where
  kind y := if y = x then some .file else t.kind y
  root := by
    have hne : [] ≠ x := by
      rintro rfl
      exact h.2 t.root
    rw [if_neg hne, t.root]
  above := by
    intro name pl hk
    by_cases hn : name :: pl = x
    · subst hn
      have hne : pl ≠ name :: pl := (List.cons_ne_self name pl).symm
      rw [if_neg hne]
      exact h.1
    · rw [if_neg hn] at hk
      have hd := t.above hk
      have hne : pl ≠ x := by
        rintro rfl
        exact h.2 hd
      rw [if_neg hne, hd]

theorem Tree.touch_dirs (t : Tree ν) (x : Place ν) (h : t.Open x) : SameDirs t (t.touch x h) := by
  intro y
  show (if y = x then some Kind.file else t.kind y) = _ ↔ _
  by_cases hy : y = x
  · subst hy
    rw [if_pos rfl]
    exact iff_of_false (by simp) h.2
  · rw [if_neg hy]

/-- A directory more leaves the files alone. -/
theorem Tree.mkdir_file {t : Tree ν} {pl x : Place ν} {hs : List (Hop ν)} :
    (t.mkdir pl hs).1.kind x = some .file ↔ t.kind x = some .file := by
  unfold Tree.mkdir
  split
  · exact Iff.rfl
  · next y _ =>
    split
    · exact Iff.rfl
    · next hy =>
      have hfree : t.kind y = none := Classical.not_not.1 hy
      split
      · show (if x = y then some Kind.dir else t.kind x) = _ ↔ _
        by_cases hx : x = y
        · subst hx
          rw [if_pos rfl, hfree]
          simp
        · rw [if_neg hx]
      · exact Iff.rfl

/-- The only directory more is the one that the route leads to. -/
theorem Tree.mkdir_new {t : Tree ν} {pl x : Place ν} {hs : List (Hop ν)}
    (h : (t.mkdir pl hs).1.kind x = some .dir) : t.kind x = some .dir ∨ x = follow pl hs := by
  unfold Tree.mkdir at h
  split at h
  · exact .inl h
  · next y hy =>
    split at h
    · exact .inl h
    · split at h
      · by_cases hx : x = y
        · exact .inr (hx.trans (Tree.walk_eq_some_iff.1 hy).1)
        · exact .inl ((if_neg hx).symm.trans h)
      · exact .inl h

/-! ## What is in the files -/

structure Files (ν β : Type) where
  tree : Tree ν
  data : Place ν → List β

namespace Files

def get (d : Files ν β) (x : Place ν) : Option (List β) :=
  if d.tree.kind x = some .file then some (d.data x) else none

/-- The file at `x` is made or written anew. -/
def put (d : Files ν β) (x : Place ν) (bs : List β) : Files ν β :=
  if h : d.tree.Open x then ⟨d.tree.touch x h, Function.update d.data x bs⟩ else d

variable {d : Files ν β} {x y : Place ν} {bs : List β}

theorem put_dirs (d : Files ν β) (x : Place ν) (bs : List β) :
    SameDirs d.tree (d.put x bs).tree := by
  unfold put
  split
  · next h => exact d.tree.touch_dirs x h
  · exact .refl _

theorem get_put (h : d.tree.Open x) : (d.put x bs).get x = some bs := by
  have hkind : (d.tree.touch x h).kind x = some .file := if_pos rfl
  unfold put
  rw [dif_pos h]
  unfold get
  rw [if_pos hkind]
  simp

theorem get_put_ne (h : y ≠ x) : (d.put x bs).get y = d.get y := by
  unfold put
  split
  · next ho =>
    have hkind : (d.tree.touch x ho).kind y = d.tree.kind y := if_neg h
    unfold get
    simp only [hkind, Function.update_of_ne h]
  · rfl

end Files

end FileTree
