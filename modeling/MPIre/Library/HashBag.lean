import Mathlib.Data.List.Nodup
import Mathlib.Data.List.Perm.Subperm
/-
# A bag of hashed entries seen as a map

The bag stores `(hash, entry)` pairs. It finds an entry by its hash and a
callback, and deletes one by its hash and its identity; it neither knows the key
of an entry nor keeps keys unique. A client that hashes every entry by one key
and never adds a key twice (`Sound`) uses it as the partial map `lookup`:
`lookup_add` and `del_lookup` are the map's laws, for every hash function, even
one under which all keys collide.
-/
namespace HashBag

variable {η κ ε : Type} [DecidableEq η]

abbrev Bag (η ε : Type) := List (η × ε)

/-- A stored entry of hash `h` that the callback accepts. -/
def find (b : Bag η ε) (h : η) (cmp : ε → Bool) : Option ε :=
  (b.find? fun x => x.1 == h && cmp x.2).map Prod.snd

def add (b : Bag η ε) (h : η) (e : ε) : Bag η ε := (h, e) :: b

/-- Remove the stored entry, `none` if it is not there. -/
def del [DecidableEq ε] (b : Bag η ε) (h : η) (e : ε) : Option (Bag η ε) :=
  if (h, e) ∈ b then some (b.erase (h, e)) else none

variable (hash : κ → η) (key : ε → κ)

/-- Entries are filed under the hash of their key, and no key occurs twice. -/
structure Sound (b : Bag η ε) : Prop where
  filed : ∀ x ∈ b, x.1 = hash (key x.2)
  nodup : (b.map fun x => key x.2).Nodup

/-- The client's view: look a key up by its hash. -/
def lookup [DecidableEq κ] (b : Bag η ε) (k : κ) : Option ε :=
  find b (hash k) fun e => key e == k

variable {hash key}

omit [DecidableEq η] in
theorem sound_nil : Sound hash key ([] : Bag η ε) := ⟨by simp, by simp⟩

theorem Sound.erase [DecidableEq ε] {b : Bag η ε} (hb : Sound hash key b) (x : η × ε) :
    Sound hash key (b.erase x) where
  filed y hy := hb.filed y (List.mem_of_mem_erase hy)
  nodup := hb.nodup.sublist (List.erase_sublist.map _)

theorem Sound.del [DecidableEq ε] {b b' : Bag η ε} (hb : Sound hash key b) {h : η} {e : ε}
    (hd : del b h e = some b') : Sound hash key b' := by
  unfold HashBag.del at hd
  split at hd
  · cases hd
    exact hb.erase _
  · cases hd

/-- A deletion takes one entry. -/
theorem length_del [DecidableEq ε] {b b' : Bag η ε} {h : η} {e : ε} (hd : del b h e = some b') :
    b'.length < b.length := by
  unfold HashBag.del at hd
  split at hd
  · rename_i hm
    cases hd
    rw [List.length_erase_of_mem hm]
    have hpos := List.length_pos_of_mem hm
    omega
  · cases hd

variable [DecidableEq κ]

/-- A key that occurs at most once is found exactly where it is stored. -/
theorem lookup_eq_some_iff {b : Bag η ε} (hb : Sound hash key b) {k : κ} {e : ε} :
    lookup hash key b k = some e ↔ (hash k, e) ∈ b ∧ key e = k := by
  unfold lookup find
  constructor
  · intro h
    obtain ⟨x, hx, rfl⟩ := Option.map_eq_some_iff.1 h
    have hp := List.find?_some hx
    simp only [Bool.and_eq_true, beq_iff_eq] at hp
    exact ⟨hp.1 ▸ List.mem_of_find?_eq_some hx, hp.2⟩
  · rintro ⟨hm, rfl⟩
    cases h : b.find? fun x => x.1 == hash (key e) && key x.2 == key e with
    | none =>
      rw [List.find?_eq_none] at h
      exact absurd (h _ hm) (by simp)
    | some x =>
      have hp := List.find?_some h
      simp only [Bool.and_eq_true, beq_iff_eq] at hp
      have hx := List.inj_on_of_nodup_map hb.nodup (List.mem_of_find?_eq_some h) hm hp.2
      simp [hx]

theorem lookup_eq_none_iff {b : Bag η ε} (hb : Sound hash key b) {k : κ} :
    lookup hash key b k = none ↔ ∀ x ∈ b, key x.2 ≠ k := by
  constructor
  · rintro h x hx rfl
    have hm : (hash (key x.2), x.2) ∈ b := by rw [← hb.filed x hx]; exact hx
    rw [(lookup_eq_some_iff hb).2 ⟨hm, rfl⟩] at h
    exact Option.some_ne_none _ h
  · intro h
    cases hl : lookup hash key b k with
    | none => rfl
    | some e =>
      obtain ⟨hm, hk⟩ := (lookup_eq_some_iff hb).1 hl
      exact absurd hk (h _ hm)

theorem Sound.add {b : Bag η ε} (hb : Sound hash key b) {e : ε}
    (h : lookup hash key b (key e) = none) : Sound hash key (add b (hash (key e)) e) where
  filed := by
    intro x hx
    rcases List.mem_cons.1 hx with rfl | hx
    · rfl
    · exact hb.filed x hx
  nodup := by
    simp only [HashBag.add, List.map_cons, List.nodup_cons, List.mem_map, not_exists, not_and]
    exact ⟨fun x hx => (lookup_eq_none_iff hb).1 h x hx, hb.nodup⟩

theorem lookup_add {b : Bag η ε} {e : ε} (k : κ) :
    lookup hash key (add b (hash (key e)) e) k =
      if key e = k then some e else lookup hash key b k := by
  unfold lookup find add
  rw [List.find?_cons]
  by_cases hk : key e = k
  · subst hk; simp
  · have hne : (key e == k) = false := by simpa using hk
    simp [hk, hne]

theorem lookup_erase [DecidableEq ε] {b : Bag η ε} (hb : Sound hash key b) {x : η × ε}
    (hx : x ∈ b) (k : κ) :
    lookup hash key (b.erase x) k = if key x.2 = k then none else lookup hash key b k := by
  ext e
  have hnd : b.Nodup := hb.nodup.of_map
  rw [lookup_eq_some_iff (hb.erase x), hnd.mem_erase_iff]
  by_cases hk : key x.2 = k
  · simp only [hk, ↓reduceIte, reduceCtorEq, iff_false]
    rintro ⟨⟨hne, hm⟩, he⟩
    exact hne (List.inj_on_of_nodup_map hb.nodup hm hx (he.trans hk.symm))
  · rw [if_neg hk, lookup_eq_some_iff hb]
    constructor
    · rintro ⟨⟨-, hm⟩, he⟩; exact ⟨hm, he⟩
    · rintro ⟨hm, rfl⟩
      exact ⟨⟨by rintro rfl; exact hk rfl, hm⟩, rfl⟩

/-- Deleting what a lookup returned always succeeds, and takes that key only. -/
theorem del_lookup [DecidableEq ε] {b : Bag η ε} (hb : Sound hash key b) {k : κ} {e : ε}
    (h : lookup hash key b k = some e) :
    ∃ b', del b (hash k) e = some b' ∧ Sound hash key b' ∧
      ∀ j, lookup hash key b' j = if k = j then none else lookup hash key b j := by
  obtain ⟨hm, hk⟩ := (lookup_eq_some_iff hb).1 h
  refine ⟨b.erase (hash k, e), by simp [del, hm], hb.erase _, fun j => ?_⟩
  rw [lookup_erase hb hm, hk]

/-- The entries of a key are what looking it up returns. -/
theorem entries_eq {b : Bag η ε} (hb : Sound hash key b) (k : κ) :
    b.filter (fun x => key x.2 = k) = (lookup hash key b k).toList.map fun e => (hash k, e) := by
  cases h : lookup hash key b k with
  | none =>
    have hno := (lookup_eq_none_iff hb).1 h
    simpa using fun η e he => hno (η, e) he
  | some e =>
    obtain ⟨hm, hk⟩ := (lookup_eq_some_iff hb).1 h
    have hall : ∀ x ∈ b.filter (fun x => key x.2 = k), x = (hash k, e) := by
      intro x hx
      obtain ⟨hx, hxk⟩ := List.mem_filter.1 hx
      exact List.inj_on_of_nodup_map hb.nodup hx hm ((of_decide_eq_true hxk).trans hk.symm)
    have hmem : (hash k, e) ∈ b.filter (fun x => key x.2 = k) :=
      List.mem_filter.2 ⟨hm, decide_eq_true hk⟩
    have hnd : (b.filter (fun x => key x.2 = k)).Nodup := hb.nodup.of_map.filter _
    have hrep := List.eq_replicate_of_mem hall
    rw [hrep] at hnd
    have hpos := List.length_pos_of_mem hmem
    have hle := List.nodup_replicate.1 hnd
    rw [hrep, Nat.le_antisymm hle hpos]
    rfl

/-- Deleting what a lookup returned leaves the entries of the other keys. -/
theorem erase_eq [DecidableEq ε] {b : Bag η ε} (hb : Sound hash key b) {k : κ} {e : ε}
    (h : lookup hash key b k = some e) :
    b.erase (hash k, e) = b.filter (fun x => key x.2 ≠ k) := by
  obtain ⟨hm, hk⟩ := (lookup_eq_some_iff hb).1 h
  rw [hb.nodup.of_map.erase_eq_filter]
  refine List.filter_congr fun x hx => ?_
  by_cases hxk : key x.2 = k
  · have hxe : x = (hash k, e) :=
      List.inj_on_of_nodup_map hb.nodup hx hm (hxk.trans hk.symm)
    simp [hxe, hk]
  · have hne : x ≠ (hash k, e) := by
      rintro rfl
      exact hxk hk
    simp [hne, hxk]

end HashBag
