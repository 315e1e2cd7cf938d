import MPIre.Library.Gather
/-
# A numbered record store

Records are byte files with a number for a name. Writing one at offset 0
replaces the bytes it covers and keeps the rest of an older, longer file. A
session appends records at consecutive numbers; `append` is its whole effect and
`Holds` is what a reader needs of it: each number starts with its own payload.

The rules: what a session leaves alone (`append_before`, `append_after`), how
sessions compose (`append_append`), and that they can be read back
(`holds_append`, `Holds.of_eq`). `layer f w` is the store `f` under the session that
would have left `w` in an empty one (`write_layer`), and `rest f w` what still shows of
`f` (`layer_eq_iff`).
-/
namespace Journal

variable {β : Type}

/-- Bytes `new` written at offset 0 over a file that held `old`. -/
def overwrite (old new : List β) : List β := new ++ old.drop new.length

/-- Create record `n` if it is absent and write `new` at its start. -/
def write (f : Nat → Option (List β)) (n : Nat) (new : List β) : Nat → Option (List β) :=
  Function.update f n (some (overwrite ((f n).getD []) new))

/-- Write consecutive records from number `n` on. -/
def append (f : Nat → Option (List β)) : Nat → List (List β) → Nat → Option (List β)
  | _, [] => f
  | n, p :: ps => append (write f n p) (n + 1) ps

/-- The records from number `n` on start with the given payloads. -/
def Holds (f : Nat → Option (List β)) (n : Nat) (ps : List (List β)) : Prop :=
  ∀ i (h : i < ps.length), ∃ tail, f (n + i) = some (ps[i] ++ tail)

@[simp] theorem write_self (f : Nat → Option (List β)) (n : Nat) (new : List β) :
    write f n new n = some (overwrite ((f n).getD []) new) := by simp [write]

theorem write_ne {f : Nat → Option (List β)} {n i : Nat} (h : i ≠ n) (new : List β) :
    write f n new i = f i := by simp [write, h]

@[simp] theorem append_nil (f : Nat → Option (List β)) (n : Nat) : append f n [] = f := rfl

@[simp] theorem append_cons (f : Nat → Option (List β)) (n : Nat) (p : List β)
    (ps : List (List β)) : append f n (p :: ps) = append (write f n p) (n + 1) ps := rfl

theorem append_append (ps qs : List (List β)) (f : Nat → Option (List β)) (n : Nat) :
    append f n (ps ++ qs) = append (append f n ps) (n + ps.length) qs := by
  induction ps generalizing f n with
  | nil => simp
  | cons p ps ih => simp only [List.cons_append, append_cons, ih, List.length_cons]; congr 1; omega

theorem append_before {i n : Nat} (h : i < n) (ps : List (List β)) (f : Nat → Option (List β)) :
    append f n ps i = f i := by
  induction ps generalizing f n with
  | nil => rfl
  | cons p ps ih => rw [append_cons, ih (by omega), write_ne (by omega)]

theorem append_after {i n : Nat} {ps : List (List β)} (h : n + ps.length ≤ i)
    (f : Nat → Option (List β)) : append f n ps i = f i := by
  induction ps generalizing f n with
  | nil => rfl
  | cons p ps ih =>
    simp only [List.length_cons] at h
    rw [append_cons, ih (by omega), write_ne (by omega)]

/-- Every record of a session is its payload over whatever the file held before. -/
theorem append_get (ps : List (List β)) (f : Nat → Option (List β)) (n i : Nat)
    (h : i < ps.length) :
    append f n ps (n + i) = some (overwrite ((f (n + i)).getD []) ps[i]) := by
  induction ps generalizing f n i with
  | nil => simp at h
  | cons p ps ih =>
    cases i with
    | zero => rw [append_cons, append_before (by omega)]; simp
    | succ i =>
      have hi : i < ps.length := by simpa using h
      have hn : n + (i + 1) = n + 1 + i := by omega
      rw [append_cons, hn, ih _ _ _ hi, write_ne (by omega)]
      simp

/-- A session can be read back. -/
theorem holds_append (f : Nat → Option (List β)) (n : Nat) (ps : List (List β)) :
    Holds (append f n ps) n ps := fun i h => ⟨_, append_get ps f n i h⟩

/-- Reading back only looks at the session's own numbers. -/
theorem Holds.of_eq {f g : Nat → Option (List β)} {n : Nat} {ps : List (List β)}
    (h : Holds f n ps) (e : ∀ i, n ≤ i → i < n + ps.length → g i = f i) : Holds g n ps := by
  intro i hi
  obtain ⟨tail, ht⟩ := h i hi
  exact ⟨tail, by rw [e (n + i) (by omega) (by omega), ht]⟩

theorem holds_cons {f : Nat → Option (List β)} {n : Nat} {p : List β} {ps : List (List β)} :
    Holds f n (p :: ps) ↔ (∃ tail, f n = some (p ++ tail)) ∧ Holds f (n + 1) ps := by
  constructor
  · intro h
    obtain ⟨tail, h0⟩ := h 0 (by simp)
    refine ⟨⟨tail, by simpa using h0⟩, fun i hi => ?_⟩
    obtain ⟨tail, hi'⟩ := h (i + 1) (by simpa using hi)
    exact ⟨tail, by simpa [Nat.add_assoc, Nat.add_comm 1 i] using hi'⟩
  · rintro ⟨h0, h⟩ i hi
    cases i with
    | zero => simpa using h0
    | succ i =>
      obtain ⟨tail, hi'⟩ := h i (by simpa using hi)
      exact ⟨tail, by simpa [Nat.add_assoc, Nat.add_comm 1 i] using hi'⟩

/-- The records of `f` under those of `w`, as if `w` had been written over `f`. -/
def layer (f w : Nat → Option (List β)) (i : Nat) : Option (List β) :=
  match w i with
  | none => f i
  | some p => some (overwrite ((f i).getD []) p)

/-- What of `f` the records of `w` do not cover. -/
def rest (f w : Nat → Option (List β)) (i : Nat) : Option (List β) :=
  match w i with
  | none => f i
  | some p => some (((f i).getD []).drop p.length)

theorem overwrite_overwrite (old p q : List β) :
    overwrite (overwrite old p) q = overwrite old (overwrite p q) := by
  unfold overwrite
  rw [List.drop_append, List.drop_drop, List.append_assoc, List.length_append, List.length_drop]
  congr 3
  omega

/-- Writing over a store is writing into the layer above it. -/
theorem write_layer (f w : Nat → Option (List β)) (n : Nat) (new : List β) :
    write (layer f w) n new = layer f (write w n new) := by
  funext i
  by_cases hi : i = n
  · subst hi
    unfold layer
    rw [write_self, write_self]
    cases w i with
    | none => simp [overwrite]
    | some p => simp [overwrite_overwrite]
  · unfold layer
    rw [write_ne hi, write_ne hi]

theorem layer_eq (f w : Nat → Option (List β)) (i : Nat) :
    layer f w i = (rest f w i).map ((w i).getD [] ++ ·) := by
  unfold layer rest
  cases w i <;> simp [overwrite]

theorem isSome_layer (f w : Nat → Option (List β)) (i : Nat) :
    (layer f w i).isSome = (rest f w i).isSome := by
  rw [layer_eq, Option.isSome_map]

/-- Two stores under one layer differ where they show. -/
theorem layer_eq_iff {f g w : Nat → Option (List β)} {i : Nat} :
    layer f w i = layer g w i ↔ rest f w i = rest g w i := by
  rw [layer_eq, layer_eq]
  exact (Option.map_injective fun _ _ h => List.append_cancel_left h).eq_iff

end Journal
