import Mathlib.Data.Option.Basic
/-
# Runs of a partial step function

A program is a step function that may stop (`none`); a run feeds it a list of
inputs. `Along step ok s is` says that every step the run takes meets `ok`, a
condition on the state before the step and on the input.

The rules: an invariant that every good step keeps also shows that the run gets
through (`run_inv`), one that every step keeps holds wherever a run arrives
(`run_safe`), and a second machine follows the first one in lockstep (`run_sim`).
The simulation rule takes a property `F` of the first machine's states that goes
backwards along its runs: what the machine leaves behind for the second one to
read is only complete at the end, but says something about every state before.
`run_rel` is the rule for two machines that also stop together, and `run_own` the one for
a process among others.
-/
namespace Run

variable {σ τ ι : Type}

/-- Feed the inputs in order. -/
def run (step : σ → ι → Option σ) (s : σ) (is : List ι) : Option σ := is.foldlM step s

/-- Every step of the run from `s` meets `ok`. -/
def Along (step : σ → ι → Option σ) (ok : σ → ι → Prop) : σ → List ι → Prop
  | _, [] => True
  | s, i :: is => ok s i ∧ ∀ s' ∈ step s i, Along step ok s' is

variable {step : σ → ι → Option σ} {ok : σ → ι → Prop}

instance [∀ s i, Decidable (ok s i)] : ∀ s is, Decidable (Along step ok s is)
  | _, [] => isTrue trivial
  | s, i :: is =>
    have : ∀ s', Decidable (Along step ok s' is) := fun s' => instDecidableAlong s' is
    inferInstanceAs (Decidable (ok s i ∧ ∀ s' ∈ step s i, Along step ok s' is))

@[simp] theorem run_nil (s : σ) : run step s [] = some s := rfl

@[simp] theorem run_cons (s : σ) (i : ι) (is : List ι) :
    run step s (i :: is) = (step s i).bind fun s' => run step s' is := rfl

theorem run_append (s : σ) (is js : List ι) :
    run step s (is ++ js) = (run step s is).bind fun s' => run step s' js := by
  simp only [run, List.foldlM_append]; rfl

@[simp] theorem run_single (s : σ) (i : ι) : run step s [i] = step s i := by
  simp

/-- A run splits at any point. -/
theorem run_split {s s' : σ} {is js : List ι} (h : run step s (is ++ js) = some s') :
    ∃ m, run step s is = some m ∧ run step m js = some s' := by
  rw [run_append, Option.bind_eq_some_iff] at h
  exact h

theorem Along.cons {s s' : σ} {i : ι} {is : List ι} (h : Along step ok s (i :: is))
    (hs : step s i = some s') : Along step ok s' is := h.2 s' hs

theorem Along.append {s s' : σ} {is js : List ι} (h : Along step ok s (is ++ js))
    (hs : run step s is = some s') : Along step ok s' js := by
  induction is generalizing s with
  | nil => cases hs; exact h
  | cons i is ih =>
    obtain ⟨m, hm, hs⟩ := Option.bind_eq_some_iff.1 hs
    exact ih (h.2 m hm) hs

theorem Along.left {s : σ} {is js : List ι} (h : Along step ok s (is ++ js)) :
    Along step ok s is := by
  induction is generalizing s with
  | nil => trivial
  | cons i is ih => exact ⟨h.1, fun m hm => ih (h.2 m hm)⟩

theorem Along.mono {ok' : σ → ι → Prop} (hok : ∀ s i, ok s i → ok' s i) {s : σ} {is : List ι}
    (h : Along step ok s is) : Along step ok' s is := by
  induction is generalizing s with
  | nil => trivial
  | cons i is ih => exact ⟨hok _ _ h.1, fun m hm => ih (h.2 m hm)⟩

theorem Along.and {ok' : σ → ι → Prop} {s : σ} {is : List ι} (h : Along step ok s is)
    (h' : Along step ok' s is) : Along step (fun s i => ok s i ∧ ok' s i) s is := by
  induction is generalizing s with
  | nil => trivial
  | cons i is ih => exact ⟨⟨h.1, h'.1⟩, fun m hm => ih (h.2 m hm) (h'.2 m hm)⟩

/-- Every step is one that follows some prefix. -/
theorem along_iff {s : σ} {is : List ι} : Along step ok s is ↔
    ∀ pre i post, is = pre ++ i :: post → ∀ m, run step s pre = some m → ok m i := by
  induction is generalizing s with
  | nil => exact iff_of_true trivial fun pre i post h => by simp at h
  | cons j is ih =>
    constructor
    · rintro ⟨hok, hs⟩ pre i post h m hm
      cases pre with
      | nil =>
        cases h
        cases hm
        exact hok
      | cons k pre =>
        obtain ⟨rfl, hrest⟩ := List.cons.inj h
        obtain ⟨s', hs', hm⟩ := Option.bind_eq_some_iff.1 hm
        exact ih.1 (hs s' hs') pre i post hrest m hm
    · intro h
      refine ⟨h [] j is rfl s rfl, fun s' hs' => ih.2 fun pre i post he m hm => ?_⟩
      refine h (j :: pre) i post (by rw [he]; rfl) m ?_
      rw [run_cons, hs']
      exact hm

/-- Nothing is asked of the steps. -/
theorem along_true (s : σ) (is : List ι) : Along step (fun _ _ => True) s is := by
  induction is generalizing s with
  | nil => trivial
  | cons i is ih => exact ⟨trivial, fun m _ => ih m⟩

/-- What all inputs meet may be asked of every step. -/
theorem along_and_mem {p : ι → Prop} {s : σ} {is : List ι} (hp : ∀ i ∈ is, p i)
    (h : Along step ok s is) : Along step (fun s i => p i ∧ ok s i) s is := by
  induction is generalizing s with
  | nil => trivial
  | cons i is ih =>
    exact ⟨⟨hp i (by simp), h.1⟩, fun m hm => ih (fun j hj => hp j (by simp [hj])) (h.2 m hm)⟩

/-- The invariance rule: good steps keep `I` and do not stop, so a good run
gets through and ends in `I`. -/
theorem run_inv {I : σ → Prop}
    (hstep : ∀ s i, I s → ok s i → ∃ s', step s i = some s' ∧ I s')
    {s : σ} {is : List ι} (hs : I s) (h : Along step ok s is) :
    ∃ s', run step s is = some s' ∧ I s' := by
  induction is generalizing s with
  | nil => exact ⟨s, rfl, hs⟩
  | cons i is ih =>
    obtain ⟨m, hm, hi⟩ := hstep s i hs h.1
    obtain ⟨s', hr, hi'⟩ := ih hi (h.2 m hm)
    exact ⟨s', by rw [run_cons, hm]; exact hr, hi'⟩

/-- The safety rule: what every step keeps holds wherever a run arrives. -/
theorem run_safe {I : σ → Prop}
    (hstep : ∀ s i s', I s → ok s i → step s i = some s' → I s')
    {s s' : σ} {is : List ι} (hs : I s) (h : Along step ok s is)
    (hr : run step s is = some s') : I s' := by
  induction is generalizing s with
  | nil => cases hr; exact hs
  | cons i is ih =>
    obtain ⟨m, hm, hr⟩ := Option.bind_eq_some_iff.1 hr
    exact ih (hstep s i m hs h.1 hm) (h.2 m hm) hr

/-- The steps of a good run also meet the invariant. -/
theorem Along.and_inv {I : σ → Prop}
    (hstep : ∀ s i s', I s → ok s i → step s i = some s' → I s')
    {s : σ} {is : List ι} (hs : I s) (h : Along step ok s is) :
    Along step (fun s i => I s ∧ ok s i) s is := by
  induction is generalizing s with
  | nil => trivial
  | cons i is ih => exact ⟨⟨hs, h.1⟩, fun m hm => ih (hstep s i m hs h.1 hm) (h.2 m hm)⟩

/-- A property that goes backwards along good steps goes backwards along good runs. -/
theorem run_back {F : σ → Prop}
    (hback : ∀ s i s', ok s i → step s i = some s' → F s' → F s)
    {s s' : σ} {is : List ι} (h : Along step ok s is) (hr : run step s is = some s')
    (hF : F s') : F s := by
  induction is generalizing s with
  | nil => cases hr; exact hF
  | cons i is ih =>
    obtain ⟨m, hm, hr⟩ := Option.bind_eq_some_iff.1 hr
    exact hback s i m h.1 hm (ih (h.2 m hm) hr)

/-- The lockstep rule: the second machine takes the same inputs and stays related. -/
theorem run_sim {step₂ : τ → ι → Option τ} {R : σ → τ → Prop} {F : σ → Prop}
    (hback : ∀ s i s', ok s i → step s i = some s' → F s' → F s)
    (hstep : ∀ s t i s', R s t → ok s i → step s i = some s' → F s' →
      ∃ t', step₂ t i = some t' ∧ R s' t')
    {s s' : σ} {t : τ} {is : List ι} (hR : R s t) (h : Along step ok s is)
    (hr : run step s is = some s') (hF : F s') :
    ∃ t', run step₂ t is = some t' ∧ R s' t' := by
  induction is generalizing s t with
  | nil => cases hr; exact ⟨t, rfl, hR⟩
  | cons i is ih =>
    obtain ⟨m, hm, hr⟩ := Option.bind_eq_some_iff.1 hr
    have hFm := run_back hback (h.2 m hm) hr hF
    obtain ⟨t₁, ht₁, hR₁⟩ := hstep s t i m hR h.1 hm hFm
    obtain ⟨t', ht', hR'⟩ := ih hR₁ (h.2 m hm) hr
    exact ⟨t', by rw [run_cons, ht₁]; exact ht', hR'⟩

/-! ## Both stop or neither -/

/-- Related results stay related through a continuation that keeps them so. -/
theorem rel_bind {σ' τ' : Type} {R : σ → τ → Prop} {S : σ' → τ' → Prop} {x : Option σ}
    {y : Option τ} {f : σ → Option σ'} {g : τ → Option τ'} (h : Option.Rel R x y)
    (hfg : ∀ a b, R a b → Option.Rel S (f a) (g b)) : Option.Rel S (x.bind f) (y.bind g) := by
  cases h with
  | some h => exact hfg _ _ h
  | none => exact .none

theorem rel_imp {R S : σ → τ → Prop} {x : Option σ} {y : Option τ} (h : Option.Rel R x y)
    (hRS : ∀ a b, R a b → S a b) : Option.Rel S x y := by
  cases h with
  | some h => exact .some (hRS _ _ h)
  | none => exact .none

/-- What the first machine does on its own may be added. -/
theorem rel_and {R : σ → τ → Prop} {p : σ → Prop} {x : Option σ} {y : Option τ}
    (h : Option.Rel R x y) (hp : ∀ a, x = some a → p a) :
    Option.Rel (fun a b => R a b ∧ p a) x y := by
  cases h with
  | some h => exact .some ⟨h, hp _ rfl⟩
  | none => exact .none

theorem rel_swap {R : σ → τ → Prop} {x : Option σ} {y : Option τ} (h : Option.Rel R x y) :
    Option.Rel (fun b a => R a b) y x := by
  cases h with
  | some h => exact .some h
  | none => exact .none

theorem rel_map {σ' τ' : Type} {R : σ → τ → Prop} {S : σ' → τ' → Prop} {x : Option σ}
    {y : Option τ} {f : σ → σ'} {g : τ → τ'} (h : Option.Rel R x y)
    (hfg : ∀ a b, R a b → S (f a) (g b)) : Option.Rel S (x.map f) (y.map g) := by
  cases h with
  | some h => exact .some (hfg _ _ h)
  | none => exact .none

/-- A result of the second machine comes with one of the first. -/
theorem exists_of_rel {R : σ → τ → Prop} {x : Option σ} {t : τ} (h : Option.Rel R x (some t)) :
    ∃ s, x = some s ∧ R s t := by
  cases h with
  | some h => exact ⟨_, rfl, h⟩

/-- The bisimulation rule: two machines that stop together and stay related in every
step do so over every run. -/
theorem run_rel {step₂ : τ → ι → Option τ} {R : σ → τ → Prop} {p : ι → Prop}
    (hstep : ∀ s t i, R s t → p i → Option.Rel R (step s i) (step₂ t i)) {s : σ} {t : τ}
    {is : List ι} (h : R s t) (hp : ∀ i ∈ is, p i) :
    Option.Rel R (run step s is) (run step₂ t is) := by
  induction is generalizing s t with
  | nil => exact .some h
  | cons i is ih =>
    rw [run_cons, run_cons]
    exact rel_bind (hstep s t i h (hp i (by simp))) fun s' t' h' =>
      ih h' fun j hj => hp j (by simp [hj])

/-- The same, when both do so in good steps of the first one. -/
theorem run_rel_along {step₂ : τ → ι → Option τ} {R : σ → τ → Prop}
    (hstep : ∀ s t i, R s t → ok s i → Option.Rel R (step s i) (step₂ t i)) {s : σ} {t : τ}
    {is : List ι} (h : R s t) (hs : Along step ok s is) :
    Option.Rel R (run step s is) (run step₂ t is) := by
  induction is generalizing s t with
  | nil => exact .some h
  | cons i is ih =>
    rw [run_cons, run_cons]
    have hrel := hstep s t i h hs.1
    have hnext := hs.2
    generalize step s i = x at hrel hnext
    generalize step₂ t i = y at hrel
    cases hrel with
    | none => exact .none
    | some h' => exact ih h' (hnext _ rfl)

/-- A good run of the first machine is a good one of the second. -/
theorem Along.rel {step₂ : τ → ι → Option τ} {R : σ → τ → Prop} {ok₂ : τ → ι → Prop}
    (hstep : ∀ s t i, R s t → ok s i → Option.Rel R (step s i) (step₂ t i))
    (hok : ∀ s t i, R s t → ok s i → ok₂ t i) {s : σ} {t : τ} {is : List ι} (h : R s t)
    (hs : Along step ok s is) : Along step₂ ok₂ t is := by
  induction is generalizing s t with
  | nil => trivial
  | cons i is ih =>
    refine ⟨hok s t i h hs.1, fun t' ht' => ?_⟩
    have hrel := hstep s t i h hs.1
    rw [Option.mem_def.1 ht'] at hrel
    obtain ⟨s', hs', h'⟩ := exists_of_rel hrel
    exact ih h' (hs.2 s' hs')

/-- The homomorphism rule: a map that commutes with every step does so with every run. -/
theorem run_map {step₂ : τ → ι → Option τ} {f : σ → τ}
    (h : ∀ s i, step₂ (f s) i = (step s i).map f) (s : σ) (is : List ι) :
    run step₂ (f s) is = (run step s is).map f := by
  induction is generalizing s with
  | nil => rfl
  | cons i is ih =>
    rw [run_cons, run_cons, h]
    cases step s i with
    | none => rfl
    | some m => exact ih m

/-! ## Interleavings -/

/-- The inputs of one process, in their order. -/
def own {κ : Type} [DecidableEq κ] (k : κ) (is : List (κ × ι)) : List ι :=
  is.filterMap fun x => if x.1 = k then some x.2 else none

section Own

variable {κ : Type} [DecidableEq κ] {k : κ}

@[simp] theorem own_nil : own k ([] : List (κ × ι)) = [] := rfl

theorem own_cons_self (e : ι) (is : List (κ × ι)) : own k ((k, e) :: is) = e :: own k is :=
  List.filterMap_cons_some (if_pos rfl)

theorem own_cons_ne {i : κ} (h : i ≠ k) (e : ι) (is : List (κ × ι)) :
    own k ((i, e) :: is) = own k is := List.filterMap_cons_none (if_neg h)

/-- Up to the first input of a process there are only others'. -/
theorem own_split {is : List (κ × ι)} {e : ι} {es : List ι} (h : own k is = e :: es) :
    ∃ pre post, is = pre ++ (k, e) :: post ∧ own k pre = [] ∧ own k post = es := by
  obtain ⟨pre, ⟨i, e'⟩, post, rfl, hpre, he, hpost⟩ := List.filterMap_eq_cons_iff.1 h
  obtain ⟨rfl, rfl⟩ : i = k ∧ e' = e := by
    by_cases hi : i = k
    · exact ⟨hi, Option.some.inj ((if_pos hi).symm.trans he)⟩
    · cases (if_neg hi).symm.trans he
  exact ⟨pre, post, rfl, List.filterMap_eq_nil_iff.2 hpre, hpost⟩

/-- The interleaving rule: what the others do keeps a process related to a machine of its own,
which takes a step when the process does. So it goes along with the inputs of the process. -/
theorem run_own {step : σ → κ × ι → Option σ} {f : τ → ι → Option τ} {R : σ → τ → Prop}
    {p : τ → ι → Prop}
    (hother : ∀ s t i e s', R s t → i ≠ k → step s (i, e) = some s' → R s' t)
    (hown : ∀ s t e s', R s t → p t e → step s (k, e) = some s' →
      ∃ t', f t e = some t' ∧ R s' t')
    {s s' : σ} {t : τ} {is : List (κ × ι)} (hR : R s t) (h : Along f p t (own k is))
    (hr : run step s is = some s') : ∃ t', run f t (own k is) = some t' ∧ R s' t' := by
  induction is generalizing s t with
  | nil =>
    cases hr
    exact ⟨t, rfl, hR⟩
  | cons x is ih =>
    obtain ⟨i, e⟩ := x
    obtain ⟨m, hm, hr⟩ := Option.bind_eq_some_iff.1 hr
    by_cases hi : i = k
    · subst hi
      rw [own_cons_self] at h ⊢
      obtain ⟨t₁, ht₁, hR₁⟩ := hown s t e m hR h.1 hm
      obtain ⟨t', ht', hR'⟩ := ih hR₁ (h.2 t₁ ht₁) hr
      exact ⟨t', by rw [run_cons, ht₁]; exact ht', hR'⟩
    · rw [own_cons_ne hi] at h ⊢
      exact ih (hother s t i e m hR hi hm) h hr

/-- What the others keep they keep together. -/
theorem run_others {step : σ → κ × ι → Option σ} {P : σ → Prop}
    (hP : ∀ s i e s', P s → i ≠ k → step s (i, e) = some s' → P s') {s s' : σ}
    {is : List (κ × ι)} (hs : P s) (h : own k is = []) (hr : run step s is = some s') : P s' := by
  obtain ⟨-, -, hs'⟩ := run_own (k := k) (f := fun (_ : Unit) _ => none) (p := fun _ _ => False)
    (R := fun s _ => P s) (fun s _ i e s' => hP s i e s') (fun _ _ _ _ _ hno _ => absurd hno id)
    (t := ()) hs (by rw [h]; trivial) hr
  exact hs'

end Own

end Run
