import Mathlib.Logic.Function.Basic
import Mathlib.Logic.Nontrivial.Basic
/-
# Gathering and scattering the cells of a memory

A memory is a function from places to values. A transfer names the places it
touches as a list: `gather` reads them out in order, `scatter` stores a list of
values back, and `overlay` is the effect of a completed round trip. Nothing is
assumed of the list: places may repeat, and the values may run out early.

Main result `scatter_gather`: scattering what was gathered over the same places
copies exactly those places, whatever follows the gathered values.
-/
namespace Gather

variable {α β : Type}

/-- The values at the listed places, in order. -/
def gather (m : α → β) (ps : List α) : List β := ps.map m

@[simp] theorem length_gather (m : α → β) (ps : List α) :
    (gather m ps).length = ps.length := by simp [gather]

variable [DecidableEq α]

/-- Store the values one after another; stops when either list runs out. -/
def scatter (m : α → β) : List α → List β → α → β
  | p :: ps, v :: vs => scatter (Function.update m p v) ps vs
  | _, _ => m

/-- Memory `m₀` with the listed places taken from `m₁`. -/
def overlay (ps : List α) (m₁ m₀ : α → β) : α → β :=
  fun a => if a ∈ ps then m₁ a else m₀ a

/-- Memory `m` after an arrival that may change the listed places only. -/
def deliver (arrives : α → Option β) (ps : List α) (m : α → β) : α → β :=
  fun a => if a ∈ ps then (arrives a).getD (m a) else m a

@[simp] theorem overlay_nil (m₁ m₀ : α → β) : overlay [] m₁ m₀ = m₀ := by
  funext a; simp [overlay]

theorem overlay_mem {ps : List α} {m₁ m₀ : α → β} {a : α} (h : a ∈ ps) :
    overlay ps m₁ m₀ a = m₁ a := by simp [overlay, h]

theorem overlay_not_mem {ps : List α} {m₁ m₀ : α → β} {a : α} (h : a ∉ ps) :
    overlay ps m₁ m₀ a = m₀ a := by simp [overlay, h]

/-- Two overlays from one source are one overlay. -/
theorem overlay_append (ps qs : List α) (m₁ m₀ : α → β) :
    overlay qs m₁ (overlay ps m₁ m₀) = overlay (ps ++ qs) m₁ m₀ := by
  funext a
  by_cases hq : a ∈ qs
  · simp [overlay, hq]
  · by_cases hp : a ∈ ps <;> simp [overlay, hp, hq]

/-- An overlay that covers every difference is the source itself. -/
theorem overlay_eq {ps : List α} {m₁ m₀ : α → β} (h : ∀ a, a ∉ ps → m₁ a = m₀ a) :
    overlay ps m₁ m₀ = m₁ := by
  funext a
  by_cases ha : a ∈ ps
  · exact overlay_mem ha
  · rw [overlay_not_mem ha, h a ha]

/-- A value stored at `p` is no change to an overlay that copies `p` anyway. -/
theorem overlay_update (p : α) (ps : List α) (m₁ m₀ : α → β) :
    overlay ps m₁ (Function.update m₀ p (m₁ p)) = overlay (p :: ps) m₁ m₀ := by
  funext a
  by_cases hp : a = p
  · subst hp; simp [overlay]
  · by_cases ha : a ∈ ps <;> simp [overlay, hp, ha]

/-- The round trip: scattering gathered values copies exactly the places they
came from; values past the last place are never looked at. -/
theorem scatter_gather (m₁ : α → β) (tail : List β) :
    ∀ (ps : List α) (m₀ : α → β), scatter m₀ ps (gather m₁ ps ++ tail) = overlay ps m₁ m₀
  | [], m₀ => by simp [scatter]
  | p :: ps, m₀ => by
    have ih := scatter_gather m₁ tail ps (Function.update m₀ p (m₁ p))
    simp only [gather, List.map_cons, List.cons_append, scatter] at ih ⊢
    rw [ih, overlay_update]

theorem scatter_not_mem : ∀ (ps : List α) (vs : List β) {m : α → β} {a : α}, a ∉ ps →
    scatter m ps vs a = m a
  | [], _, _, _, _ => by simp [scatter]
  | _ :: _, [], _, _, _ => by simp [scatter]
  | p :: ps, v :: vs, m, a, h => by
    have hp : a ≠ p := fun e => h (List.mem_cons.2 (.inl e))
    have hps : a ∉ ps := fun e => h (List.mem_cons_of_mem p e)
    rw [scatter, scatter_not_mem ps vs hps, Function.update_of_ne hp]

/-- With enough values, every listed place gets one of them. -/
theorem scatter_mem : ∀ (ps : List α) (vs : List β) {m : α → β} {a : α},
    ps.length ≤ vs.length → a ∈ ps → scatter m ps vs a ∈ vs
  | p :: ps, v :: vs, m, a, hl, ha => by
    by_cases hps : a ∈ ps
    · have ih := scatter_mem ps vs (m := Function.update m p v) (by simpa using hl) hps
      exact List.mem_cons_of_mem v ih
    · obtain rfl : a = p := (List.mem_cons.1 ha).resolve_right hps
      rw [scatter, scatter_not_mem ps vs hps, Function.update_self]
      exact List.mem_cons_self
  | _ :: _, [], _, _, hl, _ => by simp at hl

theorem scatter_nil (m : α → β) (ps : List α) : scatter m ps [] = m := by
  cases ps <;> rfl

/-- A place depends on what it held itself. -/
theorem scatter_congr : ∀ (ps : List α) (vs : List β) {m m' : α → β} {a : α}, m a = m' a →
    scatter m ps vs a = scatter m' ps vs a
  | [], _, _, _, _, h => by simpa [scatter] using h
  | _ :: _, [], _, _, _, h => by simpa [scatter] using h
  | p :: ps, v :: vs, m, m', a, h => by
    rw [scatter, scatter]
    refine scatter_congr ps vs ?_
    by_cases hp : a = p
    · subst hp
      rw [Function.update_self, Function.update_self]
    · rw [Function.update_of_ne hp, Function.update_of_ne hp, h]

/-- Values that fit their places can be told apart by storing them. -/
theorem scatter_inj [Nontrivial β] :
    ∀ (ps : List α) (vs ws : List β), ps.Nodup → vs.length ≤ ps.length → ws.length ≤ ps.length →
      (∀ (m : α → β), ∀ a ∈ ps, scatter m ps vs a = scatter m ps ws a) → vs = ws
  | [], vs, ws, _, hv, hw, _ => by
    rw [List.eq_nil_of_length_eq_zero (Nat.le_zero.1 hv),
      List.eq_nil_of_length_eq_zero (Nat.le_zero.1 hw)]
  | p :: ps, [], [], _, _, _, _ => rfl
  | p :: ps, v :: vs, [], hn, _, _, h => by
    obtain ⟨hp, -⟩ := List.nodup_cons.1 hn
    obtain ⟨u, hu⟩ := exists_ne v
    have hpu := h (fun _ => u) p List.mem_cons_self
    rw [scatter_nil, scatter, scatter_not_mem ps vs hp, Function.update_self] at hpu
    exact absurd hpu.symm hu
  | p :: ps, [], w :: ws, hn, _, _, h => by
    obtain ⟨hp, -⟩ := List.nodup_cons.1 hn
    obtain ⟨u, hu⟩ := exists_ne w
    have hpu := h (fun _ => u) p List.mem_cons_self
    rw [scatter_nil, scatter, scatter_not_mem ps ws hp, Function.update_self] at hpu
    exact absurd hpu hu
  | p :: ps, v :: vs, w :: ws, hn, hv, hw, h => by
    obtain ⟨hp, hn⟩ := List.nodup_cons.1 hn
    have hvw : v = w := by
      have hpv := h (fun _ => v) p List.mem_cons_self
      rw [scatter, scatter, scatter_not_mem ps vs hp, scatter_not_mem ps ws hp,
        Function.update_self, Function.update_self] at hpv
      exact hpv
    have hrest := scatter_inj ps vs ws hn (by simpa using hv) (by simpa using hw) fun m a ha => by
      have hne : a ≠ p := ne_of_mem_of_not_mem ha hp
      have hall := h m a (List.mem_cons_of_mem p ha)
      have hm : ∀ (u : β), m a = Function.update m p u a := fun u =>
        (Function.update_of_ne hne u m).symm
      rw [scatter, scatter] at hall
      rw [scatter_congr ps vs (hm v), scatter_congr ps ws (hm w)]
      exact hall
    rw [hvw, hrest]

theorem deliver_not_mem {arrives : α → Option β} {ps : List α} {m : α → β} {a : α}
    (h : a ∉ ps) : deliver arrives ps m a = m a := by simp [deliver, h]

end Gather
