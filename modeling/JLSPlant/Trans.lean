import Mathlib.Logic.Basic
/-!
# Trans — partial step machines, their runs, and what a run keeps

A machine steps a state by a label, or refuses the label (`none`).  A run is a list of labels.  An invariant is kept
by every step, and so by every run (`Machine.run_inv`); a condition asked of every step of a run is `Machine.Along`,
and an invariant kept by the steps that meet it holds at the end of such a run (`Machine.run_inv_along`).  A forward
simulation lifts from steps to runs (`Machine.Simulates.run`).
-/
namespace Trans

universe u v w

structure Machine (σ : Type u) (ι : Type v) where
  step : σ → ι → Option σ

namespace Machine

variable {σ : Type u} {ι : Type v} (M : Machine σ ι)

def run : σ → List ι → Option σ
  | s, [] => some s
  | s, i :: l => (M.step s i).bind (fun s' => run s' l)

def Reach (s₀ s : σ) : Prop := ∃ l, M.run s₀ l = some s

/-- **Every step of the run from `s` is taken where `P` holds** of the state before it and its label. -/
def Along (P : σ → ι → Prop) : σ → List ι → Prop
  | _, [] => True
  | s, i :: l => P s i ∧ ∀ s', M.step s i = some s' → Along P s' l

@[simp] theorem run_nil (s : σ) : M.run s [] = some s := rfl

theorem run_cons (s : σ) (i : ι) (l : List ι) : M.run s (i :: l) = (M.step s i).bind (fun s' => M.run s' l) := rfl

theorem run_cons_some {s t : σ} {i : ι} {l : List ι} (h : M.run s (i :: l) = some t) :
    ∃ s', M.step s i = some s' ∧ M.run s' l = some t :=
  Option.bind_eq_some_iff.1 h

theorem run_append : ∀ (l₁ l₂ : List ι) (s : σ), M.run s (l₁ ++ l₂) = (M.run s l₁).bind (fun s' => M.run s' l₂)
  | [], _, _ => rfl
  | i :: l₁, l₂, s => by
    rw [List.cons_append, run_cons, run_cons]
    cases M.step s i with
    | none => rfl
    | some s' => exact run_append l₁ l₂ s'

theorem run_append_some {s m t : σ} {l₁ l₂ : List ι} (h₁ : M.run s l₁ = some m) (h₂ : M.run m l₂ = some t) :
    M.run s (l₁ ++ l₂) = some t := by
  rw [run_append, h₁]; exact h₂

theorem run_append_inv {s t : σ} {l₁ l₂ : List ι} (h : M.run s (l₁ ++ l₂) = some t) :
    ∃ m, M.run s l₁ = some m ∧ M.run m l₂ = some t := by
  rw [run_append] at h
  exact Option.bind_eq_some_iff.1 h

theorem reach_refl (s : σ) : M.Reach s s := ⟨[], rfl⟩

theorem Reach.run {M : Machine σ ι} {s₀ s t : σ} {l : List ι} (h : M.Reach s₀ s) (hl : M.run s l = some t) :
    M.Reach s₀ t := by
  obtain ⟨l₀, h₀⟩ := h
  exact ⟨l₀ ++ l, M.run_append_some h₀ hl⟩

theorem Reach.step {M : Machine σ ι} {s₀ s t : σ} {i : ι} (h : M.Reach s₀ s) (hs : M.step s i = some t) :
    M.Reach s₀ t :=
  h.run (l := [i]) (by rw [run_cons, hs]; rfl)

/-- **The invariant rule**: what every step keeps, every run keeps. -/
theorem run_inv {Inv : σ → Prop} (hstep : ∀ s i s', Inv s → M.step s i = some s' → Inv s') :
    ∀ (l : List ι) (s t : σ), Inv s → M.run s l = some t → Inv t
  | [], _, _, hs, h => by cases h; exact hs
  | i :: l, s, t, hs, h => by
    obtain ⟨s', h₁, h₂⟩ := M.run_cons_some h
    exact run_inv hstep l s' t (hstep s i s' hs h₁) h₂

theorem Reach.inv {M : Machine σ ι} {Inv : σ → Prop} {s₀ s : σ} (h : M.Reach s₀ s) (h₀ : Inv s₀)
    (hstep : ∀ s i s', Inv s → M.step s i = some s' → Inv s') : Inv s := by
  obtain ⟨l, hl⟩ := h
  exact M.run_inv hstep l s₀ s h₀ hl

/-- **The invariant rule under a condition**: what every step that meets `P` keeps, every run whose steps all meet `P`
keeps. -/
theorem run_inv_along {Inv : σ → Prop} {P : σ → ι → Prop}
    (hstep : ∀ s i s', Inv s → P s i → M.step s i = some s' → Inv s') :
    ∀ (l : List ι) (s t : σ), Inv s → M.Along P s l → M.run s l = some t → Inv t
  | [], _, _, hs, _, h => by cases h; exact hs
  | i :: l, s, t, hs, ha, h => by
    obtain ⟨s', h₁, h₂⟩ := M.run_cons_some h
    exact run_inv_along hstep l s' t (hstep s i s' hs ha.1 h₁) (ha.2 s' h₁) h₂

theorem along_of_forall {P : σ → ι → Prop} {l : List ι} (h : ∀ i ∈ l, ∀ s, P s i) : ∀ s, M.Along P s l := by
  induction l with
  | nil => exact fun _ => trivial
  | cons i l ih =>
    exact fun s => ⟨h i List.mem_cons_self s, fun s' _ => ih (fun j hj => h j (List.mem_cons_of_mem _ hj)) s'⟩

theorem along_append {P : σ → ι → Prop} : ∀ {l₁ l₂ : List ι} {s : σ}, M.Along P s l₁ →
    (∀ m, M.run s l₁ = some m → M.Along P m l₂) → M.Along P s (l₁ ++ l₂)
  | [], _, s, _, h₂ => h₂ s rfl
  | i :: l₁, _, s, h₁, h₂ => ⟨h₁.1, fun s' hs => along_append (h₁.2 s' hs) fun m hm => h₂ m (by
      rw [run_cons, hs]; exact hm)⟩

/-- **Two conditions that agree at every step taken where an invariant holds agree along every run from it**, if the
labels of the run keep the invariant. -/
theorem along_congr (Inv : σ → Prop) (C : ι → Prop) {P Q : σ → ι → Prop}
    (hstep : ∀ s i s', Inv s → C i → M.step s i = some s' → Inv s')
    (hPQ : ∀ s i s', Inv s → M.step s i = some s' → (P s i ↔ Q s i)) :
    ∀ (l : List ι) (s t : σ), Inv s → (∀ i ∈ l, C i) → M.run s l = some t → (M.Along P s l ↔ M.Along Q s l)
  | [], _, _, _, _, _ => Iff.rfl
  | i :: l, s, t, hs, hC, hr => by
    obtain ⟨m, hm, hrest⟩ := M.run_cons_some hr
    have ih := along_congr Inv C hstep hPQ l m t (hstep s i m hs (hC i List.mem_cons_self) hm)
      (fun j hj => hC j (List.mem_cons_of_mem _ hj)) hrest
    have hhead := hPQ s i m hs hm
    have hnext : ∀ s', M.step s i = some s' → s' = m := fun s' h => Option.some.inj (h.symm.trans hm)
    constructor
    · rintro ⟨h₁, h₂⟩
      refine ⟨hhead.1 h₁, fun s' h => ?_⟩
      rw [hnext s' h]; exact ih.1 (h₂ m hm)
    · rintro ⟨h₁, h₂⟩
      refine ⟨hhead.2 h₁, fun s' h => ?_⟩
      rw [hnext s' h]; exact ih.2 (h₂ m hm)

/-- **A forward simulation** of the labels that meet `P`: `A` matches every such step of `M` under the label map `ρ`,
related state to related state. -/
structure Simulates {α : Type w} {κ : Type v} (A : Machine α κ) (P : ι → Prop) (R : σ → α → Prop) (ρ : ι → κ) :
    Prop where
  step : ∀ s a i s', P i → R s a → M.step s i = some s' → ∃ a', A.step a (ρ i) = some a' ∧ R s' a'

theorem Simulates.run {M : Machine σ ι} {α : Type w} {κ : Type v} {A : Machine α κ} {P : ι → Prop} {R : σ → α → Prop}
    {ρ : ι → κ} (h : M.Simulates A P R ρ) : ∀ (l : List ι) (s t : σ) (a : α), (∀ i ∈ l, P i) → R s a →
      M.run s l = some t → ∃ b, A.run a (l.map ρ) = some b ∧ R t b
  | [], s, t, a, _, hR, hr => by cases hr; exact ⟨a, rfl, hR⟩
  | i :: l, s, t, a, hP, hR, hr => by
    obtain ⟨s', h₁, h₂⟩ := M.run_cons_some hr
    obtain ⟨a', ha, hR'⟩ := h.step s a i s' (hP i List.mem_cons_self) hR h₁
    obtain ⟨b, hb, hRb⟩ := h.run l s' t a' (fun j hj => hP j (List.mem_cons_of_mem _ hj)) hR' h₂
    exact ⟨b, by rw [List.map_cons, run_cons, ha]; exact hb, hRb⟩

end Machine
end Trans
