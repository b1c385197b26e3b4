import Mathlib.Logic.Function.Basic
import JLSPlant.Trans
/-!
# Threads — programs over a shared state, any number of threads interleaved, and resources threads own

A program says what one atomic step of a thread does to the thread's place in it and to the shared state; `machine`
takes such steps of any thread in any order, and `alone` is one thread without the others.  A thread may own a
resource where it stands.  `Ownership.Inv` asks that no two own the same one, and that each resource is as its owner
needs it, or as it is at rest; `Ownership.Inv.move` keeps it through a step that touches no other resource.
-/
namespace Threads

open Function (update)

universe u

/-- A thread's code: its places `κ`, the operations `ω` it can start where it stands, and its atomic steps. -/
structure Program (σ κ ω : Type u) where
  start : σ → κ → ω → Option (κ × σ)
  step : σ → κ → Option (κ × σ)

structure Pool (τ κ σ : Type u) where
  pc : τ → κ
  shared : σ

inductive Act (τ ω : Type u)
  | start (thread : τ) (op : ω)
  | step (thread : τ)

def Act.thread {τ ω : Type u} : Act τ ω → τ
  | .start θ _ => θ
  | .step θ    => θ

variable {σ κ ω τ : Type u}

def Pool.move [DecidableEq τ] (p : Pool τ κ σ) (θ : τ) (k : κ) (s : σ) : Pool τ κ σ := ⟨update p.pc θ k, s⟩

@[simp] theorem Pool.move_shared [DecidableEq τ] (p : Pool τ κ σ) (θ : τ) (k : κ) (s : σ) :
    (p.move θ k s).shared = s :=
  rfl

@[simp] theorem Pool.move_pc_self [DecidableEq τ] (p : Pool τ κ σ) (θ : τ) (k : κ) (s : σ) :
    (p.move θ k s).pc θ = k := Function.update_self _ _ _

theorem Pool.move_pc_of_ne [DecidableEq τ] (p : Pool τ κ σ) {θ θ' : τ} (h : θ' ≠ θ) (k : κ) (s : σ) :
    (p.move θ k s).pc θ' = p.pc θ' := Function.update_of_ne h _ _

@[simp] theorem Pool.move_move [DecidableEq τ] (p : Pool τ κ σ) (θ : τ) (k k' : κ) (s s' : σ) :
    (p.move θ k s).move θ k' s' = p.move θ k' s' := by
  unfold Pool.move
  rw [Function.update_idem]

namespace Program

variable (P : Program σ κ ω)

def fire (s : σ) (k : κ) : Act τ ω → Option (κ × σ)
  | .start _ op => P.start s k op
  | .step _     => P.step s k

/-- **All interleavings of the threads' atomic steps.** -/
def machine [DecidableEq τ] : Trans.Machine (Pool τ κ σ) (Act τ ω) where
  step p a := (P.fire p.shared (p.pc a.thread) a).map (fun r => p.move a.thread r.1 r.2)

theorem machine_step [DecidableEq τ] {p p' : Pool τ κ σ} {a : Act τ ω} (h : P.machine.step p a = some p') :
    ∃ k s, P.fire p.shared (p.pc a.thread) a = some (k, s) ∧ p' = p.move a.thread k s := by
  obtain ⟨⟨k, s⟩, hf, hp⟩ := Option.map_eq_some_iff.1 h
  exact ⟨k, s, hf, hp.symm⟩

def alone : Trans.Machine (κ × σ) PUnit.{u + 1} where
  step r _ := P.step r.2 r.1

/-- **What one thread does alone, it does among the others when they stand still.** -/
theorem alone_simulates [DecidableEq τ] (p : Pool τ κ σ) (θ : τ) :
    P.alone.Simulates (P.machine (τ := τ)) (fun _ => True) (fun r q => q = p.move θ r.1 r.2)
      (fun _ => Act.step θ) where
  step := by
    rintro ⟨k, s⟩ q ⟨⟩ ⟨k', s'⟩ - rfl hs
    refine ⟨p.move θ k' s', ?_, rfl⟩
    have hs : P.step s k = some (k', s') := hs
    simp only [machine, Act.thread, fire, Pool.move_shared, Pool.move_pc_self, hs, Option.map_some, Pool.move_move]

end Program

/-! ## Owned resources -/

/-- Which resource a thread owns where it stands, how it needs the shared state there, and how a resource that
nobody owns is. -/
structure Ownership (σ κ ρ : Type u) where
  own : κ → Option ρ
  held : σ → κ → Prop
  free : σ → ρ → Prop

namespace Ownership

variable {ρ : Type u} (O : Ownership σ κ ρ)

structure Inv (p : Pool τ κ σ) : Prop where
  exclusive : ∀ θ θ' x, O.own (p.pc θ) = some x → O.own (p.pc θ') = some x → θ = θ'
  held : ∀ θ, O.held p.shared (p.pc θ)
  free : ∀ x, (∀ θ, O.own (p.pc θ) ≠ some x) → O.free p.shared x

variable {O}

/-- **The ownership rule**: a thread that takes only what nobody owns, leaves its place and what it releases in
order, and spoils nothing it does not own, keeps the invariant. -/
theorem Inv.move [DecidableEq τ] {p : Pool τ κ σ} (h : O.Inv p) (θ : τ) {k : κ} {s : σ}
    (hown : ∀ x, O.own k = some x → O.own (p.pc θ) = some x ∨ ∀ θ', O.own (p.pc θ') ≠ some x)
    (hheld : O.held s k)
    (hframe : ∀ k', (∀ x, O.own k' = some x → O.own (p.pc θ) ≠ some x ∧ O.own k ≠ some x) →
      O.held p.shared k' → O.held s k')
    (hfree : ∀ x, O.own k ≠ some x → O.own (p.pc θ) = some x ∨ O.free p.shared x → O.free s x) :
    O.Inv (p.move θ k s) := by
  have hother : ∀ θ', θ' ≠ θ → ∀ x, O.own (p.pc θ') = some x → O.own (p.pc θ) ≠ some x ∧ O.own k ≠ some x := by
    intro θ' hne x hx
    refine ⟨fun hθ => hne (h.exclusive θ' θ x hx hθ), fun hk => ?_⟩
    rcases hown x hk with hθ | hnone
    · exact hne (h.exclusive θ' θ x hx hθ)
    · exact hnone θ' hx
  refine ⟨fun θ₁ θ₂ x h₁ h₂ => ?_, fun θ' => ?_, fun x hx => ?_⟩
  · by_cases e₁ : θ₁ = θ <;> by_cases e₂ : θ₂ = θ
    · rw [e₁, e₂]
    · subst e₁
      rw [Pool.move_pc_self] at h₁
      rw [Pool.move_pc_of_ne p e₂] at h₂
      exact absurd h₁ (hother θ₂ e₂ x h₂).2
    · subst e₂
      rw [Pool.move_pc_self] at h₂
      rw [Pool.move_pc_of_ne p e₁] at h₁
      exact absurd h₂ (hother θ₁ e₁ x h₁).2
    · rw [Pool.move_pc_of_ne p e₁] at h₁
      rw [Pool.move_pc_of_ne p e₂] at h₂
      exact h.exclusive θ₁ θ₂ x h₁ h₂
  · by_cases e : θ' = θ
    · rw [e, Pool.move_pc_self]; exact hheld
    · rw [Pool.move_pc_of_ne p e]
      exact hframe _ (hother θ' e) (h.held θ')
  · have hk := hx θ
    rw [Pool.move_pc_self] at hk
    refine hfree x hk ?_
    by_cases hθ : O.own (p.pc θ) = some x
    · exact Or.inl hθ
    · refine Or.inr (h.free x fun θ' => ?_)
      by_cases e : θ' = θ
      · rw [e]; exact hθ
      · have hne := hx θ'
        rwa [Pool.move_pc_of_ne p e] at hne

end Ownership
end Threads
