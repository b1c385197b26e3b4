import Mathlib.Data.List.Basic
import JLSPlant.Threads
/-!
# Commits — linearizability by commit points

A history is what the callers of the threads' operations see: an invocation, and the outcome of its return.  It is
linearizable to a machine of whole operations when each operation can be given one point between its invocation and
its return at which it takes effect, so that the machine runs the effects in the order of these points
(`Linearized`).  Which step each operation takes effect at is said of one step (`CommitsAt`), and holds of every run
(`CommitsAt.run`).
-/
namespace Threads

open Function (update)
open Trans (Machine)

variable {τ σ κ ω ρ α : Type}

/-- An operation is invoked, takes effect with an outcome, and returns it. -/
inductive Item (τ ω ρ : Type)
  | invoke (thread : τ) (op : ω)
  | commit (thread : τ) (op : ω) (out : ρ)
  | respond (thread : τ) (out : ρ)

namespace Item

def thread : Item τ ω ρ → τ
  | invoke θ _   => θ
  | commit θ _ _ => θ
  | respond θ _  => θ

/-- What a caller sees. -/
def seen : Item τ ω ρ → Bool
  | commit _ _ _ => false
  | _            => true

def effect : Item τ ω ρ → Option (ω × ρ)
  | commit _ op out => some (op, out)
  | _               => none

end Item

/-- **How far a thread's operation is**: there is none, it has no effect yet, or it has taken effect. -/
inductive Phase (ω ρ : Type)
  | idle
  | invoked (op : ω)
  | committed (out : ρ)

def Phase.next [DecidableEq ω] [DecidableEq ρ] : Phase ω ρ → Item τ ω ρ → Option (Phase ω ρ)
  | .idle, .invoke _ op             => some (.invoked op)
  | .invoked op, .commit _ op' out  => if op' = op then some (.committed out) else none
  | .committed out, .respond _ out' => if out' = out then some .idle else none
  | _, _                            => none

section
variable [DecidableEq ω] [DecidableEq ρ]

/-- One thread's items, in the order of its phases. -/
def phases : Machine (Phase ω ρ) (Item τ ω ρ) where
  step := Phase.next

variable [DecidableEq τ]

/-- **Every thread goes through the phases of one operation after the other.** -/
def protocol : Machine (τ → Phase ω ρ) (Item τ ω ρ) where
  step φ i := ((φ i.thread).next i).map (update φ i.thread)

theorem protocol_step {φ φ' : τ → Phase ω ρ} {i : Item τ ω ρ} (h : protocol.step φ i = some φ') :
    ∃ f, (φ i.thread).next i = some f ∧ φ' = update φ i.thread f := by
  obtain ⟨f, hf, hφ⟩ := Option.map_eq_some_iff.1 h
  exact ⟨f, hf, hφ.symm⟩

/-- Items of one thread move its phase alone. -/
theorem protocol_run_phases {θ : τ} : ∀ {h : List (Item τ ω ρ)} {φ : τ → Phase ω ρ} {f : Phase ω ρ},
    (∀ i ∈ h, i.thread = θ) → phases.run (φ θ) h = some f → protocol.run φ h = some (update φ θ f)
  | [], φ, f, _, hr => by
    cases hr
    rw [Function.update_eq_self]; rfl
  | i :: h, φ, f, hθ, hr => by
    obtain ⟨f₁, h₁, h₂⟩ := phases.run_cons_some hr
    obtain rfl : i.thread = θ := hθ i List.mem_cons_self
    have h₁ : (φ i.thread).next i = some f₁ := h₁
    have hstep : protocol.step φ i = some (update φ i.thread f₁) := by simp only [protocol, h₁, Option.map_some]
    have hrest := protocol_run_phases (φ := update φ i.thread f₁) (fun j hj => hθ j (List.mem_cons_of_mem _ hj))
      (by rw [Function.update_self]; exact h₂)
    rw [Machine.run_cons, hstep, Option.bind_some, hrest, Function.update_idem]

omit [DecidableEq τ] in
theorem Phase.next_invoked {f : Phase ω ρ} {i : Item τ ω ρ} {op : ω} (h : f.next i = some (.invoked op)) :
    i = .invoke i.thread op := by
  unfold Phase.next at h
  split at h
  · cases h; rfl
  · split at h <;> cases h
  · split at h <;> cases h
  · cases h

omit [DecidableEq τ] in
theorem Phase.next_commit {f f' : Phase ω ρ} {θ : τ} {op : ω} {out : ρ} (h : f.next (.commit θ op out) = some f') :
    f = .invoked op := by
  cases f with
  | invoked op' =>
    rw [Phase.next] at h
    split at h
    · rename_i hop
      rw [hop]
    · cases h
  | _ => cases h

/-- **What takes effect was invoked.** -/
theorem invoked_of_commit {θ : τ} {op : ω} {out : ρ} : ∀ {h : List (Item τ ω ρ)} {φ φ' : τ → Phase ω ρ},
    protocol.run φ h = some φ' → Item.commit θ op out ∈ h → φ θ = .invoked op ∨ Item.invoke θ op ∈ h
  | [], _, _, _, hm => by cases hm
  | i :: h, φ, φ', hr, hm => by
    obtain ⟨φ₁, h₁, h₂⟩ := protocol.run_cons_some hr
    obtain ⟨f, hf, rfl⟩ := protocol_step h₁
    rcases List.mem_cons.1 hm with rfl | hm
    · exact Or.inl (Phase.next_commit hf)
    · rcases invoked_of_commit h₂ hm with hop | hop
      · by_cases hi : i.thread = θ
        · subst hi
          rw [Function.update_self] at hop
          subst hop
          exact Or.inr (by rw [Phase.next_invoked hf]; exact List.mem_cons_self)
        · rw [Function.update_of_ne (Ne.symm hi)] at hop
          exact Or.inl hop
      · exact Or.inr (List.mem_cons_of_mem _ hop)

/-- **The history is linearizable**: `points` is it with one commit point for each operation that took effect,
between its invocation and its return, and the machine runs from `x` to `y` by the effects in their order. -/
structure Linearized (spec : Machine α (ω × ρ)) (x y : α) (history points : List (Item τ ω ρ)) : Prop where
  seen : points.filter Item.seen = history
  ordered : ∃ φ, protocol.run (fun _ => .idle) points = some φ
  effects : spec.run x (points.filterMap Item.effect) = some y

/-- Every effect is that of an operation the history invokes. -/
theorem Linearized.invoked {spec : Machine α (ω × ρ)} {x y : α} {history points : List (Item τ ω ρ)}
    (h : Linearized spec x y history points) {e : ω × ρ} (he : e ∈ points.filterMap Item.effect) :
    ∃ θ, Item.invoke θ e.1 ∈ history := by
  obtain ⟨i, hi, hie⟩ := List.mem_filterMap.1 he
  obtain ⟨φ, hφ⟩ := h.ordered
  cases i with
  | commit θ op out =>
    cases hie
    rcases invoked_of_commit hφ hi with hop | hop
    · cases hop
    · exact ⟨θ, by rw [← h.seen]; exact List.mem_filter.2 ⟨hop, rfl⟩⟩
  | _ => cases hie

/-! ## The histories of a program -/

def Act.invokes : Act τ ω → List (Item τ ω ρ)
  | .start θ op => [.invoke θ op]
  | .step _     => []

/-- What is seen of one step: an invocation when an operation starts, a return when the thread's place says so. -/
def observe (returned : κ → Option ρ) (a : Act τ ω) (k : κ) : List (Item τ ω ρ) :=
  a.invokes ++ ((returned k).map (.respond a.thread)).toList

def Program.history (P : Program σ κ ω) (returned : κ → Option ρ) : Pool τ κ σ → List (Act τ ω) → List (Item τ ω ρ)
  | _, []     => []
  | p, a :: l =>
    match P.machine.step p a with
    | some p' => observe returned a (p'.pc a.thread) ++ P.history returned p' l
    | none    => []

omit [DecidableEq ω] [DecidableEq ρ] in
theorem Program.history_invoke {P : Program σ κ ω} {returned : κ → Option ρ} {θ : τ} {op : ω} :
    ∀ {l : List (Act τ ω)} {p : Pool τ κ σ}, Item.invoke θ op ∈ P.history returned p l → Act.start θ op ∈ l
  | [], _, h => by cases h
  | a :: l, p, h => by
    rw [Program.history] at h
    cases hs : P.machine.step p a with
    | none => rw [hs] at h; cases h
    | some p' =>
      rw [hs] at h
      rcases List.mem_append.1 h with h | h
      · cases a with
        | start θ' op' =>
          rcases List.mem_append.1 h with h | h
          · cases List.mem_singleton.1 h
            exact List.mem_cons_self
          · cases hr : returned (p'.pc (Act.thread (.start θ' op'))) <;> simp [hr] at h
        | step θ' =>
          rcases List.mem_append.1 h with h | h
          · cases h
          · cases hr : returned (p'.pc (Act.thread (.step θ' : Act τ ω))) <;> simp [hr] at h
      · exact List.mem_cons_of_mem _ (Program.history_invoke h)

/-- **Where the operations of a program take effect**: each step taken where `C` holds is matched by items of its
thread that lead from its phase to the next one, show what the step shows, and whose effects the machine runs, from
related state to related state. -/
structure CommitsAt (P : Program σ κ ω) (returned : κ → Option ρ) (phase : κ → Phase ω ρ) (spec : Machine α (ω × ρ))
    (C : Pool τ κ σ → Act τ ω → Prop) (R : Pool τ κ σ → α → Prop) : Prop where
  step : ∀ p x a p', R p x → C p a → P.machine.step p a = some p' → ∃ h x', (∀ i ∈ h, i.thread = a.thread) ∧
    phases.run (phase (p.pc a.thread)) h = some (phase (p'.pc a.thread)) ∧
    h.filter Item.seen = observe returned a (p'.pc a.thread) ∧ spec.run x (h.filterMap Item.effect) = some x' ∧
    R p' x'

omit [DecidableEq ω] [DecidableEq ρ] in
theorem Program.machine_pc {P : Program σ κ ω} {p p' : Pool τ κ σ} {a : Act τ ω} (h : P.machine.step p a = some p')
    (phase : κ → Phase ω ρ) : update (phase ∘ p.pc) a.thread (phase (p'.pc a.thread)) = phase ∘ p'.pc := by
  obtain ⟨k, s, -, rfl⟩ := P.machine_step h
  funext θ
  by_cases hθ : θ = a.thread
  · subst hθ; rw [Function.update_self]; rfl
  · rw [Function.update_of_ne hθ]
    exact congrArg phase (Pool.move_pc_of_ne p hθ k s).symm

theorem CommitsAt.run_points {P : Program σ κ ω} {returned : κ → Option ρ} {phase : κ → Phase ω ρ}
    {spec : Machine α (ω × ρ)} {C : Pool τ κ σ → Act τ ω → Prop} {R : Pool τ κ σ → α → Prop}
    (hc : CommitsAt P returned phase spec C R) : ∀ (l : List (Act τ ω)) (p p' : Pool τ κ σ) (x : α), R p x →
      P.machine.Along C p l → P.machine.run p l = some p' → ∃ h x', h.filter Item.seen = P.history returned p l ∧
        protocol.run (phase ∘ p.pc) h = some (phase ∘ p'.pc) ∧ spec.run x (h.filterMap Item.effect) = some x' ∧
        R p' x'
  | [], p, p', x, hR, _, hr => by
    cases hr
    exact ⟨[], x, rfl, rfl, rfl, hR⟩
  | a :: l, p, p', x, hR, hC, hr => by
    obtain ⟨q, hq, hrest⟩ := P.machine.run_cons_some hr
    obtain ⟨h₁, x₁, hθ, hphase, hseen, hspec, hRq⟩ := hc.step p x a q hR hC.1 hq
    obtain ⟨h₂, y, hseen', hphase', hspec', hR'⟩ := hc.run_points l q p' x₁ hRq (hC.2 q hq) hrest
    have hfirst : protocol.run (phase ∘ p.pc) h₁ = some (phase ∘ q.pc) := by
      rw [← Program.machine_pc hq phase]
      exact protocol_run_phases hθ hphase
    refine ⟨h₁ ++ h₂, y, ?_, protocol.run_append_some hfirst hphase', ?_, hR'⟩
    · rw [List.filter_append, hseen, hseen', Program.history, hq]
    · rw [List.filterMap_append]
      exact spec.run_append_some hspec hspec'

/-- **Every run of such a program is linearizable**, if it starts with no operation under way and its steps are
taken where `C` holds. -/
theorem CommitsAt.run {P : Program σ κ ω} {returned : κ → Option ρ} {phase : κ → Phase ω ρ} {spec : Machine α (ω × ρ)}
    {C : Pool τ κ σ → Act τ ω → Prop} {R : Pool τ κ σ → α → Prop} (hc : CommitsAt P returned phase spec C R)
    {l : List (Act τ ω)} {p p' : Pool τ κ σ} {x : α} (hidle : ∀ θ, phase (p.pc θ) = .idle) (hR : R p x)
    (hC : P.machine.Along C p l) (hr : P.machine.run p l = some p') :
    ∃ points y, Linearized spec x y (P.history returned p l) points ∧ R p' y := by
  obtain ⟨h, y, hseen, hphase, hspec, hR'⟩ := hc.run_points l p p' x hR hC hr
  have hstart : phase ∘ p.pc = fun _ => .idle := funext hidle
  rw [hstart] at hphase
  exact ⟨h, y, ⟨hseen, ⟨_, hphase⟩, hspec⟩, hR'⟩

end
end Threads
