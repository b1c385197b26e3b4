import Mathlib.Data.List.Basic
/-!
# Loops — an unconditional loop that its body leaves

The body ends the loop with a result, goes on with a new state, or is undefined.  `Loops.total` is the rule of total
correctness: an invariant, and a measure that every further round lowers.
-/
namespace Loops

variable {σ ρ : Type}

def run (body : σ → Option (ρ ⊕ σ)) : Nat → σ → Option ρ
  | 0, _        => none
  | fuel + 1, s => do
    match ← body s with
    | .inl r => some r
    | .inr s => run body fuel s

/-- **The loop entered at `s` ends, with the result `r`.** -/
def Returns (body : σ → Option (ρ ⊕ σ)) (s : σ) (r : ρ) : Prop := ∃ fuel, run body fuel s = some r

variable {body : σ → Option (ρ ⊕ σ)}

theorem run_done {s : σ} {r : ρ} (h : body s = some (.inl r)) (fuel : Nat) : run body (fuel + 1) s = some r := by
  rw [run, h]; rfl

theorem run_again {s s' : σ} (h : body s = some (.inr s')) (fuel : Nat) :
    run body (fuel + 1) s = run body fuel s' := by
  rw [run, h]; rfl

theorem run_unique : ∀ {m n : Nat} {s : σ} {a b : ρ}, run body m s = some a → run body n s = some b → a = b
  | 0, _, _, _, _, h, _ => by cases h
  | _ + 1, 0, _, _, _, _, h => by cases h
  | m + 1, n + 1, s, a, b, ha, hb => by
    cases h : body s with
    | none => rw [run, h] at ha; cases ha
    | some r =>
      cases r with
      | inl r =>
        rw [run_done h] at ha hb
        exact Option.some.inj (ha.symm.trans hb)
      | inr s' =>
        rw [run_again h] at ha hb
        exact run_unique ha hb

/-- More fuel gives the same. -/
theorem run_more : ∀ {m n : Nat} {s : σ} {r : ρ}, run body m s = some r → m ≤ n → run body n s = some r
  | 0, _, _, _, h, _ => by cases h
  | _ + 1, 0, _, _, _, hle => absurd hle (Nat.not_succ_le_zero _)
  | m + 1, n + 1, s, r, h, hle => by
    cases hb : body s with
    | none => rw [run, hb] at h; cases h
    | some x =>
      cases x with
      | inl a =>
        rw [run_done hb] at h ⊢
        exact h
      | inr s' =>
        rw [run_again hb] at h ⊢
        exact run_more h (Nat.le_of_succ_le_succ hle)

/-- **A loop has one result.** -/
theorem returns_iff {fuel : Nat} {s : σ} {a : ρ} (h : run body fuel s = some a) (b : ρ) :
    Returns body s b ↔ b = a := by
  constructor
  · rintro ⟨n, hb⟩
    exact run_unique hb h
  · rintro rfl
    exact ⟨fuel, h⟩

/-- **A loop ends, with a result that fits**, when each round is defined, keeps the invariant and lowers the
measure, or ends with a result that fits.  Its rounds are bounded by the measure. -/
theorem total {I : σ → Prop} {Q : ρ → Prop} (measure : σ → Nat)
    (round : ∀ s, I s → (∃ r, body s = some (.inl r) ∧ Q r) ∨ ∃ s', body s = some (.inr s') ∧ I s' ∧
      measure s' < measure s) :
    ∀ fuel s, I s → measure s < fuel → ∃ r, run body fuel s = some r ∧ Q r
  | 0, s, _, hlt => absurd hlt (Nat.not_lt_zero _)
  | fuel + 1, s, hs, hlt => by
    rcases round s hs with ⟨r, hr, hq⟩ | ⟨s', hs', hi, hm⟩
    · exact ⟨r, run_done hr fuel, hq⟩
    · obtain ⟨r, hr, hq⟩ := total measure round fuel s' hi (by omega)
      exact ⟨r, by rw [run_again hs', hr], hq⟩

end Loops
