import JLSPlant.Loops
/-!
# Code — programs that ask questions, and their runs against what answers them

A program ends with a value, or asks a question and goes on with the answer: what a caller passes functions to and
knows nothing else of.  `run` answers each question from a state, until an answer fails.  Answers that keep to what
is allowed lead to a value the program can end with (`run_ends`), a run whose questions are all answered ends
(`run_total`), and only the answers to what it asks count (`run_congr`).  A `Routine` is a program that can also
fail; `Routine.through` answers the questions of another program by routines, and `Routine.outcome` is what a run
comes to, whichever of the two failed.
-/

universe u

inductive Code (ι : Type) (ο : ι → Type) (ν : Type u)
  | ret (v : ν)
  | ask (i : ι) (k : ο i → Code ι ο ν)

namespace Code

variable {ι : Type} {ο : ι → Type} {ν : Type u} {σ ε : Type}

def run (answer : σ → (i : ι) → Except ε (ο i × σ)) : Code ι ο ν → σ → Except ε (ν × σ)
  | ret v, s   => .ok (v, s)
  | ask i k, s =>
    match answer s i with
    | .ok (o, s') => run answer (k o) s'
    | .error e    => .error e

/-- **What a program can end with**, its questions answered in any way that is allowed. -/
inductive Ends (allowed : (i : ι) → ο i → Prop) : Code ι ο ν → ν → Prop
  | ret (v : ν) : Ends allowed (.ret v) v
  | ask {i : ι} {k : ο i → Code ι ο ν} {o : ο i} {v : ν} (ho : allowed i o) (h : Ends allowed (k o) v) :
      Ends allowed (.ask i k) v

variable {answer : σ → (i : ι) → Except ε (ο i × σ)}

theorem run_ask {i : ι} {k : ο i → Code ι ο ν} {s s' : σ} {o : ο i} (h : answer s i = .ok (o, s')) :
    run answer (.ask i k) s = run answer (k o) s' := by
  rw [run, h]

theorem run_ask_ok {i : ι} {k : ο i → Code ι ο ν} {s : σ} {r : ν × σ} (h : run answer (.ask i k) s = .ok r) :
    ∃ o s', answer s i = .ok (o, s') ∧ run answer (k o) s' = .ok r := by
  rw [run] at h
  cases ha : answer s i with
  | error e => rw [ha] at h; cases h
  | ok p => rw [ha] at h; exact ⟨p.1, p.2, rfl, h⟩

/-- **A run ends as the allowed answers let it.** -/
theorem run_ends {allowed : (i : ι) → ο i → Prop} (ha : ∀ s i o s', answer s i = .ok (o, s') → allowed i o) :
    ∀ {c : Code ι ο ν} {s s' : σ} {v : ν}, run answer c s = .ok (v, s') → Ends allowed c v
  | ret v, s, s', _, h => by cases h; exact .ret v
  | ask i k, s, s', v, h => by
    obtain ⟨o, s₁, ho, hr⟩ := run_ask_ok h
    exact .ask (ha s i o s₁ ho) (run_ends ha hr)

/-- **A run whose questions are all answered ends.** -/
theorem run_total (ha : ∀ s i, ∃ r, answer s i = .ok r) : ∀ (c : Code ι ο ν) (s : σ), ∃ r, run answer c s = .ok r
  | ret v, s   => ⟨(v, s), rfl⟩
  | ask i k, s => by
    obtain ⟨⟨o, s'⟩, ho⟩ := ha s i
    rw [run_ask ho]
    exact run_total ha (k o) s'

/-- **Every question the run asks** is one that `P` holds of. -/
def AsksOnly (answer : σ → (i : ι) → Except ε (ο i × σ)) (P : ι → Prop) : Code ι ο ν → σ → Prop
  | ret _, _   => True
  | ask i k, s => P i ∧ ∀ o s', answer s i = .ok (o, s') → AsksOnly answer P (k o) s'

/-- **Answers that agree on what a run asks** lead to one run. -/
theorem run_congr {answer' : σ → (i : ι) → Except ε (ο i × σ)} {P : ι → Prop}
    (h : ∀ s i, P i → answer' s i = answer s i) : ∀ {c : Code ι ο ν} {s : σ}, c.AsksOnly answer P s →
      run answer' c s = run answer c s
  | ret _, _, _    => rfl
  | ask i k, s, hc => by
    rw [run, run, h s i hc.1]
    cases ha : answer s i with
    | error e => rfl
    | ok r => exact run_congr h (hc.2 r.1 r.2 ha)

def bind {μ : Type u} : Code ι ο μ → (μ → Code ι ο ν) → Code ι ο ν
  | ret v, f   => f v
  | ask i k, f => ask i fun o => (k o).bind f

instance : Monad (Code ι ο) where
  pure := ret
  bind := bind

theorem run_bind {μ : Type u} (f : μ → Code ι ο ν) : ∀ (c : Code ι ο μ) (s : σ),
    run answer (c.bind f) s = run answer c s >>= fun r => run answer (f r.1) r.2
  | ret v, s   => rfl
  | ask i k, s => by
    rw [bind, run, run]
    cases answer s i with
    | error e => rfl
    | ok r => exact run_bind f (k r.1) r.2

end Code

/-! ## Programs that fail -/

abbrev Routine (φ ι : Type) (ο : ι → Type) := ExceptT φ (Code ι ο)

namespace Routine

variable {φ ι ι' : Type} {ο : ι → Type} {ο' : ι' → Type} {α β σ τ : Type}

def call (i : ι) : Routine φ ι ο (ο i) := ExceptT.mk (.ask i fun o => .ret (.ok o))

/-- A loop that its body leaves with a result, or with a failure; it fails as `unfinished` says after `fuel`
rounds. -/
def loop (unfinished : φ) (body : τ → Routine φ ι ο (α ⊕ τ)) : Nat → τ → Routine φ ι ο α
  | 0, _        => throw unfinished
  | fuel + 1, t => do
    match ← body t with
    | .inl a => pure a
    | .inr t => loop unfinished body fuel t

/-- **A program whose questions routines answer.** -/
def through (answer : (i : ι) → Routine φ ι' ο' (ο i)) : Code ι ο α → Routine φ ι' ο' α
  | .ret v   => pure v
  | .ask i k => answer i >>= fun o => through answer (k o)

/-! ## Runs -/

/-- **What the run of `c` entered in `s` comes to**: a value and a state, or a failure, be it the routine's own or
that of an answer. -/
def outcome (answer : σ → (i : ι) → Except φ (ο i × σ)) (c : Routine φ ι ο α) (s : σ) : Except φ (α × σ) :=
  Code.run answer c.run s >>= fun r => r.1.map (·, r.2)

section
variable {answer : σ → (i : ι) → Except φ (ο i × σ)} {s s' : σ}

theorem outcome_pure (a : α) : outcome answer (pure a : Routine φ ι ο α) s = .ok (a, s) := rfl

theorem outcome_ofExcept : ∀ r : Except φ α, outcome answer (ofExcept r : Routine φ ι ο α) s = r.map (·, s)
  | .ok _    => rfl
  | .error _ => rfl

theorem outcome_call (i : ι) : outcome answer (call i : Routine φ ι ο (ο i)) s = answer s i := by
  unfold outcome call
  rw [ExceptT.run, ExceptT.mk, Code.run]
  cases answer s i <;> rfl

theorem outcome_bind (c : Routine φ ι ο α) (f : α → Routine φ ι ο β) (s : σ) :
    outcome answer (c >>= f) s = outcome answer c s >>= fun r => outcome answer (f r.1) r.2 := by
  have hrun : Code.run answer (Code.bind c.run (ExceptT.bindCont f)) s =
      Code.run answer c.run s >>= fun r => Code.run answer (ExceptT.bindCont f r.1) r.2 :=
    Code.run_bind (ExceptT.bindCont f) c.run s
  have hcont : outcome answer (c >>= f) s = Code.run answer (Code.bind c.run (ExceptT.bindCont f)) s >>=
    fun r => r.1.map (·, r.2) := rfl
  rw [hcont, hrun, outcome]
  cases Code.run answer c.run s with
  | error e => rfl
  | ok r =>
    obtain ⟨r, s'⟩ := r
    cases r <;> rfl

theorem outcome_bind_ok {c : Routine φ ι ο α} {f : α → Routine φ ι ο β} {a : α}
    (h : outcome answer c s = .ok (a, s')) :
    outcome answer (c >>= f) s = outcome answer (f a) s' := by
  rw [outcome_bind, h]
  rfl

theorem outcome_bind_error {c : Routine φ ι ο α} {f : α → Routine φ ι ο β} {e : φ}
    (h : outcome answer c s = .error e) :
    outcome answer (c >>= f) s = .error e := by
  rw [outcome_bind, h]
  rfl

/-- **A loop whose rounds are those of a loop without questions** ends as that one does: `R` relates the states of
the two loops and of the run, `D` a result and the state of the run at the end. -/
theorem outcome_loop {υ : Type} {unfinished : φ} {body : τ → Routine φ ι ο (α ⊕ τ)} {round : υ → Option (α ⊕ υ)}
    {R : τ → υ → σ → Prop} {D : α → σ → Prop} (hround : ∀ t u s r, R t u s → round u = some r → ∃ s', match r with
      | .inl a  => outcome answer (body t) s = .ok (.inl a, s') ∧ D a s'
      | .inr u' => ∃ t', outcome answer (body t) s = .ok (.inr t', s') ∧ R t' u' s') :
    ∀ {fuel : Nat} {t : τ} {u : υ} {s : σ} {a : α}, R t u s → Loops.run round fuel u = some a →
      ∃ s', outcome answer (loop unfinished body fuel t) s = .ok (a, s') ∧ D a s'
  | 0, _, _, _, _, _, h => by cases h
  | fuel + 1, t, u, s, a, hR, h => by
    cases hr : round u with
    | none => rw [Loops.run, hr] at h; cases h
    | some r =>
      obtain ⟨s', hs'⟩ := hround t u s r hR hr
      cases r with
      | inl b =>
        rw [Loops.run_done hr] at h
        cases h
        exact ⟨s', outcome_bind_ok hs'.1, hs'.2⟩
      | inr u' =>
        obtain ⟨t', hbody, hR'⟩ := hs'
        rw [Loops.run_again hr] at h
        obtain ⟨s'', hloop, hd⟩ := outcome_loop hround hR' h
        exact ⟨s'', (outcome_bind_ok hbody).trans hloop, hd⟩

end

/-- **The run of `c` entered in `s` comes to `x`**, a value and a state that `S` relates to that of the run, or a
failure. -/
def ComesTo {ω : Type} (answer : σ → (i : ι) → Except φ (ο i × σ)) (S : ω → σ → Prop) (c : Routine φ ι ο α) (s : σ) :
    Except φ (α × ω) → Prop
  | .ok (a, u) => ∃ s', outcome answer c s = .ok (a, s') ∧ S u s'
  | .error e   => outcome answer c s = .error e

namespace ComesTo

variable {ω : Type} {answer : σ → (i : ι) → Except φ (ο i × σ)} {S : ω → σ → Prop} {s s' : σ}

theorem bind {c : Routine φ ι ο α} {f : α → Routine φ ι ο β} {x : Except φ (α × ω)} {g : α × ω → Except φ (β × ω)}
    (hc : ComesTo answer S c s x) (hf : ∀ a u s', S u s' → ComesTo answer S (f a) s' (g (a, u))) :
    ComesTo answer S (c >>= f) s (x >>= g) := by
  cases x with
  | error e => exact outcome_bind_error hc
  | ok r =>
    obtain ⟨s', h, hS⟩ := hc
    have hf := hf r.1 r.2 s' hS
    show ComesTo answer S (c >>= f) s (g r)
    cases hg : g r with
    | error e =>
      rw [hg] at hf
      exact (outcome_bind_ok h).trans hf
    | ok q =>
      rw [hg] at hf
      obtain ⟨s'', h', hS'⟩ := hf
      exact ⟨s'', (outcome_bind_ok h).trans h', hS'⟩

/-- What is left after `c` has run. -/
theorem after {c : Routine φ ι ο α} {f : α → Routine φ ι ο β} {a : α} {x : Except φ (β × ω)}
    (hc : outcome answer c s = .ok (a, s')) (h : ComesTo answer S (f a) s' x) : ComesTo answer S (c >>= f) s x := by
  cases x with
  | error e => exact (outcome_bind_ok hc).trans h
  | ok r =>
    obtain ⟨s'', h, hS⟩ := h
    exact ⟨s'', (outcome_bind_ok hc).trans h, hS⟩

/-- **Routines that answer as a function does** make of a program what its run comes to. -/
theorem through {answered : ω → (i : ι') → Except φ (ο' i × ω)} {routine : (i : ι') → Routine φ ι ο (ο' i)}
    (hroutine : ∀ i u s, S u s → ComesTo answer S (routine i) s (answered u i)) :
    ∀ (c : Code ι' ο' α) {u : ω} {s : σ}, S u s →
      ComesTo answer S (Routine.through routine c) s (c.run answered u)
  | .ret v, _, s, h   => ⟨s, outcome_pure v, h⟩
  | .ask i k, u, s, h => by
    have hrun : Code.run answered (.ask i k) u = answered u i >>= fun r => (k r.1).run answered r.2 := by
      rw [Code.run]
      cases answered u i <;> rfl
    rw [hrun]
    exact bind (hroutine i u s h) fun o u' s' hS => through hroutine (k o) hS

end ComesTo

end Routine
