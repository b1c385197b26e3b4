import Mathlib.Data.Set.Basic
import JLSPlant.Code
/-!
# Protocol — what a program may ask, where it depends on what it has asked before

A protocol has a state that the questions and their answers move.  It says which questions may be asked in a state
and which answers may come.  `Keeps` is what a program needs at entry, to ask only such questions however they are
answered and to end as it is to.  It has a rule for each way programs are built (`keeps_bind`, `Routine.Keeps.loop`,
`Routine.Keeps.through`), and it holds of a program at each moment of its runs (`Keeps.after`).
-/

universe u

structure Protocol (ι : Type) (ο : ι → Type) (σ : Type u) where
  may : σ → ι → Prop
  answers : σ → (i : ι) → ο i → Prop
  next : σ → (i : ι) → ο i → σ

namespace Protocol

variable {ι : Type} {ο : ι → Type} {σ : Type u} (P : Protocol ι ο σ)

/-- The state after questions and their answers. -/
def after : σ → List ((i : ι) × ο i) → σ
  | s, []     => s
  | s, e :: l => after (P.next s e.1 e.2) l

/-- Every answer is one that may come. -/
def Answered : σ → List ((i : ι) × ο i) → Prop
  | _, []     => True
  | s, e :: l => P.answers s e.1 e.2 ∧ Answered (P.next s e.1 e.2) l

/-- Every question is one that may be asked. -/
def Kept : σ → List ((i : ι) × ο i) → Prop
  | _, []     => True
  | s, e :: l => P.may s e.1 ∧ Kept (P.next s e.1 e.2) l

end Protocol

namespace Code

variable {ι : Type} {ο : ι → Type} {σ : Type u} {α β : Type}

/-- **What is left of a program** after some of its questions were answered. -/
inductive After : Code ι ο α → List ((i : ι) × ο i) → Code ι ο α → Prop
  | nil (c : Code ι ο α) : After c [] c
  | cons {i : ι} {k : ο i → Code ι ο α} {o : ο i} {l : List ((i : ι) × ο i)} {c : Code ι ο α} (h : After (k o) l c) :
      After (.ask i k) (⟨i, o⟩ :: l) c

/-- **`c` asks what it may and ends in `Q`**, however it is answered. -/
def Keeps (P : Protocol ι ο σ) (Q : α → σ → Prop) : Code ι ο α → σ → Prop
  | ret a, s   => Q a s
  | ask i k, s => P.may s i ∧ ∀ o, P.answers s i o → Keeps P Q (k o) (P.next s i o)

variable {P : Protocol ι ο σ}

theorem Keeps.mono {Q Q' : α → σ → Prop} (hQ : ∀ a s, Q a s → Q' a s) : ∀ {c : Code ι ο α} {s : σ},
    c.Keeps P Q s → c.Keeps P Q' s
  | ret a, s, h   => hQ a s h
  | ask _ _, _, h => ⟨h.1, fun o ho => Keeps.mono hQ (h.2 o ho)⟩

theorem keeps_bind {Q : β → σ → Prop} {f : α → Code ι ο β} : ∀ {c : Code ι ο α} {s : σ},
    (c.bind f).Keeps P Q s ↔ c.Keeps P (fun a => (f a).Keeps P Q) s
  | ret _, _   => Iff.rfl
  | ask _ _, _ => and_congr_right fun _ => forall_congr' fun _ => imp_congr_right fun _ => keeps_bind

/-- **At each moment of a run** the questions asked are ones that may be asked, and what is left keeps to the
protocol. -/
theorem Keeps.after {Q : α → σ → Prop} {c c' : Code ι ο α} {l : List ((i : ι) × ο i)} (h : After c l c') {s : σ}
    (hk : c.Keeps P Q s) (hl : P.Answered s l) : P.Kept s l ∧ c'.Keeps P Q (P.after s l) := by
  induction h generalizing s with
  | nil c => exact ⟨trivial, hk⟩
  | cons h ih =>
    obtain ⟨hkept, hleft⟩ := ih (hk.2 _ hl.1) hl.2
    exact ⟨⟨hk.1, hkept⟩, hleft⟩

end Code

namespace Routine

variable {φ ι ι' : Type} {ο : ι → Type} {ο' : ι' → Type} {σ : Type u} {α β τ : Type}

/-- A routine ends in `Q`, or fails in `E`. -/
def Keeps (P : Protocol ι ο σ) (E : φ → σ → Prop) (Q : α → σ → Prop) (c : Routine φ ι ο α) (s : σ) : Prop :=
  Code.Keeps P (fun r s => match r with | .ok a => Q a s | .error e => E e s) c.run s

namespace Keeps

variable {P : Protocol ι ο σ} {E : φ → σ → Prop} {s : σ}

theorem pure {Q : α → σ → Prop} {a : α} (h : Q a s) : Keeps P E Q (Pure.pure a) s := h

theorem throw {Q : α → σ → Prop} {e : φ} (h : E e s) : Keeps P E Q (MonadExcept.throw e) s := h

theorem ofExcept {Q : α → σ → Prop} {r : Except φ α} (hok : ∀ a, r = .ok a → Q a s)
    (herror : ∀ e, r = .error e → E e s) :
    Keeps P E Q (MonadExcept.ofExcept r) s := by
  cases r with
  | ok a => exact hok a rfl
  | error e => exact herror e rfl

theorem call {i : ι} {Q : ο i → σ → Prop} (hmay : P.may s i) (h : ∀ o, P.answers s i o → Q o (P.next s i o)) :
    Keeps P E Q (Routine.call i) s := ⟨hmay, h⟩

theorem bind {c : Routine φ ι ο α} {f : α → Routine φ ι ο β} {Q : β → σ → Prop}
    (h : Keeps P E (fun a => Keeps P E Q (f a)) c s) : Keeps P E Q (c >>= f) s := by
  refine Code.keeps_bind.2 (Code.Keeps.mono (fun r s hr => ?_) h)
  cases r with
  | ok a => exact hr
  | error e => exact hr

theorem mono {c : Routine φ ι ο α} {Q Q' : α → σ → Prop} (hQ : ∀ a s, Q a s → Q' a s) (h : Keeps P E Q c s) :
    Keeps P E Q' c s := by
  refine Code.Keeps.mono (fun r s hr => ?_) h
  cases r with
  | ok a => exact hQ a s hr
  | error e => exact hr

/-- **The rule for loops**: each round keeps the invariant, or leaves the loop in `Q`. -/
theorem loop {unfinished : φ} {body : τ → Routine φ ι ο (α ⊕ τ)} {I : τ → σ → Prop} {Q : α → σ → Prop}
    (hE : ∀ t s, I t s → E unfinished s)
    (hround : ∀ t s, I t s → Keeps P E (fun r s => match r with | .inl a => Q a s | .inr t => I t s) (body t) s) :
    ∀ (fuel : Nat) {t : τ} {s : σ}, I t s → Keeps P E Q (Routine.loop unfinished body fuel t) s
  | 0, t, s, h => throw (hE t s h)
  | fuel + 1, t, s, h => by
    refine bind (mono (fun r s hr => ?_) (hround t s h))
    cases r with
    | inl a => exact pure hr
    | inr t => exact loop hE hround fuel hr

/-- **The rule for programs that routines answer**: each keeps the invariant. -/
theorem through {answer : (i : ι') → Routine φ ι ο (ο' i)} {I : σ → Prop}
    (hanswer : ∀ i s, I s → Keeps P E (fun _ => I) (answer i) s) :
    ∀ {c : Code ι' ο' α} {s : σ}, I s → Keeps P E (fun _ => I) (Routine.through answer c) s
  | .ret _, _, h   => pure h
  | .ask i _, s, h => bind (mono (fun _ _ h => through hanswer h) (hanswer i s h))

end Keeps

end Routine
