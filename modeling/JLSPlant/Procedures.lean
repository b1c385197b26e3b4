import JLSPlant.Code
/-!
# Procedures — programs that call procedures, whose bodies are programs again

Besides calling procedures a program asks primitive questions, which a state answers.  A program may not end; `eval`
runs it with fuel, and `Evals` says with what it ends.  Two tables of bodies are indistinguishable when every
program ends with the same under both.  Calling on is the same as the body called on to
(`indistinguishable_of_callsOn`), and changing the results of bodies goes unnoticed exactly when no result a body
can end with is changed (`indistinguishable_iff`).
-/
namespace Procedures

variable {ι κ : Type} {ο : κ → Type} {ρ σ : Type}

inductive Question (ι κ : Type)
  | call (i : ι)
  | prim (o : κ)

abbrev Question.Reply (ο : κ → Type) (ρ : Type) : Question ι κ → Type
  | call _ => ρ
  | prim o => ο o

abbrev Body (ι : Type) (ο : κ → Type) (ρ : Type) := Code (Question ι κ) (Question.Reply ο ρ) ρ

namespace Body

def ret (r : ρ) : Body ι ο ρ := Code.ret r

def call (i : ι) (k : ρ → Body ι ο ρ) : Body ι ο ρ := Code.ask (.call i) k

def prim (o : κ) (k : ο o → Body ι ο ρ) : Body ι ο ρ := Code.ask (.prim o) k

def map (f : ρ → ρ) : Body ι ο ρ → Body ι ο ρ
  | .ret r           => .ret (f r)
  | .ask (.call i) k => .ask (.call i) fun r => map f (k r)
  | .ask (.prim o) k => .ask (.prim o) fun x => map f (k x)

theorem map_id : ∀ c : Body ι ο ρ, c.map id = c
  | .ret _           => rfl
  | .ask (.call i) k => by
    simp only [map]
    congr 1
    funext r
    exact map_id (k r)
  | .ask (.prim o) k => by
    simp only [map]
    congr 1
    funext x
    exact map_id (k x)

theorem map_map (f g : ρ → ρ) : ∀ c : Body ι ο ρ, (c.map f).map g = c.map (g ∘ f)
  | .ret _           => rfl
  | .ask (.call i) k => by
    simp only [map]
    congr 1
    funext r
    exact map_map f g (k r)
  | .ask (.prim o) k => by
    simp only [map]
    congr 1
    funext x
    exact map_map f g (k x)

end Body

/-- **A program with `n` calls deep and long**: its result and the state it leaves. -/
def eval (prim : σ → (o : κ) → ο o × σ) (P : ι → Body ι ο ρ) : Nat → Body ι ο ρ → σ → Option (ρ × σ)
  | 0, _, _                    => none
  | _ + 1, .ret r, s           => some (r, s)
  | n + 1, .ask (.call i) k, s => eval prim P n (P i) s >>= fun x => eval prim P n (k x.1) x.2
  | n + 1, .ask (.prim o) k, s => eval prim P n (k (prim s o).1) (prim s o).2

/-- `c` entered in the state `s` ends with `x`. -/
def Evals (prim : σ → (o : κ) → ο o × σ) (P : ι → Body ι ο ρ) (c : Body ι ο ρ) (s : σ) (x : ρ × σ) : Prop :=
  ∃ n, eval prim P n c s = some x

section
variable {prim : σ → (o : κ) → ο o × σ} {P Q : ι → Body ι ο ρ}

theorem eval_more : ∀ {m n : Nat} {c : Body ι ο ρ} {s : σ} {x : ρ × σ}, eval prim P m c s = some x → m ≤ n →
    eval prim P n c s = some x
  | 0, _, _, _, _, h, _ => by cases h
  | _ + 1, 0, _, _, _, _, hle => absurd hle (Nat.not_succ_le_zero _)
  | m + 1, n + 1, .ret r, s, x, h, _ => h
  | m + 1, n + 1, .ask (.call i) k, s, x, h, hle => by
    obtain ⟨y, hy, hk⟩ := Option.bind_eq_some_iff.1 h
    have hle' := Nat.le_of_succ_le_succ hle
    exact Option.bind_eq_some_iff.2 ⟨y, eval_more hy hle', eval_more hk hle'⟩
  | m + 1, n + 1, .ask (.prim o) k, s, x, h, hle => eval_more (c := k _) h (Nat.le_of_succ_le_succ hle)

theorem Evals.unique {c : Body ι ο ρ} {s : σ} {x y : ρ × σ} (hx : Evals prim P c s x) (hy : Evals prim P c s y) :
    x = y := by
  obtain ⟨m, hm⟩ := hx
  obtain ⟨n, hn⟩ := hy
  have hm' := eval_more hm (Nat.le_max_left m n)
  rw [eval_more hn (Nat.le_max_right m n)] at hm'
  exact (Option.some.inj hm').symm

theorem evals_ret {r : ρ} {s : σ} {x : ρ × σ} : Evals prim P (Body.ret r) s x ↔ x = (r, s) := by
  constructor
  · rintro ⟨_ | n, h⟩ <;> cases h
    rfl
  · rintro rfl
    exact ⟨1, rfl⟩

/-- **A call is its body, and then the rest.** -/
theorem evals_call {i : ι} {k : ρ → Body ι ο ρ} {s : σ} {x : ρ × σ} :
    Evals prim P (Body.call i k) s x ↔ ∃ y, Evals prim P (P i) s y ∧ Evals prim P (k y.1) y.2 x := by
  constructor
  · rintro ⟨_ | n, h⟩
    · cases h
    · obtain ⟨y, hy, hk⟩ := Option.bind_eq_some_iff.1 h
      exact ⟨y, ⟨n, hy⟩, n, hk⟩
  · rintro ⟨y, ⟨m, hm⟩, n, hn⟩
    exact ⟨max m n + 1, Option.bind_eq_some_iff.2
      ⟨y, eval_more hm (Nat.le_max_left m n), eval_more hn (Nat.le_max_right m n)⟩⟩

theorem evals_prim {o : κ} {k : ο o → Body ι ο ρ} {s : σ} {x : ρ × σ} :
    Evals prim P (Body.prim o k) s x ↔ Evals prim P (k (prim s o).1) (prim s o).2 x := by
  constructor
  · rintro ⟨_ | n, h⟩
    · cases h
    · exact ⟨n, h⟩
  · rintro ⟨n, h⟩
    exact ⟨n + 1, h⟩

theorem eval_map (f : ρ → ρ) : ∀ (n : Nat) (c : Body ι ο ρ) (s : σ),
    eval prim P n (c.map f) s = (eval prim P n c s).map fun x => (f x.1, x.2)
  | 0, _, _                    => rfl
  | _ + 1, .ret _, _           => rfl
  | n + 1, .ask (.call i) k, s => by
    have ih : ∀ x : ρ × σ, eval prim P n (Body.map f (k x.1)) x.2 = _ := fun x => eval_map f n (k x.1) x.2
    simp only [Body.map, eval, Option.bind_eq_bind, ih]
    cases eval prim P n (P i) s <;> rfl
  | n + 1, .ask (.prim o) k, s => eval_map f n (k (prim s o).1) (prim s o).2

theorem evals_map {f : ρ → ρ} {c : Body ι ο ρ} {s : σ} {x : ρ × σ} :
    Evals prim P (c.map f) s x ↔ ∃ y, Evals prim P c s y ∧ (f y.1, y.2) = x := by
  simp only [Evals, eval_map, Option.map_eq_some_iff]
  constructor
  · rintro ⟨n, y, hy, hx⟩
    exact ⟨y, ⟨n, hy⟩, hx⟩
  · rintro ⟨y, ⟨n, hy⟩, hx⟩
    exact ⟨n, y, hy, hx⟩

/-- **Every program ends with the same under both**, or under neither. -/
def Indistinguishable (prim : σ → (o : κ) → ο o × σ) (P Q : ι → Body ι ο ρ) : Prop :=
  ∀ c s x, Evals prim P c s x ↔ Evals prim Q c s x

/-- Bodies that end with what those they stand for end with. -/
theorem evals_of_bodies (h : ∀ i s x, Evals prim P (P i) s x → Evals prim Q (P i) s x → Evals prim Q (Q i) s x) :
    ∀ {n : Nat} {c : Body ι ο ρ} {s : σ} {x : ρ × σ}, eval prim P n c s = some x → Evals prim Q c s x
  | 0, _, _, _, hn => by cases hn
  | _ + 1, .ret _, _, _, hn => ⟨1, hn⟩
  | n + 1, .ask (.call i) k, s, x, hn => by
    obtain ⟨y, hy, hk⟩ := Option.bind_eq_some_iff.1 hn
    exact evals_call.2 ⟨y, h i s y ⟨n, hy⟩ (evals_of_bodies h hy), evals_of_bodies h hk⟩
  | n + 1, .ask (.prim o) k, s, x, hn => evals_prim.2 (evals_of_bodies (c := k _) h hn)

theorem indistinguishable_of_bodies (hPQ : ∀ i s x, Evals prim P (P i) s x → Evals prim Q (P i) s x →
      Evals prim Q (Q i) s x)
    (hQP : ∀ i s x, Evals prim Q (Q i) s x → Evals prim P (Q i) s x → Evals prim P (P i) s x) :
    Indistinguishable prim P Q :=
  fun _ _ _ => ⟨fun ⟨_, h⟩ => evals_of_bodies hPQ h, fun ⟨_, h⟩ => evals_of_bodies hQP h⟩

theorem Indistinguishable.symm (h : Indistinguishable prim P Q) : Indistinguishable prim Q P :=
    fun c s x => (h c s x).symm

theorem Indistinguishable.trans {R : ι → Body ι ο ρ} (h : Indistinguishable prim P Q)
    (h' : Indistinguishable prim Q R) :
    Indistinguishable prim P R := fun c s x => (h c s x).trans (h' c s x)

/-- **A body that calls on**, and changes the result, is the body it calls on to, the result changed. -/
theorem indistinguishable_of_callsOn (h : ∀ i, Q i = P i ∨ ∃ j f, P i = Body.call j (fun r => Body.ret (f r)) ∧
    Q j = P j ∧ Q i = (P j).map f) : Indistinguishable prim P Q := by
  have hcall : ∀ {R : ι → Body ι ο ρ} {j f s x}, Evals prim R (Body.call j fun r => Body.ret (f r)) s x ↔
      Evals prim R ((R j).map f) s x := fun {R j f s x} => by
    rw [evals_call, evals_map]
    exact exists_congr fun y => and_congr_right fun _ => evals_ret.trans eq_comm
  refine indistinguishable_of_bodies (fun i s x _ hx => ?_) fun i s x _ hx => ?_
  · rcases h i with hi | ⟨j, f, hP, hj, hQ⟩
    · rw [hi]; exact hx
    · rw [hP, hcall, hj] at hx
      rw [hQ]
      exact hx
  · rcases h i with hi | ⟨j, f, hP, hj, hQ⟩
    · rw [← hi]; exact hx
    · rw [hQ] at hx
      rw [hP, hcall]
      exact hx

/-- **Changing the results of bodies goes unnoticed exactly when no result a body ends with is changed.** -/
theorem indistinguishable_iff {w : ι → ρ → ρ} (h : ∀ i, Q i = (P i).map (w i)) :
    Indistinguishable prim P Q ↔ ∀ i s x, Evals prim P (P i) s x → w i x.1 = x.1 := by
  constructor
  · intro hsame i s x hx
    have hcall : ∀ {R : ι → Body ι ο ρ} {y}, Evals prim R (Body.call i Body.ret) s y ↔ Evals prim R (R i) s y := by
      intro R y
      rw [evals_call]
      constructor
      · rintro ⟨z, hz, hy⟩
        rw [evals_ret.1 hy]
        exact hz
      · exact fun hy => ⟨y, hy, evals_ret.2 rfl⟩
    have hQ := hcall.1 ((hsame _ s x).1 (hcall.2 hx))
    rw [h i] at hQ
    obtain ⟨y, hy, hxy⟩ := evals_map.1 hQ
    obtain rfl := Evals.unique ((hsame (P i) s y).2 hy) hx
    exact congrArg Prod.fst hxy
  · intro hfixed
    refine indistinguishable_of_bodies (fun i s x hx hx' => ?_) fun i s x _ hx => ?_
    · rw [h i, evals_map]
      exact ⟨x, hx', Prod.ext (hfixed i s x hx) rfl⟩
    · rw [h i] at hx
      obtain ⟨y, hy, rfl⟩ := evals_map.1 hx
      rw [hfixed i s y hy]
      exact hy

end

end Procedures
