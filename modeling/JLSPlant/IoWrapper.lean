import JLSPlant.Elf
import JLSPlant.Loops
/-!
# IoWrapper — opening a file with retries

`WrappedOpen` and `WrappedFOpen` try again after `EINTR` and `EIO`, at most `max_retries` times.  A loop's state is
how many attempts were made and the `max_retries` left; the system's answers to the attempts are a sequence, each a
handle or an `errno`.  Both loops end, and make the attempts up to the first answer that is not to be retried
(`wrappedOpen_bounded`).
-/
namespace JLSPlant

abbrev Errno := Nat

def Errno.eintr : Errno := 4

def Errno.eio : Errno := 5

/-- `x--`: the value before, and what is left in `x`; at `INT_MIN` it is undefined. -/
def CInt.postDecrement (x : CInt) : Option (CInt × CInt) := if x = BitVec.intMin 32 then none else some (x, x - 1)

theorem CInt.ne_min_iff {x : CInt} : x ≠ BitVec.intMin 32 ↔ -2147483648 < x.toInt := by
  have hvalue : (BitVec.intMin 32).toInt = -2147483648 := by decide
  have hlower := BitVec.toInt_intMin_le x
  rw [hvalue] at hlower
  rw [Ne, ← BitVec.toInt_inj, hvalue]
  omega

theorem CInt.postDecrement_eq {x : CInt} (h : x ≠ BitVec.intMin 32) :
    x.postDecrement = some (x, x - 1) ∧ (x - 1).toInt = x.toInt - 1 := by
  have hlower := CInt.ne_min_iff.1 h
  have hupper := BitVec.toInt_lt (x := x)
  refine ⟨if_neg h, ?_⟩
  rw [BitVec.toInt_sub, show (1 : BitVec 32).toInt = 1 from by decide]
  exact Int.bmod_eq_of_le (by omega) (by omega)

namespace IoWrapper

def canRetry (error : Errno) : Bool := error = Errno.eintr || error = Errno.eio

/-- What the system answers to an attempt: a handle, or an `errno`. -/
abbrev Answer (A : Type) := Except Errno A

/-- The value of the call, `null` when it fails, and `errno`. -/
def Answer.call {A H : Type} (null : H) (handle : A → H) : Answer A → H × Errno
  | .ok a    => (handle a, 0)
  | .error e => (null, e)

/-- One round of a retry loop, entered after `attempts` attempts: it ends with the handle and the number of
attempts. -/
def retryRound {H : Type} (null : H) (opened : H → Bool) (call : Nat → H × Errno) :
    Nat × CInt → Option ((H × Nat) ⊕ (Nat × CInt))
  | (attempts, maxRetries) => do
    let (handle, errno) := call attempts
    if opened handle then some (.inl (handle, attempts + 1))
    else if canRetry errno then
      let (value, maxRetries) ← maxRetries.postDecrement
      if 0 < value.toInt then some (.inr (attempts + 1, maxRetries)) else some (.inl (null, attempts + 1))
    else some (.inl (null, attempts + 1))

def openCall : Answer Nat → Int × Errno := Answer.call (-1) Int.ofNat

def fopenCall {F : Type} : Answer F → Option F × Errno := Answer.call none some

def wrappedOpenRound (answers : Nat → Answer Nat) : Nat × CInt → Option ((Int × Nat) ⊕ (Nat × CInt)) :=
  retryRound (-1) (· ≠ -1) (fun k => openCall (answers k))

def wrappedFOpenRound {F : Type} (answers : Nat → Answer F) : Nat × CInt → Option ((Option F × Nat) ⊕ (Nat × CInt)) :=
  retryRound none Option.isSome (fun k => fopenCall (answers k))

/-- `WrappedOpen` returns `fd` after `attempts` calls of `open`. -/
def WrappedOpen (answers : Nat → Answer Nat) (maxRetries : CInt) (fd : Int) (attempts : Nat) : Prop :=
  Loops.Returns (wrappedOpenRound answers) (0, maxRetries) (fd, attempts)

/-- `WrappedFOpen` returns `file` after `attempts` calls of `fopen`. -/
def WrappedFOpen {F : Type} (answers : Nat → Answer F) (maxRetries : CInt) (file : Option F) (attempts : Nat) :
    Prop :=
  Loops.Returns (wrappedFOpenRound answers) (0, maxRetries) (file, attempts)

def Answer.retryable {A : Type} : Answer A → Bool
  | .ok _    => false
  | .error e => canRetry e

def Answer.errno {A : Type} : Answer A → Option Errno
  | .ok _    => none
  | .error e => some e

theorem Answer.retryable_eq {A : Type} : ∀ a : Answer A, a.retryable = a.errno.any canRetry
  | .ok _    => rfl
  | .error _ => rfl

/-- **The attempts end at answer `n`**, the `retries`-th at the latest: the answers before it are to be retried. -/
structure EndsAt {A : Type} (answers : Nat → Answer A) (retries n : Nat) : Prop where
  le : n ≤ retries
  before : ∀ j < n, (answers j).retryable = true
  stops : n = retries ∨ (answers n).retryable = false

theorem EndsAt.unique {A B : Type} {a : Nat → Answer A} {b : Nat → Answer B} {retries m n : Nat}
    (hab : ∀ k, (a k).retryable = (b k).retryable) (ha : EndsAt a retries m) (hb : EndsAt b retries n) : m = n := by
  rcases Nat.lt_trichotomy m n with hlt | heq | hlt
  · have hm := hb.before m hlt
    have hle := hb.le
    rcases ha.stops with hs | hs
    · omega
    · rw [hab, hm] at hs; cases hs
  · exact heq
  · have hn := ha.before n hlt
    have hle := ha.le
    rcases hb.stops with hs | hs
    · omega
    · rw [← hab, hn] at hs; cases hs

/-- The state of a retry loop at entry of a round. -/
structure Retrying {A : Type} (answers : Nat → Answer A) (maxRetries : CInt) (s : Nat × CInt) : Prop where
  le : s.1 ≤ (max maxRetries.toInt 0).toNat
  left : s.2.toInt = maxRetries.toInt - s.1
  before : ∀ j < s.1, (answers j).retryable = true

theorem retryRound_spec {A H : Type} {null : H} {opened : H → Bool} {handle : A → H} (hnull : opened null = false)
    (hhandle : ∀ a, opened (handle a) = true) (answers : Nat → Answer A) {maxRetries : CInt}
    (hm : maxRetries ≠ BitVec.intMin 32) {s : Nat × CInt} (hs : Retrying answers maxRetries s) :
    let body := retryRound null opened (fun k => (answers k).call null handle)
    (∃ r, body s = some (.inl r) ∧ EndsAt answers (max maxRetries.toInt 0).toNat s.1 ∧
      r = (((answers s.1).call null handle).1, s.1 + 1)) ∨
    ∃ s', body s = some (.inr s') ∧ Retrying answers maxRetries s' ∧ s'.1 = s.1 + 1 := by
  obtain ⟨attempts, left⟩ := s
  obtain ⟨hle, hleft, hbefore⟩ := hs
  simp only at hle hleft hbefore ⊢
  cases hanswer : answers attempts with
  | ok a =>
    refine Or.inl ⟨_, ?_, ⟨hle, hbefore, Or.inr (by rw [hanswer]; rfl)⟩, rfl⟩
    simp only [retryRound, hanswer, Answer.call, hhandle, if_true]
  | error e =>
    by_cases hretry : canRetry e = true
    · have hlower := CInt.ne_min_iff.1 hm
      have hmin : left ≠ BitVec.intMin 32 := CInt.ne_min_iff.2 (by omega)
      obtain ⟨hpost, hvalue⟩ := CInt.postDecrement_eq hmin
      by_cases hpos : 0 < left.toInt
      · refine Or.inr ⟨(attempts + 1, left - 1), ?_, ⟨?_, ?_, ?_⟩, rfl⟩
        · simp [retryRound, hanswer, Answer.call, hnull, hretry, hpost, hpos]
        · simp only; omega
        · simp only; omega
        · intro j hj
          rcases Nat.lt_succ_iff_lt_or_eq.1 hj with hj | rfl
          · exact hbefore j hj
          · rw [hanswer]; exact hretry
      · refine Or.inl ⟨_, ?_, ⟨hle, hbefore, Or.inl (by omega)⟩, rfl⟩
        simp [retryRound, hanswer, Answer.call, hnull, hretry, hpost, hpos]
    · refine Or.inl ⟨_, ?_, ⟨hle, hbefore, Or.inr ?_⟩, rfl⟩
      · simp [retryRound, hanswer, Answer.call, hnull, hretry]
      · rw [hanswer]; simpa [Answer.retryable] using hretry

/-- **A retry loop ends**, after as many rounds as it makes attempts, with what the last one got. -/
theorem retry_run {A H : Type} (null : H) (opened : H → Bool) (handle : A → H) (hnull : opened null = false)
    (hhandle : ∀ a, opened (handle a) = true) (answers : Nat → Answer A) (maxRetries : CInt)
    (hm : maxRetries ≠ BitVec.intMin 32) (fuel : Nat) (hfuel : (max maxRetries.toInt 0).toNat < fuel) :
    ∃ n, EndsAt answers (max maxRetries.toInt 0).toNat n ∧
      Loops.run (retryRound null opened (fun k => (answers k).call null handle)) fuel (0, maxRetries) =
        some (((answers n).call null handle).1, n + 1) := by
  have htotal : ∃ r, Loops.run (retryRound null opened (fun k => (answers k).call null handle)) fuel (0, maxRetries) =
      some r ∧ ∃ n, EndsAt answers (max maxRetries.toInt 0).toNat n ∧
        r = (((answers n).call null handle).1, n + 1) := by
    refine Loops.total (I := Retrying answers maxRetries) (fun s => (max maxRetries.toInt 0).toNat - s.1)
      (fun s hs => ?_)
      fuel _ ⟨Nat.zero_le _, by simp, fun j hj => absurd hj (Nat.not_lt_zero j)⟩ (by simpa using hfuel)
    rcases retryRound_spec hnull hhandle answers hm hs with ⟨r, hr, hends, he⟩ | ⟨s', hs', hi, hk⟩
    · exact Or.inl ⟨r, hr, s.1, hends, he⟩
    · have hle := hi.le
      exact Or.inr ⟨s', hs', hi, by omega⟩
  obtain ⟨r, hr, n, hn, rfl⟩ := htotal
  exact ⟨n, hn, hr⟩

/-- What a wrapper returns of its last attempt: the handle, or -1 or the null pointer. -/
def fdOf : Answer Nat → Int
  | .ok fd   => fd
  | .error _ => -1

def fileOf {F : Type} : Answer F → Option F
  | .ok f    => some f
  | .error _ => none

theorem wrappedOpen_run (answers : Nat → Answer Nat) (maxRetries : CInt) (hm : maxRetries ≠ BitVec.intMin 32)
    (fuel : Nat)
    (hfuel : (max maxRetries.toInt 0).toNat < fuel) : ∃ n, EndsAt answers (max maxRetries.toInt 0).toNat n ∧
      Loops.run (wrappedOpenRound answers) fuel (0, maxRetries) = some (fdOf (answers n), n + 1) := by
  obtain ⟨n, hn, hopen⟩ := retry_run (-1 : Int) (· ≠ -1) Int.ofNat rfl
    (fun a => by simp) answers maxRetries hm fuel hfuel
  have hfd : ((answers n).call (-1) Int.ofNat).1 = fdOf (answers n) := by cases answers n <;> rfl
  rw [hfd] at hopen
  exact ⟨n, hn, hopen⟩

theorem wrappedFOpen_run {F : Type} (answers : Nat → Answer F) (maxRetries : CInt)
    (hm : maxRetries ≠ BitVec.intMin 32) (fuel : Nat) (hfuel : (max maxRetries.toInt 0).toNat < fuel) :
      ∃ n, EndsAt answers (max maxRetries.toInt 0).toNat n ∧
      Loops.run (wrappedFOpenRound answers) fuel (0, maxRetries) = some (fileOf (answers n), n + 1) := by
  obtain ⟨n, hn, hfopen⟩ := retry_run none Option.isSome some rfl (fun _ => rfl) answers maxRetries hm fuel hfuel
  have hfile : ((answers n).call none some).1 = fileOf (answers n) := by cases answers n <;> rfl
  rw [hfile] at hfopen
  exact ⟨n, hn, hfopen⟩

/-- **Both wrappers end, after one attempt more than they retry**: they retry up to the first answer that is a
handle or an `errno` other than `EINTR` and `EIO`, `max_retries` times at most, and return what the last attempt
got. -/
theorem wrappedOpen_bounded {F : Type} (maxRetries : CInt) (hm : maxRetries ≠ BitVec.intMin 32)
    (fds : Nat → Answer Nat) (files : Nat → Answer F) (hsame : ∀ k, (fds k).errno = (files k).errno) :
    ∃ n, (∀ fd k, WrappedOpen fds maxRetries fd k ↔ fd = fdOf (fds n) ∧ k = n + 1) ∧
      (∀ file k, WrappedFOpen files maxRetries file k ↔ file = fileOf (files n) ∧ k = n + 1) ∧
      (∀ i, (∀ j < i, (fds j).retryable = true) → (fds i).retryable = false →
        n = min i (max maxRetries.toInt 0).toNat) ∧
      ((∀ i, (fds i).retryable = true) → n = (max maxRetries.toInt 0).toNat) ∧
      ∀ j < n, ∃ e, fds j = .error e ∧ canRetry e = true := by
  have hretryable : ∀ k, (fds k).retryable = (files k).retryable := fun k => by
    rw [Answer.retryable_eq, Answer.retryable_eq, hsame]
  obtain ⟨n, hn, hopen⟩ := wrappedOpen_run fds maxRetries hm _ (Nat.lt_succ_self _)
  obtain ⟨n', hn', hfopen⟩ := wrappedFOpen_run files maxRetries hm _ (Nat.lt_succ_self _)
  have heq := EndsAt.unique hretryable hn hn'
  subst heq
  refine ⟨n, fun fd k => ?_, fun file k => ?_, fun i hbefore hstop => ?_, fun hall => ?_, fun j hj => ?_⟩
  · rw [← Prod.mk.injEq]
    exact Loops.returns_iff hopen (fd, k)
  · rw [← Prod.mk.injEq]
    exact Loops.returns_iff hfopen (file, k)
  · have hle := hn.le
    by_cases hi : i ≤ (max maxRetries.toInt 0).toNat
    · rw [Nat.min_eq_left hi]
      exact EndsAt.unique (fun _ => rfl) hn ⟨hi, hbefore, Or.inr hstop⟩
    · rw [Nat.min_eq_right (by omega)]
      exact EndsAt.unique (fun _ => rfl) hn ⟨Nat.le_refl _, fun j hj => hbefore j (by omega), Or.inl rfl⟩
  · exact EndsAt.unique (fun _ => rfl) hn ⟨Nat.le_refl _, fun j _ => hall j, Or.inl rfl⟩
  · have hj := hn.before j hj
    cases hanswer : fds j with
    | ok fd => rw [hanswer] at hj; cases hj
    | error e => exact ⟨e, rfl, by rw [hanswer] at hj; exact hj⟩

/-- Interrupted once, then denied (`EACCES`): two attempts. -/
theorem wrappedOpen_bounded_denied :
    WrappedOpen (fun k => if k = 0 then .error 4 else .error 13) 2 (-1) 2 ∧
      WrappedFOpen (F := Nat) (fun k => if k = 0 then .error 4 else .error 13) 2 none 2 := by
  obtain ⟨n, hopen, hfopen, hfirst, -⟩ := wrappedOpen_bounded (F := Nat) 2 (by decide)
    (fun k => if k = 0 then .error 4 else .error 13) (fun k => if k = 0 then .error 4 else .error 13) (fun _ => rfl)
  obtain rfl : n = 1 := hfirst 1 (by decide) rfl
  exact ⟨(hopen (-1) 2).2 ⟨rfl, rfl⟩, (hfopen none 2).2 ⟨rfl, rfl⟩⟩

/-! ## The calls -/

def defaultRetries : CInt := 2

/-- `WrappedOpen` with the default number of retries, which three rounds do for. -/
def wrappedOpen (answers : Nat → Answer Nat) : Option (Int × Nat) :=
  Loops.run (wrappedOpenRound answers) 3 (0, defaultRetries)

def wrappedFOpen {F : Type} (answers : Nat → Answer F) : Option (Option F × Nat) :=
  Loops.run (wrappedFOpenRound answers) 3 (0, defaultRetries)

theorem wrappedOpen_eq (answers : Nat → Answer Nat) :
    ∃ n, EndsAt answers 2 n ∧ wrappedOpen answers = some (fdOf (answers n), n + 1) :=
  wrappedOpen_run answers defaultRetries (by decide) 3 (by decide)

theorem wrappedFOpen_eq {F : Type} (answers : Nat → Answer F) :
    ∃ n, EndsAt answers 2 n ∧ wrappedFOpen answers = some (fileOf (answers n), n + 1) :=
  wrappedFOpen_run answers defaultRetries (by decide) 3 (by decide)

end IoWrapper
end JLSPlant
