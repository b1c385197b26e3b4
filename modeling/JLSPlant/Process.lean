import JLSPlant.Startup
import JLSPlant.SystemCalls
/-!
# Process — the calls answered as an `Os` says

The process an `Os` describes answers each attempt to open a file in its turn, and `fgets` from the maps it opened.
It stops at a null `FILE*`, at a read through `MAP_FAILED` and at one of a variable that was not set.  Run against
it, call by call, `JNI_OnLoad` comes to what `jniOnLoad` computes: the same version and flag, or the same fault, the
same patches and the same `munmap` (`jniOnLoad_refines`).
-/
namespace JLSPlant

open Binary (Bytes CString)
open IoWrapper (Answer)
open Routine (ComesTo outcome outcome_bind_ok outcome_bind_error outcome_call outcome_ofExcept)
open Stdio (pieces)

variable {w : ElfClass} {π : Type}

/-- How often a file was opened, what is left of the maps, what was unmapped, and the patches. -/
structure Process (π : Type) where
  opens : Nat := 0
  fopens : Nat := 0
  maps : Bytes := []
  unmapped : Option (Header × Int) := none
  patcher : π

/-- The address of the maps' `FILE*`. -/
def mapsFile : Nat := 1

/-- The pointer that `mmap` returned. -/
def Header.region? : Header → Option Region
  | null      => none
  | mapFailed => some .mapFailed
  | mapped _  => some (.mapped 4096)

namespace Os

/-- After `k` attempts to open the maps. -/
def mapsAfter (os : Os) (s : Process π) : Nat → Process π
  | 0     => s
  | k + 1 => { s with fopens := k + 1, maps := (IoWrapper.fileOf (os.fopens k)).getD [] }

def answer (os : Os) (getEnv : Bool) (d : Patcher w π) (s : Process π) :
    (c : SystemCall w) → Except Fault (c.Reply × Process π)
  | .getEnv                   => .ok (getEnv, s)
  | .getApiLevel              => .ok (os.apiLevel, s)
  | .access path              => .ok (os.access path, s)
  | .openFile _               => .ok (os.opens s.opens, { s with opens := s.opens + 1 })
  | .lseek _                  => .ok (os.lseek, s)
  | .mmap _ _                 => .ok (if os.mmap = none then .mapFailed else .mapped 4096, s)
  | .close _                  => .ok ((), s)
  | .fopen                    => .ok ((os.fopens s.fopens).map fun _ => mapsFile, os.mapsAfter s (s.fopens + 1))
  | .fgets _ none             => .error .nullFile
  | .fgets n (some _)         => match Stdio.fgets n s.maps with
    | none           => .ok (none, s)
    | some (p, maps) => .ok (some p, { s with maps := maps })
  | .fclose none              => .error .nullFile
  | .fclose (some _)          => .ok ((), s)
  | .loadAddr                 => .error .unsetAddress
  | .load .mapFailed          => .error .invalidHeader
  | .load (.mapped _)         => .ok (os.mmap.getD [], s)
  | .munmap _ size            => .ok ((), { s with unmapped := some (Header.ofMmap os.mmap, size) })
  | .mprotect address length  => let (o, p) := d.mprotect s.patcher address length; .ok (o, { s with patcher := p })
  | .dobbyHook target hooker  => let (o, p) := d.dobbyHook s.patcher target hooker; .ok (o, { s with patcher := p })
  | .dobbyDestroy func        => let (o, p) := d.dobbyDestroy s.patcher func; .ok (o, { s with patcher := p })

end Os

/-- The image as the routines have it. -/
def Built.img (b : Built) : Img where
  image := b.image
  header := b.header.region?
  size := b.size

section
variable (os : Os) (getEnv : Bool) (d : Patcher w π)

/-! ## The retry loops -/

theorem retryRound_attempts {A H : Type} {null : H} {opened : H → Bool} {handle : A → H} {answers : Nat → Answer A}
    {s : Nat × CInt} {r : (H × Nat) ⊕ (Nat × CInt)}
    (hr : IoWrapper.retryRound null opened (fun k => (answers k).call null handle) s = some r) :
    (∃ h, r = .inl (h, s.1 + 1)) ∨ ∃ left, r = .inr (s.1 + 1, left) := by
  obtain ⟨attempts, retries⟩ := s
  simp only [IoWrapper.retryRound] at hr
  split at hr
  · cases hr
    exact Or.inl ⟨_, rfl⟩
  · split at hr
    · obtain ⟨⟨value, left⟩, -, hr⟩ := Option.bind_eq_some_iff.1 hr
      split at hr <;> cases hr
      · exact Or.inr ⟨_, rfl⟩
      · exact Or.inl ⟨_, rfl⟩
    · cases hr
      exact Or.inl ⟨_, rfl⟩

/-- A retry loop makes its attempts in the states `after` says. -/
theorem outcome_retrying {A H : Type} {null : H} {opened : H → Bool} {handle : A → H} {attempt : Calls w (Answer A)}
    {answers : Nat → Answer A} {after : Nat → Process π}
    (hattempt : ∀ k, outcome (os.answer getEnv d) attempt (after k) = .ok (answers k, after (k + 1)))
    {h : H} {n : Nat} (hrun : Loops.run (IoWrapper.retryRound null opened fun k => (answers k).call null handle) 3
      (0, IoWrapper.defaultRetries) = some (h, n)) :
    outcome (os.answer getEnv d) (Calls.retrying attempt fun answers =>
      IoWrapper.retryRound null opened fun k => (answers k).call null handle) (after 0) = .ok ((h, n), after n) := by
  have hloop : ∃ s', outcome (os.answer getEnv d) (Calls.retrying attempt fun answers =>
      IoWrapper.retryRound null opened fun k => (answers k).call null handle) (after 0) = .ok ((h, n), s') ∧
        s' = after n := by
    refine Routine.outcome_loop (R := fun t u s => t = u ∧ s = after t.1) (D := fun a s => s = after a.2)
      (fun t u s r hR hr => ?_) ⟨rfl, rfl⟩ hrun
    obtain ⟨rfl, rfl⟩ := hR
    have hround : outcome (os.answer getEnv d) (do
        let answer ← attempt
        ofExcept (orFault .unfinished (IoWrapper.retryRound null opened (fun _ => answer.call null handle) t)))
        (after t.1) = .ok (r, after (t.1 + 1)) := by
      have hsame : IoWrapper.retryRound null opened (fun _ => (answers t.1).call null handle) t = some r := hr ▸ rfl
      rw [outcome_bind_ok (hattempt t.1), outcome_ofExcept, hsame]
      rfl
    rcases retryRound_attempts hr with ⟨h, rfl⟩ | ⟨left, rfl⟩
    · exact ⟨_, hround, rfl⟩
    · exact ⟨_, (t.1 + 1, left), hround, rfl, rfl⟩
  obtain ⟨s', hs', rfl⟩ := hloop
  exact hs'

theorem outcome_wrappedOpen (path : CString) {s : Process π} (hs : s.opens = 0) {r : Int × Nat}
    (h : IoWrapper.wrappedOpen os.opens = some r) :
    outcome (os.answer getEnv d) (Calls.wrappedOpen path) s = .ok (r, { s with opens := r.2 }) := by
  have hattempt : ∀ k, outcome (os.answer getEnv d) (Calls.call (.openFile path)) { s with opens := k } =
      .ok (os.opens k, { s with opens := k + 1 }) := fun k => outcome_call _
  have hrun := outcome_retrying os getEnv d hattempt h
  rw [show ({ s with opens := 0 } : Process π) = s by rw [← hs]] at hrun
  exact hrun

theorem outcome_wrappedFOpen {s : Process π} (hs : s.fopens = 0) {a : Answer Bytes} (ha : LastAnswer os.fopens a) :
    ∃ n, outcome (os.answer getEnv d) Calls.wrappedFOpen s =
      .ok (((IoWrapper.fileOf a).map fun _ => mapsFile, n),
        { s with fopens := n, maps := (IoWrapper.fileOf a).getD [] }) := by
  obtain ⟨n, hn, rfl⟩ := ha
  obtain ⟨m, hm, hrun⟩ := IoWrapper.wrappedFOpen_eq fun k => (os.fopens k).map fun _ => mapsFile
  obtain rfl : m = n := IoWrapper.EndsAt.unique (fun k => by cases os.fopens k <;> rfl) hm hn
  have hattempt : ∀ k, outcome (os.answer getEnv d) (Calls.call .fopen) (os.mapsAfter s k) =
      .ok ((os.fopens k).map fun _ => mapsFile, os.mapsAfter s (k + 1)) := fun k => by
    refine (outcome_call _).trans ?_
    cases k with
    | zero => simp only [Os.answer, Os.mapsAfter, hs]
    | succ k => rfl
  have hfile : IoWrapper.fileOf ((os.fopens m).map fun _ => mapsFile) =
      (IoWrapper.fileOf (os.fopens m)).map fun _ => mapsFile := by
    cases os.fopens m <;> rfl
  rw [hfile] at hrun
  exact ⟨m + 1, outcome_retrying os getEnv d hattempt hrun⟩

/-! ## The maps -/

/-- One call of `fgets` and what the round makes of it. -/
theorem outcome_mapsRound {name : CString} {s : Process π} {k : Nat} {b : Bytes}
    {r : Option (Nat × Bytes) ⊕ (Nat × Bytes)} (hr : ElfImg.mapsRound name (k, b) = some r) :
    ∃ maps, outcome (os.answer getEnv d) (Calls.mapsRound name (some mapsFile) k) { s with maps := b } =
      .ok (r.map id Prod.fst, { s with maps := maps }) ∧ ∀ u, r = .inr u → u = (k + 1, maps) := by
  have hcall : ∀ (line : Option Bytes) (s' : Process π),
      os.answer getEnv d { s with maps := b } (.fgets 255 (some mapsFile)) = .ok (line, s') →
        outcome (os.answer getEnv d) (Calls.call (.fgets 255 (some mapsFile))) { s with maps := b } =
          .ok (line, s') :=
    fun _ _ h => (outcome_call _).trans h
  cases hf : Stdio.fgets 255 b with
  | none =>
    have hanswer := hcall none { s with maps := b } (by simp only [Os.answer, hf])
    simp only [ElfImg.mapsRound, hf] at hr
    cases hr
    exact ⟨b, outcome_bind_ok hanswer, fun u hu => by cases hu⟩
  | some q =>
    obtain ⟨buff, maps⟩ := q
    have hanswer := hcall (some buff) { s with maps := maps } (by simp only [Os.answer, hf])
    refine ⟨maps, (outcome_bind_ok hanswer).trans ?_, ?_⟩
    · by_cases hm : ElfImg.matchesMapping name buff = true
      · simp only [ElfImg.mapsRound, hf, hm, if_true] at hr
        cases hr
        simp only [hm, if_true]
        rfl
      · simp only [ElfImg.mapsRound, hf, hm] at hr
        cases hr
        simp only [hm]
        rfl
    · intro u hu
      subst hu
      simp only [ElfImg.mapsRound, hf] at hr
      split at hr <;> cases hr
      rfl

theorem outcome_search {name : CString} {s : Process π} {fuel : Nat} (hfuel : s.maps.length ≤ fuel) :
    ∃ maps, outcome (os.answer getEnv d)
      (Routine.loop .unfinished (Calls.mapsRound name (some mapsFile)) (fuel + 1) 0) s =
      .ok (firstMatch name 0 (pieces 255 s.maps), { s with maps := maps }) := by
  have hsearch := searchMaps_eq name s.maps
  have hrun := Loops.run_more hsearch (Nat.succ_le_succ hfuel)
  have hloop : ∃ s', outcome (os.answer getEnv d)
      (Routine.loop .unfinished (Calls.mapsRound name (some mapsFile)) (fuel + 1) 0) s =
        .ok (firstMatch name 0 (pieces 255 s.maps), s') ∧ ∃ maps, s' = { s with maps := maps } := by
    refine Routine.outcome_loop (R := fun k u t => u.1 = k ∧ t = { s with maps := u.2 })
      (D := fun _ t => ∃ maps, t = { s with maps := maps }) (fun k u t r hR hr => ?_) ⟨rfl, rfl⟩ hrun
    obtain ⟨j, b⟩ := u
    obtain ⟨rfl, rfl⟩ := hR
    obtain ⟨maps, hround, hagain⟩ := outcome_mapsRound os getEnv d (s := s) hr
    cases r with
    | inl a => exact ⟨_, hround, maps, rfl⟩
    | inr u =>
      obtain rfl := hagain u rfl
      exact ⟨_, j + 1, hround, rfl, rfl⟩
  obtain ⟨s', hs', maps, rfl⟩ := hloop
  exact ⟨maps, hs'⟩

/-- The fuel is enough for the maps. -/
def Os.MapsEnd (os : Os) (fuel : Nat) : Prop := ∀ maps, LastAnswer os.fopens (.ok maps) → maps.length ≤ fuel

/-- With nothing patched or unmapped. -/
def Process.SamePatches (s : Process π) (_ : Unit) (s' : Process π) : Prop :=
  s'.patcher = s.patcher ∧ s'.unmapped = s.unmapped

theorem comesTo_getModuleBase (name : CString) {s : Process π} {fuel : Nat} (hfuel : os.MapsEnd fuel)
    (hs : s.fopens = 0) :
    ComesTo (os.answer getEnv d) s.SamePatches (Calls.getModuleBase fuel name) s
      ((ElfImg.getModuleBase w os.fopens name).map (·, ())) := by
  obtain ⟨a, ha⟩ := LastAnswer.exists os.fopens
  obtain ⟨n, hopen⟩ := outcome_wrappedFOpen os getEnv d hs ha
  refine ComesTo.after hopen ?_
  cases a with
  | error e =>
    rw [getModuleBase_null ha]
    exact outcome_bind_error (outcome_bind_error (outcome_bind_error (outcome_call _)))
  | ok maps =>
    obtain ⟨rest, hsearch⟩ := outcome_search os getEnv d (s := { s with fopens := n, maps := maps }) (hfuel maps ha)
    refine ComesTo.after hsearch (ComesTo.after (outcome_call _) ?_)
    obtain ⟨m, hfile⟩ := ha.wrappedFOpen
    cases hfirst : firstMatch name 0 (pieces 255 maps) with
    | none =>
      rw [getModuleBase_absent hfile (by rw [searchMaps_eq, hfirst])]
      exact ⟨_, rfl, rfl, rfl⟩
    | some r =>
      obtain ⟨k, buff⟩ := r
      rw [getModuleBase_found hfile (by rw [searchMaps_eq, hfirst])]
      cases hscan : Stdio.scanHex w.modulus buff with
      | none =>
        rw [show Calls.loadAddrOf (w := w) (some (k, buff)) = Calls.call .loadAddr by
          simp only [Calls.loadAddrOf, hscan]]
        exact outcome_call _
      | some loadAddr =>
        rw [show Calls.loadAddrOf (w := w) (some (k, buff)) = pure loadAddr by simp only [Calls.loadAddrOf, hscan]]
        exact ⟨_, rfl, rfl, rfl⟩

/-! ## The image -/

/-- The image `x`, built from the state `s` with nothing patched or unmapped. -/
def Builds (s : Process π) (c : Calls w Img) (x : Except Fault Built) : Prop :=
  ComesTo (os.answer getEnv d) s.SamePatches c s (x.map fun b => (b.img, ()))

theorem builds_openPath (path : CString) {s : Process π} {fuel : Nat} (hfuel : os.MapsEnd fuel) (hopens : s.opens = 0)
    (hfopens : s.fopens = 0) : Builds os getEnv d s (Calls.openPath fuel path) (ElfImg.openPath w os path) := by
  unfold Builds
  obtain ⟨a, ha⟩ := LastAnswer.exists os.opens
  obtain ⟨n, hopen⟩ := ha.wrappedOpen
  refine ComesTo.after (outcome_wrappedOpen os getEnv d path hopens hopen) ?_
  cases a with
  | error e =>
    rw [openPath_denied ha]
    exact ⟨_, rfl, rfl, rfl⟩
  | ok fd =>
    have hne : IoWrapper.fdOf (.ok fd) ≠ -1 := by simp [IoWrapper.fdOf]
    simp only [if_neg hne]
    refine ComesTo.after (outcome_call _) (ComesTo.after (outcome_call _) (ComesTo.after (outcome_call _) ?_))
    rw [openPath_opened ha]
    cases hmmap : os.mmap with
    | none => exact outcome_bind_error (outcome_call _)
    | some file =>
      have hload : os.answer getEnv d { s with opens := n } (.load (.mapped 4096)) =
          .ok (file, { s with opens := n }) := by
        simp only [Os.answer, hmmap, Option.getD_some]
      refine ComesTo.after ((outcome_call _).trans hload) ?_
      simp only [Header.ofMmap, Header.deref, bind, Except.bind]
      cases himage : orFault .outsideFile (ElfImg.openMapped w file 0) with
      | error f => exact outcome_bind_error rfl
      | ok image =>
        refine ComesTo.after rfl ?_
        have hbase := comesTo_getModuleBase (w := w) os getEnv d path (s := { s with opens := n }) hfuel hfopens
        cases hresult : ElfImg.getModuleBase w os.fopens path with
        | error f =>
          rw [hresult] at hbase
          exact outcome_bind_error hbase
        | ok base =>
          rw [hresult] at hbase
          obtain ⟨s', hrun, hsame⟩ := hbase
          exact ⟨s', outcome_bind_ok hrun, hsame⟩

theorem builds_joined {s : Process π} {dir mElf : CString} {f : CString → Calls w Img}
    {g : CString → Except Fault Built} (h : ∀ path, Builds os getEnv d s (f path) (g path)) :
    Builds os getEnv d s (ofExcept (ElfImg.joined dir mElf) >>= f) (ElfImg.joined dir mElf >>= g) := by
  cases hjoined : ElfImg.joined dir mElf with
  | error e => exact outcome_bind_error rfl
  | ok path => exact ComesTo.after (outcome_ofExcept _) (h path)

theorem builds_called {s : Process π} {c : SystemCall w} {o : c.Reply} {f : c.Reply → Calls w Img}
    {x : Except Fault Built} (ho : os.answer getEnv d s c = .ok (o, s)) (h : Builds os getEnv d s (f o) x) :
    Builds os getEnv d s (Calls.call c >>= f) x := ComesTo.after ((outcome_call c).trans ho) h

theorem builds_construct {elf : CString} {s : Process π} {fuel : Nat} (hfuel : os.MapsEnd fuel) (hopens : s.opens = 0)
    (hfopens : s.fopens = 0) : Builds os getEnv d s (Calls.construct fuel elf) (ElfImg.construct w os elf) := by
  have hopen := fun path => builds_openPath os getEnv d path hfuel hopens hfopens
  unfold Calls.construct ElfImg.construct
  by_cases habs : elf.bytes.head? = some 47
  · rw [if_pos habs, if_pos habs]
    exact hopen elf
  · rw [if_neg habs, if_neg habs]
    refine builds_called os getEnv d rfl ?_
    unfold ElfImg.relativeOpen
    by_cases hapi : 29 ≤ os.apiLevel
    · rw [if_pos hapi]
      simp only [if_pos hapi]
      refine builds_joined os getEnv d fun art => builds_called os getEnv d rfl ?_
      cases hart : os.access art with
      | true => exact hopen art
      | false =>
        refine builds_joined os getEnv d fun runtime => builds_called os getEnv d rfl ?_
        cases hruntime : os.access runtime with
        | true => exact hopen runtime
        | false => exact builds_joined os getEnv d hopen
    · rw [if_neg hapi]
      simp only [if_neg hapi]
      exact builds_joined os getEnv d hopen

/-! ## `Init` -/

/-- The header is null, or the region. -/
def Os.Shows (art : Built) : Prop := art.header = .null ∨ ∃ file, os.mmap = some file ∧ art.header = .mapped file

theorem shows_construct {elf : CString} {art : Built} (hfits : Fits w os elf)
    (h : ElfImg.construct w os elf = .ok art) :
    os.Shows art := by
  rw [construct_eq hfits] at h
  cases openPath_ok_iff.1 h with
  | denied _ => exact Or.inl rfl
  | mapped _ hmmap _ _ _ _ => exact Or.inr ⟨_, hmmap, rfl⟩

theorem outcome_getSymbolAddress {art : Built} (hart : os.Shows art) (s : Process π) (symbol : StringView)
    (matchPrefix : Bool) : outcome (os.answer getEnv d) (Calls.getSymbolAddress art.img symbol matchPrefix) s =
      (orFault .outsideFile (symbol.data >>= fun name => art.getSymbolAddress w name matchPrefix)).map (·, s) := by
  obtain ⟨image, header, size⟩ := art
  cases hdata : symbol.data with
  | none =>
    unfold Calls.getSymbolAddress
    rw [hdata]
    rfl
  | some name =>
    unfold Calls.getSymbolAddress
    rw [hdata, outcome_bind_ok (outcome_ofExcept _)]
    rcases hart with rfl | ⟨file, hmmap, rfl⟩
    · exact outcome_ofExcept _
    · have hload : os.answer getEnv d s (.load (.mapped 4096)) = .ok (file, s) := by
        simp only [Os.answer, hmmap, Option.getD_some]
      exact (outcome_bind_ok ((outcome_call _).trans hload)).trans (outcome_ofExcept _)

/-- The state of the patches, and nothing unmapped. -/
def Process.Patched (p : π) (s : Process π) : Prop := s.patcher = p ∧ s.unmapped = none

theorem comesTo_lookup {art : Built} (hart : os.Shows art) {p : π} {s : Process π} (hs : s.Patched p)
    (symbol : StringView) (matchPrefix : Bool) : ComesTo (os.answer getEnv d) (fun p s => s.Patched p)
      (Calls.getSymbolAddress art.img symbol matchPrefix) s
      ((orFault .outsideFile (symbol.data >>= fun name => art.getSymbolAddress w name matchPrefix)).map (·, p)) := by
  have hrun := outcome_getSymbolAddress os getEnv d hart s symbol matchPrefix
  cases hv : orFault .outsideFile (symbol.data >>= fun name => art.getSymbolAddress w name matchPrefix) with
  | error e =>
    rw [hv] at hrun
    exact hrun
  | ok v =>
    rw [hv] at hrun
    exact ⟨s, hrun, hs⟩

theorem comesTo_initInfo {art : Built} (hart : os.Shows art) (r : Request w) (p : π) (s : Process π)
    (hs : s.Patched p) :
    ComesTo (os.answer getEnv d) (fun p s => s.Patched p) (Calls.initInfo art.img r) s (initInfo d art p r) := by
  obtain ⟨rfl, hnone⟩ := id hs
  cases r with
  | inlineHooker target hooker =>
    cases hhook : d.dobbyHook (d.mprotect s.patcher (MakeRwx.makeRwx target (CInt.toUintptr w MakeRwx.pageSize)).1
      (MakeRwx.makeRwx target (CInt.toUintptr w MakeRwx.pageSize)).2).2 target hooker with
    | mk originCall p' =>
      have hvalue : initInfo d art s.patcher (.inlineHooker target hooker) = .ok (originCall.getD 0, p') := by
        simp only [initInfo, inlineHooker, hhook]
        cases originCall <;> rfl
      have hcall : os.answer getEnv d { s with patcher := (d.mprotect s.patcher
          (MakeRwx.makeRwx target (CInt.toUintptr w MakeRwx.pageSize)).1
          (MakeRwx.makeRwx target (CInt.toUintptr w MakeRwx.pageSize)).2).2 } (.dobbyHook target hooker) =
            .ok (originCall, { s with patcher := p' }) := by
        simp only [Os.answer, hhook]
      rw [hvalue]
      refine ComesTo.after (outcome_call _) (ComesTo.after ((outcome_call _).trans hcall) ?_)
      cases originCall <;> exact ⟨_, rfl, rfl, hnone⟩
  | inlineUnhooker func => exact ⟨_, outcome_call _, rfl, hnone⟩
  | artSymbolResolver symbol => exact comesTo_lookup os getEnv d hart hs symbol false
  | artSymbolPrefixResolver symbol => exact comesTo_lookup os getEnv d hart hs symbol true

/-- The destructor unmaps what it is to. -/
theorem outcome_destructor {art : Built} (hart : os.Shows art) {s : Process π} (hs : s.unmapped = none) :
    outcome (os.answer getEnv d) (Calls.destructor (w := w) art.img) s =
      .ok ((), { s with unmapped := art.destructor }) := by
  obtain ⟨image, header, size⟩ := art
  rcases hart with rfl | ⟨file, hmmap, rfl⟩
  · have hsame : ({ s with unmapped := none } : Process π) = s := by rw [← hs]
    exact congrArg (fun s => Except.ok ((), s)) hsame.symm
  · refine (outcome_call _).trans ?_
    simp only [Os.answer, hmmap]
    rfl

end

/-- **Call by call, `JNI_OnLoad` comes to what `jniOnLoad` computes**, against the process that answers as the `Os`
says: the same version and flag, the same patches and the same region unmapped; or the same fault. -/
theorem jniOnLoad_refines (w : ElfClass) (os : Os) (getEnv : Bool) (d : Patcher w π) (init : Init w) (p : π)
    (fuel : Nat) (hfuel : os.MapsEnd fuel) :
    (∀ r p', jniOnLoad os d getEnv init p = .ok (r, p') →
      ∃ s, outcome (os.answer getEnv d) (Calls.jniOnLoad fuel init) { patcher := p } =
        .ok ((r.result, r.initialized), s) ∧
        s.patcher = p' ∧ s.unmapped = r.unmapped) ∧
    ∀ f, jniOnLoad os d getEnv init p = .error f →
      outcome (os.answer getEnv d) (Calls.jniOnLoad fuel init) { patcher := p } = .error f := by
  have hcomes : ComesTo (os.answer getEnv d) (fun q s => s.patcher = q.1 ∧ s.unmapped = q.2)
      (Calls.jniOnLoad fuel init) { patcher := p } ((jniOnLoad os d getEnv init p).map fun r =>
        ((r.1.result, r.1.initialized), (r.2, r.1.unmapped))) := by
    refine ComesTo.after (outcome_call _) ?_
    cases getEnv with
    | false => exact ⟨_, rfl, rfl, rfl⟩
    | true =>
      have hbuilds : Builds os true d { patcher := p } (Calls.construct fuel libart) (ElfImg.construct w os libart) :=
        builds_construct os true d hfuel rfl rfl
      unfold Builds at hbuilds
      unfold jniOnLoad
      cases hart : ElfImg.construct w os libart with
      | error f =>
        rw [hart] at hbuilds
        exact outcome_bind_error hbuilds
      | ok art =>
        have hshows := shows_construct os (libart_fits w os) hart
        rw [hart] at hbuilds
        obtain ⟨s, hconstruct, hsame⟩ := hbuilds
        refine ComesTo.after hconstruct ?_
        have hinit := ComesTo.through (comesTo_initInfo os true d hshows) init hsame
        simp only [if_true, bind, Except.bind]
        cases hrun : init.run (initInfo d art) p with
        | error f =>
          rw [hrun] at hinit
          exact outcome_bind_error hinit
        | ok q =>
          rw [hrun] at hinit
          obtain ⟨s', hinit, hpatcher, hunmapped⟩ := hinit
          refine ComesTo.after hinit (ComesTo.after (outcome_destructor os true d hshows hunmapped) ?_)
          exact ⟨_, rfl, hpatcher, rfl⟩
  constructor
  · intro r p' h
    rw [h] at hcomes
    exact hcomes
  · intro f h
    rw [h] at hcomes
    exact hcomes

theorem workingOs_refines : ∃ s, outcome (workingOs.answer true (stillPatcher (w := .elf64)))
    (Calls.jniOnLoad 256 asksOneSymbol) { patcher := () } = .ok ((jniVersion16, true), s) := by
  have hfuel : workingOs.MapsEnd 256 := by
    rintro maps ⟨n, -, h⟩
    cases h
    decide
  have hvalue : (jniOnLoad workingOs (stillPatcher (w := .elf64)) true asksOneSymbol ()).map
      (fun r => (r.1.result, r.1.initialized)) = .ok (jniVersion16, true) := by decide +kernel
  cases hload : jniOnLoad workingOs (stillPatcher (w := .elf64)) true asksOneSymbol () with
  | error f =>
    rw [hload] at hvalue
    cases hvalue
  | ok q =>
    obtain ⟨r, p'⟩ := q
    rw [hload] at hvalue
    obtain ⟨s, hrun, -⟩ :=
      (jniOnLoad_refines .elf64 workingOs true stillPatcher asksOneSymbol () 256 hfuel).1 r p' hload
    have hresult : (r.result, r.initialized) = (jniVersion16, true) := Except.ok.inj hvalue
    exact ⟨s, hresult ▸ hrun⟩

end JLSPlant
