import JLSPlant.Lookup
import JLSPlant.SectionScan
/-!
# ScanLatch — the section scan after any number of rounds

When no code section has the placeholder's skew, the latch closes at the first `SHT_PROGBITS` section with a
`SHT_DYNSYM` and a `SHT_STRTAB` one before it, and stays closed: after each round the image is what the sections met
so far say (`scan_latches_once`).
-/
namespace JLSPlant

open Binary (Bytes)

/-- The section at `m` is code, after a `SHT_DYNSYM` and a `SHT_STRTAB` one. -/
def CodeAfterTables (l : List Section) (m : Nat) : Prop :=
  (∃ s, l[m]? = some s ∧ s.isProgbits = true) ∧ (∃ i < m, ∃ d, l[i]? = some d ∧ d.isDynsym = true) ∧
    ∃ i < m, ∃ t, l[i]? = some t ∧ t.isStrtab = true

/-- `dynsym`, its offset, size, count and start, and `strtab` are those of the last such sections of `l`. -/
structure DynamicTablesOf (l : List Section) (e : ElfImg) : Prop where
  dynsym : e.dynsym = (lastOf Section.isDynsym l).map Section.shoff
  dynsymOffset : e.dynsymOffset = (lastOf Section.isDynsym l).elim 0 (·.header.shOffset)
  dynsymSize : e.dynsymSize = (lastOf Section.isDynsym l).elim 0 (·.header.shSize)
  dynsymCount : e.dynsymCount = (lastOf Section.isDynsym l).elim 0 Section.count
  dynsymStart : e.dynsymStart = (lastOf Section.isDynsym l).map (·.header.shOffset)
  strtab : e.strtab = (lastOf Section.isStrtab l).map Section.shoff
  symstrOffset : e.symstrOffset = (lastOf Section.isStrtab l).elim 0 (·.header.shOffset)
  strtabStart : e.strtabStart = (lastOf Section.isStrtab l).map (·.header.shOffset)

/-- The `symtab_*` fields are those of the last `.symtab` of `l`, and the offset of its strings that of the last
`.strtab`. -/
structure StaticTablesOf (l : List Section) (e : ElfImg) : Prop where
  symtabOffset : e.symtabOffset = (lastOf Section.isSymtab l).elim 0 (·.header.shOffset)
  symtabSize : e.symtabSize = (lastOf Section.isSymtab l).elim 0 (·.header.shSize)
  symtabCount : e.symtabCount = (lastOf Section.isSymtab l).elim 0 Section.count
  symtabStart : e.symtabStart = (lastOf Section.isSymtab l).map (·.header.shOffset)
  symstrOffsetForSymtab : e.symstrOffsetForSymtab = (lastOf Section.isSymtabStrings l).elim 0 (·.header.shOffset)

/-- **The latch, after the sections `l`**: closed by the first code section after tables, with the tables before it,
or still open, with the last tables of all. -/
structure LatchedOnce (w : ElfClass) (l : List Section) (e : ElfImg) : Prop where
  closed : ∀ m s, l[m]? = some s → CodeAfterTables l m → (∀ j < m, ¬ CodeAfterTables l j) →
    e.bias = s.header.skew w ∧ DynamicTablesOf (l.take m) e
  open_ : (∀ m, ¬ CodeAfterTables l m) → e.bias = -4396 ∧ DynamicTablesOf l e
  static : StaticTablesOf l e

theorem ElfImg.ofSections_dynamic (all part : List Section) (b : Int) :
    DynamicTablesOf part (ElfImg.ofSections all part b) := ⟨rfl, rfl, rfl, rfl, rfl, rfl, rfl, rfl⟩

theorem ElfImg.ofSections_static (all part : List Section) (b : Int) :
    StaticTablesOf all (ElfImg.ofSections all part b) := ⟨rfl, rfl, rfl, rfl, rfl⟩

/-! ## Where the latch closes -/

theorem any_take_iff {p : Section → Bool} {l : List Section} {m : Nat} :
    (l.take m).any p = true ↔ ∃ i < m, ∃ s, l[i]? = some s ∧ p s = true := by
  rw [List.any_eq_true]
  constructor
  · rintro ⟨s, hs, hp⟩
    obtain ⟨i, hi⟩ := List.mem_iff_getElem?.1 hs
    rw [List.getElem?_take] at hi
    split at hi
    · rename_i hlt
      exact ⟨i, hlt, s, hi, hp⟩
    · cases hi
  · rintro ⟨i, hlt, s, hs, hp⟩
    exact ⟨s, List.mem_iff_getElem?.2 ⟨i, by rw [List.getElem?_take, if_pos hlt, hs]⟩, hp⟩

/-- Code with another skew than the placeholder's closes the latch exactly when tables come before it. -/
theorem closes_take_iff {w : ElfClass} {l : List Section} {m : Nat} {s : Section} (hs : l[m]? = some s)
    (hskew : s.isProgbits = true → s.header.skew w ≠ -4396) :
    closes w (l.take m) s = true ↔ CodeAfterTables l m := by
  unfold closes CodeAfterTables
  rw [Bool.and_eq_true, Bool.and_eq_true, Bool.and_eq_true, any_take_iff, any_take_iff, decide_eq_true_eq]
  constructor
  · rintro ⟨⟨⟨hp, hd⟩, ht⟩, -⟩
    exact ⟨⟨s, hs, hp⟩, hd, ht⟩
  · rintro ⟨⟨s', hs', hp⟩, hd, ht⟩
    rw [hs] at hs'
    cases hs'
    exact ⟨⟨⟨hp, hd⟩, ht⟩, hskew hp⟩

/-- **The latch closes at the first section that would close it.** -/
theorem latchFrom_first {w : ElfClass} : ∀ {l seen before : List Section} {s : Section},
    latchFrom w seen l = some (before, s) → ∃ m, l[m]? = some s ∧ before = seen ++ l.take m ∧
      ∀ j < m, ∀ t, l[j]? = some t → closes w (seen ++ l.take j) t = false
  | [], _, _, _, h => by cases h
  | x :: l, seen, before, s, h => by
    rw [latchFrom] at h
    by_cases hx : closes w seen x = true
    · rw [if_pos hx] at h
      cases h
      exact ⟨0, rfl, (List.append_nil _).symm, fun j hj => absurd hj (Nat.not_lt_zero j)⟩
    · rw [if_neg hx] at h
      obtain ⟨m, hs, hbefore, hfirst⟩ := latchFrom_first h
      refine ⟨m + 1, hs, by rw [hbefore, List.append_assoc]; rfl, fun j hj t ht => ?_⟩
      cases j with
      | zero =>
        cases ht
        rw [List.take_zero, List.append_nil]
        simpa using hx
      | succ j =>
        have := hfirst j (by omega) t ht
        rwa [List.append_assoc] at this

theorem latchFrom_none {w : ElfClass} : ∀ {l seen : List Section}, latchFrom w seen l = none →
    ∀ j t, l[j]? = some t → closes w (seen ++ l.take j) t = false
  | [], _, _, _, _, ht => by cases ht
  | x :: l, seen, h, j, t, ht => by
    rw [latchFrom] at h
    by_cases hx : closes w seen x = true
    · rw [if_pos hx] at h; cases h
    · rw [if_neg hx] at h
      cases j with
      | zero =>
        cases ht
        rw [List.take_zero, List.append_nil]
        simpa using hx
      | succ j =>
        have := latchFrom_none h j t ht
        rwa [List.append_assoc] at this

/-- **What the rounds leave latched once.** -/
theorem scanned_latchedOnce {w : ElfClass} {l : List Section}
    (hskew : ∀ s ∈ l, s.isProgbits = true → s.header.skew w ≠ -4396) : LatchedOnce w l (ElfImg.scanned w l) := by
  have hcloses : ∀ {m s}, l[m]? = some s → (closes w (l.take m) s = true ↔ CodeAfterTables l m) := fun hs =>
    closes_take_iff hs (hskew _ (List.mem_iff_getElem?.2 ⟨_, hs⟩))
  have hnot : ∀ {m s}, l[m]? = some s → closes w ([] ++ l.take m) s = false → ¬ CodeAfterTables l m :=
    fun hs hf hc => by
    rw [List.nil_append, (hcloses hs).2 hc] at hf; cases hf
  unfold ElfImg.scanned latch
  cases hlatch : latchFrom w [] l with
  | none =>
    refine ⟨fun m s hs hc _ => absurd hc (hnot hs (latchFrom_none hlatch m s hs)), fun _ => ⟨rfl, ?_⟩, ?_⟩
    · exact ElfImg.ofSections_dynamic l l _
    · exact ElfImg.ofSections_static l l _
  | some r =>
    obtain ⟨before, s⟩ := r
    obtain ⟨m, hm, hbefore, hfirst⟩ := latchFrom_first hlatch
    rw [List.nil_append] at hbefore
    have hcode : CodeAfterTables l m := by
      obtain ⟨mid, post, hmid, -, hclose⟩ := latchFrom_eq_some hlatch
      rw [hbefore] at hclose
      exact (hcloses hm).1 hclose
    refine ⟨fun m' s' hs' hc hmin => ?_, fun hno => absurd hcode (hno m), ?_⟩
    · have heq : m' = m := by
        rcases Nat.lt_trichotomy m' m with hlt | heq | hlt
        · exact absurd hc (hnot hs' (hfirst m' hlt s' hs'))
        · exact heq
        · exact absurd hcode (hmin m hlt)
      subst heq
      rw [hm] at hs'
      cases hs'
      rw [← hbefore]
      exact ⟨rfl, ElfImg.ofSections_dynamic l before _⟩
    · exact ElfImg.ofSections_static l before _

/-! ## The rounds -/

theorem readAll_take {w : ElfClass} {file : Bytes} {str stride : Nat} : ∀ {n shoff : Nat} {l : List Section},
    Section.readAll w file str stride n shoff = some l →
      ∀ k ≤ n, Section.readAll w file str stride k shoff = some (l.take k)
  | _, _, _, _, 0, _ => rfl
  | 0, _, _, _, k + 1, hk => absurd hk (Nat.not_succ_le_zero k)
  | n + 1, shoff, l, h, k + 1, hk => by
    obtain ⟨s, hs, h⟩ := Option.bind_eq_some_iff.1 h
    obtain ⟨l', hl', h⟩ := Option.bind_eq_some_iff.1 h
    cases h
    have ih := readAll_take hl' k (Nat.le_of_succ_le_succ hk)
    rw [Section.readAll, hs, Option.bind_eq_bind, Option.bind_some, ih]
    rfl

/-- **After each round, and at the end, the scan has latched once**, over headers with no symbol table of zero-size
symbols and no code section of the placeholder's skew. -/
theorem scan_latches_once (w : ElfClass) (file : Bytes) (str stride n shoff : Nat) (l : List Section)
    (hread : Section.readAll w file str stride n shoff = some l) (hdivides : ∀ s ∈ l, s.Divides)
    (hskew : ∀ s ∈ l, s.isProgbits = true → s.header.skew w ≠ -4396) :
    ∀ k ≤ n, ∃ e, ElfImg.sectionLoop w file str stride k shoff {} = some e ∧ LatchedOnce w (l.take k) e := by
  intro k hk
  have hmem : ∀ s ∈ l.take k, s ∈ l := fun s hs => List.mem_of_mem_take hs
  have hloop := sectionLoop_of_readAll {} (readAll_take hread k hk) (fun s hs => hdivides s (hmem s hs))
  rw [foldl_see] at hloop
  exact ⟨_, hloop, scanned_latchedOnce fun s hs => hskew s (hmem s hs)⟩

theorem scan_latches_once_codeLast : ∃ l, Section.readAll .elf32 codeLast 138 40 5 197 = some l ∧
    ∃ e, ElfImg.sectionLoop .elf32 codeLast 138 40 5 197 {} = some e ∧ LatchedOnce .elf32 (l.take 5) e :=
  ⟨(Section.readAll .elf32 codeLast 138 40 5 197).get (by decide +kernel), (Option.some_get _).symm,
    scan_latches_once .elf32 codeLast 138 40 5 197 _ (Option.some_get _).symm (by decide +kernel)
      (by decide +kernel) 5
      (by decide)⟩

end JLSPlant
