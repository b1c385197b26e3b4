import JLSPlant.Lookup
import JLSPlant.SectionScan
/-!
# Totality — which files can be opened and searched without a read outside them

Neither `Open` nor the lookup checks an offset, a count or an entry size.  All their reads are inside the file, and no
division is by zero, exactly when the sections can be read and divided by (`openMapped_iff`) and the rows of the two
tables can be read (`total_iff`).
-/
namespace JLSPlant

open Binary (Bytes CString cstring cstringAt table firstAnswer)

/-! ## Rows -/

/-- A row the search compares with the name: the value is none when it is not in the file. -/
structure NamedRow where
  name : CString
  value : Option Nat
deriving DecidableEq

/-- **A row of a symbol table as the search reads it**: one it compares, or one it passes over. -/
abbrev Row := Option NamedRow

def Row.answer (name : CString) (matchPrefix : Bool) : Row → Option (Option Nat)
  | none   => some none
  | some r => if nameAnswers r.name.bytes name matchPrefix then r.value.map some else some none

namespace ElfImg

def dynsymRow (w : ElfClass) (file : Bytes) (start strings k : Nat) : Option Row := do
  let (sym, s) ← symName w file start strings k
  let name ← cstringAt file s
  some (some ⟨name, Sym.stValue w file sym⟩)

def symtabRow (w : ElfClass) (file : Bytes) (start strings i : Nat) : Option Row := do
  let info ← Sym.stInfo w file (symAt w start i)
  let (sym, s) ← symName w file start strings i
  if Sym.stType info = Sym.sttFunc then
    let size ← Sym.stSize w file sym
    if size ≠ 0 then
      let name ← cstringAt file s
      some (some ⟨name, Sym.stValue w file sym⟩)
    else some none
  else some none

def dynsymRows (w : ElfClass) (file : Bytes) (e : ElfImg) : Option (List Row) :=
  match e.dynsymStart, e.strtabStart with
  | some start, some strings => table (dynsymRow w file start strings) e.dynsymCount 0
  | _, _                     => some []

def symtabRows (w : ElfClass) (file : Bytes) (e : ElfImg) : Option (List Row) :=
  match e.symtabStart with
  | some start =>
    if e.symstrOffsetForSymtab ≠ 0 then table (symtabRow w file start e.symstrOffsetForSymtab) e.symtabCount 0
    else some []
  | none => some []

/-- **The rows of the two tables**, in the order of the search. -/
def rows (w : ElfClass) (file : Bytes) (e : ElfImg) : Option (List Row) := do
  let ds ← e.dynsymRows w file
  let ss ← e.symtabRows w file
  some (ds ++ ss)

theorem nameMatches_row {file : Bytes} {s : Nat} {n : CString} (h : cstringAt file s = some n) (name : CString)
    (matchPrefix : Bool) : nameMatches file s name matchPrefix = some (nameAnswers n.bytes name matchPrefix) :=
  nameMatches_eq (Binary.cstringAt_eq_some.1 h) name matchPrefix

theorem dynsymRound_row {w : ElfClass} {file : Bytes} {start strings : Nat} (name : CString) (matchPrefix : Bool)
    (k : Nat) (r : Row) (h : dynsymRow w file start strings k = some r) :
    dynsymRound w file start strings name matchPrefix k = r.answer name matchPrefix := by
  obtain ⟨⟨sym, s⟩, hsym, h⟩ := Option.bind_eq_some_iff.1 h
  obtain ⟨n, hn, h⟩ := Option.bind_eq_some_iff.1 h
  cases h
  unfold dynsymRound
  rw [hsym, Option.bind_eq_bind, Option.bind_some]
  simp only [nameMatches_row hn, Row.answer]
  cases Sym.stValue w file sym <;> rfl

theorem symtabRound_row {w : ElfClass} {file : Bytes} {start strings : Nat} (name : CString) (matchPrefix : Bool)
    (k : Nat) (r : Row) (h : symtabRow w file start strings k = some r) :
    symtabRound w file start strings name matchPrefix k = r.answer name matchPrefix := by
  obtain ⟨info, hinfo, h⟩ := Option.bind_eq_some_iff.1 h
  obtain ⟨⟨sym, s⟩, hsym, h⟩ := Option.bind_eq_some_iff.1 h
  unfold symtabRound
  simp only [hinfo, hsym, Option.bind_eq_bind, Option.bind_some]
  by_cases ht : Sym.stType info = Sym.sttFunc
  · simp only [ht, if_true] at h ⊢
    obtain ⟨size, hsize, h⟩ := Option.bind_eq_some_iff.1 h
    rw [hsize, Option.bind_some]
    by_cases hz : size ≠ 0
    · rw [if_pos hz] at h ⊢
      obtain ⟨n, hn, h⟩ := Option.bind_eq_some_iff.1 h
      cases h
      simp only [nameMatches_row hn, Option.bind_some, Row.answer]
      cases Sym.stValue w file sym <;> rfl
    · rw [if_neg hz] at h ⊢
      cases h
      rfl
  · simp only [ht, if_false] at h ⊢
    cases h
    rfl

theorem searchDynsym_rows {w : ElfClass} {file : Bytes} {e : ElfImg} {l : List Row} (h : e.dynsymRows w file = some l)
    (name : CString) (matchPrefix : Bool) :
    e.searchDynsym w file name matchPrefix = firstAnswer (Row.answer name matchPrefix) l := by
  unfold dynsymRows at h
  unfold searchDynsym
  cases hstart : e.dynsymStart with
  | none => rw [hstart] at h; cases h; rfl
  | some start =>
    cases hstrings : e.strtabStart with
    | none => rw [hstart, hstrings] at h; cases h; rfl
    | some strings =>
      rw [hstart, hstrings] at h
      exact Binary.search_eq_firstAnswer (dynsymRound_row name matchPrefix) h

theorem searchSymtab_rows {w : ElfClass} {file : Bytes} {e : ElfImg} {l : List Row} (h : e.symtabRows w file = some l)
    (name : CString) (matchPrefix : Bool) :
    e.searchSymtab w file name matchPrefix = firstAnswer (Row.answer name matchPrefix) l := by
  unfold symtabRows at h
  unfold searchSymtab
  cases hstart : e.symtabStart with
  | none => rw [hstart] at h; cases h; rfl
  | some start =>
    simp only [hstart] at h ⊢
    by_cases hoff : e.symstrOffsetForSymtab ≠ 0
    · rw [if_pos hoff] at h ⊢
      exact Binary.search_eq_firstAnswer (symtabRound_row name matchPrefix) h
    · rw [if_neg hoff] at h ⊢
      cases h
      rfl

/-- **On rows that can be read, the lookup gives their first answer.** -/
theorem getSymbolOffset_rows {w : ElfClass} {file : Bytes} {e : ElfImg} {l : List Row} (h : e.rows w file = some l)
    (name : CString) (matchPrefix : Bool) : e.getSymbolOffset w file name matchPrefix =
      (firstAnswer (Row.answer name matchPrefix) l).map (·.getD 0) := by
  obtain ⟨ds, hds, h⟩ := Option.bind_eq_some_iff.1 h
  obtain ⟨ss, hss, h⟩ := Option.bind_eq_some_iff.1 h
  cases h
  unfold getSymbolOffset
  rw [searchDynsym_rows hds, searchSymtab_rows hss]
  cases hfirst : firstAnswer (Row.answer name matchPrefix) ds with
  | none =>
    rw [Binary.firstAnswer_append_of_ne (by rw [hfirst]; exact fun h => by cases h), hfirst]
    rfl
  | some o =>
    cases o with
    | some v =>
      rw [Binary.firstAnswer_append_of_ne (by rw [hfirst]; exact fun h => by cases h), hfirst]
      rfl
    | none =>
      rw [Binary.firstAnswer_append hfirst, Option.bind_eq_bind, Option.bind_some]
      cases firstAnswer (Row.answer name matchPrefix) ss with
      | none => rfl
      | some o => cases o <;> rfl

end ElfImg

/-! ## A row that cannot be read -/

/-- A comparison with a string that has no end in the file leaves the file, for a name that goes on like it. -/
theorem nameMatches_unended {file : Bytes} {s : Nat} (h : cstringAt file s = none) :
    0 ∉ file.drop s ∧ ∀ name : CString, file.drop s <+: name.bytes → ElfImg.nameMatches file s name false = none := by
  have hnone : Binary.untilNul (file.drop s) = none := Binary.cstringAt_eq_none.1 h
  refine ⟨Binary.untilNul_none hnone, fun name hprefix => ?_⟩
  obtain ⟨t, ht⟩ := hprefix
  have hstrcmp : Binary.strcmp file s name = none := by
    unfold Binary.strcmp
    rw [← ht]
    exact Binary.sameString_self_append _ t
  unfold ElfImg.nameMatches
  rw [hstrcmp]
  rfl

/-- **A row that cannot be read fails the search of every name that begins with certain bytes.** -/
theorem dynsymRow_none {w : ElfClass} {file : Bytes} {start strings k : Nat}
    (h : ElfImg.dynsymRow w file start strings k = none) : ∃ t : Bytes, 0 ∉ t ∧ ∀ name : CString, t <+: name.bytes →
      ElfImg.dynsymRound w file start strings name false k = none := by
  unfold ElfImg.dynsymRow at h
  unfold ElfImg.dynsymRound
  cases hsym : ElfImg.symName w file start strings k with
  | none => exact ⟨[], List.not_mem_nil, fun _ _ => rfl⟩
  | some r =>
    obtain ⟨sym, s⟩ := r
    cases hname : cstringAt file s with
    | some n => rw [hsym, Option.bind_eq_bind, Option.bind_some] at h; simp [hname] at h
    | none =>
      obtain ⟨hnul, hunended⟩ := nameMatches_unended hname
      exact ⟨file.drop s, hnul, fun name hprefix => by simp [hunended name hprefix]⟩

theorem symtabRow_none {w : ElfClass} {file : Bytes} {start strings k : Nat}
    (h : ElfImg.symtabRow w file start strings k = none) : ∃ t : Bytes, 0 ∉ t ∧ ∀ name : CString, t <+: name.bytes →
      ElfImg.symtabRound w file start strings name false k = none := by
  unfold ElfImg.symtabRow at h
  unfold ElfImg.symtabRound
  cases hinfo : Sym.stInfo w file (ElfImg.symAt w start k) with
  | none => exact ⟨[], List.not_mem_nil, fun _ _ => rfl⟩
  | some info =>
    cases hsym : ElfImg.symName w file start strings k with
    | none => exact ⟨[], List.not_mem_nil, fun _ _ => rfl⟩
    | some r =>
      obtain ⟨sym, s⟩ := r
      simp only [hinfo, hsym, Option.bind_eq_bind, Option.bind_some] at h ⊢
      by_cases ht : Sym.stType info = Sym.sttFunc
      · simp only [ht, if_true] at h ⊢
        cases hsize : Sym.stSize w file sym with
        | none => exact ⟨[], List.not_mem_nil, fun _ _ => rfl⟩
        | some size =>
          simp only [hsize, Option.bind_some] at h ⊢
          by_cases hz : size ≠ 0
          · rw [if_pos hz] at h
            cases hname : cstringAt file s with
            | some n => simp [hname] at h
            | none =>
              obtain ⟨hnul, hunended⟩ := nameMatches_unended hname
              exact ⟨file.drop s, hnul, fun name hprefix => by simp [hz, hunended name hprefix]⟩
          · rw [if_neg hz] at h; cases h
      · simp only [ht, if_false] at h; cases h

/-- Some name begins with given bytes and is the name of no given row. -/
theorem exists_other (l : List Row) (t : Bytes) (ht : 0 ∉ t) : ∃ name : CString, t <+: name.bytes ∧
    ∀ r ∈ l, r.answer name false = some none := by
  have hlong : ∃ m, ∀ r : NamedRow, some r ∈ l → r.name.bytes.length < m := by
    induction l with
    | nil => exact ⟨0, fun r hr => by cases hr⟩
    | cons x l ih =>
      obtain ⟨m, hm⟩ := ih
      cases x with
      | none => exact ⟨m, fun r hr => hm r (by simpa using hr)⟩
      | some y =>
        refine ⟨max m (y.name.bytes.length + 1), fun r hr => ?_⟩
        rcases List.mem_cons.1 hr with hr | hr
        · cases hr; omega
        · have := hm r hr; omega
  obtain ⟨m, hm⟩ := hlong
  refine ⟨⟨t ++ List.replicate m 1, by simp [ht, List.mem_replicate]⟩, List.prefix_append _ _, fun r hr => ?_⟩
  cases r with
  | none => rfl
  | some r =>
    have hne : r.name.bytes ≠ t ++ List.replicate m 1 := fun he => by
      have hlt := hm r hr
      rw [he, List.length_append, List.length_replicate] at hlt
      omega
    simp [Row.answer, nameAnswers, hne]

theorem dynsymRows_none {w : ElfClass} {file : Bytes} {e : ElfImg} (h : e.dynsymRows w file = none) :
    ∃ name, e.searchDynsym w file name false = none := by
  unfold ElfImg.dynsymRows at h
  unfold ElfImg.searchDynsym
  cases hstart : e.dynsymStart with
  | none => rw [hstart] at h; cases h
  | some start =>
    cases hstrings : e.strtabStart with
    | none => rw [hstart, hstrings] at h; cases h
    | some strings =>
      rw [hstart, hstrings] at h
      obtain ⟨j, l, hj, hl, hrow⟩ := Binary.table_none h
      obtain ⟨t, hnul, hround⟩ := dynsymRow_none hrow
      obtain ⟨name, hprefix, hother⟩ := exists_other l t hnul
      exact ⟨name, Binary.search_none (ElfImg.dynsymRound_row name false) hl (Binary.firstAnswer_none hother) hj
        (hround name hprefix)⟩

theorem symtabRows_none {w : ElfClass} {file : Bytes} {e : ElfImg} (h : e.symtabRows w file = none) (ds : List Row) :
    ∃ name, (∀ r ∈ ds, r.answer name false = some none) ∧ e.searchSymtab w file name false = none := by
  unfold ElfImg.symtabRows at h
  unfold ElfImg.searchSymtab
  cases hstart : e.symtabStart with
  | none => rw [hstart] at h; cases h
  | some start =>
    simp only [hstart] at h ⊢
    by_cases hoff : e.symstrOffsetForSymtab ≠ 0
    · simp only [if_pos hoff] at h ⊢
      obtain ⟨j, l, hj, hl, hrow⟩ := Binary.table_none h
      obtain ⟨t, hnul, hround⟩ := symtabRow_none hrow
      obtain ⟨name, hprefix, hother⟩ := exists_other (ds ++ l) t hnul
      have hpass : firstAnswer (Row.answer name false) l = some none :=
        Binary.firstAnswer_none fun r hr => hother r (List.mem_append_right _ hr)
      exact ⟨name, fun r hr => hother r (List.mem_append_left _ hr),
        Binary.search_none (ElfImg.symtabRound_row name false) hl hpass hj (hround name hprefix)⟩
    · rw [if_neg hoff] at h; cases h

/-- **Where the rows cannot all be read, the exact lookup of some name fails.** -/
theorem rows_none {w : ElfClass} {file : Bytes} {e : ElfImg} (h : e.rows w file = none) :
    ∃ name, e.getSymbolOffset w file name false = none := by
  unfold ElfImg.rows at h
  unfold ElfImg.getSymbolOffset
  cases hds : e.dynsymRows w file with
  | none =>
    obtain ⟨name, hname⟩ := dynsymRows_none hds
    exact ⟨name, by rw [hname]; rfl⟩
  | some ds =>
    cases hss : e.symtabRows w file with
    | none =>
      obtain ⟨name, hother, hname⟩ := symtabRows_none hss ds
      refine ⟨name, ?_⟩
      rw [ElfImg.searchDynsym_rows hds, Binary.firstAnswer_none hother, hname]
      rfl
    | some ss => rw [hds, hss] at h; cases h

/-! ## The lookup -/

/-- **The value of every row can be read**, unless an earlier row has its name. -/
def ValuesReadable (l : List Row) : Prop :=
  ∀ before r after, l = before ++ some r :: after → (∀ x, some x ∈ before → x.name ≠ r.name) → r.value ≠ none

theorem nameAnswers_self (name : CString) (matchPrefix : Bool) : nameAnswers name.bytes name matchPrefix = true := by
  simp [nameAnswers]

theorem nameAnswers_exact {n name : CString} (h : n ≠ name) : nameAnswers n.bytes name false = false := by
  have hbytes : n.bytes ≠ name.bytes := fun hb => h (by cases n; cases name; cases hb; rfl)
  simp [nameAnswers, hbytes]

/-- **Every lookup finds its answer exactly when the values can be read**: a row whose name no earlier row has is
the first one an exact lookup finds. -/
theorem firstAnswer_iff_valuesReadable (l : List Row) :
    (∀ name matchPrefix, firstAnswer (Row.answer name matchPrefix) l ≠ none) ↔ ValuesReadable l := by
  constructor
  · rintro h before r after rfl hnew hvalue
    have hbefore : firstAnswer (Row.answer r.name false) before = some none := by
      refine Binary.firstAnswer_none fun x hx => ?_
      cases x with
      | none => rfl
      | some x => simp [Row.answer, nameAnswers_exact (hnew x hx)]
    refine h r.name false ?_
    rw [Binary.firstAnswer_append hbefore, firstAnswer]
    simp [Row.answer, nameAnswers_self, hvalue]
  · intro h name matchPrefix hnone
    obtain ⟨before, x, after, hl, hbefore, hx⟩ := Binary.firstAnswer_eq_none hnone
    cases x with
    | none => cases hx
    | some r =>
      by_cases hname : nameAnswers r.name.bytes name matchPrefix = true
      · have hvalue : r.value = none := by simpa [Row.answer, hname] using hx
        refine h before r after hl (fun y hy hsame => ?_) hvalue
        have hy' := hbefore (some y) hy
        have hyname : nameAnswers y.name.bytes name matchPrefix = true := by rw [← hname, hsame]
        simp only [Row.answer, hyname, if_true] at hy'
        cases hv : y.value <;> rw [hv] at hy' <;> cases hy'
      · simp [Row.answer, hname] at hx

/-- **Every lookup stays inside the file exactly when** the rows can be read, and their values. -/
theorem ElfImg.lookups_iff (w : ElfClass) (file : Bytes) (e : ElfImg) :
    (∀ name matchPrefix, ∃ offset, e.getSymbolOffset w file name matchPrefix = some offset) ↔
      ∃ rows, e.rows w file = some rows ∧ ValuesReadable rows := by
  cases hrows : e.rows w file with
  | none =>
    obtain ⟨name, hnone⟩ := rows_none hrows
    constructor
    · intro htotal
      obtain ⟨offset, hoffset⟩ := htotal name false
      rw [hnone] at hoffset
      cases hoffset
    · rintro ⟨rows, h, -⟩
      cases h
  | some rows =>
    have hiff : (∀ name matchPrefix, ∃ offset, e.getSymbolOffset w file name matchPrefix = some offset) ↔
        ValuesReadable rows := by
      rw [← firstAnswer_iff_valuesReadable]
      refine forall_congr' fun name => forall_congr' fun matchPrefix => ?_
      rw [ElfImg.getSymbolOffset_rows hrows]
      cases firstAnswer (Row.answer name matchPrefix) rows <;> simp
    rw [hiff]
    constructor
    · exact fun h => ⟨rows, rfl, h⟩
    · rintro ⟨rows', h, hvalues⟩
      cases h
      exact hvalues

/-- **Parsing and lookup stay inside the file, for every name and mode, exactly when** the sections can be read and
divided by, and the rows of the tables `Open` took can be read, each up to the end of its name, and its value unless
an earlier row has its name. -/
theorem total_iff (w : ElfClass) (file : Bytes) (base : Nat) :
    (∃ e, ElfImg.openMapped w file base = some e ∧
      ∀ name matchPrefix, ∃ offset, e.getSymbolOffset w file name matchPrefix = some offset) ↔
    ∃ l, ElfImg.sections w file = some l ∧ EntriesSized w l ∧
      ∃ rows, (ElfImg.scanned w l).rows w file = some rows ∧ ValuesReadable rows := by
  constructor
  · rintro ⟨e, hopen, htotal⟩
    obtain ⟨l, hl, hsized, rfl⟩ := openMapped_iff.1 hopen
    exact ⟨l, hl, hsized, (ElfImg.lookups_iff w file _).1 htotal⟩
  · rintro ⟨l, hl, hsized, hrows⟩
    exact ⟨_, openMapped_iff.2 ⟨l, hl, hsized, rfl⟩,
      (ElfImg.lookups_iff w file { ElfImg.scanned w l with base := base }).2 hrows⟩

def zeroEntsize : Bytes := sampleFile 1 ⟨1, 193, 4, 18⟩ ⟨3, 195, 2, 18⟩ ⟨3, 195, 2, 18⟩
  [nullHeader, shstrtabHeader, ⟨0, .dynsym, 84, 84, 48, 3, 0⟩, dynstrHeader, textHeader]

/-- A file of one byte has no header; a file whose sections can all be read has symbols of size 0. -/
theorem malformed_not_total :
    (¬ ∃ e, ElfImg.openMapped .elf64 [127] 65536 = some e ∧
      ∀ name matchPrefix, ∃ offset, e.getSymbolOffset .elf64 [127] name matchPrefix = some offset) ∧
    (ElfImg.sections .elf32 zeroEntsize).isSome = true ∧
    ¬ ∃ e, ElfImg.openMapped .elf32 zeroEntsize 65536 = some e ∧
      ∀ name matchPrefix, ∃ offset, e.getSymbolOffset .elf32 zeroEntsize name matchPrefix = some offset := by
  have hshort : ElfImg.openMapped .elf64 [127] 65536 = none := by decide +kernel
  have hzero : ElfImg.openMapped .elf32 zeroEntsize 65536 = none := by decide +kernel
  refine ⟨?_, by decide +kernel, ?_⟩
  · rintro ⟨e, he, -⟩
    rw [hshort] at he
    cases he
  · rintro ⟨e, he, -⟩
    rw [hzero] at he
    cases he

end JLSPlant
