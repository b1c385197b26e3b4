import JLSPlant.Lookup
import JLSPlant.SectionScan
/-!
# Resolver — the symbol resolvers of `JNI_OnLoad`, and the characters of their argument

A resolver hands on where its `string_view` starts, and the lookup takes the string from there to the next NUL.  So
its answer is the one for the viewed characters, in every image, exactly when the byte after the view is the first
NUL (`views_answered_iff`).
-/
namespace JLSPlant

open Binary (Bytes CString Layout cstring word table)

/-- A `std::string_view` into a buffer. -/
structure StringView where
  buffer : Bytes
  start : Nat
  length : Nat
  inside : start + length ≤ buffer.length

namespace StringView

def chars (v : StringView) : Bytes := (v.buffer.drop v.start).take v.length

/-- `symbol.data()`, as the string up to its NUL.  It is read whole, by the comparison that succeeds or to be
logged; in a buffer without a NUL that is undefined. -/
def data (v : StringView) : Option CString := Binary.cstringAt v.buffer v.start

/-- **The first NUL from the view's start on is the byte after the view.** -/
def Terminated (v : StringView) : Prop := 0 ∉ v.chars ∧ v.buffer[v.start + v.length]? = some 0

instance (v : StringView) : Decidable v.Terminated := inferInstanceAs (Decidable (_ ∧ _))

theorem terminated_iff (v : StringView) : v.Terminated ↔ cstring v.buffer v.start = some v.chars := by
  have hsplit : v.buffer.drop v.start = v.chars ++ v.buffer.drop (v.start + v.length) := by
    unfold chars
    rw [← List.drop_drop, List.take_append_drop]
  unfold Terminated cstring
  rw [Binary.untilNul_eq_some_iff, hsplit]
  refine and_congr_right fun _ => ?_
  rw [← List.head?_drop]
  cases v.buffer.drop (v.start + v.length) with
  | nil => simp
  | cons x t => simp

end StringView

/-- `art_symbol_resolver` and `art_symbol_prefix_resolver`. -/
def artSymbolResolver (w : ElfClass) (file : Bytes) (art : ElfImg) (symbol : StringView) : Option Nat := do
  let name ← symbol.data
  art.getSymbolAddress w file name false

def artSymbolPrefixResolver (w : ElfClass) (file : Bytes) (art : ElfImg) (symbol : StringView) : Option Nat := do
  let name ← symbol.data
  art.getSymbolAddress w file name true

/-- **The address for exactly these characters**: null for characters with a NUL, which no symbol name has. -/
def ElfImg.addressOf (w : ElfClass) (file : Bytes) (art : ElfImg) (chars : Bytes) (matchPrefix : Bool) : Option Nat :=
  if h : 0 ∉ chars then art.getSymbolAddress w file ⟨chars, h⟩ matchPrefix else some 0

/-- **The resolvers answer both views alike**, each with the address for the viewed characters. -/
structure AnswersViews (w : ElfClass) (file : Bytes) (art : ElfImg) (u v : StringView) : Prop where
  resolver : artSymbolResolver w file art u = artSymbolResolver w file art v
  prefixResolver : artSymbolPrefixResolver w file art u = artSymbolPrefixResolver w file art v
  exact_ : artSymbolResolver w file art u = art.addressOf w file u.chars false ∧
    artSymbolResolver w file art v = art.addressOf w file v.chars false
  prefix_ : artSymbolPrefixResolver w file art u = art.addressOf w file u.chars true ∧
    artSymbolPrefixResolver w file art v = art.addressOf w file v.chars true

section
variable {w : ElfClass} {file : Bytes} {art : ElfImg} {u v : StringView}

theorem StringView.Terminated.data (h : v.Terminated) : v.data = some ⟨v.chars, h.1⟩ :=
  Binary.cstringAt_eq_some.2 (v.terminated_iff.1 h)

/-- The resolvers answer a terminated view with the address for its characters. -/
theorem StringView.Terminated.resolves (h : v.Terminated) (w : ElfClass) (file : Bytes) (art : ElfImg) :
    artSymbolResolver w file art v = art.addressOf w file v.chars false ∧
      artSymbolPrefixResolver w file art v = art.addressOf w file v.chars true := by
  unfold artSymbolResolver artSymbolPrefixResolver ElfImg.addressOf
  rw [h.data, dif_pos h.1, dif_pos h.1]
  exact ⟨rfl, rfl⟩

end

/-! ## An image of one name -/

/-- The bytes before the string table: a file header, one dynamic symbol of value 1 and three section headers. -/
def oneSymbol (w : ElfClass) : Bytes :=
  let ehdr := (Ehdr.layout w).size
  let shoff := ehdr + Sym.sizeOf w
  (Ehdr.layout w).encode [0, 3, 40, 1, 0, 0, shoff, 0, ehdr, 0, 0, Shdr.sizeOf w, 3, 0] ++
    (Sym.layout w).encode (match w with | .elf32 => [0, 1, 0, 0, 0, 0] | .elf64 => [0, 0, 0, 0, 1, 0]) ++
    Shdr.encode w nullHeader ++ Shdr.encode w ⟨0, .dynsym, 0, ehdr, Sym.sizeOf w, 2, Sym.sizeOf w⟩ ++
    Shdr.encode w ⟨0, .strtab, 0, shoff + 3 * Shdr.sizeOf w, 0, 0, 0⟩

def imageOf (w : ElfClass) (name : CString) : Bytes := oneSymbol w ++ (name.bytes ++ [0])

def oneSymbolSections (w : ElfClass) : List Section :=
  let ehdr := (Ehdr.layout w).size
  let shoff := ehdr + Sym.sizeOf w
  [{ shoff := shoff, header := nullHeader },
    { shoff := shoff + Shdr.sizeOf w, header := ⟨0, .dynsym, 0, ehdr, Sym.sizeOf w, 2, Sym.sizeOf w⟩ },
    { shoff := shoff + 2 * Shdr.sizeOf w, header := ⟨0, .strtab, 0, shoff + 3 * Shdr.sizeOf w, 0, 0, 0⟩ }]

theorem oneSymbol_sections : ∀ w : ElfClass, ElfImg.sections w (oneSymbol w) = some (oneSymbolSections w)
  | .elf32 => by decide +kernel
  | .elf64 => by decide +kernel

theorem imageOf_open (w : ElfClass) (name : CString) : ElfImg.openMapped w (imageOf w name) 65536 =
    some { ElfImg.scanned w (oneSymbolSections w) with base := 65536 } :=
  openMapped_of_sections (sections_append (oneSymbol_sections w) _) (by cases w <;> decide) 65536

theorem imageOf_symbol (w : ElfClass) (name : CString) :
    Symbol.read w (imageOf w name) (Ehdr.layout w).size (oneSymbol w).length 0 = some ⟨name.bytes, 1, 0, 0⟩ := by
  have hfields : Sym.stName w (oneSymbol w) (Ehdr.layout w).size = some 0 ∧
      Sym.stValue w (oneSymbol w) (Ehdr.layout w).size = some 1 ∧
      Sym.stSize w (oneSymbol w) (Ehdr.layout w).size = some 0 ∧
      Sym.stInfo w (oneSymbol w) (Ehdr.layout w).size = some 0 := by cases w <;> decide +kernel
  have hstName : Sym.stName w (imageOf w name) (Ehdr.layout w).size = some 0 := Binary.word_append hfields.1 _
  have hvalue : Sym.stValue w (imageOf w name) (Ehdr.layout w).size = some 1 := Binary.word_append hfields.2.1 _
  have hsize : Sym.stSize w (imageOf w name) (Ehdr.layout w).size = some 0 := Binary.word_append hfields.2.2.1 _
  have hinfo : Sym.stInfo w (imageOf w name) (Ehdr.layout w).size = some 0 := Binary.word_append hfields.2.2.2 _
  have hname : cstring (imageOf w name) (oneSymbol w).length = some name.bytes := by
    unfold cstring imageOf
    rw [List.drop_left]
    exact Binary.untilNul_eq_some_iff.2 ⟨name.noNul, [], rfl⟩
  have hat : ElfImg.symAt w (Ehdr.layout w).size 0 = (Ehdr.layout w).size := by cases w <;> decide
  have hstrings : w.wrap ((oneSymbol w).length + 0) = (oneSymbol w).length := by cases w <;> decide +kernel
  unfold Symbol.read ElfImg.symName
  simp only [hat, hstName, hvalue, hsize, hinfo, hstrings, hname, Option.bind_eq_bind, Option.bind_some]
  rfl

/-- **The image of a name has one symbol, of this name.** -/
theorem imageOf_candidates (w : ElfClass) (name : CString) :
    (ElfImg.scanned w (oneSymbolSections w)).candidates w (imageOf w name) = some [⟨name.bytes, 1, 0, 0⟩] := by
  have htables : (ElfImg.scanned w (oneSymbolSections w)).dynsymStart = some (Ehdr.layout w).size ∧
      (ElfImg.scanned w (oneSymbolSections w)).strtabStart = some (oneSymbol w).length ∧
      (ElfImg.scanned w (oneSymbolSections w)).dynsymCount = 1 ∧
      (ElfImg.scanned w (oneSymbolSections w)).symtabStart = none := by cases w <;> decide +kernel
  obtain ⟨hstart, hstrings, hcount, hsymtab⟩ := htables
  unfold ElfImg.candidates ElfImg.dynsyms ElfImg.symtabs
  simp only [hstart, hstrings, hcount, hsymtab, table, imageOf_symbol, Option.bind_eq_bind, Option.bind_some]
  rfl

/-- In the image of a name, exact lookup finds this name and no other. -/
theorem imageOf_address {w : ElfClass} {name other : CString} {art : ElfImg}
    (h : ElfImg.openMapped w (imageOf w name) 65536 = some art) :
    art.getSymbolAddress w (imageOf w name) other false = some (if other = name then 65536 + 1 + 4396 else 0) := by
  rw [imageOf_open, Option.some.injEq] at h
  have hcandidates : art.candidates w (imageOf w name) = some [⟨name.bytes, 1, 0, 0⟩] := by
    rw [← h]
    exact imageOf_candidates w name
  have hbias : art.bias = -4396 ∧ art.base = 65536 := by
    rw [← h]
    cases w <;> exact ⟨by decide +kernel, rfl⟩
  have hoffset := art.getSymbolOffset_eq hcandidates other false
  unfold ElfImg.getSymbolAddress
  rw [hoffset, hbias.1, hbias.2]
  by_cases hother : other = name
  · subst hother
    cases w <;> simp [Symbol.hasName, nameAnswers] <;> decide
  · have hbytes : name.bytes ≠ other.bytes := fun hb => hother (by cases name; cases other; cases hb; rfl)
    simp [Symbol.hasName, nameAnswers, hbytes, hother]

/-! ## The views -/

/-- A view that every image answers for its characters is terminated: the image of the string the resolver reads
tells. -/
theorem terminated_of_answered {w : ElfClass} {z : StringView} (hz : ∀ file base art,
    ElfImg.openMapped w file base = some art → artSymbolResolver w file art z = art.addressOf w file z.chars false) :
    z.Terminated := by
  rw [z.terminated_iff]
  have haddress : ∀ {name : CString} {art : ElfImg}, ElfImg.openMapped w (imageOf w name) 65536 = some art →
      art.addressOf w (imageOf w name) z.chars false =
        some (if z.chars = name.bytes then 65536 + 1 + 4396 else 0) := by
    intro name art hopen
    unfold ElfImg.addressOf
    by_cases hnul : 0 ∈ z.chars
    · have hne : z.chars ≠ name.bytes := fun he => name.noNul (he ▸ hnul)
      rw [dif_neg (not_not.2 hnul), if_neg hne]
    · rw [dif_pos hnul, imageOf_address hopen]
      by_cases he : z.chars = name.bytes
      · rw [if_pos he, if_pos (by cases name; simp only at he; subst he; rfl)]
      · rw [if_neg he, if_neg (fun hname => he (congrArg CString.bytes hname))]
  cases hdata : z.data with
  | none =>
    have hanswer := hz _ _ _ (imageOf_open w symbolF)
    rw [haddress (imageOf_open w symbolF), artSymbolResolver, hdata] at hanswer
    cases hanswer
  | some name =>
    have hanswer := hz _ _ _ (imageOf_open w name)
    rw [haddress (imageOf_open w name), artSymbolResolver, hdata, Option.bind_eq_bind, Option.bind_some,
      imageOf_address (imageOf_open w name), if_pos rfl, Option.some.injEq] at hanswer
    have hchars : z.chars = name.bytes := by
      by_cases he : z.chars = name.bytes
      · exact he
      · rw [if_neg he] at hanswer
        cases hanswer
    rw [Binary.cstringAt_eq_some.1 hdata, hchars]

/-- **The answers depend on the viewed characters alone, and are right for them, exactly for terminated views**,
over all images of a word size. -/
theorem views_answered_iff (w : ElfClass) (u v : StringView) (huv : u.chars = v.chars) :
    (∀ file base art, ElfImg.openMapped w file base = some art → AnswersViews w file art u v) ↔
      u.Terminated ∧ v.Terminated := by
  constructor
  · intro h
    exact ⟨terminated_of_answered fun file base art hopen => (h file base art hopen).exact_.1,
      terminated_of_answered fun file base art hopen => (h file base art hopen).exact_.2⟩
  · rintro ⟨hu, hv⟩ file base art -
    obtain ⟨hu, hu'⟩ := hu.resolves w file art
    obtain ⟨hv, hv'⟩ := hv.resolves w file art
    exact ⟨by rw [hu, hv, huv], by rw [hu', hv', huv], ⟨hu, hv⟩, ⟨hu', hv'⟩⟩

/-- `f`, alone in its buffer and as the end of a longer name. -/
theorem views_answered_f : ∃ art, ElfImg.openMapped .elf32 codeLast 65536 = some art ∧
    AnswersViews .elf32 codeLast art ⟨[102, 0], 0, 1, by decide⟩ ⟨[103, 102, 0], 1, 1, by decide⟩ :=
  ⟨(ElfImg.openMapped .elf32 codeLast 65536).get (by decide +kernel), (Option.some_get _).symm,
    (views_answered_iff .elf32 ⟨[102, 0], 0, 1, by decide⟩ ⟨[103, 102, 0], 1, 1, by decide⟩ rfl).2
      ⟨by decide, by decide⟩ _ _ _ (Option.some_get _).symm⟩

/-- `f` as the beginning of `fg`: the answer is the address of `fg`. -/
theorem views_differ_f : ∃ art, ElfImg.openMapped .elf32 codeLast 65536 = some art ∧
    (StringView.mk [102, 0] 0 1 (by decide)).chars = (StringView.mk [102, 103, 0] 0 1 (by decide)).chars ∧
    artSymbolResolver .elf32 codeLast art ⟨[102, 0], 0, 1, by decide⟩ = some (65536 + 193) ∧
    artSymbolResolver .elf32 codeLast art ⟨[102, 103, 0], 0, 1, by decide⟩ = some (65536 + 195) ∧
    ¬ AnswersViews .elf32 codeLast art ⟨[102, 0], 0, 1, by decide⟩ ⟨[102, 103, 0], 0, 1, by decide⟩ := by
  have hread : (ElfImg.openMapped .elf32 codeLast 65536).map (fun art =>
      (artSymbolResolver .elf32 codeLast art ⟨[102, 0], 0, 1, by decide⟩,
        artSymbolResolver .elf32 codeLast art ⟨[102, 103, 0], 0, 1, by decide⟩)) =
          some (some (65536 + 193), some (65536 + 195)) := by decide +kernel
  obtain ⟨art, hopen, hread⟩ := Option.map_eq_some_iff.1 hread
  simp only [Prod.mk.injEq] at hread
  refine ⟨art, hopen, rfl, hread.1, hread.2, fun h => ?_⟩
  have hsame := h.resolver
  rw [hread.1, hread.2] at hsame
  exact absurd hsame (by decide)

end JLSPlant
