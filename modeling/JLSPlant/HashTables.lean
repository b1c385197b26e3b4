import JLSPlant.Pairing
/-!
# HashTables — what `Open` keeps of the hash sections, against the format

The format gives a `SHT_GNU_HASH` section four 32-bit words, then the bloom filter in words of native width, then
the buckets and the chains in 32-bit words.  `Open` reads the four words in native width, which is right where that
is 32 bits (`hash_tables_iff`).
-/
namespace JLSPlant

open Binary (Bytes Layout word)

/-! ## The format -/

/-- The header words of a `SHT_GNU_HASH` section. -/
structure GnuHashWords where
  nbucket : Nat
  symndx : Nat
  bloomSize : Nat
  shift2 : Nat

/-- **The `SHT_GNU_HASH` section of an image is at `o`**, with these header words, its bloom filter and buckets in
the file. -/
structure GnuHashAt (w : ElfClass) (file : Bytes) (l : List Shdr) (o : Nat) (d : GnuHashWords) : Prop where
  only : (l.filter (fun s => s.shType = .gnuHash)).map Shdr.shOffset = [o]
  nbucket : word file o 4 = some d.nbucket
  symndx : word file (o + 4) 4 = some d.symndx
  bloomSize : word file (o + 8) 4 = some d.bloomSize
  shift2 : word file (o + 12) 4 = some d.shift2
  fits : o + 16 + d.bloomSize * w.bytes + d.nbucket * 4 ≤ file.length

/-- The `SHT_HASH` section of an image is at `o`, with `n` buckets in the file. -/
structure HashAt (file : Bytes) (l : List Shdr) (o n : Nat) : Prop where
  only : (l.filter (fun s => s.shType = .hash)).map Shdr.shOffset = [o]
  nbucket : word file o 4 = some n
  fits : o + 8 + n * 4 ≤ file.length

/-- **The GNU hash section decoded as the format says**: the words, the bloom filter after them, the buckets after
it, and the chain element of each symbol from `symndx` on where its chain word is. -/
structure DecodesGnuHash (w : ElfClass) (o : Nat) (d : GnuHashWords) (g : GnuHashFields) : Prop where
  nbucket : g.nbucket = d.nbucket
  symndx : g.symndx = d.symndx
  bloomSize : g.bloomSize = d.bloomSize
  shift2 : g.shift2 = d.shift2
  bloomFilter : g.bloomFilter = some (o + 16)
  bucket : g.bucket = some (o + 16 + d.bloomSize * w.bytes)
  chain : ∃ c, g.chain = some c ∧ ∀ i, d.symndx ≤ i →
    w.wrap (c + i * 4) = w.wrap (o + 16 + d.bloomSize * w.bytes + (d.nbucket + (i - d.symndx)) * 4)

structure DecodesHash (o n : Nat) (h : HashFields) : Prop where
  nbucket : h.nbucket = n
  bucket : h.bucket = some (o + 2 * 4)
  chain : h.chain = some (o + (2 + n) * 4)

/-! ## The reads -/

theorem readAll_mem {w : ElfClass} {file : Bytes} {str stride : Nat} : ∀ {n shoff : Nat} {l : List Section},
    Section.readAll w file str stride n shoff = some l → ∀ s ∈ l, ∃ off, Section.read w file str off = some s
  | 0, _, _, h, s, hs => by cases h; cases hs
  | n + 1, shoff, l, h, s, hs => by
    obtain ⟨x, hx, h⟩ := Option.bind_eq_some_iff.1 h
    obtain ⟨l', hl', h⟩ := Option.bind_eq_some_iff.1 h
    cases h
    rcases List.mem_cons.1 hs with rfl | hs
    · exact ⟨shoff, hx⟩
    · exact readAll_mem hl' s hs

theorem sections_mem {w : ElfClass} {file : Bytes} {l : List Section} (h : ElfImg.sections w file = some l) :
    ∀ s ∈ l, ∃ str off, Section.read w file str off = some s := by
  obtain ⟨header, -, h⟩ := Option.bind_eq_some_iff.1 h
  obtain ⟨str, -, h⟩ := Option.bind_eq_some_iff.1 h
  exact fun s hs => ⟨str, readAll_mem h s hs⟩

theorem Section.read_hash {w : ElfClass} {file : Bytes} {str shoff : Nat} {s : Section}
    (h : Section.read w file str shoff = some s) (ht : s.header.shType = .hash) :
    ElfImg.readHash w file s.header.shOffset = some s.hash := by
  have hheader := Section.read_header h
  unfold Section.read at h
  simp only [hheader, Option.bind_eq_bind, Option.bind_some, ht] at h
  obtain ⟨x, hx, hs⟩ := Option.map_eq_some_iff.1 h
  rw [hx, ← congrArg Section.hash hs]

theorem Section.read_gnuHash {w : ElfClass} {file : Bytes} {str shoff : Nat} {s : Section}
    (h : Section.read w file str shoff = some s) (ht : s.header.shType = .gnuHash) :
    ElfImg.readGnuHash w file s.header.shOffset = some s.gnuHash := by
  have hheader := Section.read_header h
  unfold Section.read at h
  simp only [hheader, Option.bind_eq_bind, Option.bind_some, ht] at h
  obtain ⟨x, hx, hs⟩ := Option.map_eq_some_iff.1 h
  rw [hx, ← congrArg Section.gnuHash hs]

/-- The last of the only sections of a kind. -/
theorem lastOf_only {p : Section → Bool} {q : Shdr → Bool} {ss : List Section} {o : Nat} (hpq : ∀ s, p s = q s.header)
    (honly : ((ss.map Section.header).filter q).map Shdr.shOffset = [o]) :
    ∃ s, lastOf p ss = some s ∧ s ∈ ss ∧ p s = true ∧ s.header.shOffset = o := by
  have hfilter : ((ss.map Section.header).filter q).map Shdr.shOffset =
      (ss.filter p).map (fun s => s.header.shOffset) := by
    rw [List.filter_map, List.map_map]
    congr 1
    exact List.filter_congr fun s _ => (hpq s).symm
  rw [hfilter] at honly
  obtain ⟨s, hs, ho⟩ := List.map_eq_singleton_iff.1 honly
  have hlast : lastOf p ss = some s := by
    unfold lastOf
    rw [hs]
    rfl
  exact ⟨s, hlast, (mem_of_lastOf hlast).1, (mem_of_lastOf hlast).2, ho⟩

theorem scanned_hash (w : ElfClass) (ss : List Section) :
    (ElfImg.scanned w ss).hash = (lastOf Section.isHash ss).elim {} Section.hash ∧
      (ElfImg.scanned w ss).gnuHash = (lastOf Section.isGnuHash ss).elim {} Section.gnuHash := by
  obtain ⟨b, hb⟩ := scanned_eq w ss
  rw [hb]
  exact ⟨rfl, rfl⟩

section
variable {w : ElfClass} {file : Bytes} {l : List Shdr} {o n : Nat} {d : GnuHashWords}

theorem HashAt.decodes (h : HashAt file l o n) (hsize : file.length < w.modulus) {x : HashFields}
    (hx : ElfImg.readHash w file o = some x) : DecodesHash o n x := by
  unfold ElfImg.readHash at hx
  have hfits := h.fits
  simp only [h.nbucket, Option.bind_eq_bind, Option.bind_some, Option.some.injEq] at hx
  rw [wrap_of_lt (show o + 2 * 4 < w.modulus by omega),
    wrap_of_lt (show o + 2 * 4 + n * 4 < w.modulus by omega)] at hx
  rw [← hx]
  exact ⟨rfl, rfl, congrArg some (by omega)⟩

/-- An element of an array that starts `s` elements before `a`. -/
theorem wrap_element (w : ElfClass) (a s i : Nat) (hi : s ≤ i) :
    w.wrap (((a - s * 4 : Int) % w.modulus).toNat + i * 4) = w.wrap (a + (i - s) * 4) := by
  have hpos : 0 ≤ (a - s * 4 : Int) % w.modulus := Int.emod_nonneg _ (by have := w.modulus_pos; omega)
  have hcast : ((((a - s * 4 : Int) % w.modulus).toNat : Nat) : Int) = (a - s * 4 : Int) % w.modulus :=
    Int.toNat_of_nonneg hpos
  have hsum : (a - s * 4 : Int) + (i * 4 : Nat) = (a + (i - s) * 4 : Nat) := by omega
  unfold ElfClass.wrap
  apply Int.natCast_inj.1
  rw [Int.natCast_emod, Int.natCast_emod, Int.natCast_add, hcast, Int.emod_add_emod, hsum]

/-- Where the words can be read in 32 bits, the section is decoded as the format says. -/
theorem GnuHashAt.decodes (h : GnuHashAt .elf32 file l o d) (hsize : file.length < ElfClass.elf32.modulus)
    {g : GnuHashFields} (hg : ElfImg.readGnuHash .elf32 file o = some g) : DecodesGnuHash .elf32 o d g := by
  have hfits := h.fits
  have hword : ∀ {off x : Nat}, word file off 4 = some x → x % 2 ^ 32 = x := fun hx =>
    Nat.mod_eq_of_lt (Binary.word_lt hx)
  have hat : ∀ k ≤ 16, ElfClass.elf32.wrap (o + k) = o + k := fun k hk => wrap_of_lt (by omega)
  have hbucket : ElfClass.elf32.wrap (o + 16 + d.bloomSize * 4) = o + 16 + d.bloomSize * 4 :=
    wrap_of_lt (by simp only [ElfClass.bytes] at hfits; omega)
  simp only [ElfImg.readGnuHash, ElfClass.bytes, Nat.reduceMul, hat 4 (by decide), hat 8 (by decide),
    hat 12 (by decide), hat 16 (by decide), h.nbucket, h.symndx, h.bloomSize, h.shift2, hword h.nbucket,
    hword h.symndx, hword h.bloomSize, hword h.shift2, hbucket, Option.bind_eq_bind, Option.bind_some,
    Option.some.injEq] at hg
  rw [← hg]
  refine ⟨rfl, rfl, rfl, rfl, rfl, rfl, _, rfl, fun i hi => ?_⟩
  have helement := wrap_element .elf32 (o + 16 + d.bloomSize * 4 + d.nbucket * 4) d.symndx i hi
  rw [show ((o + 16 + d.bloomSize * 4 + d.nbucket * 4 : Nat) : Int) =
    ((o + 16 + d.bloomSize * 4 : Nat) : Int) + d.nbucket * 4 by omega] at helement
  rw [helement]
  congr 1
  simp only [ElfClass.bytes]
  omega

/-- In 64 bits the bloom filter is looked for after four words of 64 bits. -/
theorem not_decodes {g : GnuHashFields} (hg : ElfImg.readGnuHash .elf64 file o = some g) :
    ¬ DecodesGnuHash .elf64 o d g := by
  intro hdecodes
  unfold ElfImg.readGnuHash at hg
  obtain ⟨nbucket, -, hg⟩ := Option.bind_eq_some_iff.1 hg
  obtain ⟨symndx, -, hg⟩ := Option.bind_eq_some_iff.1 hg
  obtain ⟨bloomSize, -, hg⟩ := Option.bind_eq_some_iff.1 hg
  obtain ⟨shift2, -, hg⟩ := Option.bind_eq_some_iff.1 hg
  have hbloom := hdecodes.bloomFilter
  rw [← Option.some.inj hg] at hbloom
  have hwrap : (o + 32) % ElfClass.elf64.modulus = o + 16 := Option.some.inj hbloom
  have hmodulus : ElfClass.elf64.modulus = 18446744073709551616 := rfl
  rw [hmodulus] at hwrap
  omega

theorem WellFormed.sections_ne_nil {header : Ehdr} {names : Nat} (hwf : WellFormed w file header l names)
    {ss : List Section} (hsections : ElfImg.sections w file = some ss) (hne : ss ≠ []) : header.eShnum ≠ 0 := by
  intro hnum
  obtain ⟨header', hheader, hread⟩ := Option.bind_eq_some_iff.1 hsections
  obtain ⟨str, -, hread⟩ := Option.bind_eq_some_iff.1 hread
  rw [hwf.ehdr] at hheader
  cases hheader
  rw [hnum] at hread
  cases hread
  exact hne rfl

/-- What the scan keeps of the only section of a kind is what is read at its offset. -/
theorem GnuHashAt.scanned (h : GnuHashAt w file l o d) {ss : List Section}
    (hsections : ElfImg.sections w file = some ss) (hss : ss.map Section.header = l) :
    ElfImg.readGnuHash w file o = some (ElfImg.scanned w ss).gnuHash := by
  obtain ⟨x, hlast, hx, hkind, rfl⟩ := lastOf_only (p := Section.isGnuHash) (q := fun s => s.shType = .gnuHash)
    (fun _ => rfl) (by rw [hss]; exact h.only)
  obtain ⟨str, off, hread⟩ := sections_mem hsections x hx
  rw [(scanned_hash w ss).2, hlast]
  exact Section.read_gnuHash hread (by simpa [Section.isGnuHash] using hkind)

theorem HashAt.scanned (h : HashAt file l o n) {ss : List Section} (hsections : ElfImg.sections w file = some ss)
    (hss : ss.map Section.header = l) : ElfImg.readHash w file o = some (ElfImg.scanned w ss).hash := by
  obtain ⟨x, hlast, hx, hkind, rfl⟩ := lastOf_only (p := Section.isHash) (q := fun s => s.shType = .hash)
    (fun _ => rfl) (by rw [hss]; exact h.only)
  obtain ⟨str, off, hread⟩ := sections_mem hsections x hx
  rw [(scanned_hash w ss).1, hlast]
  exact Section.read_hash hread (by simpa [Section.isHash] using hkind)

/-- **On a well-formed image `Open` returns and decodes the hash sections as the format says exactly in 32 bits**,
where the sections are counted in `e_shnum` and can be read. -/
theorem hash_tables_iff {header : Ehdr} {names : Nat} (hwf : WellFormed w file header l names)
    (hgnu : GnuHashAt w file l o d) (base : Nat) :
    (∃ e, ElfImg.openMapped w file base = some e ∧ DecodesGnuHash w o d e.gnuHash ∧
      ∀ o' n, HashAt file l o' n → DecodesHash o' n e.hash) ↔
    w = .elf32 ∧ header.eShnum ≠ 0 ∧ ∃ ss, ElfImg.sections w file = some ss := by
  constructor
  · rintro ⟨e, hopen, hdecodes, -⟩
    obtain ⟨ss, hsections, rfl⟩ := openMapped_some hopen
    have hne : ss ≠ [] := by
      rintro rfl
      cases hdecodes.bloomFilter
    have hnum := hwf.sections_ne_nil hsections hne
    have hreads := hgnu.scanned hsections (hwf.headers_eq hnum hsections)
    refine ⟨?_, hnum, ss, hsections⟩
    cases w with
    | elf32 => rfl
    | elf64 => exact absurd hdecodes (not_decodes hreads)
  · rintro ⟨rfl, hnum, ss, hsections⟩
    have hss := hwf.headers_eq hnum hsections
    refine ⟨_, openMapped_of_sections hsections (hwf.divides hss) base, ?_, fun o' n hhash => ?_⟩
    · exact hgnu.decodes hwf.size (hgnu.scanned hsections hss)
    · exact hhash.decodes hwf.size (hhash.scanned hsections hss)

end

/-! ## Two files -/

/-- One bucket, the symbols from 1 on, a bloom filter of one word. -/
def sampleGnuHash : GnuHashWords := ⟨1, 1, 1, 0⟩

def gnuHashBytes (w : ElfClass) : Bytes := Layout.encode [4, 4, 4, 4, w.bytes, 4, 4] [1, 1, 1, 0, 5, 1, 1]

def hashed32Headers : List Shdr :=
  [nullHeader, shstrtabHeader, dynsymHeader 3, dynstrHeader, textHeader, ⟨0, .gnuHash, 477, 477, 28, 2, 0⟩,
    ⟨0, .hash, 505, 505, 24, 2, 4⟩]

def hashed32 : Bytes := sampleFile 1 ⟨1, 193, 4, 18⟩ ⟨3, 195, 2, 18⟩ ⟨3, 195, 2, 18⟩ hashed32Headers ++
  gnuHashBytes .elf32 ++ Layout.encode [4, 4, 4, 4, 4, 4] [1, 3, 1, 0, 2, 0]

theorem hashed32_wellFormed : WellFormed .elf32 hashed32 ⟨52, 197, 32, 1, 40, 7, 1⟩ hashed32Headers 138 where
  size := by decide +kernel
  ehdr := by decide +kernel
  stride := by decide
  headers := by decide +kernel
  count := by decide
  strings := by decide
  named := by decide +kernel
  dynsym := by decide
  symtab := by decide +kernel
  type := by decide +kernel
  tables := by decide +kernel

theorem hashed32_gnuHash : GnuHashAt .elf32 hashed32 hashed32Headers 477 sampleGnuHash where
  only := by decide
  nbucket := by decide +kernel
  symndx := by decide +kernel
  bloomSize := by decide +kernel
  shift2 := by decide +kernel
  fits := by decide +kernel

theorem hashed32_decoded : ∃ e, ElfImg.openMapped .elf32 hashed32 65536 = some e ∧
    DecodesGnuHash .elf32 477 sampleGnuHash e.gnuHash ∧ ∀ o n, HashAt hashed32 hashed32Headers o n →
    DecodesHash o n e.hash :=
  (hash_tables_iff hashed32_wellFormed hashed32_gnuHash 65536).2
    ⟨rfl, by decide, (ElfImg.sections .elf32 hashed32).get (by decide +kernel), (Option.some_get _).symm⟩

def hashed64Headers : List Shdr :=
  [nullHeader, ⟨0, .dynsym, 64, 64, 24, 2, 24⟩, ⟨0, .strtab, 88, 88, 1, 0, 0⟩, ⟨0, .gnuHash, 89, 89, 32, 1, 0⟩]

/-- The 64-bit file of one dynamic symbol, the reserved one, its strings, and the GNU hash section at 89. -/
def hashed64 : Bytes :=
  (Ehdr.layout .elf64).encode [0, 3, 183, 1, 0, 0, 121, 0, 64, 56, 0, 64, 4, 2] ++
    (Sym.layout .elf64).encode [0, 0, 0, 0, 0, 0] ++ [0] ++ gnuHashBytes .elf64 ++
    (hashed64Headers.map (Shdr.encode .elf64)).flatten

theorem hashed64_wellFormed : WellFormed .elf64 hashed64 ⟨0, 121, 56, 0, 64, 4, 2⟩ hashed64Headers 88 where
  size := by decide +kernel
  ehdr := by decide +kernel
  stride := by decide
  headers := by decide +kernel
  count := by decide
  strings := by decide
  named := by decide +kernel
  dynsym := by decide
  symtab := by decide +kernel
  type := by decide +kernel
  tables := by decide +kernel

theorem hashed64_gnuHash : GnuHashAt .elf64 hashed64 hashed64Headers 89 sampleGnuHash where
  only := by decide
  nbucket := by decide +kernel
  symndx := by decide +kernel
  bloomSize := by decide +kernel
  shift2 := by decide +kernel
  fits := by decide +kernel

/-- In 64 bits the bloom filter size is read from the bloom filter, and the bloom filter is put after it. -/
theorem hashed64_misdecoded : WellFormed .elf64 hashed64 ⟨0, 121, 56, 0, 64, 4, 2⟩ hashed64Headers 88 ∧
    GnuHashAt .elf64 hashed64 hashed64Headers 89 sampleGnuHash ∧
    ∃ e, ElfImg.openMapped .elf64 hashed64 65536 = some e ∧ e.gnuHash.bloomSize = 5 ∧
      e.gnuHash.bloomFilter = some (89 + 32) ∧ ¬ DecodesGnuHash .elf64 89 sampleGnuHash e.gnuHash := by
  have hread : (ElfImg.openMapped .elf64 hashed64 65536).map (fun e => (e.gnuHash.bloomSize, e.gnuHash.bloomFilter)) =
      some (5, some (89 + 32)) := by decide +kernel
  obtain ⟨e, he, hread⟩ := Option.map_eq_some_iff.1 hread
  simp only [Prod.mk.injEq] at hread
  refine ⟨hashed64_wellFormed, hashed64_gnuHash, e, he, hread.1, hread.2, fun h => ?_⟩
  have hsize := h.bloomSize
  rw [hread.1] at hsize
  exact absurd hsize (by decide)

end JLSPlant
