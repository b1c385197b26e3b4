import JLSPlant.Elf
/-!
# MakeRwx — the pages `make_rwx` changes

The macros are evaluated in `uintptr_t`; the `int` literal `page_size` is converted to it by sign extension, after
`- 1`, `~` and the unary minus.  The length is that of as many pages as `n` bytes fill, and one more when `p` and
`p + n` round up to different pages; for which `p` and `n` this is the pages of `[p, p + n)` is
`make_rwx_exact_iff`.
-/
namespace JLSPlant

namespace MakeRwx

variable {w : ElfClass}

def alignUp (x : Uintptr w) (n : CInt) : Uintptr w := (x + CInt.toUintptr w (n - 1)) &&& CInt.toUintptr w (~~~(n - 1))

def alignDown (x : Uintptr w) (n : CInt) : Uintptr w := x &&& CInt.toUintptr w (-n)

def pageSize : CInt := 4096

def pageAlign (n : Uintptr w) : Uintptr w := alignUp n pageSize

def ptrAlign (x : Uintptr w) : Uintptr w := alignDown x pageSize

/-- The address and the length that `make_rwx(p, n)` passes to `mprotect`. -/
def makeRwx (p n : Uintptr w) : Uintptr w × Uintptr w :=
  (ptrAlign p,
    if pageAlign (p + n) ≠ pageAlign p then pageAlign n + CInt.toUintptr w pageSize else pageAlign n)

theorem getLsbD_pageMask (v i : Nat) :
    ((-4096 : CInt).signExtend v).getLsbD i = (decide (i < v) && decide (12 ≤ i)) := by
  have hbits : ∀ j : Fin 32, (-4096 : CInt).getLsbD j = decide (12 ≤ j.val) := by decide
  rw [BitVec.getLsbD_signExtend]
  by_cases hi : i < 32
  · rw [if_pos hi, hbits ⟨i, hi⟩]
  · have hmsb : (-4096 : CInt).msb = true := by decide
    rw [if_neg hi, hmsb, decide_eq_true (show 12 ≤ i by omega)]

/-- **Masking an address rounds it down to its page.** -/
theorem and_pageMask (v : Nat) (x : BitVec v) :
    (x &&& (-4096 : CInt).signExtend v).toNat = x.toNat / 4096 * 4096 := by
  have hshift : x &&& (-4096 : CInt).signExtend v = (x >>> 12) <<< 12 := by
    apply BitVec.eq_of_getLsbD_eq
    intro i hi
    rw [BitVec.getLsbD_and, getLsbD_pageMask, BitVec.getLsbD_shiftLeft, BitVec.getLsbD_ushiftRight]
    by_cases h : 12 ≤ i
    · rw [show 12 + (i - 12) = i by omega]
      simp [hi, h, show ¬ i < 12 by omega]
    · simp [h, show i < 12 by omega]
  have hlt := x.isLt
  have hle := Nat.div_mul_le_self x.toNat 4096
  rw [hshift, BitVec.toNat_shiftLeft, BitVec.toNat_ushiftRight, Nat.shiftRight_eq_div_pow, Nat.shiftLeft_eq]
  exact Nat.mod_eq_of_lt (by omega)

theorem ptrAlign_toNat (x : Uintptr w) : (ptrAlign x).toNat = x.toNat / 4096 * 4096 := and_pageMask w.bits x

theorem pageSize_toNat : ∀ w : ElfClass, (CInt.toUintptr w pageSize).toNat = 4096
  | .elf32 => rfl
  | .elf64 => rfl

theorem pageSize_pred_toNat : ∀ w : ElfClass, (CInt.toUintptr w (pageSize - 1)).toNat = 4095
  | .elf32 => rfl
  | .elf64 => rfl

theorem pageAlign_toNat (x : Uintptr w) (h : x.toNat + 4096 ≤ 2 ^ w.bits) :
    (pageAlign x).toNat = (x.toNat + 4095) / 4096 * 4096 := by
  have hadd : (x + CInt.toUintptr w (pageSize - 1)).toNat = x.toNat + 4095 := by
    rw [BitVec.toNat_add, pageSize_pred_toNat]
    exact Nat.mod_eq_of_lt (by omega)
  have hmask : (pageAlign x).toNat = (x + CInt.toUintptr w (pageSize - 1)).toNat / 4096 * 4096 :=
    and_pageMask w.bits _
  rw [hmask, hadd]

/-- **The range, while no sum wraps**: the page of `p`, and the pages of `n` bytes, with one more when `p` and
`p + n` round up to different pages. -/
theorem makeRwx_toNat (p n : Uintptr w) (h : p.toNat + n.toNat + 2 * 4096 ≤ 2 ^ w.bits) :
    (makeRwx p n).1.toNat = p.toNat / 4096 * 4096 ∧
      (makeRwx p n).2.toNat = (n.toNat + 4095) / 4096 * 4096 +
        if (p.toNat + n.toNat + 4095) / 4096 = (p.toNat + 4095) / 4096 then 0 else 4096 := by
  have hp := pageAlign_toNat p (by omega)
  have hn := pageAlign_toNat n (by omega)
  have hsum : (p + n).toNat = p.toNat + n.toNat := by
    rw [BitVec.toNat_add]
    exact Nat.mod_eq_of_lt (by omega)
  have hpn := pageAlign_toNat (p + n) (by omega)
  rw [hsum] at hpn
  have hsame : pageAlign (p + n) = pageAlign p ↔ (p.toNat + n.toNat + 4095) / 4096 = (p.toNat + 4095) / 4096 := by
    rw [← BitVec.toNat_inj, hpn, hp]
    omega
  refine ⟨ptrAlign_toNat p, ?_⟩
  unfold makeRwx
  by_cases hs : (p.toNat + n.toNat + 4095) / 4096 = (p.toNat + 4095) / 4096
  · rw [if_pos hs, if_neg (not_not.2 (hsame.2 hs)), hn]
    exact (Nat.add_zero _).symm
  · rw [if_neg hs, if_pos (fun he => hs (hsame.1 he)), BitVec.toNat_add, hn, pageSize_toNat]
    exact Nat.mod_eq_of_lt (by omega)

/-- **The pages of `[p, p + n)`, all of them and no other**, from `address` on. -/
structure ExactPages (p n address length : Nat) : Prop where
  aligned : address % 4096 = 0
  covers : ∀ b, p ≤ b → b < p + n → address ≤ b ∧ b < address + length
  meets : ∀ q, q % 4096 = 0 → address ≤ q → q < address + length → p < q + 4096 ∧ q < p + n

theorem exactPages_iff {p n address length : Nat} (hn : 1 ≤ n) (ha : address = p / 4096 * 4096)
    (hl : length % 4096 = 0) :
    ExactPages p n address length ↔ p + n ≤ address + length ∧ address + length < p + n + 4096 := by
  constructor
  · intro h
    have hlast := (h.covers (p + n - 1) (by omega) (by omega)).2
    have hend := h.meets (address + length - 4096) (by omega) (by omega) (by omega)
    omega
  · rintro ⟨hcovers, hend⟩
    exact ⟨by omega, fun b hb hb' => by omega, fun q hq hq' hlt => by omega⟩

/-- **`make_rwx` changes exactly the pages of its bytes when `p` lies inside a page and the bytes stay in it, or
need one page more than their number says.** -/
theorem make_rwx_exact_iff (w : ElfClass) (p n : Uintptr w) (hn : 1 ≤ n.toNat)
    (h : p.toNat + n.toNat + 2 * 4096 ≤ 2 ^ w.bits) :
    ExactPages p.toNat n.toNat (makeRwx p n).1.toNat (makeRwx p n).2.toNat ↔
      p.toNat % 4096 ≠ 0 ∧
        (p.toNat % 4096 + n.toNat ≤ 4096 ∨ 4096 < p.toNat % 4096 + (n.toNat - 1) % 4096 + 1) := by
  obtain ⟨haddress, hlength⟩ := makeRwx_toNat p n h
  have hpages : (makeRwx p n).2.toNat % 4096 = 0 := by
    rw [hlength]
    split <;> omega
  rw [exactPages_iff hn haddress hpages, haddress, hlength]
  split <;> omega

/-- Bytes that start inside a page: the 4096 bytes from 4097 on take two pages, and two are changed. -/
theorem make_rwx_exact_inside :
    ExactPages 4097 4096 (makeRwx (w := .elf64) 4097 4096).1.toNat (makeRwx (w := .elf64) 4097 4096).2.toNat :=
  (make_rwx_exact_iff .elf64 4097 4096 (by decide) (by decide)).2 (by decide)

/-- Bytes that fill a page: the next page, which holds none of them, is changed too. -/
theorem make_rwx_extra_page :
    ¬ ExactPages 4096 4096 (makeRwx (w := .elf32) 4096 4096).1.toNat (makeRwx (w := .elf32) 4096 4096).2.toNat ∧
    ¬ ExactPages 4096 4096 (makeRwx (w := .elf64) 4096 4096).1.toNat (makeRwx (w := .elf64) 4096 4096).2.toNat :=
  ⟨fun h => absurd (h.meets 8192 (by decide) (by decide) (by decide)).2 (by decide),
    fun h => absurd (h.meets 8192 (by decide) (by decide) (by decide)).2 (by decide)⟩

end MakeRwx
end JLSPlant
