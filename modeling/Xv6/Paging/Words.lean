import Xv6.Paging.Code
import Xv6.Vm.Tables

namespace Xv6.Paging

open Vm (Page maxPage kernbase pgroundup)

variable {p : Nat} {perm : Word}

theorem toNat_addr (h : k < maxPage) : (addr k).toNat = 4096 * k := by
  simp only [maxPage] at h
  rw [addr, BitVec.toNat_ofNat]
  omega

theorem addr_add (k : Nat) : addr k + 4096 = addr (k + 1) := by
  apply BitVec.eq_of_toNat_eq
  rw [addr, addr, BitVec.toNat_add, BitVec.toNat_ofNat, BitVec.toNat_ofNat,
    show (4096 : Word).toNat = 4096 from rfl]
  omega

theorem addr_lt (h : k < maxPage) : addr k < sz ↔ 4096 * k < sz.toNat := by
  rw [BitVec.lt_def, toNat_addr h]

theorem pdx_addr (h : k < maxPage) : pdx (addr k) = Vm.pdx k := by
  apply Fin.ext
  simp only [pdx, Vm.pdx, Fin.ofNat, BitVec.toNat_ushiftRight, toNat_addr h, Nat.shiftRight_eq_div_pow]
  omega

theorem ptx_addr (h : k < maxPage) : ptx (addr k) = Vm.ptx k := by
  apply Fin.ext
  simp only [ptx, Vm.ptx, Fin.ofNat, BitVec.toNat_ushiftRight, toNat_addr h, Nat.shiftRight_eq_div_pow]
  omega

theorem pgrounddown_addr (h : k < maxPage) : pgrounddown (addr k) = addr k := by
  apply BitVec.eq_of_toNat_eq
  rw [pgrounddown, Vm.toNat_pgrounddown, toNat_addr h]
  omega

theorem pgroundup_eq_addr (h : sz.toNat ≤ 4096 * kernbase) : pgroundup sz = addr ((sz.toNat + 4095) / 4096) := by
  simp only [kernbase] at h
  apply BitVec.eq_of_toNat_eq
  rw [Vm.toNat_pgroundup (by omega), toNat_addr (by simp only [maxPage]; omega)]
  omega

theorem pgaddr_pdx (h : k < maxPage) : pgaddr (pdx (addr k) + 1 : Nat) - 4096 + 4096 = addr ((k / 1024 + 1) * 1024) := by
  rw [pdx_addr h, BitVec.sub_add_cancel, pgaddr, addr]
  have hpdx : (Vm.pdx k).val = k / 1024 := by
    simp only [maxPage] at h
    simp only [Vm.pdx, Fin.ofNat]
    omega
  have hshift : ((Vm.pdx k).val + 1) <<< 22 = 4096 * ((k / 1024 + 1) * 1024) := by
    rw [hpdx, Nat.shiftLeft_eq]
    omega
  rw [hshift]

theorem toNat_p2v (h : p < Vm.phystop) : (p2v p).toNat = 0x80000000 + 4096 * p := by
  simp only [Vm.phystop] at h
  rw [p2v, BitVec.toNat_add, toNat_addr (by simp only [maxPage]; omega),
    show (0x80000000 : Word).toNat = 0x80000000 from rfl]
  omega

section entry

variable (hp : p < maxPage) (hperm : perm.toNat < 4096)

include hperm in
theorem getLsbD_perm (hj : 12 ≤ j) : perm.getLsbD j = false := by
  refine Nat.testBit_lt_two_pow (lt_of_lt_of_le hperm ?_)
  exact Nat.pow_le_pow_right (by omega : 0 < 2) hj

theorem getLsbD_addr (hj : j < 12) : (addr p).getLsbD j = false := by
  have hmul : 4096 * p = p <<< 12 := by rw [Nat.shiftLeft_eq]; omega
  rw [addr, BitVec.getLsbD_ofNat, hmul, Nat.testBit_shiftLeft]
  simp [hj]

include hp hperm in
theorem frame_entry : frame (addr p ||| perm ||| 1) = p := by
  have hshift : (addr p ||| perm ||| 1) >>> 12 = addr p >>> 12 := by
    apply BitVec.eq_of_getLsbD_eq
    intro i hi
    have hone : (1 : Word).getLsbD (12 + i) = false := getLsbD_perm (by decide) (by omega)
    rw [BitVec.getLsbD_ushiftRight, BitVec.getLsbD_ushiftRight, BitVec.getLsbD_or, BitVec.getLsbD_or,
      getLsbD_perm hperm (by omega), hone]
    simp
  rw [frame, hshift, BitVec.toNat_ushiftRight, toNat_addr hp, Nat.shiftRight_eq_div_pow,
    Nat.mul_div_cancel_left _ (by decide)]

theorem present_entry : present (addr p ||| perm ||| 1) = true := by
  simp [present]

theorem user_entry : user (addr p ||| perm ||| 1) = perm.getLsbD 2 := by
  rw [user, BitVec.getLsbD_or, BitVec.getLsbD_or, getLsbD_addr (by omega)]
  simp

include hperm in
theorem pteFlags_entry : pteFlags (addr p ||| perm ||| 1) = perm ||| 1 := by
  apply BitVec.eq_of_getLsbD_eq
  intro i hi
  have hmask : (0xFFF : Word).getLsbD i = decide (i < 12) := by
    have h := Nat.testBit_two_pow_sub_one 12 i
    rw [show (0xFFF : Word) = BitVec.ofNat 32 (2 ^ 12 - 1) from rfl, BitVec.getLsbD_ofNat, h]
    simp [hi]
  rw [pteFlags, BitVec.getLsbD_and, hmask, BitVec.getLsbD_or, BitVec.getLsbD_or, BitVec.getLsbD_or]
  by_cases hi' : i < 12
  · rw [getLsbD_addr hi']
    simp [hi']
  · have hone : (1 : Word).getLsbD i = false := getLsbD_perm (by decide) (by omega)
    rw [getLsbD_perm hperm (by omega), hone]
    simp [hi']

end entry

theorem toNat_pteFlags_lt (w : Word) : (pteFlags w).toNat < 4096 := by
  have h : (pteFlags w).toNat ≤ (0xFFF : Word).toNat := by
    rw [pteFlags, BitVec.toNat_and]
    exact Nat.and_le_right
  exact lt_of_le_of_lt h (by decide)

theorem pteFlags_or_one (h : present w = true) : pteFlags w ||| 1 = pteFlags w := by
  apply BitVec.eq_of_getLsbD_eq
  intro i hi
  rw [BitVec.getLsbD_or]
  cases i with
  | zero =>
    have h0 : (pteFlags w).getLsbD 0 = true := by
      rw [pteFlags, BitVec.getLsbD_and]
      simpa [present] using h
    rw [h0]
    rfl
  | succ i =>
    have hone : (1 : Word).getLsbD (i + 1) = false := by simp
    rw [hone, Bool.or_false]

theorem frame_pde (hp : p < maxPage) : frame (addr p ||| 7) = p := by
  have h : frame (addr p ||| 7 ||| 1) = p := frame_entry hp (by decide)
  rwa [BitVec.or_assoc, show (7 ||| 1 : Word) = 7 from rfl] at h

theorem present_pde : present (addr p ||| 7) = true := by
  have h : present (addr p ||| 7 ||| 1) = true := present_entry
  rwa [BitVec.or_assoc, show (7 ||| 1 : Word) = 7 from rfl] at h

@[simp] theorem present_zero : present 0#32 = false := rfl

/-! An entry without `PTE_U`. -/

section clear

variable (w : Word)

theorem getLsbD_clear (hj : j < 32) : (w &&& ~~~4).getLsbD j = (w.getLsbD j && j != 2) := by
  have hfour : (~~~4 : Word).getLsbD j = (j != 2) := by
    have hall : ∀ i : Fin 32, (~~~4 : Word).getLsbD i.val = (i.val != 2) := by decide
    exact hall ⟨j, hj⟩
  rw [BitVec.getLsbD_and, hfour]

theorem present_clear : present (w &&& ~~~4) = present w := by
  rw [present, getLsbD_clear w (by decide), present]
  exact Bool.and_true _

theorem user_clear : user (w &&& ~~~4) = false := by
  rw [user, getLsbD_clear w (by decide)]
  exact Bool.and_false _

theorem frame_clear : frame (w &&& ~~~4) = frame w := by
  rw [frame, frame]
  congr 1
  apply BitVec.eq_of_getLsbD_eq
  intro i hi
  rw [BitVec.getLsbD_ushiftRight, BitVec.getLsbD_ushiftRight]
  by_cases hlt : 12 + i < 32
  · rw [getLsbD_clear w hlt, bne_iff_ne.mpr (by omega), Bool.and_true]
  · rw [BitVec.getLsbD_of_ge _ _ (by omega), BitVec.getLsbD_of_ge _ _ (by omega)]

end clear

theorem byteOf_ofBytes (b : Fin 4096 → Byte) : byteOf (ofBytes b) = b := by
  funext k
  obtain ⟨k, hk⟩ := k
  obtain ⟨i, j, hj, rfl⟩ : ∃ i j, j < 4 ∧ k = 4 * i + j := ⟨k / 4, k % 4, by omega, by omega⟩
  have hdiv : (4 * i + j) / 4 = i := by omega
  have hmod : (4 * i + j) % 4 = j := by omega
  simp only [byteOf, ofBytes, hdiv, hmod]
  ext n hn
  simp only [BitVec.getElem_extractLsb', BitVec.getLsbD_append]
  rcases (by omega : j = 0 ∨ j = 1 ∨ j = 2 ∨ j = 3) with rfl | rfl | rfl | rfl <;> grind

end Xv6.Paging
