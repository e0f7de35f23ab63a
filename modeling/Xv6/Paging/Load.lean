import Xv6.Paging.Exec
import Xv6.Paging.Copyout

namespace Xv6.Paging

open Lib Prog
open Vm (Page Layout maxPage kernbase phystop)

theorem loaduvmLoop_ends {fuel j : Nat} {offset n : Word} (h : Image L region m₀ d sz m) (hsz : sz ≤ 0x80000000)
    (hfit : 4096 * k + n.toNat ≤ sz.toNat) (hj : j ≤ pageCount n) (hfuel : pageCount n - j < fuel) :
    Ends (loaduvmLoop d (addr k) file offset n fuel (addr j)) m fun _ m' => Image L region m₀ d sz m' := by
  have hnat := BitVec.le_def.mp hsz
  rw [show (0x80000000 : Word).toNat = 2147483648 from rfl] at hnat
  have hbound : k + pageCount n < maxPage := by
    simp only [pageCount, maxPage]
    omega
  induction fuel generalizing m j with
  | zero => omega
  | succ fuel ih =>
    unfold loaduvmLoop
    split
    case isFalse => exact .pure h
    case isTrue hlt =>
      have hlt := (addr_lt (by omega)).mp hlt
      obtain ⟨l, hinv⟩ := h.inv
      have hpage : k + j < pageCount sz := lt_pageCount.mpr (by omega)
      have hframe := h.frameAt hsz hpage
      obtain ⟨t, ht, hpte⟩ := Mem.exists_table (Mem.frameAt_eq_some.mp hframe).2.1
      rw [addr_add_addr]
      refine walkpgdir_bind (hinv.ram (P := .dir) rfl).2 (by omega) ?_
      rw [ht]
      refine load_bind (hinv.ram (P := .table _) ht).2 ?_
      rw [← hpte]
      dsimp only
      generalize (if n - addr j < 4096 then n - addr j else 4096) = c
      cases readi file (offset + addr j) c with
      | none => exact .pure h
      | some bs =>
        refine memmove_bind (hinv.ram (P := .page _) hframe).2 ?_
        obtain ⟨hinv', hpte', htable'⟩ := hinv.setBytes hframe
        have himage := h.of_pte hinv' hpte' htable'
        split
        case isFalse => exact .pure himage
        case isTrue =>
          rw [addr_add]
          have hj' := lt_pageCount.mpr hlt
          exact ih himage hj' (by omega)

theorem loaduvm_ends {a offset n : Word} (h : Image L region m₀ d sz m) (hsz : sz ≤ 0x80000000)
    (halign : a.toNat % 4096 = 0) (hfit : a.toNat + n.toNat ≤ sz.toNat) :
    Ends (loaduvm d a file offset n) m fun _ m' => Image L region m₀ d sz m' := by
  have hnat := BitVec.le_def.mp hsz
  rw [show (0x80000000 : Word).toNat = 2147483648 from rfl] at hnat
  have ha : a = addr (pageOf a) := by
    apply BitVec.eq_of_toNat_eq
    rw [toNat_addr (pageOf_lt a), pageOf]
    omega
  unfold loaduvm
  rw [if_neg (not_not.mpr halign), ha]
  refine loaduvmLoop_ends h hsz (by rw [pageOf]; omega) (Nat.zero_le _) ?_
  simp only [pageCount, manyPages]
  omega

def segmentsEnd (file : List Byte) : Nat → Word → Nat → Nat
  | 0, _, e => e
  | i + 1, off, e =>
    match readAll file off 32 with
    | none => e
    | some bs =>
      segmentsEnd file i (off + 32)
        (if (proghdr bs).type = 1 then max e ((proghdr bs).vaddr.toNat + (proghdr bs).memsz.toNat) else e)

theorem loadSegments_ends {i : Nat} {off : Word} (h : Image L region m₀ d sz m) (hsz : sz ≤ 0x80000000) :
    Ends (loadSegments L file d i off sz) m fun r m' =>
      match r with
      | none => ∃ l, Inv L region m₀ m' l d none
      | some sz' => sz' ≤ 0x80000000 ∧ sz'.toNat = segmentsEnd file i off sz.toNat ∧ Image L region m₀ d sz' m' := by
  induction i generalizing m off sz with
  | zero => exact .pure ⟨hsz, rfl, h⟩
  | succ i ih =>
    unfold loadSegments segmentsEnd
    cases readAll file off 32 with
    | none => exact .pure h.inv
    | some bs =>
      dsimp only
      generalize proghdr bs = ph
      by_cases htype : ph.type = 1
      · rw [if_neg (not_not.mpr htype), if_pos htype]
        split
        case isTrue => exact .pure h.inv
        case isFalse hfile =>
        split
        case isTrue => exact .pure h.inv
        case isFalse hwrap =>
        have hend : (ph.vaddr + ph.memsz).toNat = ph.vaddr.toNat + ph.memsz.toNat := by
          have hle := BitVec.le_def.mp (BitVec.not_lt.mp hwrap)
          have := ph.vaddr.isLt
          have := ph.memsz.isLt
          rw [BitVec.toNat_add] at hle ⊢
          omega
        refine (h.allocuvm_ends hsz).bind fun r m₁ hm₁ => ?_
        have hinv₁ : ∃ l, Inv L region m₀ m₁ l d none := by
          rcases hm₁ with ⟨-, hinv⟩ | ⟨-, -, himage, -⟩
          · exact hinv
          · exact himage.inv
        split
        case isTrue => exact .pure hinv₁
        case isFalse hne =>
        obtain ⟨hless, hr, himage, -⟩ := hm₁.resolve_left fun hbad => hne hbad.1
        split
        case isTrue => exact .pure hinv₁
        case isFalse halign =>
        have hr' : r ≤ 0x80000000 := by
          have hnat := BitVec.le_def.mp hsz
          have hlt := BitVec.lt_def.mp hless
          rw [BitVec.le_def]
          omega
        have hfit : ph.vaddr.toNat + ph.filesz.toNat ≤ r.toNat := by
          have := BitVec.le_def.mp (BitVec.not_lt.mp hfile)
          omega
        refine (loaduvm_ends himage hr' (not_not.mp halign) hfit).bind fun ok m₂ hm₂ => ?_
        split
        case isTrue =>
          rw [← hend, ← hr]
          exact ih hm₂ hr'
        case isFalse => exact .pure hm₂.inv
      · rw [if_pos htype, if_neg htype]
        exact ih h hsz

theorem clearpteu_ends (h : Image L region m₀ d sz m) (hsz : sz ≤ 0x80000000) (hk : k < pageCount sz) :
    Ends (clearpteu d (addr k)) m fun _ m' => Image L region m₀ d sz m' ∧ user (m'.pte d k) = false ∧
      ∀ b < maxPage, b ≠ k → m'.pte d b = m.pte d b := by
  obtain ⟨l, hinv⟩ := h.inv
  have hkern := lt_of_lt_of_le hk (pageCount_le hsz)
  have hmax : k < maxPage := lt_trans hkern (by decide)
  obtain ⟨t, ht, hpte⟩ := Mem.exists_table ((h.mapped k hkern).mpr hk)
  have htable := (hinv.ram (P := .table _) ht).2
  refine walkpgdir_bind (hinv.ram (P := .dir) rfl).2 hmax ?_
  rw [ht]
  refine load_bind htable (store_ends htable ?_)
  rw [← hpte]
  have hentry : ∀ {b}, b < maxPage → _ := fun hb => hinv.pte_setPte (w := m.pte d k &&& ~~~4) hmax ht hb
  refine ⟨⟨⟨l, hinv.setPte hmax ht fun _ => ⟨present_clear _, frame_clear _⟩⟩,
    ⟨fun b hb hbmax => ?_, fun i => ?_⟩, fun b hb => ?_⟩, ?_, fun b hb hne => ?_⟩
  · rw [hentry hbmax, if_neg (by omega)]
    exact h.kernel.pte b hb hbmax
  · rw [hinv.table_setPte ht]
    exact h.kernel.table i
  · rw [hentry (lt_trans hb (by decide))]
    by_cases hbk : b = k
    · rw [if_pos hbk, present_clear, hbk]
      exact h.mapped k hkern
    · rw [if_neg hbk]
      exact h.mapped b hb
  · rw [hentry hmax, if_pos rfl, user_clear]
  · rw [hentry hb, if_neg hne]

end Xv6.Paging
