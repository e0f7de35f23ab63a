import Xv6.Paging.Load

namespace Xv6.Paging

open Lib Prog
open Vm (Page Layout maxPage kernbase phystop pgroundup)

theorem pageCount_addr (hk : k < maxPage) : pageCount (addr k) = k := by
  rw [pageCount, toNat_addr hk]
  omega

theorem KernelMap.not_accessible (h : KernelMap m d) (hle : 0x80000000 ≤ va.toNat) : ¬m.Accessible d va := by
  intro hacc
  have hpage : kernbase ≤ pageOf va := by
    rw [pageOf, kernbase]
    omega
  have huser := h.pte (pageOf va) hpage (pageOf_lt va) hacc.1
  rw [hacc.2] at huser
  cases huser

theorem KernelMap.tabled_of_device (h : KernelMap m d) (hle : 0xFE000000 ≤ va.toNat) : m.Tabled d va len := by
  intro j _ hacc
  cases j with
  | zero =>
    have hmax := pageOf_lt va
    have hpdx : (Vm.pdx (pageOf va)).val = pageOf va / 1024 := by
      simp only [maxPage] at hmax
      simp only [Vm.pdx, Fin.ofNat]
      omega
    rw [pageOf] at hpdx hmax
    rw [after_zero, pageOf]
    exact (h.table _ (by omega)).mpr (by omega)
  | succ j =>
    have hfirst := hacc 0 (Nat.succ_pos j)
    rw [after_zero] at hfirst
    exact absurd hfirst (h.not_accessible (by omega))

structure Ready (L : Layout) (region : Page → Prop) (m₀ : Mem) (d : Page) (g : Nat) (m : Mem) : Prop where
  image : Image L region m₀ d (addr (g + 2)) m
  guard : user (m.pte d g) = false
  stack : user (m.pte d (g + 1)) = true
  bound : g + 2 ≤ kernbase

namespace Ready

theorem lt_maxPage (h : Ready L region m₀ d g m) : g + 2 < maxPage := lt_of_le_of_lt h.bound (by decide)

theorem copied {E : Stop → Prop} (h : Ready L region m₀ d g m)
    (hnull : ¬m.Tabled d va len → ∀ s, Finishes E null s fun _ _ => False) :
    Finishes E (copyout null d va buf len) m fun ok m' => Ready L region m₀ d g m' ∧ m.Tabled d va len ∧
      (ok = true → ∀ j < len.toNat, m.Accessible d (after va j)) ∧
      (ok = false → ∃ j < len.toNat, ¬m.Accessible d (after va j)) := by
  obtain ⟨l, hinv⟩ := h.image.inv
  have hloop : Finishes E (copyout null d va buf len) m _ :=
    copyoutLoop_ends hinv h.image.kernel hnull (Nat.lt_succ_self _)
  refine hloop.mono ?_
  rintro ok m' ⟨hinv', hm', ht⟩
  refine ⟨⟨h.image.of_pte hinv' hm'.pte hm'.table, ?_, ?_, h.bound⟩, ht, fun hok j hj => (hm'.all hok j hj).1, hm'.stops⟩
  · rw [hm'.pte]
    exact h.guard
  · rw [hm'.pte]
    exact h.stack

section

variable (h : Ready L region m₀ d g m)

include h

theorem tabled_of_le (hle : va.toNat + len.toNat ≤ 4096 * (g + 2)) : m.Tabled d va len := by
  intro j hj _
  have hbound := h.bound
  simp only [kernbase] at hbound
  have hpage : pageOf (after va j) < g + 2 := by
    rw [pageOf, toNat_after]
    omega
  have hkern : pageOf (after va j) < kernbase := lt_of_lt_of_le hpage h.bound
  obtain ⟨t, ht, -⟩ := Mem.exists_table ((h.image.mapped _ hkern).mpr (by rwa [pageCount_addr h.lt_maxPage]))
  rw [ht]
  exact Option.some_ne_none t

theorem accessible_of_room {len : Word} (hlow : 4096 * (g + 1) ≤ va.toNat) (hle : va.toNat + len.toNat ≤ 4096 * (g + 2))
    (hj : j < len.toNat) : m.Accessible d (after va j) := by
  have hbound := h.bound
  simp only [kernbase] at hbound
  have hpage : pageOf (after va j) = g + 1 := by
    rw [pageOf, toNat_after]
    omega
  refine ⟨?_, by rw [hpage]; exact h.stack⟩
  rw [hpage]
  have hlt := h.bound
  exact (h.image.mapped _ (by omega)).mpr (by rw [pageCount_addr h.lt_maxPage]; omega)

theorem room_of_accessible (hlow : 4096 * (g + 1) ≤ sp.toNat) (hsp : sp.toNat ≤ 4096 * (g + 2)) (hpos : 0 < len.toNat)
    (hlen : len.toNat ≤ 0xE000000) (hacc : ∀ j < len.toNat, m.Accessible d (after ((sp - len) &&& ~~~3) j)) :
    4096 * (g + 1) + len.toNat ≤ sp.toNat := by
  have hbound := h.bound
  simp only [kernbase] at hbound
  have hva : ((sp - len) &&& ~~~3).toNat = (4294967296 - len.toNat + sp.toNat) % 4294967296 / 4 * 4 := by
    rw [Vm.toNat_align, BitVec.toNat_sub]
  -- a stack pointer that wraps around is among the pages of the kernel
  have hnowrap : len.toNat ≤ sp.toNat := by
    by_contra hlt
    have hfirst := hacc 0 hpos
    rw [after_zero] at hfirst
    exact absurd hfirst (h.image.kernel.not_accessible (by omega))
  -- one that comes to lie below the stack makes the copy meet the guard page
  by_contra hlt
  have hguard := hacc (4096 * g - ((sp - len) &&& ~~~3).toNat) (by rw [hva]; omega)
  have hpage : pageOf (after ((sp - len) &&& ~~~3) (4096 * g - ((sp - len) &&& ~~~3).toNat)) = g := by
    rw [pageOf, toNat_after, hva]
    omega
  have huser := hguard.2
  rw [hpage, h.guard] at huser
  cases huser

end

end Ready

/-- Each string that is reached, because all before it fit in the page of the stack from `low` up
and are no more than `MAXARG`, leaves the stack pointer at most 32 megabytes below address 0, where
the devices are. -/
def Pushes (low : Nat) : Nat → Nat → List (List Byte) → Prop
  | _, _, [] => True
  | argc, sp, s :: argv => argc < 32 → s.length + 1 ≤ sp + 0x2000000 ∧
      (low + (s.length + 1) ≤ sp → Pushes low (argc + 1) ((sp - (s.length + 1)) / 4 * 4) argv)

theorem KernelMap.not_tabled (h : KernelMap m d) (hlo : 0xF2000000 ≤ va.toNat) (hhi : va.toNat < 0xFE000000)
    (hlen : 0 < len.toNat) : ¬m.Tabled d va len := by
  intro ht
  have hfirst := ht 0 hlen fun i hi => absurd hi (Nat.not_lt_zero i)
  have hpdx : (Vm.pdx (pageOf va)).val = va.toNat / 4096 / 1024 := by
    have hmax := va.isLt
    simp only [Vm.pdx, Fin.ofNat, pageOf]
    omega
  rw [after_zero] at hfirst
  have := (h.table _ (by omega)).mp hfirst
  omega

theorem pushArgs_finishes {E : Stop → Prop} (h : Ready L region m₀ d g m) (hlow : 4096 * (g + 1) ≤ sp.toNat)
    (hsp : sp.toNat ≤ 4096 * (g + 2)) (hus : us.length ≤ 32) (hargs : ∀ s ∈ argv, s.length + 1 ≤ 0xE000000)
    (hnull : ¬Pushes (4096 * (g + 1)) us.length sp.toNat argv → ∀ s, Finishes E null s fun _ _ => False) :
    Finishes E (pushArgs null d sp us argv) m fun r m' => Ready L region m₀ d g m' ∧
      Pushes (4096 * (g + 1)) us.length sp.toNat argv ∧
      ∀ sp' us', r = some (sp', us') → 4096 * (g + 1) ≤ sp'.toNat ∧ sp'.toNat ≤ 4096 * (g + 2) ∧ us'.length ≤ 32 := by
  have hbound := h.bound
  simp only [kernbase] at hbound
  induction argv generalizing m sp us with
  | nil =>
    refine .pure ⟨h, trivial, ?_⟩
    rintro sp' us' ⟨⟩
    exact ⟨hlow, hsp, hus⟩
  | cons s argv ih =>
    unfold pushArgs
    split
    case isTrue hfull => exact .pure ⟨h, fun hlt => absurd hfull (Nat.not_le.mpr hlt), by rintro _ _ ⟨⟩⟩
    case isFalse hroom =>
      have hargc := Nat.not_le.mp hroom
      have hs := hargs s List.mem_cons_self
      have hlen : (BitVec.ofNat 32 (s.length + 1)).toNat = s.length + 1 := by
        rw [BitVec.toNat_ofNat]
        omega
      unfold Pushes at hnull ⊢
      dsimp only
      generalize BitVec.ofNat 32 (s.length + 1) = len at hlen
      rw [← hlen] at hnull hs ⊢
      have hva : ((sp - len) &&& ~~~3).toNat = (4294967296 - len.toNat + sp.toNat) % 4294967296 / 4 * 4 := by
        rw [Vm.toNat_align, BitVec.toNat_sub]
      have htabled : len.toNat ≤ sp.toNat + 0x2000000 ↔ m.Tabled d ((sp - len) &&& ~~~3) len := by
        constructor
        · intro hreach
          by_cases hwrap : len.toNat ≤ sp.toNat
          · exact h.tabled_of_le (by omega)
          · exact h.image.kernel.tabled_of_device (by omega)
        · intro ht
          by_contra hfar
          exact h.image.kernel.not_tabled (by omega) (by omega) (by omega) ht
      refine (h.copied fun ht => hnull fun hpush => ht (htabled.mp (hpush hargc).1)).bind ?_
      rintro ok m₁ ⟨hm₁, ht, hall, hstop⟩
      have hreach := htabled.mpr ht
      split
      case isTrue hok =>
        have hroom' := h.room_of_accessible hlow hsp (by omega) hs (hall hok)
        have hva' : ((sp - len) &&& ~~~3).toNat = (sp.toNat - len.toNat) / 4 * 4 := by omega
        rw [← hva'] at hnull ⊢
        have hcount : (us ++ [(sp - len) &&& ~~~3]).length = us.length + 1 := by
          rw [List.length_append, List.length_singleton]
        have hmax : (us ++ [(sp - len) &&& ~~~3]).length ≤ 32 := by omega
        have hrest := ih hm₁ (by omega) (by omega) hmax
          (fun t ht => hargs t (List.mem_cons_of_mem s ht))
          (fun hno => hnull fun hpush => hno (hcount ▸ (hpush hargc).2 hroom'))
        refine hrest.mono ?_
        rintro r m₂ ⟨hm₂, hpush, hr⟩
        exact ⟨hm₂, fun _ => ⟨hreach, fun _ => hcount ▸ hpush⟩, hr⟩
      case isFalse hok =>
        obtain ⟨j, hj, hnot⟩ := hstop (Bool.eq_false_of_not_eq_true hok)
        refine .pure ⟨hm₁, fun _ => ⟨hreach, fun hfit => absurd ?_ hnot⟩, by rintro _ _ ⟨⟩⟩
        have hend : ((sp - len) &&& ~~~3).toNat + len.toNat ≤ 4096 * (g + 2) := by omega
        exact h.accessible_of_room (by omega) hend hj

theorem pushStack_finishes {E : Stop → Prop} (h : Ready L region m₀ d g m)
    (hargs : ∀ s ∈ argv, s.length + 1 ≤ 0xE000000)
    (hnull : ¬Pushes (4096 * (g + 1)) 0 (4096 * (g + 2)) argv → ∀ s, Finishes E null s fun _ _ => False) :
    Finishes E (pushStack null d (addr (g + 2)) argv) m fun _ m' => Ready L region m₀ d g m' ∧
      Pushes (4096 * (g + 1)) 0 (4096 * (g + 2)) argv := by
  have hbound := h.bound
  simp only [kernbase] at hbound
  have htop := toNat_addr h.lt_maxPage
  rw [← htop] at hnull ⊢
  have hnone : ([] : List Word).length ≤ 32 := Nat.zero_le 32
  refine (pushArgs_finishes h (by omega) (by omega) hnone hargs hnull).bind ?_
  rintro (_ | ⟨sp, us⟩) m₁ ⟨hm₁, hpush, hsp⟩
  · exact .pure ⟨hm₁, hpush⟩
  · obtain ⟨hlow, hhigh, hus⟩ := hsp sp us rfl
    have hsize : ((3 + BitVec.ofNat 32 us.length + 1) * 4 : Word).toNat = 4 * (us.length + 4) := by
      rw [BitVec.toNat_mul, BitVec.toNat_add, BitVec.toNat_add, BitVec.toNat_ofNat, show (3 : Word).toNat = 3 from rfl,
        show (1 : Word).toNat = 1 from rfl, show (4 : Word).toNat = 4 from rfl]
      omega
    have hsub : (sp - (3 + BitVec.ofNat 32 us.length + 1) * 4).toNat = sp.toNat - 4 * (us.length + 4) := by
      rw [BitVec.toNat_sub, hsize]
      omega
    refine (hm₁.copied fun ht => absurd (hm₁.tabled_of_le ?_) ht).bind fun ok m₂ hm₂ => ?_
    · rw [hsub, hsize]
      omega
    · split
      case isTrue => exact .pure ⟨hm₂.1, hpush⟩
      case isFalse => exact .pure ⟨hm₂.1, hpush⟩

theorem addStack_finishes {E : Stop → Prop} (h : Image L region m₀ d sz m) (hsz : sz ≤ 0x80000000)
    (hargs : ∀ s ∈ argv, s.length + 1 ≤ 0xE000000)
    (hnull : ∀ top m', allocuvm L d (pgroundup sz) (pgroundup sz + 8192) m = .ok (top, m') → top ≠ 0 →
      ¬Pushes (4096 * (pageCount sz + 1)) 0 (4096 * (pageCount sz + 2)) argv → ∀ s, Finishes E null s fun _ _ => False) :
    Finishes E (addStack L null d sz argv) m fun r m' =>
      (∀ top m', allocuvm L d (pgroundup sz) (pgroundup sz + 8192) m = .ok (top, m') → top ≠ 0 →
        Pushes (4096 * (pageCount sz + 1)) 0 (4096 * (pageCount sz + 2)) argv) ∧
      match r with
      | none => ∃ l, Inv L region m₀ m' l d none
      | some (sz, _) => sz ≤ 0x80000000 ∧ Image L region m₀ d sz m' := by
  have hkern := pageCount_le hsz
  have hmax : pageCount sz + 2 < maxPage := lt_of_le_of_lt (Nat.add_le_add_right hkern 2) (by decide)
  have hnat : sz.toNat ≤ 4096 * kernbase := BitVec.le_def.mp hsz
  have himage : Image L region m₀ d (addr (pageCount sz)) m :=
    ⟨h.inv, h.kernel, by rw [pageCount_addr (by omega)]; exact h.mapped⟩
  have hup : pgroundup sz = addr (pageCount sz) := pgroundup_eq_addr hnat
  have hle : addr (pageCount sz) ≤ 0x80000000 := by
    rw [BitVec.le_def, toNat_addr (by omega)]
    exact Nat.mul_le_mul_left 4096 hkern
  have hadd : addr (pageCount sz) + 8192 = addr (pageCount sz + 2) := addr_add_addr _ 2
  have hcount := pageCount_addr (k := pageCount sz) (by omega)
  unfold addStack
  rw [hup] at hnull ⊢
  dsimp only
  -- neither address is to be computed
  generalize ha : addr (pageCount sz) = a at himage hle hadd hnull hcount
  generalize htop : a + 8192 = top at hadd hnull
  refine ((himage.allocuvm_ends hle).weaken fun _ => False.elim).bind_run fun r m₂ hrun hm₂ => ?_
  split
  case isTrue hzero =>
    refine .pure ⟨fun top m' hrun' hne => ?_, ?_⟩
    · cases hrun.symm.trans hrun'
      exact absurd hzero hne
    · rcases hm₂ with ⟨-, hinv⟩ | ⟨-, -, hm₂, -⟩
      · exact hinv
      · exact hm₂.inv
  case isFalse hne =>
    obtain ⟨hless, hr, himage₂, huser⟩ := hm₂.resolve_left fun hbad => hne hbad.1
    obtain rfl : r = top := by
      apply BitVec.eq_of_toNat_eq
      rw [hr, hadd, ← ha, toNat_addr (by omega), toNat_addr hmax]
      omega
    have hlow : r - 8192 = addr (pageCount sz) := by rw [← htop, BitVec.add_sub_cancel, ha]
    have hbound := pageCount_le (BitVec.le_of_lt hless)
    have hpages : pageCount r = pageCount sz + 2 := by rw [hadd, pageCount_addr hmax]
    rw [hpages] at hbound
    rw [hlow]
    have hclear := clearpteu_ends himage₂ (BitVec.le_of_lt hless) (k := pageCount sz) (by omega)
    refine (hclear.weaken fun _ => False.elim).bind fun _ m₃ hm₃ => ?_
    have hstack : user (m₃.pte d (pageCount sz + 1)) = true := by
      rw [hm₃.2.2 _ (by omega) (by omega)]
      exact huser _ (by omega) (by omega)
    have hready : Ready L region m₀ d (pageCount sz) m₃ := ⟨hadd ▸ hm₃.1, hm₃.2.1, hstack, hbound⟩
    have hpush := pushStack_finishes hready hargs (hnull r m₂ hrun hne)
    rw [← hadd] at hpush
    refine hpush.bind fun sp m₄ hm₄ => ?_
    cases sp with
    | none => exact .pure ⟨fun _ _ _ _ => hm₄.2, hm₄.1.image.inv⟩
    | some sp => exact .pure ⟨fun _ _ _ _ => hm₄.2, BitVec.le_of_lt hless, hadd ▸ hm₄.1.image⟩

def guardPage (file : List Byte) : Nat :=
  (segmentsEnd file (elfhdr (file.take 52)).phnum (elfhdr (file.take 52)).phoff 0 + 4095) / 4096

def PushesFor (file : List Byte) (argv : List (List Byte)) : Prop :=
  Pushes (4096 * (guardPage file + 1)) 0 (4096 * (guardPage file + 2)) argv

/-- The call gets to the argument strings: the segments are accepted, and there is memory for them
and for the stack. -/
def ReachesStack (L : Layout) (d : Page) (file : List Byte) (m : Mem) : Prop :=
  ∃ sz m₁ top m₂, loadSegments L file d (elfhdr (file.take 52)).phnum
      (elfhdr (file.take 52)).phoff 0 m = .ok (some sz, m₁) ∧
    allocuvm L d (pgroundup sz) (pgroundup sz + 8192) m₁ = .ok (top, m₂) ∧ top ≠ 0

theorem loadImage_finishes {E : Stop → Prop} (h : SetUp L region m₀ d m)
    (hargs : ∀ s ∈ argv, s.length + 1 ≤ 0xE000000)
    (hnull : ¬(ReachesStack L d file m → PushesFor file argv) → ∀ s, Finishes E null s fun _ _ => False) :
    Finishes E (loadImage L null d file (elfhdr (file.take 52)) argv) m fun r m' =>
      (ReachesStack L d file m → PushesFor file argv) ∧
      match r with
      | none => ∃ l, Inv L region m₀ m' l d none
      | some (sz, _) => sz ≤ 0x80000000 ∧ Image L region m₀ d sz m' := by
  refine ((loadSegments_ends h.image (by decide)).weaken fun _ => False.elim).bind_run ?_
  rintro (_ | sz) m₁ hrun hm₁
  · refine .pure ⟨?_, hm₁⟩
    rintro ⟨sz, _, _, _, hload, -⟩
    cases hrun.symm.trans hload
  · have hguard : guardPage file = pageCount sz := by rw [pageCount, hm₁.2.1, guardPage]; rfl
    rw [PushesFor, hguard] at hnull ⊢
    refine (addStack_finishes hm₁.2.2 hm₁.1 hargs fun top m₂ halloc hne hno => hnull fun hpush =>
      hno (hpush ⟨sz, m₁, top, m₂, hrun, halloc, hne⟩)).mono ?_
    rintro r m₂ ⟨hpush, hr⟩
    refine ⟨?_, hr⟩
    rintro ⟨sz', _, top, m₃, hload, halloc, hne⟩
    cases hrun.symm.trans hload
    exact hpush top m₃ halloc hne

end Xv6.Paging
