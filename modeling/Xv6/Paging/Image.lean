import Xv6.Paging.Kernel

namespace Xv6.Paging

open Lib Prog
open Vm (Page Layout maxPage kernbase phystop)

theorem KernelMap.grown (h : KernelMap m pd) (hg : Grown m pd lo hi m') (hhi : hi ≤ kernbase) :
    KernelMap m' pd where
  pte := fun b hb hmax hp => by
    have hold := hg.old b hmax (.inr (le_trans hhi hb))
    have hmapped : m'.mapping pd b = some (m'.pte pd b) := if_pos hp
    rw [hmapped, Mem.mapping] at hold
    split at hold
    case isTrue hp' => exact Option.some.inj hold ▸ h.pte b hb hmax hp'
    case isFalse => cases hold
  table := fun i hi => by
    rw [hg.table i hi]
    exact h.table i hi

structure Image (L : Layout) (region : Page → Prop) (m₀ : Mem) (d : Page) (sz : Word) (m : Mem) : Prop where
  inv : ∃ l, Inv L region m₀ m l d none
  kernel : KernelMap m d
  mapped : ∀ b < kernbase, present (m.pte d b) = true ↔ b < pageCount sz

theorem SetUp.image (h : SetUp L region m₀ d m) : Image L region m₀ d 0 m where
  inv := h.inv
  kernel := h.kernel
  mapped := fun b hb => by
    rw [Mem.pte_of_no_table (h.user _ (Grown.pdx_lt hb))]
    exact iff_of_false (by decide) (Nat.not_lt_zero b)

namespace Image

theorem of_pte (h : Image L region m₀ d sz m) (hinv : Inv L region m₀ m' l d none) (hpte : m'.pte d = m.pte d)
    (htable : m'.table d = m.table d) : Image L region m₀ d sz m' where
  inv := ⟨l, hinv⟩
  kernel := h.kernel.congr hpte htable
  mapped := by
    rw [hpte]
    exact h.mapped

theorem frameAt_eq_none (h : Image L region m₀ d sz m) (hb : pageCount sz ≤ b) : m.frameAt d b = none := by
  by_cases hk : b < kernbase
  · rw [Mem.frameAt_eq_none hk]
    by_contra hp
    have := (h.mapped b hk).mp (Bool.eq_true_of_not_eq_false hp)
    omega
  · simp [Mem.frameAt, hk]

theorem frameAt (h : Image L region m₀ d sz m) (hsz : sz ≤ 0x80000000) (hk : k < pageCount sz) :
    m.frameAt d k = some (frame (m.pte d k)) := by
  have hkern : k < kernbase := lt_of_lt_of_le hk (pageCount_le hsz)
  exact Mem.frameAt_eq_some.mpr ⟨hkern, (h.mapped k hkern).mpr hk, rfl⟩

theorem grown (h : Image L region m₀ d sz m) (hg : Grown m d (pageCount sz) (pageCount newsz) m')
    (hinv : Inv L region m₀ m' l d none) (hle : pageCount sz ≤ pageCount newsz) (hnew : newsz ≤ 0x80000000) :
    Image L region m₀ d newsz m' where
  inv := ⟨l, hinv⟩
  kernel := h.kernel.grown hg (pageCount_le hnew)
  mapped := fun b hb => by
    have hmax : b < maxPage := lt_trans hb (by decide)
    by_cases hrange : pageCount sz ≤ b ∧ b < pageCount newsz
    · obtain ⟨q, hq, hpte, -⟩ := hg.new b hrange.1 hrange.2
      rw [hpte]
      exact iff_of_true present_entry hrange.2
    · have hold := hg.old b hmax (by omega)
      have hpresent : present (m'.pte d b) = true ↔ present (m.pte d b) = true := by
        rw [← not_iff_not, Bool.not_eq_true, Bool.not_eq_true, ← Mem.mapping_eq_none, ← Mem.mapping_eq_none, hold]
      rw [hpresent, h.mapped b hb]
      omega

theorem allocuvm_ends (h : Image L region m₀ d sz m) (hsz : sz ≤ 0x80000000) :
    Ends (allocuvm L d sz newsz) m fun r m' => (r = 0 ∧ ∃ l, Inv L region m₀ m' l d none) ∨
      (newsz < 0x80000000 ∧ r.toNat = max sz.toNat newsz.toNat ∧ Image L region m₀ d r m' ∧
        ∀ b, pageCount sz ≤ b → b < pageCount r → user (m'.pte d b) = true) := by
  obtain ⟨l, hinv⟩ := h.inv
  refine (Paging.allocuvm_ends hinv hsz fun b => h.frameAt_eq_none).mono ?_
  rintro r m' (⟨-, rfl, rfl⟩ | ⟨hless, rfl, rfl⟩ | ⟨hle, hnew, hm'⟩)
  · exact .inl ⟨rfl, l, hinv⟩
  · have hlt := BitVec.lt_def.mp hless
    have hnat := BitVec.le_def.mp hsz
    exact .inr ⟨BitVec.lt_def.mpr (lt_of_lt_of_le hlt hnat), by omega, h, fun b hb hb' => absurd hb (by omega)⟩
  · obtain ⟨l', hinv'⟩ := hm'.inv
    have hnat := BitVec.le_def.mp hle
    rcases hm'.grown with ⟨rfl, hg⟩ | ⟨rfl, -, -⟩
    · refine .inr ⟨hnew, by omega, h.grown hg hinv' ?_ (BitVec.le_of_lt hnew), fun b hb hb' => ?_⟩
      · simp only [pageCount]
        omega
      · obtain ⟨q, -, hpte, -⟩ := hg.new b hb hb'
        rw [hpte, user_entry]
        rfl
    · exact .inl ⟨rfl, l', hinv'⟩

end Image

/-- All of the pages below `sz`, and no others, are the user's, and no page table of the user half is
empty. -/
structure Built (m : Mem) (d : Page) (sz : Word) : Prop where
  size : sz ≤ 0x80000000
  page : ∀ b < kernbase, present (m.pte d b) = true ↔ b < pageCount sz
  user : ∀ b < pageCount sz, user (m.pte d b) = true
  table : ∀ i : Fin 1024, m.table d i ≠ none ↔ 1024 * i.val < pageCount sz ∨ 512 ≤ i.val ∧ i.val < 568 ∨ 1016 ≤ i.val

theorem SetUp.built (h : SetUp L region m₀ d m) (hm' : Image L region m₀ d sz m') (hg : Grown m d 0 (pageCount sz) m')
    (ht : Tables m d 0 (pageCount sz) m') (hsz : sz ≤ 0x80000000) : Built m' d sz where
  size := hsz
  page := hm'.mapped
  user := fun b hb => by
    obtain ⟨q, -, hpte, -⟩ := hg.new b (Nat.zero_le b) hb
    rw [hpte, user_entry]
    rfl
  table := fun i => by
    have hkern := pageCount_le hsz
    have hpdx : ∀ b < maxPage, (Vm.pdx b).val = b / 1024 := fun b hb => by
      simp only [Vm.pdx, Fin.ofNat, maxPage] at hb ⊢
      omega
    simp only [kernbase] at hkern
    by_cases hi : 512 ≤ i.val
    · rw [hm'.kernel.table i hi]
      omega
    · constructor
      · intro hne
        obtain ⟨b, -, hb, rfl⟩ := (ht i hne).resolve_left fun hne => hne (h.user i (by omega))
        rw [hpdx b (by simp only [maxPage]; omega)]
        omega
      · intro hlt
        have hb : 1024 * i.val < pageCount sz := by omega
        obtain ⟨t, ht, -⟩ := Mem.exists_table ((hm'.mapped (1024 * i.val) (by simp only [kernbase]; omega)).mpr hb)
        have hi' : Vm.pdx (1024 * i.val) = i := by
          apply Fin.ext
          rw [hpdx _ (by simp only [maxPage]; omega)]
          omega
        rw [hi'] at ht
        rw [ht]
        exact Option.some_ne_none t

theorem built_of_run (h : AllFree region m₀ m l) (hram : ∀ q ∈ l, Ram L q) (hsz : sz < 0x80000000)
    (hrun : setupkvm L m = .ok (some d, m₁)) (hrun' : allocuvm L d 0 sz m₁ = .ok (sz, m₂)) :
    Image L region m₀ d sz m₂ ∧ Built m₂ d sz := by
  obtain ⟨-, hm₁⟩ := (setupkvm_ends h hram).of_ok hrun
  obtain ⟨l₁, hinv⟩ := hm₁.inv
  have himage := hm₁.image
  have hends : Ends (allocuvm L d 0 sz) m₁ _ :=
    Paging.allocuvm_ends hinv (by decide) fun b => himage.frameAt_eq_none
  rcases hends.of_ok hrun' with ⟨hbig, -, -⟩ | ⟨hless, -, -⟩ | ⟨-, -, hm₂⟩
  · exact absurd hsz (BitVec.not_lt.mpr hbig)
  · exact absurd hless (by simp)
  · obtain ⟨l₂, hinv₂⟩ := hm₂.inv
    have hg : Grown m₁ d 0 (pageCount sz) m₂ := by
      rcases hm₂.grown with ⟨-, hg⟩ | ⟨rfl, -, hg⟩
      · exact hg
      · exact hg
    have himage₂ := himage.grown hg hinv₂ (Nat.zero_le _) (BitVec.le_of_lt hsz)
    exact ⟨himage₂, hm₁.built himage₂ hg (hm₂.tables rfl) (BitVec.le_of_lt hsz)⟩

theorem Short.mono (h : Short region a) (hab : a ≤ b) : Short region b :=
  fun l hnodup hl => le_trans (h l hnodup hl) (Nat.add_le_add_left hab _)

theorem setupkvm_allocuvm (h : AllFree region m₀ m l) (hram : ∀ q ∈ l, Ram L q)
    (hlong : ¬Short region (pageCount sz)) (hsz : sz < 0x80000000) :
    ∃ d m₁ m₂, setupkvm L m = .ok (some d, m₁) ∧ allocuvm L d 0 sz m₁ = .ok (sz, m₂) ∧
      Image L region m₀ d sz m₂ ∧ Built m₂ d sz := by
  obtain ⟨r, m₁, hrun₁, hm₁⟩ := (setupkvm_ends h hram).exists_ok fun _ => id
  cases r with
  | none => exact absurd (hm₁.1.mono (Nat.zero_le _)) hlong
  | some d =>
    obtain ⟨l₁, hinv⟩ := hm₁.2.inv
    have hends : Ends (allocuvm L d 0 sz) m₁ _ :=
      Paging.allocuvm_ends hinv (by decide) fun b => hm₁.2.image.frameAt_eq_none
    obtain ⟨r, m₂, hrun₂, hm₂⟩ := hends.exists_ok fun _ => id
    obtain rfl : r = sz := by
      rcases hm₂ with ⟨hbig, -, -⟩ | ⟨hless, -, -⟩ | ⟨-, -, hm₂⟩
      · exact absurd hsz (BitVec.not_lt.mpr hbig)
      · exact absurd hless (by simp)
      · exact hm₂.grown.elim And.left fun hfail => absurd hfail.2.1 hlong
    exact ⟨d, m₁, m₂, hrun₁, hrun₂, built_of_run h hram hsz hrun₁ hrun₂⟩

def freeMemory : Mem where
  freelist := p2v 1000
  word p i := if i = 0 ∧ 1000 ≤ p ∧ p < 40999 then p2v (p + 1) else 0

theorem allFree_freeMemory :
    AllFree (· ∈ List.range' 1000 40000) freeMemory freeMemory (List.range' 1000 40000) where
  chain := chain_range' (n := 39999) (fun p hp hp' => if_pos ⟨rfl, hp, hp'⟩) (by decide +kernel)
  nodup := List.nodup_range'
  cover := fun _ => Iff.rfl
  outside := fun _ _ => rfl

theorem ram_freeMemory (q : Page) (hq : q ∈ List.range' 1000 40000) : Ram layout q := by
  obtain ⟨hlo, hhi⟩ := List.mem_range'_1.mp hq
  exact ⟨le_trans (by decide) hlo, lt_trans hhi (by decide)⟩

theorem not_short_freeMemory (hn : 1026 + n < 40000) : ¬Short (· ∈ List.range' 1000 40000) n := by
  intro h
  have hlen := h (List.range' 1000 40000) List.nodup_range' fun _ hp => hp
  rw [List.length_range'] at hlen
  omega

end Xv6.Paging
