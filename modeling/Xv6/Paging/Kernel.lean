import Xv6.Paging.Alloc

namespace Xv6.Paging

open Lib Prog
open Vm (Page Layout maxPage kernbase phystop)

variable {L : Layout} {region : Page → Prop} {m₀ m m' : Mem} {l : List Page} {pd : Page} {k n s b : Nat}
  {perm : Word}

theorem addr_add_addr (a b : Nat) : addr a + addr b = addr (a + b) := by
  rw [addr, addr, addr, ← BitVec.ofNat_add, Nat.mul_add]

theorem addr_inj (hk : k < maxPage) (hb : b < maxPage) (h : addr k = addr b) : k = b := by
  have hnat := congrArg BitVec.toNat h
  rw [toNat_addr hk, toNat_addr hb] at hnat
  omega

theorem pgrounddown_end (h : k + n < maxPage) : pgrounddown (addr k + addr (n + 1) - 1) = addr (k + n) := by
  apply BitVec.eq_of_toNat_eq
  have hnat : (addr k + addr (n + 1) - 1).toNat = 4096 * (k + n) + 4095 := by
    simp only [maxPage] at h
    rw [addr_add_addr, BitVec.toNat_sub, addr, BitVec.toNat_ofNat, show (1 : Word).toNat = 1 from rfl]
    omega
  rw [pgrounddown, Vm.toNat_pgrounddown, hnat, toNat_addr h]
  omega

structure MappedKernel (L : Layout) (region : Page → Prop) (m₀ m : Mem) (pd : Page) (k n s : Nat) (perm : Word)
    (m' : Mem) : Prop where
  inv : ∃ l, Inv L region m₀ m' l pd none
  pte : ∀ b < maxPage, m'.pte pd b = if k ≤ b ∧ b ≤ k + n then addr (s + (b - k)) ||| perm ||| 1 else m.pte pd b
  table : ∀ i, m'.table pd i ≠ none ↔ m.table pd i ≠ none ∨ ∃ b, (k ≤ b ∧ b ≤ k + n) ∧ Vm.pdx b = i

theorem MappedKernel.cons (hwalk : Walked L region m₀ m pd none k t m₁)
    (hm₂ : m₂ = m₁.setWord t (Vm.ptx k) (addr s ||| perm ||| 1)) (hk : k < maxPage)
    (h : MappedKernel L region m₀ m₂ pd (k + 1) n (s + 1) perm m') :
    MappedKernel L region m₀ m pd k (n + 1) s perm m' where
  inv := h.inv
  pte := fun b hb => by
    obtain ⟨l, hinv⟩ := hwalk.inv
    rw [h.pte b hb, hm₂, hinv.pte_setPte hk hwalk.table hb, hwalk.pte]
    by_cases hbk : b = k
    · subst hbk
      rw [if_neg (by omega), if_pos rfl, if_pos (by omega), Nat.sub_self, Nat.add_zero]
    · by_cases hrange : k + 1 ≤ b ∧ b ≤ k + 1 + n
      · have hsub : s + 1 + (b - (k + 1)) = s + (b - k) := by omega
        rw [if_pos hrange, if_pos (by omega), hsub]
      · rw [if_neg hrange, if_neg hbk, if_neg (by omega)]
  table := fun i => by
    obtain ⟨l, hinv⟩ := hwalk.inv
    rw [h.table i, hm₂, hinv.table_setPte hwalk.table]
    by_cases hi : i = Vm.pdx k
    · subst hi
      refine iff_of_true (.inl ?_) (.inr ⟨k, by omega, rfl⟩)
      rw [hwalk.table]
      exact Option.some_ne_none t
    · rw [hwalk.other i hi]
      refine or_congr_right (exists_congr fun b => and_congr_left fun hb => ?_)
      have hne : b ≠ k := by
        rintro rfl
        exact hi hb.symm
      omega

theorem mappagesLoop_kernel (h : Inv L region m₀ m l pd none) (hkern : kernbase ≤ k)
    (hmax : k + n < maxPage) (habsent : ∀ b, k ≤ b → b ≤ k + n → present (m.pte pd b) = false)
    (hnone : ∀ b, m.frameAt pd b = none) (hfuel : n < fuel) :
    Ends (mappagesLoop pd (addr (k + n)) perm fuel (addr k) (addr s)) m fun r m' =>
      match r with
      | false => Short region 0 ∧ ∃ l, Inv L region m₀ m' l pd none
      | true => MappedKernel L region m₀ m pd k n s perm m' := by
  induction n generalizing m l k s fuel with
  | zero =>
    obtain ⟨fuel, rfl⟩ : ∃ f, fuel = f + 1 := ⟨fuel - 1, by omega⟩
    have hmax : k < maxPage := hmax
    refine mappagesLoop_step h hmax (habsent k le_rfl le_rfl) (fun hl _ => ?_) fun t m₁ hwalk => ?_
    · subst hl
      exact ⟨h.short fun b _ => hnone b, [], h⟩
    · obtain ⟨l₁, hinv⟩ := hwalk.inv
      rw [if_pos (by rw [Nat.add_zero])]
      refine .pure ⟨⟨l₁, hinv.setPte hmax hwalk.table fun hlt => absurd hlt (by omega)⟩, fun b hb => ?_, fun i => ?_⟩
      · rw [hinv.pte_setPte hmax hwalk.table hb, hwalk.pte]
        by_cases hbk : b = k
        · subst hbk
          rw [if_pos rfl, if_pos (by omega), Nat.sub_self, Nat.add_zero]
        · rw [if_neg hbk, if_neg (by omega)]
      · rw [hinv.table_setPte hwalk.table]
        by_cases hi : i = Vm.pdx k
        · subst hi
          refine iff_of_true ?_ (.inr ⟨k, by omega, rfl⟩)
          rw [hwalk.table]
          exact Option.some_ne_none t
        · rw [hwalk.other i hi, iff_self_or]
          rintro ⟨b, hb, rfl⟩
          obtain rfl : b = k := by omega
          exact absurd rfl hi
  | succ n ih =>
    obtain ⟨fuel, rfl⟩ : ∃ f, fuel = f + 1 := ⟨fuel - 1, by omega⟩
    have hk : k < maxPage := by omega
    refine mappagesLoop_step h hk (habsent k le_rfl (by omega)) (fun hl _ => ?_) fun t m₁ hwalk => ?_
    · subst hl
      exact ⟨h.short fun b _ => hnone b, [], h⟩
    · obtain ⟨l₁, hinv⟩ := hwalk.inv
      have hne : addr k ≠ addr (k + (n + 1)) := fun heq => absurd (addr_inj hk hmax heq) (by omega)
      have hinv₂ := hinv.setPte (w := addr s ||| perm ||| 1) hk hwalk.table fun hlt => absurd hlt (by omega)
      have hpte : ∀ b < maxPage, b ≠ k → (m₁.setWord t (Vm.ptx k) (addr s ||| perm ||| 1)).pte pd b = m.pte pd b := by
        intro b hb hbk
        rw [hinv.pte_setPte hk hwalk.table hb, if_neg hbk, hwalk.pte]
      rw [if_neg hne, addr_add, addr_add, show k + (n + 1) = k + 1 + n by omega]
      refine (ih (m := m₁.setWord t (Vm.ptx k) (addr s ||| perm ||| 1)) hinv₂ (by omega) (by omega) ?_ ?_ (by omega)).mono ?_
      · intro b hb hb'
        rw [hpte b (by omega) (by omega), habsent b (by omega) (by omega)]
      · intro b
        by_cases hb : b < maxPage
        · by_cases hbk : b = k
          · have hkb : ¬b < kernbase := by omega
            simp [Mem.frameAt, hkb]
          · rw [Mem.frameAt_congr (hpte b hb hbk), hnone]
        · have hkb : ¬b < kernbase := fun hlt => hb (lt_trans hlt (by decide))
          simp [Mem.frameAt, hkb]
      · rintro (_ | _) m' hm'
        · exact hm'
        · exact hm'.cons hwalk rfl hk

structure KRange where
  k : Nat
  n : Nat
  s : Nat
  perm : Word

namespace KRange

def toKmap (r : KRange) : Kmap := ⟨addr r.k, addr r.s, addr r.s + addr (r.n + 1), r.perm⟩

def Covers (r : KRange) (b : Nat) : Prop := r.k ≤ b ∧ b ≤ r.k + r.n

def entry (r : KRange) (b : Nat) : Word := addr (r.s + (b - r.k)) ||| r.perm ||| 1

end KRange

def kranges (L : Layout) : List KRange :=
  [⟨kernbase, 255, 0, 2⟩, ⟨kernbase + 256, L.dataPg - 257, 256, 0⟩,
    ⟨kernbase + L.dataPg, phystop - 1 - L.dataPg, L.dataPg, 2⟩, ⟨1040384, 8191, 1040384, 2⟩]

theorem kmap_eq : kmap L = (kranges L).map KRange.toKmap := by
  have hdata := L.lt_data
  have hend := le_trans L.data_le L.end_le
  have h1 : 256 + (L.dataPg - 257 + 1) = L.dataPg := by omega
  have h2 : L.dataPg + (phystop - 1 - L.dataPg + 1) = phystop := by
    simp only [phystop]
    omega
  have h3 : p2v L.dataPg = addr (kernbase + L.dataPg) := by
    rw [Nat.add_comm, ← addr_add_addr]
    rfl
  simp only [kmap, kranges, List.map_cons, List.map_nil, KRange.toKmap, addr_add_addr, h1, h2, h3]
  rfl

structure MappedRanges (L : Layout) (region : Page → Prop) (m₀ m : Mem) (pd : Page) (rs : List KRange) (m' : Mem) :
    Prop where
  inv : ∃ l, Inv L region m₀ m' l pd none
  old : ∀ b < maxPage, (∀ r ∈ rs, ¬r.Covers b) → m'.pte pd b = m.pte pd b
  new : ∀ r ∈ rs, ∀ b < maxPage, r.Covers b → m'.pte pd b = r.entry b
  table : ∀ i, m'.table pd i ≠ none ↔ m.table pd i ≠ none ∨ ∃ r ∈ rs, ∃ b, r.Covers b ∧ Vm.pdx b = i

theorem mapKernel_ends (h : Inv L region m₀ m l pd none) (hnone : ∀ b, m.frameAt pd b = none)
    (hrs : ∀ r ∈ rs, kernbase ≤ r.k ∧ r.k + r.n < maxPage) (hsorted : rs.Pairwise fun r r' => r.k + r.n < r'.k)
    (habsent : ∀ r ∈ rs, ∀ b, r.Covers b → present (m.pte pd b) = false) :
    Ends (mapKernel L pd (rs.map KRange.toKmap)) m fun r m' =>
      match r with
      | none => Short region 0 ∧ ∃ l, AllFree region m₀ m' l
      | some d => d = pd ∧ MappedRanges L region m₀ m pd rs m' := by
  induction rs generalizing m l with
  | nil => exact .pure ⟨rfl, ⟨l, h⟩, fun _ _ _ => rfl, by simp, by simp⟩
  | cons r rs ih =>
    obtain ⟨hk, hmax⟩ := hrs r List.mem_cons_self
    obtain ⟨hfirst, hsorted⟩ := List.pairwise_cons.mp hsorted
    have hfuel : r.n < manyPages := by
      simp only [maxPage, manyPages] at hmax ⊢
      omega
    have hmap : Ends (mappagesLoop pd (addr (r.k + r.n)) r.perm manyPages (addr r.k) (addr r.s)) m _ :=
      mappagesLoop_kernel h hk hmax (fun b hb hb' => habsent r List.mem_cons_self b ⟨hb, hb'⟩) hnone hfuel
    have hsize : addr r.s + addr (r.n + 1) - addr r.s = addr (r.n + 1) := by
      rw [BitVec.add_comm, BitVec.add_sub_cancel]
    simp only [List.map_cons, mapKernel, KRange.toKmap, mappages, hsize, pgrounddown_end hmax,
      pgrounddown_addr (show r.k < maxPage by omega)]
    refine hmap.bind ?_
    rintro (_ | _) m₁ hm₁
    · obtain ⟨hshort, l₁, hinv⟩ := hm₁
      exact (freevm_ends hinv).bind fun _ m' hm' => .pure ⟨hshort, hm'⟩
    · obtain ⟨l₁, hinv⟩ := hm₁.inv
      have hpte : ∀ r' ∈ rs, ∀ b, r'.Covers b → m₁.pte pd b = m.pte pd b := by
        intro r' hr' b hb
        have hlt := hfirst r' hr'
        have hmax' := (hrs r' (List.mem_cons_of_mem r hr')).2
        simp only [KRange.Covers] at hb
        rw [hm₁.pte b (by omega), if_neg (by omega)]
      rw [if_pos rfl]
      refine (ih hinv ?_ (fun r' hr' => hrs r' (List.mem_cons_of_mem r hr')) hsorted ?_).mono ?_
      · intro b
        by_cases hb : b < kernbase
        · rw [← hnone b]
          refine Mem.frameAt_congr ?_
          rw [hm₁.pte b (lt_trans hb (by decide)), if_neg (by omega)]
        · simp [Mem.frameAt, hb]
      · intro r' hr' b hb
        rw [hpte r' hr' b hb]
        exact habsent r' (List.mem_cons_of_mem r hr') b hb
      · rintro (_ | d) m' hm'
        · exact hm'
        · obtain ⟨rfl, hm'⟩ := hm'
          refine ⟨rfl, hm'.inv, fun b hb hcover => ?_, fun r' hr' b hb hcover => ?_, fun i => ?_⟩
          · rw [hm'.old b hb fun r' hr' => hcover r' (List.mem_cons_of_mem r hr')]
            exact (hm₁.pte b hb).trans (if_neg (hcover r List.mem_cons_self))
          · rcases List.mem_cons.mp hr' with rfl | hr'
            · rw [hm'.old b hb fun r₂ hr₂ hcover₂ => ?_]
              · exact (hm₁.pte b hb).trans (if_pos hcover)
              · have := hfirst r₂ hr₂
                simp only [KRange.Covers] at hcover hcover₂
                omega
            · exact hm'.new r' hr' b hb hcover
          · rw [hm'.table i, hm₁.table i]
            simp only [List.mem_cons, exists_eq_or_imp, or_assoc]
            rfl

structure KernelMap (m : Mem) (pd : Page) : Prop where
  pte : ∀ b, kernbase ≤ b → b < maxPage → present (m.pte pd b) = true → user (m.pte pd b) = false
  table : ∀ i : Fin 1024, 512 ≤ i.val → (m.table pd i ≠ none ↔ i.val < 568 ∨ 1016 ≤ i.val)

theorem KernelMap.congr (h : KernelMap m pd) (hpte : m'.pte pd = m.pte pd) (htable : m'.table pd = m.table pd) :
    KernelMap m' pd where
  pte := fun b => by
    rw [hpte]
    exact h.pte b
  table := fun i => by
    rw [htable]
    exact h.table i

structure SetUp (L : Layout) (region : Page → Prop) (m₀ : Mem) (pd : Page) (m' : Mem) : Prop where
  inv : ∃ l, Inv L region m₀ m' l pd none
  kernel : KernelMap m' pd
  user : ∀ i : Fin 1024, i.val < 512 → m'.table pd i = none

theorem AllFree.newDir (h : AllFree region m₀ m (p :: l)) (hram : ∀ q ∈ p :: l, Ram L q) :
    Inv L region m₀ ((m.taken p).setPage p fun _ => 0) l p none := by
  obtain ⟨hp, hnodup⟩ := List.nodup_cons.mp h.nodup
  have htable : ∀ i, ((m.taken p).setPage p fun _ => 0).table p i = none := by
    intro i
    rw [Mem.table, Mem.word_setPage_self]
    rfl
  have hnum : ∀ P q, ((m.taken p).setPage p fun _ => 0).num p none P = some q → P = .dir ∧ q = p := by
    rintro (_ | i | k | _) q hq
    · exact ⟨rfl, (Option.some.inj hq).symm⟩
    · rw [Mem.num, htable i] at hq
      cases hq
    · rw [Mem.num] at hq
      have hpte := Mem.pte_of_no_table (htable (Vm.pdx k))
      rw [Mem.frameAt_eq_some, hpte] at hq
      cases hq.2.1
    · cases hq
  refine ⟨⟨h.chain.2.congr fun q hq => Mem.word_setPage_of_ne ?_, hnodup, ⟨?_, ?_, ?_, ?_⟩⟩, fun q => ?_, fun q hq => ?_⟩
  · rintro rfl
    exact hp hq
  · intro P _ _ q hq
    rw [(hnum P q hq).2]
    exact hram p List.mem_cons_self
  · intro P Q _ _ hne heq
    obtain ⟨q, hq⟩ := Option.ne_none_iff_exists'.mp hne
    rw [(hnum P q hq).1, (hnum Q q (heq ▸ hq)).1]
  · rintro P _ _ ⟨q, hq, hPq⟩
    exact hp ((hnum P q hPq).2 ▸ hq)
  · rintro o ⟨q, hq, rfl⟩ q' hq'
    cases hq'
    exact hram q (List.mem_cons_of_mem p hq)
  · rw [h.cover q, List.mem_cons, or_comm]
    refine or_congr_right ⟨?_, ?_⟩
    · rintro rfl
      exact ⟨.dir, rfl⟩
    · rintro ⟨P, hP⟩
      exact (hnum P q hP).2
  · rw [Mem.word_setPage_of_ne, ← h.outside q hq]
    · rfl
    · rintro rfl
      exact hq ((h.cover q).mpr List.mem_cons_self)

theorem MappedRanges.setUp (h : MappedRanges L region m₀ m pd (kranges L) m') (hnone : ∀ i, m.table pd i = none) :
    SetUp L region m₀ pd m' := by
  have hdata := L.lt_data
  have hend := le_trans L.data_le L.end_le
  have htable : ∀ i : Fin 1024, m'.table pd i ≠ none ↔ ∃ r ∈ kranges L, ∃ b, r.Covers b ∧ Vm.pdx b = i := by
    intro i
    rw [h.table i, or_iff_right (by simp [hnone])]
  have hcovers : ∀ b, (∃ r ∈ kranges L, r.Covers b) ↔
      (kernbase ≤ b ∧ b < kernbase + phystop) ∨ (1040384 ≤ b ∧ b < maxPage) := by
    intro b
    simp only [kranges, KRange.Covers, List.mem_cons, List.not_mem_nil, or_false, exists_eq_or_imp, exists_eq_left,
      kernbase, phystop, maxPage]
    omega
  have htable' : ∀ i : Fin 1024, m'.table pd i ≠ none ↔ 512 ≤ i.val ∧ i.val < 568 ∨ 1016 ≤ i.val := by
    intro i
    rw [htable i]
    constructor
    · rintro ⟨r, hr, b, hb, rfl⟩
      have hrange := (hcovers b).mp ⟨r, hr, hb⟩
      simp only [Vm.pdx, Fin.ofNat, kernbase, phystop, maxPage] at hrange ⊢
      omega
    · intro hi
      obtain ⟨r, hr, hb⟩ := (hcovers (1024 * i.val)).mpr (by
        simp only [kernbase, phystop, maxPage]
        omega)
      refine ⟨r, hr, _, hb, ?_⟩
      apply Fin.ext
      simp only [Vm.pdx, Fin.ofNat]
      omega
  refine ⟨h.inv, ⟨fun b hb hmax _ => ?_, fun i hi => ?_⟩, fun i hi => ?_⟩
  · by_cases hcover : ∃ r ∈ kranges L, r.Covers b
    · obtain ⟨r, hr, hb⟩ := hcover
      rw [h.new r hr b hmax hb, KRange.entry, user_entry]
      simp only [kranges, List.mem_cons, List.not_mem_nil, or_false] at hr
      have hperm : r.perm = 0 ∨ r.perm = 2 := by rcases hr with rfl | rfl | rfl | rfl <;> simp
      rcases hperm with hperm | hperm
      all_goals
        rw [hperm]
        decide
    · rw [h.old b hmax fun r hr hb => hcover ⟨r, hr, hb⟩, Mem.pte_of_no_table (hnone _)]
      rfl
  · rw [htable' i]
    omega
  · by_contra hne
    have := (htable' i).mp hne
    omega

theorem setupkvm_ends (h : AllFree region m₀ m l) (hram : ∀ q ∈ l, Ram L q) :
    Ends (setupkvm L) m fun r m' =>
      match r with
      | none => Short region 0 ∧ ∃ l, AllFree region m₀ m' l
      | some d => d ∈ l ∧ SetUp L region m₀ d m' := by
  refine kalloc_bind h.chain (fun p hp => (hram p hp).2) (fun hl => ?_) fun p l' hl => ?_
  · subst hl
    refine .pure ⟨fun l₀ _ hl₀ => ?_, [], h⟩
    have hnil : l₀ = [] := List.eq_nil_iff_forall_not_mem.mpr fun p hp => List.not_mem_nil ((h.cover p).mp (hl₀ p hp))
    rw [hnil]
    exact Nat.zero_le _
  · subst hl
    have hinv := h.newDir hram
    have hp := hram p List.mem_cons_self
    have htable : ∀ i, ((m.taken p).setPage p fun _ => 0).table p i = none := by
      intro i
      rw [Mem.table, Mem.word_setPage_self]
      rfl
    have hpte : ∀ b, ((m.taken p).setPage p fun _ => 0).pte p b = 0 := fun b => Mem.pte_of_no_table (htable _)
    have hdata := L.lt_data
    have hend := le_trans L.data_le L.end_le
    refine writePage_bind hp.2 ?_
    rw [if_neg (by decide), kmap_eq]
    refine (mapKernel_ends hinv (fun b => ?_) ?_ ?_ fun r _ b _ => ?_).mono ?_
    · by_cases hb : b < kernbase
      · rw [Mem.frameAt_eq_none hb, hpte]
        rfl
      · simp [Mem.frameAt, hb]
    · intro r hr
      simp only [kranges, List.mem_cons, List.not_mem_nil, or_false] at hr
      simp only [kernbase, maxPage, phystop] at hr ⊢
      rcases hr with rfl | rfl | rfl | rfl <;> simp only <;> omega
    · simp only [kranges, kernbase, phystop, List.pairwise_cons, List.mem_cons, List.not_mem_nil, or_false]
      grind
    · rw [hpte]
      rfl
    · rintro (_ | d) m' hm'
      · exact hm'
      · obtain ⟨rfl, hm'⟩ := hm'
        exact ⟨List.mem_cons_self, hm'.setUp htable⟩

end Xv6.Paging
