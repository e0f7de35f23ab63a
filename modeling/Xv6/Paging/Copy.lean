import Xv6.Paging.Kernel

namespace Xv6.Paging

open Lib Prog
open Vm (Page Layout maxPage kernbase phystop)

variable {L : Layout} {region : Page → Prop} {m₀ m m' : Mem} {pd d p q : Page} {k : Nat}

theorem KernelMap.map (h : KernelMap m pd) (hk : k < kernbase)
    (hm' : MappedUser L region m₀ m pd p k perm m') : KernelMap m' pd where
  pte := fun b hb hmax => by
    rw [hm'.pte b hmax, if_neg (by omega)]
    exact h.pte b hb hmax
  table := fun i hi => by
    rw [hm'.other i, h.table i hi]
    rintro rfl
    exact absurd (Grown.pdx_lt hk) (by omega)

structure Copied (m₀ : Mem) (pd d : Page) (k : Nat) (m : Mem) : Prop where
  kernel : KernelMap m d
  entry : ∀ b < k, ∃ p < maxPage, m.pte d b = addr p ||| pteFlags (m₀.pte pd b) ||| 1 ∧
    m.word p = m₀.word (frame (m₀.pte pd b))
  rest : ∀ b, k ≤ b → m.frameAt d b = none

theorem SetUp.copied (h : SetUp L region m₀ d m) : Copied m₀ pd d 0 m where
  kernel := h.kernel
  entry := fun b hb => absurd hb (Nat.not_lt_zero b)
  rest := fun b _ => by
    by_cases hb : b < kernbase
    · rw [Mem.frameAt_eq_none hb, Mem.pte_of_no_table (h.user _ (Grown.pdx_lt hb))]
      rfl
    · simp [Mem.frameAt, hb]

namespace Copied

theorem frameAt (hk : k ≤ kernbase) (hb : b < k)
    (hp : m.pte d b = addr p ||| pteFlags (m₀.pte pd b) ||| 1) (hmax : p < maxPage) : m.frameAt d b = some p := by
  refine Mem.frameAt_eq_some.mpr ⟨by omega, ?_⟩
  rw [hp]
  exact ⟨present_entry, frame_entry hmax (toNat_pteFlags_lt _)⟩

theorem of_word (h : Copied m₀ pd d k m) (hk : k ≤ kernbase) (hpte : m'.pte d = m.pte d) (htable : m'.table d = m.table d)
    (hword : ∀ b q, m.frameAt d b = some q → m'.word q = m.word q) : Copied m₀ pd d k m' where
  kernel := h.kernel.congr hpte htable
  entry := fun b hb => by
    obtain ⟨p, hmax, hp, hpage⟩ := h.entry b hb
    exact ⟨p, hmax, by rw [hpte, hp], by rw [hword b p (frameAt hk hb hp hmax), hpage]⟩
  rest := fun b hb => by rw [Mem.frameAt_congr (congrFun hpte b), h.rest b hb]

theorem step (h : Copied m₀ pd d k m) (hk : k < kernbase) (hmax : p < maxPage)
    (hpage : m.word p = m₀.word (frame (m₀.pte pd k)))
    (hm' : MappedUser L region m₀ m d p k (pteFlags (m₀.pte pd k)) m') : Copied m₀ pd d (k + 1) m' where
  kernel := h.kernel.map hk hm'
  entry := fun b hb => by
    have hbmax : b < maxPage := lt_of_le_of_lt (Nat.le_of_lt_succ hb) (lt_trans hk (by decide))
    by_cases hbk : b = k
    · subst hbk
      refine ⟨p, hmax, by rw [hm'.pte b hbmax, if_pos rfl], ?_⟩
      rw [hm'.kept .hand p (by rintro ⟨⟩) (by rintro i ⟨⟩) rfl, hpage]
    · obtain ⟨q, hq, hpte, hword⟩ := h.entry b (by omega)
      refine ⟨q, hq, by rw [hm'.pte b hbmax, if_neg hbk, hpte], ?_⟩
      rw [hm'.kept (.page b) q (by rintro ⟨⟩) (by rintro i ⟨⟩) (frameAt hk.le (by omega) hpte hq), hword]
  rest := fun b hb => by
    by_cases hbk : b < maxPage
    · rw [← h.rest b (by omega)]
      exact Mem.frameAt_congr (by rw [hm'.pte b hbk, if_neg (by omega)])
    · have hkern : ¬b < kernbase := fun hlt => hbk (lt_trans hlt (by decide))
      simp [Mem.frameAt, hkern]

end Copied

structure Untouched (region : Page → Prop) (m : Mem) (pd : Page) : Prop where
  dir : ¬region pd ∧ pd < phystop
  table : ∀ i t, m.table pd i = some t → ¬region t ∧ t < phystop
  page : ∀ k q, m.frameAt pd k = some q → ¬region q ∧ q < phystop

theorem Space.untouched (h : Space L m l pd none) : Untouched (· ∈ l) m pd where
  dir := ⟨h.inv.not_free (P := .dir) rfl, (h.inv.ram (P := .dir) rfl).2⟩
  table := fun i _ ht => ⟨h.inv.not_free (P := .table i) ht, (h.inv.ram (P := .table i) ht).2⟩
  page := fun k _ hq => ⟨h.inv.not_free (P := .page k) hq, (h.inv.ram (P := .page k) hq).2⟩

theorem Untouched.table_eq (h : Untouched region m₀ pd) (hm : ∀ p, ¬region p → m.word p = m₀.word p) :
    m.table pd = m₀.table pd :=
  Mem.table_congr (hm pd h.dir.1)

theorem Untouched.pte_eq (h : Untouched region m₀ pd) (hm : ∀ p, ¬region p → m.word p = m₀.word p) :
    m.pte pd = m₀.pte pd :=
  Mem.pte_congr (hm pd h.dir.1) fun i t ht => hm t (h.table i t ht).1

theorem copyLoop_ends (h : Inv L region m₀ m l d none) (hc : Copied m₀ pd d k m)
    (hpd : Untouched region m₀ pd) (hsz : sz ≤ 0x80000000)
    (hmapped : ∀ b < pageCount sz, present (m₀.pte pd b) = true) (hk : k ≤ pageCount sz)
    (hfuel : pageCount sz - k < fuel) :
    Ends (copyLoop L pd sz d fuel (addr k)) m fun r m' =>
      match r with
      | none => Short region (pageCount sz) ∧ ∃ l, AllFree region m₀ m' l
      | some d' => d' = d ∧ (∃ l, Inv L region m₀ m' l d none) ∧ Copied m₀ pd d (pageCount sz) m' := by
  have hkern := pageCount_le hsz
  induction fuel generalizing m l k with
  | zero => omega
  | succ fuel ih =>
    have hmax : k < maxPage := lt_of_le_of_lt (le_trans hk hkern) (by decide)
    unfold copyLoop
    by_cases hlt : k < pageCount sz
    · have hkk : k < kernbase := lt_of_lt_of_le hlt hkern
      rw [if_pos ((addr_lt hmax).mpr (lt_pageCount.mp hlt))]
      refine walkpgdir_bind hpd.dir.2 hmax ?_
      obtain ⟨t, ht, hpte⟩ := Mem.exists_table (hmapped k hlt)
      have hframe : m₀.frameAt pd k = some (frame (m₀.pte pd k)) :=
        Mem.frameAt_eq_some.mpr ⟨hkk, hmapped k hlt, rfl⟩
      rw [hpd.table_eq h.outside, ht]
      simp only [Option.map_some]
      refine load_bind (hpd.table _ t ht).2 ?_
      rw [h.outside t (hpd.table _ t ht).1, ← hpte, if_pos (hmapped k hlt)]
      refine kalloc_bind h.chain (fun p hp => (h.ram_free hp).2) (fun hl => ?_) fun p l' hl => ?_
      · subst hl
        have hshort := h.short fun b hb => hc.rest b (le_trans hk hb)
        exact (freevm_ends h).bind fun _ m' hm' => .pure ⟨hshort, hm'⟩
      · subst hl
        have hram := h.ram_free List.mem_cons_self
        have htaken := (h.take).setPage (P := .hand) (v := m₀.word (frame (m₀.pte pd k))) rfl
          (by rintro ⟨⟩) (by rintro i ⟨⟩)
        have hcopied : Copied m₀ pd d k ((m.taken p).setPage p (m₀.word (frame (m₀.pte pd k)))) := by
          have hword : ∀ {q}, q ≠ p → ((m.taken p).setPage p (m₀.word (frame (m₀.pte pd k)))).word q = m.word q :=
            Mem.word_setPage_of_ne
          have hdir := hword (h.head_ne_dir).symm
          refine hc.of_word hkk.le (Mem.pte_congr hdir fun i t ht => hword ?_) (Mem.table_congr hdir) fun b q hq => hword ?_
          · rintro rfl
            exact h.not_free (P := .table i) ht List.mem_cons_self
          · rintro rfl
            exact h.not_free (P := .page b) hq List.mem_cons_self
        refine readPage_bind (hpd.page k _ hframe).2 ?_
        change Finishes _ (writePage p ((m.taken p).word (frame (m₀.pte pd k))) >>= _) _ _
        rw [show (m.taken p).word = m.word from rfl, h.outside _ (hpd.page k _ hframe).1]
        refine writePage_bind hram.2 ((mappages_user htaken hkk ?_ (toNat_pteFlags_lt _)).bind ?_)
        · exact (Mem.frameAt_eq_none hkk).mp (hcopied.rest k le_rfl)
        · rintro (_ | _) m₁ hm₁
          · obtain ⟨rfl, rfl, -⟩ := hm₁
            have hshort := htaken.short fun b hb => hcopied.rest b (le_trans hk hb)
            exact kfree_bind hram ((freevm_ends htaken.drop).bind fun _ m' hm' => .pure ⟨hshort, hm'⟩)
          · obtain ⟨l₁, hinv₁⟩ := hm₁.inv
            rw [if_pos rfl, addr_add]
            exact ih hinv₁ (hcopied.step hkk hram.lt_maxPage Mem.word_setPage_self hm₁) (by omega) (by omega)
    · rw [if_neg fun hlt' => hlt (lt_pageCount.mpr ((addr_lt hmax).mp hlt'))]
      obtain rfl : k = pageCount sz := by omega
      exact .pure ⟨rfl, ⟨l, h⟩, hc⟩

theorem copyuvm_ends (h : Space L m l pd none) (hsz : sz ≤ 0x80000000)
    (hmapped : ∀ b < pageCount sz, present (m.pte pd b) = true) :
    Ends (copyuvm L pd sz) m fun r m' =>
      match r with
      | none => l.length ≤ 1026 + pageCount sz ∧ ∃ l', AllFree (· ∈ l) m m' l'
      | some d => d ∈ l ∧ (∃ l', Inv L (· ∈ l) m m' l' d none) ∧ Copied m pd d (pageCount sz) m' := by
  have hfree : AllFree (· ∈ l) m m l := ⟨h.chain, h.nodup, fun _ => Iff.rfl, fun _ _ => rfl⟩
  have hlength : ∀ {n}, Short (· ∈ l) n → l.length ≤ 1026 + n := fun hshort => hshort l h.nodup fun _ => id
  refine (setupkvm_ends hfree fun p hp => h.inv.ram_free hp).bind ?_
  rintro (_ | d) m₁ hm₁
  · exact .pure ⟨le_trans (hlength hm₁.1) (by omega), hm₁.2⟩
  · obtain ⟨hd, hm₁⟩ := hm₁
    obtain ⟨l₁, hinv⟩ := hm₁.inv
    have hcount : pageCount sz < manyPages := lt_of_le_of_lt (pageCount_le hsz) (by decide)
    refine (copyLoop_ends hinv hm₁.copied h.untouched hsz hmapped (Nat.zero_le _) hcount).mono ?_
    rintro (_ | d') m' hm'
    · exact ⟨hlength hm'.1, hm'.2⟩
    · obtain ⟨rfl, hm'⟩ := hm'
      exact ⟨hd, hm'⟩

theorem Space.pageCount_le_phystop (h : Space L m l pd none)
    (hmapped : ∀ b < pageCount sz, present (m.pte pd b) = true) : pageCount sz ≤ phystop := by
  by_contra hlt
  have hframe : ∀ b ∈ Finset.range (phystop + 1), m.frameAt pd b = some (frame (m.pte pd b)) := by
    intro b hb
    have hb := Finset.mem_range.mp hb
    exact Mem.frameAt_eq_some.mpr ⟨lt_of_lt_of_le hb (by decide), hmapped b (by omega), rfl⟩
  obtain ⟨b, hb, b', hb', hne, heq⟩ := Finset.exists_ne_map_eq_of_card_lt_of_maps_to
    (s := Finset.range (phystop + 1)) (t := Finset.range phystop) (f := fun b => frame (m.pte pd b))
    (by rw [Finset.card_range, Finset.card_range]; exact Nat.lt_succ_self _)
    fun b hb => Finset.mem_coe.mpr (Finset.mem_range.mpr (h.inv.ram (P := .page b) (hframe b hb)).2)
  have hplace := h.inv.once (P := .page b) (Q := .page b') (hframe b hb) (heq ▸ hframe b' hb')
  cases hplace
  exact hne rfl

/-- A copy takes a directory, at most 1024 tables and as many pages as the original, one of them in
hand, and it fails only where no more than that are free. -/
theorem copyuvm_duplicates (h : Space L m l pd none)
    (hmapped : ∀ k, 4096 * k < sz.toNat → present (m.pte pd k) = true) :
    ∃ r m', copyuvm L pd sz m = .ok (r, m') ∧ (∀ p ∉ l, m'.word p = m.word p) ∧
      match r with
      | none => l.length ≤ 1026 + (sz.toNat + 4095) / 4096 ∧ ∃ l', Chain m'.word m'.freelist l' ∧ l'.Perm l
      | some d => (∃ l', Space L m' l' d none) ∧ d ∈ l ∧ KernelMap m' d ∧
          (∀ k < kernbase, present (m'.pte d k) = true ↔ 4096 * k < sz.toNat) ∧
          (∀ k, 4096 * k < sz.toNat → pteFlags (m'.pte d k) = pteFlags (m.pte pd k) ∧
            m'.word (frame (m'.pte d k)) = m.word (frame (m.pte pd k)) ∧
            ∀ P, m.num pd none P ≠ some (frame (m'.pte d k))) ∧
          ∀ k k', 4096 * k < sz.toNat → 4096 * k' < sz.toNat → frame (m'.pte d k) = frame (m'.pte d k') → k = k' := by
  have hmapped' : ∀ b < pageCount sz, present (m.pte pd b) = true := fun b hb => hmapped b (lt_pageCount.mp hb)
  have hphys : pageCount sz ≤ phystop := h.pageCount_le_phystop hmapped'
  have hkern : pageCount sz ≤ kernbase := le_trans hphys (by decide)
  have hsz : sz ≤ 0x80000000 := by
    rw [BitVec.le_def, show (0x80000000 : Word).toNat = 2147483648 from rfl]
    simp only [pageCount, kernbase] at hkern
    omega
  obtain ⟨r, m', hrun, hm'⟩ := (copyuvm_ends h hsz hmapped').exists_ok fun _ => id
  refine ⟨r, m', hrun, ?_⟩
  cases r with
  | none =>
    obtain ⟨hlength, l', hl'⟩ := hm'
    exact ⟨hl'.outside, hlength, l', hl'.chain,
      (List.perm_ext_iff_of_nodup hl'.nodup h.nodup).mpr fun p => (hl'.cover p).symm⟩
  | some d =>
    obtain ⟨hd, ⟨l', hinv⟩, hc⟩ := hm'
    have hframe : ∀ k, 4096 * k < sz.toNat → m'.frameAt d k = some (frame (m'.pte d k)) ∧
        pteFlags (m'.pte d k) = pteFlags (m.pte pd k) ∧
        m'.word (frame (m'.pte d k)) = m.word (frame (m.pte pd k)) := by
      intro k hk
      have hk' := lt_pageCount.mpr hk
      obtain ⟨p, hmax, hpte, hword⟩ := hc.entry k hk'
      have hp : frame (m'.pte d k) = p := by
        rw [hpte]
        exact frame_entry hmax (toNat_pteFlags_lt _)
      refine ⟨hp ▸ Copied.frameAt hkern hk' hpte hmax, ?_, hp ▸ hword⟩
      rw [hpte, pteFlags_entry (toNat_pteFlags_lt _), pteFlags_or_one (hmapped k hk)]
    refine ⟨hinv.outside, ⟨l', hinv.toSpace⟩, hd, hc.kernel, fun k hk => ⟨fun hp => ?_, fun hlt => ?_⟩,
      fun k hk => ⟨(hframe k hk).2.1, (hframe k hk).2.2, fun P hP => ?_⟩, fun k k' hk hk' heq => ?_⟩
    · by_contra hlt
      have hnone := (Mem.frameAt_eq_none hk).mp (hc.rest k (Nat.le_of_not_lt (mt lt_pageCount.mp hlt)))
      rw [hp] at hnone
      cases hnone
    · exact (Mem.frameAt_eq_some.mp (hframe k hlt).1).2.1
    · exact h.inv.not_free hP (hinv.region_of_place (P := .page k) (hframe k hk).1)
    · have hplace := hinv.once (P := .page k) (Q := .page k') (hframe k hk).1 (heq ▸ (hframe k' hk').1)
      cases hplace
      rfl

def fullPage : Mem := oneProcess.setPage 1002 fun i => BitVec.ofNat 32 (i.val + 1)

theorem pte_fullPage : fullPage.pte 1000 = oneProcess.pte 1000 := by
  refine Mem.pte_congr (Mem.word_setPage_of_ne (by decide)) fun i t ht => Mem.word_setPage_of_ne ?_
  rw [table_oneProcess] at ht
  split at ht <;> cases ht
  decide

theorem space_fullPage : Space layout fullPage (List.range' 2000 2000) 1000 none :=
  (space_oneProcess.inv.setPage (P := .page 0) (frameAt_oneProcess 0) (by rintro ⟨⟩) (by rintro i ⟨⟩)).toSpace

theorem copyuvm_duplicates_page : ∃ d m', copyuvm layout 1000 4096 fullPage = .ok (some d, m') ∧
    (∀ k < kernbase, present (m'.pte d k) = true ↔ k = 0) ∧ pteFlags (m'.pte d 0) = 7 ∧
    (∀ i : Fin 1024, m'.word (frame (m'.pte d 0)) i = BitVec.ofNat 32 (i.val + 1)) ∧ frame (m'.pte d 0) ≠ 1002 := by
  have hsz : (4096 : Word).toNat = 4096 := rfl
  have hentry : fullPage.pte 1000 0 = addr 1002 ||| 7 := by
    rw [pte_fullPage, pte_oneProcess (by decide), if_pos rfl]
  have hmapped : ∀ k, 4096 * k < (4096 : Word).toNat → present (fullPage.pte 1000 k) = true := by
    intro k hk
    obtain rfl : k = 0 := by omega
    rw [hentry]
    decide +kernel
  have hframe : frame (fullPage.pte 1000 0) = 1002 := by
    rw [hentry]
    decide +kernel
  obtain ⟨r, m', hrun, -, hr⟩ := copyuvm_duplicates space_fullPage hmapped
  cases r with
  | none =>
    rw [List.length_range', hsz] at hr
    omega
  | some d =>
    obtain ⟨-, -, -, hpresent, hcopy, -⟩ := hr
    obtain ⟨hflags, hword, hother⟩ := hcopy 0 (by omega)
    refine ⟨d, m', hrun, fun k hk => ?_, ?_, fun i => ?_, fun heq => hother (.page 0) ?_⟩
    · rw [hpresent k hk]
      omega
    · rw [hflags, hentry]
      decide +kernel
    · rw [hword, hframe, fullPage, Mem.word_setPage_self]
    · rw [heq, Mem.num, Mem.frameAt_congr (congrFun pte_fullPage 0), frameAt_oneProcess, if_pos rfl]

end Xv6.Paging
