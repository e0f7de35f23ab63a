import Xv6.Paging.Alloc

namespace Xv6.Paging

open Lib Prog
open Vm (Page Layout maxPage kernbase phystop)

variable {L : Layout} {m m' : Mem} {l : List Page} {p : Proc} {n : Word}

structure Process (L : Layout) (m : Mem) (l : List Page) (p : Proc) : Prop where
  space : Space L m l p.pgdir none
  size : p.sz ≤ 0x80000000
  mapped : ∀ k < kernbase, present (m.pte p.pgdir k) ↔ 4096 * k < p.sz.toNat

/-- The call succeeds with the size asked for, with the old contents below both sizes and new pages
zeroed; or it fails and the process has what it had. -/
def GrowsExactly (m : Mem) (p : Proc) (n : Int) (r : Except Stop ((Proc × Int) × Mem)) : Prop :=
  (∃ sz m', r = .ok (({ p with sz := sz }, 0), m') ∧ (sz.toNat : Int) = p.sz.toNat + n ∧
    (∀ k < kernbase, present (m'.pte p.pgdir k) ↔ 4096 * k < sz.toNat) ∧
    (∀ k < kernbase, 4096 * k < p.sz.toNat → 4096 * k < sz.toNat →
      m'.pte p.pgdir k = m.pte p.pgdir k ∧ m'.word (frame (m.pte p.pgdir k)) = m.word (frame (m.pte p.pgdir k))) ∧
    ∀ k < kernbase, p.sz.toNat ≤ 4096 * k → 4096 * k < sz.toNat → m'.word (frame (m'.pte p.pgdir k)) = fun _ => 0) ∨
  ∃ m', r = .ok ((p, -1), m') ∧ ∀ k < kernbase, m'.mapping p.pgdir k = m.mapping p.pgdir k ∧
    ∀ q, m.frameAt p.pgdir k = some q → m'.word q = m.word q

theorem toNat_add_of_pos (hsz : p.sz ≤ 0x80000000) (hn : 0 < n.toInt) :
    ((p.sz + n).toNat : Int) = p.sz.toNat + n.toInt := by
  have hle := BitVec.le_def.mp hsz
  rw [show (0x80000000 : Word).toNat = 2147483648 from rfl] at hle
  have hlt := n.isLt
  rw [BitVec.toInt_eq_toNat_cond] at hn ⊢
  rw [BitVec.toNat_add]
  split at hn <;> split <;> omega

theorem toNat_add_of_neg (hsz : p.sz ≤ 0x80000000) (hn : n.toInt < 0) :
    ((p.sz + n).toNat : Int) = p.sz.toNat + n.toInt + if p.sz.toNat + n.toInt < 0 then 2 ^ 32 else 0 := by
  have hle := BitVec.le_def.mp hsz
  rw [show (0x80000000 : Word).toNat = 2147483648 from rfl] at hle
  have hlt := n.isLt
  rw [BitVec.toInt_eq_toNat_cond] at hn ⊢
  rw [BitVec.toNat_add]
  split at hn <;> split_ifs <;> omega

namespace Process

variable (h : Process L m l p)

include h

theorem frameAt_eq_none (hb : pageCount p.sz ≤ b) : m.frameAt p.pgdir b = none := by
  by_cases hkern : b < kernbase
  · refine (Mem.frameAt_eq_none hkern).mpr (Bool.eq_false_of_not_eq_true fun hp => ?_)
    have := lt_pageCount.mpr ((h.mapped b hkern).mp hp)
    omega
  · simp [Mem.frameAt, hkern]

theorem frameAt (hk : k < kernbase) (hsz : 4096 * k < p.sz.toNat) :
    m.frameAt p.pgdir k = some (frame (m.pte p.pgdir k)) :=
  Mem.frameAt_eq_some.mpr ⟨hk, (h.mapped k hk).mpr hsz, rfl⟩

end Process

theorem growsExactly_of_grown (h : Process L m l p)
    (hg : Grown m p.pgdir (pageCount p.sz) (pageCount sz) m') (hle : p.sz.toNat ≤ sz.toNat)
    (hsz : (sz.toNat : Int) = p.sz.toNat + n.toInt) :
    GrowsExactly m p n.toInt (.ok (({ p with sz := sz }, 0), m')) := by
  have hnew : ∀ k < kernbase, p.sz.toNat ≤ 4096 * k → 4096 * k < sz.toNat →
      present (m'.pte p.pgdir k) = true ∧ m'.word (frame (m'.pte p.pgdir k)) = fun _ => 0 := by
    intro k hk hold hlt
    obtain ⟨q, hq, hpte, hzero⟩ := hg.new k (by rw [pageCount]; omega) (lt_pageCount.mpr hlt)
    rw [hpte, frame_entry hq (by decide)]
    exact ⟨present_entry, hzero⟩
  have hold : ∀ k < kernbase, 4096 * k < p.sz.toNat ∨ sz.toNat ≤ 4096 * k →
      m'.mapping p.pgdir k = m.mapping p.pgdir k := by
    intro k hk hsz
    refine hg.old k (lt_trans hk (by decide)) ?_
    simp only [pageCount]
    omega
  refine .inl ⟨sz, m', rfl, hsz, fun k hk => ?_, fun k hk hk' _ => ?_, fun k hk hk' hk'' => (hnew k hk hk' hk'').2⟩
  · by_cases hin : p.sz.toNat ≤ 4096 * k ∧ 4096 * k < sz.toNat
    · simp [(hnew k hk hin.1 hin.2).1, hin.2]
    · have hsame := congrArg Option.isSome (hold k hk (by omega))
      simp only [Mem.mapping] at hsame
      have hiff := h.mapped k hk
      grind
  · have hmap := hold k hk (.inl hk')
    have hp := (h.mapped k hk).mpr hk'
    have hpte : m'.pte p.pgdir k = m.pte p.pgdir k := by
      simp only [Mem.mapping, hp, if_true] at hmap
      grind
    exact ⟨hpte, hg.kept k _ (h.frameAt hk hk')⟩

theorem growsExactly_of_same (hg : Grown m p.pgdir (pageCount p.sz) (pageCount p.sz) m') :
    GrowsExactly m p n.toInt (.ok ((p, -1), m')) := by
  refine .inr ⟨m', rfl, fun k hk => ⟨hg.old k (lt_trans hk (by decide)) (by omega), fun q hq => hg.kept k q hq⟩⟩

theorem growproc_of_pos (h : Process L m l p) (hn : 0 < n.toInt) : GrowsExactly m p n.toInt (growproc L p n m) := by
  have hadd := toNat_add_of_pos h.size hn
  have hends : Ends (allocuvm L p.pgdir p.sz (p.sz + n)) m _ :=
    allocuvm_ends h.space.inv h.size fun _ => h.frameAt_eq_none
  obtain ⟨r, m', hrun, hm'⟩ := hends.exists_ok fun _ => id
  have hgrow : growproc L p n m = if r = 0 then .ok ((p, -1), m') else .ok (({ p with sz := r }, 0), m') := by
    unfold growproc
    rw [if_pos hn, bind_ok hrun]
    split <;> rfl
  rw [hgrow]
  rcases hm' with ⟨-, rfl, rfl⟩ | ⟨hless, -, -⟩ | ⟨hle, -, hm'⟩
  · exact growsExactly_of_same .refl
  · have := BitVec.lt_def.mp hless
    omega
  · rcases hm'.grown with ⟨rfl, hg⟩ | ⟨rfl, -, hg⟩
    · have hne : p.sz + n ≠ 0 := by
        intro hzero
        rw [hzero, show (0 : Word).toNat = 0 from rfl] at hadd
        omega
      rw [if_neg hne]
      exact growsExactly_of_grown h hg (BitVec.le_def.mp hle) hadd
    · exact growsExactly_of_same hg

theorem growproc_of_neg (h : Process L m l p) (hn : n.toInt < 0) :
    ∃ sz m', sz = (if p.sz + n < p.sz then p.sz + n else p.sz) ∧
      Unmapped L (fun q => q ∈ l ∨ ∃ P, m.num p.pgdir none P = some q) m m l p.pgdir none
        (pageCount (p.sz + n)) (pageCount p.sz) m' ∧
      growproc L p n m = if sz = 0 then .ok ((p, -1), m') else .ok (({ p with sz := sz }, 0), m') := by
  have hends : Ends (deallocuvm L p.pgdir p.sz (p.sz + n)) m _ := deallocuvm_ends h.space.inv h.size
  obtain ⟨sz, m', hrun, hsz, hm'⟩ := hends.exists_ok fun _ => id
  refine ⟨sz, m', hsz, hm', ?_⟩
  unfold growproc
  rw [if_neg (by omega), if_pos hn, bind_ok hrun]
  split <;> rfl

theorem Unmapped.mapping_eq
    (h : Unmapped L region m m l p.pgdir none (pageCount sz) (pageCount p.sz) m')
    (hk : k < kernbase) (hsz : 4096 * k < sz.toNat ∨ p.sz.toNat ≤ 4096 * k) :
    m'.pte p.pgdir k = m.pte p.pgdir k ∧ ∀ q, m.frameAt p.pgdir k = some q → m'.word q = m.word q := by
  refine ⟨?_, fun q hq => h.kept (.page k) q (by rintro i ⟨⟩) ?_ hq⟩
  · rw [h.pte k (lt_trans hk (by decide)), if_neg]
    rintro ⟨hrange, -⟩
    simp only [pageCount] at hrange
    omega
  · rintro b ⟨⟩
    simp only [pageCount]
    omega

theorem growproc_of_shrinks (h : Process L m l p) (hn : n.toInt < 0) (hpos : 0 < (p.sz.toNat : Int) + n.toInt) :
    GrowsExactly m p n.toInt (growproc L p n m) := by
  obtain ⟨sz, m', hsz, hm', hrun⟩ := growproc_of_neg h hn
  have hadd := toNat_add_of_neg h.size hn
  rw [if_neg (by omega), add_zero] at hadd
  have hlt : p.sz + n < p.sz := by
    rw [BitVec.lt_def]
    omega
  have hne : p.sz + n ≠ 0 := by
    intro hzero
    rw [hzero, show (0 : Word).toNat = 0 from rfl] at hadd
    omega
  rw [if_pos hlt] at hsz
  subst hsz
  rw [hrun, if_neg hne]
  refine .inl ⟨p.sz + n, m', rfl, hadd, fun k hk => ?_, fun k hk hold hnew => ?_, fun k hk hold hnew => ?_⟩
  · by_cases hkept : 4096 * k < (p.sz + n).toNat ∨ p.sz.toNat ≤ 4096 * k
    · rw [(hm'.mapping_eq hk hkept).1, h.mapped k hk]
      omega
    · have hpresent := (h.mapped k hk).mpr (by omega)
      have hrange : pageCount (p.sz + n) ≤ k ∧ k < pageCount p.sz := by
        simp only [pageCount]
        omega
      rw [hm'.pte k (lt_trans hk (by decide)), if_pos ⟨hrange, hpresent⟩]
      refine iff_of_false (by decide) ?_
      omega
  · obtain ⟨hpte, hword⟩ := hm'.mapping_eq hk (.inl hnew)
    exact ⟨hpte, hword _ (h.frameAt hk hold)⟩
  · omega

theorem growproc_of_empty (h : Process L m l p) (hn : n.toInt < 0) (hzero : p.sz = 0) :
    GrowsExactly m p n.toInt (growproc L p n m) := by
  obtain ⟨sz, m', hsz, hm', hrun⟩ := growproc_of_neg h hn
  have hnat : p.sz.toNat = 0 := by rw [hzero]; rfl
  have hlt : ¬p.sz + n < p.sz := by
    rw [BitVec.lt_def]
    omega
  rw [if_neg hlt] at hsz
  subst hsz
  rw [hrun, if_pos hzero]
  refine .inr ⟨m', rfl, fun k hk => ?_⟩
  obtain ⟨hpte, hword⟩ := hm'.mapping_eq hk (.inr (by omega))
  exact ⟨Mem.mapping_congr hpte, hword⟩

theorem not_growsExactly (h : Process L m l p) (hn : n.toInt < 0) (hzero : p.sz ≠ 0)
    (hneg : (p.sz.toNat : Int) + n.toInt ≤ 0) : ¬GrowsExactly m p n.toInt (growproc L p n m) := by
  obtain ⟨sz, m', hsz, hm', hrun⟩ := growproc_of_neg h hn
  have hadd := toNat_add_of_neg h.size hn
  have hnat : 0 < p.sz.toNat := Nat.pos_of_ne_zero fun hnat => hzero (BitVec.eq_of_toNat_eq hnat)
  by_cases hall : (p.sz.toNat : Int) + n.toInt = 0
  · have hsum : p.sz + n = 0 := by
      apply BitVec.eq_of_toNat_eq
      rw [show (0 : Word).toNat = 0 from rfl]
      rw [if_neg (by omega)] at hadd
      omega
    have hlt : (0 : Word) < p.sz := by
      rw [BitVec.lt_def]
      exact hnat
    rw [hsum] at hm' hsz
    rw [if_pos hlt] at hsz
    subst hsz
    rw [hrun, if_pos rfl]
    rintro (⟨sz, m₁, heq, -⟩ | ⟨m₁, heq, hkept⟩)
    · simp at heq
    · cases heq
      have hpresent := (h.mapped 0 (by decide)).mpr (by omega)
      have hrange : pageCount 0 ≤ 0 ∧ 0 < pageCount p.sz := ⟨by decide, lt_pageCount.mpr (by omega)⟩
      have hpte : m'.pte p.pgdir 0 = 0 := by rw [hm'.pte 0 (by decide), if_pos ⟨hrange, hpresent⟩]
      have hnone : m'.mapping p.pgdir 0 = none := Mem.mapping_eq_none.mpr (by rw [hpte]; rfl)
      rw [(hkept 0 (by decide)).1, Mem.mapping_eq_none, hpresent] at hnone
      cases hnone
  · have hle := BitVec.le_def.mp h.size
    rw [show (0x80000000 : Word).toNat = 2147483648 from rfl] at hle
    have hmin := BitVec.le_toInt n
    rw [if_pos (by omega)] at hadd
    have hlt : ¬p.sz + n < p.sz := by
      rw [BitVec.lt_def]
      omega
    rw [if_neg hlt] at hsz
    subst hsz
    rw [hrun, if_neg hzero]
    rintro (⟨sz, m₁, heq, hsz, -⟩ | ⟨m₁, heq, -⟩)
    · cases heq
      omega
    · simp at heq

theorem growproc_exact_iff (h : Process L m l p) :
    GrowsExactly m p n.toInt (growproc L p n m) ↔ 0 ≤ n.toInt ∨ p.sz = 0 ∨ 0 < (p.sz.toNat : Int) + n.toInt := by
  constructor
  · intro hexact
    by_contra hcond
    simp only [not_or] at hcond
    exact not_growsExactly h (by omega) hcond.2.1 (by omega) hexact
  · intro hcond
    rcases lt_trichotomy n.toInt 0 with hn | hn | hn
    · rcases hcond.resolve_left (by omega) with hzero | hpos
      · exact growproc_of_empty h hn hzero
      · exact growproc_of_shrinks h hn hpos
    · have hrun : growproc L p n m = .ok ((p, 0), m) := by
        unfold growproc
        rw [if_neg (by omega), if_neg (by omega)]
        rfl
      rw [hrun]
      exact growsExactly_of_grown h .refl le_rfl (by omega)
    · exact growproc_of_pos h hn

theorem process_oneProcess :
    Process layout oneProcess (List.range' 2000 2000) ⟨1000, 4096, kstack, name⟩ where
  space := space_oneProcess
  size := (by decide : (4096 : Word) ≤ 0x80000000)
  mapped := fun k hk => by
    rw [pte_oneProcess (lt_trans hk (by decide)), show (4096 : Word).toNat = 4096 from rfl]
    by_cases hk0 : k = 0
    · rw [if_pos hk0, present_pde, hk0]
      decide
    · simp only [if_neg hk0]
      exact iff_of_false (by decide) (by omega)

theorem growproc_exact_iff_page : GrowsExactly oneProcess ⟨1000, 4096, 900, []⟩ 5000
    (growproc layout ⟨1000, 4096, 900, []⟩ 5000 oneProcess) :=
  (growproc_exact_iff (n := 5000) process_oneProcess).mpr (.inl (by decide))

theorem growproc_not_exact : ¬GrowsExactly oneProcess ⟨1000, 4096, 900, []⟩ (-4096 : Word).toInt
    (growproc layout ⟨1000, 4096, 900, []⟩ (-4096) oneProcess) :=
  not_growsExactly process_oneProcess (by decide) (by decide) (by decide)

end Xv6.Paging
