import Xv6.Paging.Image

namespace Xv6.Paging

open Lib Prog
open Vm (Page Layout maxPage kernbase phystop)

variable {α : Type} {L : Layout} {region : Page → Prop} {m₀ m m' : Mem} {l : List Page} {pd p q : Page}
  {k c : Nat} {va va' v w len : Word} {buf : Nat → Byte} {ok : Bool} {E : Stop → Prop} {null : M Word}

def pageOf (v : Word) : Nat := v.toNat / 4096

theorem offset_lt (v : Word) : v.toNat % 4096 < 4096 := Nat.mod_lt _ (by decide)

def offset (v : Word) : Fin 4096 := ⟨v.toNat % 4096, offset_lt v⟩

theorem pageOf_lt (v : Word) : pageOf v < maxPage := by
  have h := v.isLt
  simp only [pageOf, maxPage]
  omega

theorem eq_of_pageOf_offset (hp : pageOf v = pageOf w) (ho : offset v = offset w) : v = w := by
  have ho := congrArg Fin.val ho
  apply BitVec.eq_of_toNat_eq
  simp only [pageOf, offset] at hp ho
  omega

def after (va : Word) (k : Nat) : Word := va + BitVec.ofNat 32 k

theorem toNat_after (va : Word) (k : Nat) : (after va k).toNat = (va.toNat + k) % 4294967296 := by
  rw [after, BitVec.toNat_add, BitVec.toNat_ofNat, Nat.add_mod_mod]

theorem after_zero : after va 0 = va := by
  apply BitVec.eq_of_toNat_eq
  have h := va.isLt
  rw [toNat_after]
  omega

theorem after_inj (hi : i < 4294967296) (hj : j < 4294967296) (h : after va i = after va j) : i = j := by
  have h := congrArg BitVec.toNat h
  have hva := va.isLt
  rw [toNat_after, toNat_after] at h
  omega

theorem pageOf_after (hk : va.toNat % 4096 + k < 4096) : pageOf (after va k) = pageOf va := by
  have h := va.isLt
  rw [pageOf, toNat_after, pageOf]
  omega

theorem offset_after (hk : va.toNat % 4096 + k < 4096) : (offset (after va k)).val = va.toNat % 4096 + k := by
  have h := va.isLt
  change (after va k).toNat % 4096 = _
  rw [toNat_after]
  omega

def Mem.Accessible (m : Mem) (pd : Page) (v : Word) : Prop :=
  present (m.pte pd (pageOf v)) = true ∧ user (m.pte pd (pageOf v)) = true

theorem Mem.accessible_congr (h : pageOf v = pageOf w) : m.Accessible pd v ↔ m.Accessible pd w := by
  rw [Accessible, Accessible, h]

def Mem.frameOf (m : Mem) (pd : Page) (v : Word) : Page := frame (m.pte pd (pageOf v))

/-- A copy to `va` comes upon no page for which there is not even a page table.  It gets as far as
the user may write. -/
def Mem.Tabled (m : Mem) (pd : Page) (va len : Word) : Prop :=
  ∀ j < len.toNat, (∀ i < j, m.Accessible pd (after va i)) → m.table pd (Vm.pdx (pageOf (after va j))) ≠ none

section user

variable (h : Inv L region m₀ m l pd none) (hk : KernelMap m pd)

include hk

theorem frameAt_of_accessible (hv : m.Accessible pd v) : m.frameAt pd (pageOf v) = some (m.frameOf pd v) := by
  refine Mem.frameAt_eq_some.mpr ⟨?_, hv.1, rfl⟩
  by_contra hle
  have huser := hk.pte (pageOf v) (Nat.le_of_not_lt hle) (pageOf_lt v) hv.1
  rw [hv.2] at huser
  cases huser

include h

theorem eq_of_frameOf_offset (hv : m.Accessible pd v) (hw : m.Accessible pd w)
    (hf : m.frameOf pd v = m.frameOf pd w) (ho : offset v = offset w) : v = w := by
  have hplace := h.once (P := .page (pageOf v)) (Q := .page (pageOf w)) (frameAt_of_accessible hk hv)
    (hf ▸ frameAt_of_accessible hk hw)
  exact eq_of_pageOf_offset (Place.page.inj hplace) ho

end user

structure CopiedOut (m : Mem) (pd : Page) (va : Word) (buf : Nat → Byte) (len : Word) (ok : Bool) (m' : Mem) : Prop where
  pte : m'.pte pd = m.pte pd
  table : m'.table pd = m.table pd
  only : ∀ q k, byteOf (m'.word q) k ≠ byteOf (m.word q) k →
    ∃ j < len.toNat, m.Accessible pd (after va j) ∧ m.frameOf pd (after va j) = q ∧ offset (after va j) = k
  all : ok = true → ∀ j < len.toNat, m.Accessible pd (after va j) ∧
    byteOf (m'.word (m.frameOf pd (after va j))) (offset (after va j)) = buf j
  stops : ok = false → ∃ j < len.toNat, ¬m.Accessible pd (after va j)

theorem CopiedOut.refl (h : ok = true → len = 0) (hstop : ok = false → 0 < len.toNat ∧ ¬m.Accessible pd va) :
    CopiedOut m pd va buf len ok m where
  pte := rfl
  table := rfl
  only := fun _ _ hne => absurd rfl hne
  all := fun hok j hj => by
    rw [h hok] at hj
    exact absurd hj (Nat.not_lt_zero j)
  stops := fun hok => ⟨0, (hstop hok).1, by rw [after_zero]; exact (hstop hok).2⟩

theorem CopiedOut.cons (h : Inv L region m₀ m l pd none) (hk : KernelMap m pd) (hacc : m.Accessible pd va)
    (hc : va.toNat % 4096 + c ≤ 4096) (hlen : len'.toNat + c = len.toNat)
    (hva : ∀ j < len'.toNat, after va' j = after va (c + j)) (hpte : m₁.pte pd = m.pte pd)
    (htable : m₁.table pd = m.table pd)
    (hbytes : ∀ q k, byteOf (m₁.word q) k =
      if q = m.frameOf pd va ∧ va.toNat % 4096 ≤ k.val ∧ k.val < va.toNat % 4096 + c
      then buf (k.val - va.toNat % 4096) else byteOf (m.word q) k)
    (hrest : CopiedOut m₁ pd va' (fun k => buf (k + c)) len' ok m') : CopiedOut m pd va buf len ok m' := by
  have hacc' : ∀ v, m₁.Accessible pd v ↔ m.Accessible pd v := fun v => by rw [Mem.Accessible, Mem.Accessible, hpte]
  have hframe : ∀ v, m₁.frameOf pd v = m.frameOf pd v := fun v => by rw [Mem.frameOf, Mem.frameOf, hpte]
  have hfirst : ∀ j < c, m.Accessible pd (after va j) ∧ m.frameOf pd (after va j) = m.frameOf pd va := by
    intro j hj
    have hpage : pageOf (after va j) = pageOf va := pageOf_after (by omega)
    exact ⟨(Mem.accessible_congr hpage).mpr hacc, by rw [Mem.frameOf, hpage, Mem.frameOf]⟩
  have hkeep : ∀ j < c, byteOf (m'.word (m.frameOf pd va)) (offset (after va j)) =
      byteOf (m₁.word (m.frameOf pd va)) (offset (after va j)) := by
    intro j hj
    by_contra hne
    obtain ⟨i, hi, haccess, hf, ho⟩ := hrest.only _ _ hne
    rw [hva i hi] at haccess hf ho
    have heq := eq_of_frameOf_offset h hk ((hacc' _).mp haccess) (hfirst j hj).1
      ((hframe _).symm.trans (hf.trans (hfirst j hj).2.symm)) ho
    have hmax := len.isLt
    have := after_inj (by omega) (by omega) heq
    omega
  refine ⟨hrest.pte.trans hpte, hrest.table.trans htable, fun q k hne => ?_, fun hok j hj => ?_, fun hok => ?_⟩
  · by_cases hsame : byteOf (m'.word q) k = byteOf (m₁.word q) k
    · rw [hsame, hbytes q k] at hne
      by_cases hin : q = m.frameOf pd va ∧ va.toNat % 4096 ≤ k.val ∧ k.val < va.toNat % 4096 + c
      · obtain ⟨hq, hlo, hhi⟩ := hin
        have hj : k.val - va.toNat % 4096 < c := by omega
        refine ⟨k.val - va.toNat % 4096, by omega, (hfirst _ hj).1, (hfirst _ hj).2.trans hq.symm, Fin.ext ?_⟩
        rw [offset_after (by omega)]
        omega
      · exact absurd (if_neg hin) hne
    · obtain ⟨j, hj, haccess, hf, ho⟩ := hrest.only q k hsame
      rw [hva j hj] at haccess hf ho
      exact ⟨c + j, by omega, (hacc' _).mp haccess, (hframe _).symm.trans hf, ho⟩
  · by_cases hjc : j < c
    · refine ⟨(hfirst j hjc).1, ?_⟩
      have hoff : (offset (after va j)).val = va.toNat % 4096 + j := offset_after (by omega)
      rw [(hfirst j hjc).2, hkeep j hjc, hbytes, if_pos ⟨rfl, by omega, by omega⟩, hoff, Nat.add_sub_cancel_left]
    · obtain ⟨haccess, hbyte⟩ := hrest.all hok (j - c) (by omega)
      rw [hva (j - c) (by omega), show c + (j - c) = j by omega] at haccess hbyte
      rw [hframe] at hbyte
      exact ⟨(hacc' _).mp haccess, hbyte.trans (by rw [show j - c + c = j by omega])⟩
  · obtain ⟨j, hj, hnot⟩ := hrest.stops hok
    rw [hva j hj, hacc'] at hnot
    exact ⟨c + j, by omega, hnot⟩

theorem Mem.tabled_congr (hpte : m'.pte pd = m.pte pd) (htable : m'.table pd = m.table pd) :
    m.Tabled pd va len ↔ m'.Tabled pd va len := by
  simp only [Tabled, Accessible, hpte, htable]

theorem Mem.tabled_cons (hacc : m.Accessible pd va) (hc : va.toNat % 4096 + c ≤ 4096)
    (hlen : len'.toNat + c = len.toNat) (hva : ∀ j < len'.toNat, after va' j = after va (c + j)) :
    m.Tabled pd va len ↔ m.Tabled pd va' len' := by
  have hfirst : ∀ j < c, pageOf (after va j) = pageOf va := fun j hj => pageOf_after (by omega)
  constructor
  · intro h j hj haccess
    rw [hva j hj]
    refine h (c + j) (by omega) fun i hi => ?_
    by_cases hic : i < c
    · exact (accessible_congr (hfirst i hic)).mpr hacc
    · have := haccess (i - c) (by omega)
      rwa [hva _ (by omega), show c + (i - c) = i by omega] at this
  · intro h j hj haccess
    by_cases hjc : j < c
    · obtain ⟨t, ht, -⟩ := Mem.exists_table hacc.1
      rw [hfirst j hjc, ht]
      exact Option.some_ne_none t
    · have htail := h (j - c) (by omega) fun i hi => by
        rw [hva i (by omega)]
        exact haccess (c + i) (by omega)
      rwa [hva _ (by omega), show c + (j - c) = j by omega] at htail

def Mem.setBytes (m : Mem) (p : Page) (off n : Nat) (buf : Nat → Byte) : Mem :=
  m.setPage p (ofBytes fun k => if off ≤ k.val ∧ k.val < off + n then buf (k.val - off) else byteOf (m.word p) k)

theorem byteOf_setBytes {off n : Nat} {k : Fin 4096} : byteOf ((m.setBytes p off n buf).word q) k =
    if q = p ∧ off ≤ k.val ∧ k.val < off + n then buf (k.val - off) else byteOf (m.word q) k := by
  by_cases hq : q = p
  · rw [hq, Mem.setBytes, Mem.word_setPage_self, byteOf_ofBytes]
    simp only [true_and]
  · rw [Mem.setBytes, Mem.word_setPage_of_ne hq, if_neg fun hin => hq hin.1]

theorem memmove_bind (hp : p < phystop)
    (h : Finishes E (f ()) (m.setBytes p off n buf) R) : Finishes E (memmove p off n buf >>= f) m R := by
  refine .bind (Q := fun _ t => t = m.setBytes p off n buf) ?_ fun _ _ ht => ht ▸ h
  exact readPage_bind hp (writePage_ends hp rfl)

theorem Inv.setBytes (h : Inv L region m₀ m l pd none) (hp : m.frameAt pd k = some p) :
    Inv L region m₀ (m.setBytes p off n buf) l pd none ∧ (m.setBytes p off n buf).pte pd = m.pte pd ∧
      (m.setBytes p off n buf).table pd = m.table pd := by
  have hword : ∀ {P q}, m.num pd none P = some q → P ≠ .page k → (m.setBytes p off n buf).word q = m.word q :=
    fun hP hne => Mem.word_setPage_of_ne (h.ne (Q := .page k) hP hp hne)
  have hdir := hword (P := .dir) rfl (by rintro ⟨⟩)
  refine ⟨h.setPage (P := .page k) hp (by rintro ⟨⟩) (by rintro i ⟨⟩), ?_, Mem.table_congr hdir⟩
  exact Mem.pte_congr hdir fun i t ht => hword (P := .table i) ht (by rintro ⟨⟩)

theorem pgrounddown_eq_addr (v : Word) : pgrounddown v = addr (pageOf v) := by
  apply BitVec.eq_of_toNat_eq
  rw [pgrounddown, Vm.toNat_pgrounddown, toNat_addr (pageOf_lt v), pageOf]
  omega

theorem toNat_sub_addr (v : Word) : (v - addr (pageOf v)).toNat = v.toNat % 4096 := by
  have h := v.isLt
  rw [BitVec.toNat_sub, toNat_addr (pageOf_lt v), pageOf]
  omega

section calls

variable (h : Inv L region m₀ m l pd none) (hk : KernelMap m pd)

include h hk

theorem uva2ka_bind
    (hnull : m.table pd (Vm.pdx (pageOf va)) = none → Finishes E null m fun _ _ => False)
    (hyes : m.Accessible pd va → Finishes E (f (some (m.frameOf pd va))) m R)
    (hno : ¬m.Accessible pd va → m.table pd (Vm.pdx (pageOf va)) ≠ none → Finishes E (f none) m R) :
    Finishes E (uva2ka null pd (addr (pageOf va)) >>= f) m R := by
  have hpd := (h.ram (P := .dir) rfl).2
  have hmax := pageOf_lt va
  cases ht : m.table pd (Vm.pdx (pageOf va)) with
  | none =>
    refine .bind (Q := fun _ _ => False) (.bind (Q := fun _ _ => False) ?_ fun _ _ => False.elim)
      fun _ _ => False.elim
    refine walkpgdir_bind hpd hmax ?_
    rw [ht]
    exact hnull ht
  | some t =>
    have hpte := Mem.pte_of_table ht
    refine .bind (Q := fun r t => t = m ∧ r = if present (m.pte pd (pageOf va)) && user (m.pte pd (pageOf va)) &&
      p2v (frame (m.pte pd (pageOf va))) != 0 then some (frame (m.pte pd (pageOf va))) else none) ?_ ?_
    · refine .bind (Q := fun w s => s = m ∧ w = m.pte pd (pageOf va)) ?_ ?_
      · refine walkpgdir_bind hpd hmax ?_
        rw [ht]
        refine .mono (Q := fun w s => s = m ∧ w = m.word t (Vm.ptx (pageOf va))) ?_ fun w s hw => hpte ▸ hw
        exact readPage_bind (h.ram (P := .table _) ht).2 (.pure ⟨rfl, rfl⟩)
      · rintro _ _ ⟨rfl, rfl⟩
        exact .pure ⟨rfl, rfl⟩
    · rintro r s ⟨hs, hr⟩
      rw [hs, hr]
      by_cases hacc : m.Accessible pd va
      · have hframe := (h.ram (P := .page _) (frameAt_of_accessible hk hacc)).2
        have hp2v : (p2v (frame (m.pte pd (pageOf va))) != 0) = true := bne_iff_ne.mpr (p2v_ne_zero hframe)
        rw [hacc.1, hacc.2, hp2v]
        exact hyes hacc
      · have hand : (present (m.pte pd (pageOf va)) && user (m.pte pd (pageOf va))) = false := by
          by_contra hne
          exact hacc (Bool.and_eq_true_iff.mp (Bool.eq_true_of_not_eq_false hne))
        rw [hand]
        exact hno hacc (by rw [ht]; exact Option.some_ne_none t)

end calls

theorem copyoutLoop_ends (h : Inv L region m₀ m l pd none) (hk : KernelMap m pd)
    (hnull : ¬m.Tabled pd va len → ∀ s, Finishes E null s fun _ _ => False) (hfuel : len.toNat < fuel) :
    Finishes E (copyoutLoop null pd fuel va buf len) m fun ok m' =>
      Inv L region m₀ m' l pd none ∧ CopiedOut m pd va buf len ok m' ∧ m.Tabled pd va len := by
  induction fuel generalizing m va buf len with
  | zero => omega
  | succ fuel ih =>
    unfold copyoutLoop
    by_cases hzero : len = 0
    · rw [if_pos hzero]
      refine .pure ⟨h, .refl (fun _ => hzero) nofun, fun j hj => ?_⟩
      rw [hzero] at hj
      exact absurd hj (Nat.not_lt_zero j)
    · rw [if_neg hzero]
      have hpos : 0 < len.toNat := Nat.pos_of_ne_zero fun hlen => hzero (BitVec.eq_of_toNat_eq hlen)
      rw [pgrounddown_eq_addr]
      refine uva2ka_bind h hk (fun ht => ?_) (fun hacc => ?_) fun hacc ht => ?_
      · refine hnull (fun htabled => ?_) m
        have := htabled 0 hpos fun i hi => absurd hi (Nat.not_lt_zero i)
        rw [after_zero] at this
        exact this ht
      · have hframe := frameAt_of_accessible hk hacc
        have hoff := toNat_sub_addr va
        have hmod := offset_lt va
        have hsub : (4096 - (va - addr (pageOf va))).toNat = 4096 - va.toNat % 4096 := by
          rw [BitVec.toNat_sub, hoff, show (4096 : Word).toNat = 4096 from rfl]
          omega
        obtain ⟨n, hn, hnle, hnlen, hnpos, hlast⟩ : ∃ n : Word,
            (if len < 4096 - (va - addr (pageOf va)) then len else 4096 - (va - addr (pageOf va))) = n ∧
            va.toNat % 4096 + n.toNat ≤ 4096 ∧ n.toNat ≤ len.toNat ∧ 0 < n.toNat ∧
            (n.toNat = len.toNat ∨ va.toNat % 4096 + n.toNat = 4096) := by
          refine ⟨_, rfl, ?_⟩
          by_cases hlt : len < 4096 - (va - addr (pageOf va))
          · have := BitVec.lt_def.mp hlt
            rw [if_pos hlt]
            omega
          · have := BitVec.le_def.mp (BitVec.not_lt.mp hlt)
            rw [if_neg hlt]
            omega
        have hlen' : (len - n).toNat + n.toNat = len.toNat := by
          have := len.isLt
          rw [BitVec.toNat_sub]
          omega
        have hva : ∀ j < (len - n).toNat, after (addr (pageOf va) + 4096) j = after va (n.toNat + j) := by
          intro j hj
          have := va.isLt
          apply BitVec.eq_of_toNat_eq
          rw [toNat_after, toNat_after, BitVec.toNat_add, toNat_addr (pageOf_lt va),
            show (4096 : Word).toNat = 4096 from rfl,
            pageOf]
          omega
        dsimp only
        rw [hn, hoff]
        refine memmove_bind (h.ram (P := .page _) hframe).2 ?_
        obtain ⟨hinv, hpte, htable⟩ := h.setBytes hframe
        have htabled : m.Tabled pd va len ↔ _ :=
          (Mem.tabled_cons hacc hnle hlen' hva).trans (Mem.tabled_congr hpte htable)
        refine (ih hinv (hk.congr hpte htable) (fun ht => hnull (mt htabled.mp ht)) (by omega)).mono ?_
        rintro ok m' ⟨hinv', hcopied, ht⟩
        refine ⟨hinv', .cons h hk hacc hnle hlen' hva hpte htable (fun q k => byteOf_setBytes) hcopied, htabled.mpr ht⟩
      · refine .pure ⟨h, .refl nofun fun _ => ⟨hpos, hacc⟩, fun j _ haccess => ?_⟩
        cases j with
        | zero => rwa [after_zero]
        | succ j =>
          have := haccess 0 (Nat.succ_pos j)
          rw [after_zero] at this
          exact absurd this hacc

theorem copyout_ends (h : Inv L region m₀ m l pd none) (hk : KernelMap m pd) (ht : m.Tabled pd va len) :
    Ends (copyout null pd va buf len) m fun ok m' =>
      Inv L region m₀ m' l pd none ∧ CopiedOut m pd va buf len ok m' :=
  (copyoutLoop_ends h hk (fun hne => absurd ht hne) (Nat.lt_succ_self _)).mono fun _ _ hm' => ⟨hm'.1, hm'.2.1⟩

theorem copyout_null (h : Inv L region m₀ m l pd none) (hk : KernelMap m pd) (ht : ¬m.Tabled pd va len) :
    copyout (throw .null) pd va buf len m = .error .null := by
  have hends : Finishes (· = .null) (copyout (throw .null) pd va buf len) m _ :=
    copyoutLoop_ends h hk (fun _ _ => .throw rfl) (Nat.lt_succ_self _)
  cases hrun : copyout (throw .null) pd va buf len m with
  | ok r => exact absurd (hends.of_ok hrun).2.2 ht
  | error e => rw [hends.of_error hrun]

/-- The call returns.  It writes to no byte but those it is to write that the user may write, and if
it reports no failure it has written all of them. -/
def CopiesOut (m : Mem) (pd : Page) (va : Word) (buf : Nat → Byte) (len : Word) (r : Except Stop (Bool × Mem)) : Prop :=
  ∃ ok m', r = .ok (ok, m') ∧ CopiedOut m pd va buf len ok m'

/-- What has a page table in an address space of `sz` bytes: the user half up to the next 4 MB, the
direct map and the devices. -/
def HasTable (sz : Word) (a : Nat) : Prop :=
  a < (4096 * pageCount sz + 4194303) / 4194304 * 4194304 ∨ 0x80000000 ≤ a ∧ a < 0x8E000000 ∨ 0xFE000000 ≤ a

namespace Built

variable (h : Built m pd sz)

include h

theorem table_iff (v : Word) : m.table pd (Vm.pdx (pageOf v)) ≠ none ↔ HasTable sz v.toNat := by
  have hv := v.isLt
  have hpdx : (Vm.pdx (pageOf v)).val = v.toNat / 4194304 := by
    simp only [Vm.pdx, Fin.ofNat, pageOf]
    omega
  rw [h.table, hpdx, HasTable]
  omega

theorem accessible_iff (hk : KernelMap m pd) (v : Word) : m.Accessible pd v ↔ v.toNat < 4096 * pageCount sz := by
  have hpage : pageOf v < pageCount sz ↔ v.toNat < 4096 * pageCount sz := by
    rw [pageOf]
    omega
  rw [← hpage]
  constructor
  · intro hv
    have hkern := (Mem.frameAt_eq_some.mp (frameAt_of_accessible hk hv)).1
    exact (h.page _ hkern).mp hv.1
  · intro hlt
    exact ⟨(h.page _ (lt_of_lt_of_le hlt (pageCount_le h.size))).mpr hlt, h.user _ hlt⟩

/-- A copy that is not empty stops at the first address that is not the user's, if it gets there. -/
theorem tabled_iff (hk : KernelMap m pd) : m.Tabled pd va len ↔ len = 0 ∨
    va.toNat + len.toNat ≤ 4096 * pageCount sz ∨ HasTable sz (max va.toNat (4096 * pageCount sz)) := by
  have hva := va.isLt
  have hcount := pageCount_le h.size
  simp only [kernbase] at hcount
  have hzero : len = 0 ↔ len.toNat = 0 := BitVec.toNat_inj.symm
  simp only [Mem.Tabled, h.table_iff, h.accessible_iff hk, toNat_after]
  rw [hzero]
  generalize htop : 4096 * pageCount sz = top
  have hbound : top ≤ 0x80000000 := by omega
  constructor
  · intro ht
    by_contra hno
    obtain ⟨hlen, hend, htable⟩ : len.toNat ≠ 0 ∧ top < va.toNat + len.toNat ∧ ¬HasTable sz (max va.toNat top) := by
      simpa only [not_or, Nat.not_le] using hno
    refine htable ?_
    have hmax : (va.toNat + (top - va.toNat)) % 4294967296 = max va.toNat top := by omega
    rw [← hmax]
    exact ht _ (by omega) fun i hi => by omega
  · intro hcond j hj hbefore
    have hreach : va.toNat + j ≤ max va.toNat top := by
      by_contra hlt
      have := hbefore (top - va.toNat) (by omega)
      have := hbefore 0 (by omega)
      omega
    by_cases hlow : va.toNat + j < top
    · refine .inl ?_
      rw [htop]
      omega
    · obtain hmax : (va.toNat + j) % 4294967296 = max va.toNat top := by omega
      rw [hmax]
      exact (hcond.resolve_left (by omega)).resolve_left (by omega)

end Built

theorem copyout_copies_iff (h : Space L m l pd none) (hk : KernelMap m pd) :
    (CopiesOut m pd va buf len (copyout (throw .null) pd va buf len m) ↔ m.Tabled pd va len) ∧
    ∀ sz, Built m pd sz → (m.Tabled pd va len ↔ len = 0 ∨ va.toNat + len.toNat ≤ 4096 * pageCount sz ∨
      HasTable sz (max va.toNat (4096 * pageCount sz))) := by
  refine ⟨⟨?_, fun ht => ?_⟩, fun sz hbuilt => hbuilt.tabled_iff hk⟩
  · rintro ⟨ok, m', hrun, -⟩
    by_contra ht
    rw [copyout_null h.inv hk ht] at hrun
    cases hrun
  · obtain ⟨ok, m', hrun, -, hm'⟩ := (copyout_ends h.inv hk ht).exists_ok fun _ => id
    exact ⟨ok, m', hrun, hm'⟩

theorem setupkvm_freeMemory : ∃ d m₁ m₂, setupkvm layout freeMemory = .ok (some d, m₁) ∧
    allocuvm layout d 0 0x3000 m₁ = .ok (0x3000, m₂) ∧
    Image layout (· ∈ List.range' 1000 40000) freeMemory d 0x3000 m₂ ∧ Built m₂ d 0x3000 :=
  setupkvm_allocuvm allFree_freeMemory ram_freeMemory (not_short_freeMemory (by decide)) (by decide)

theorem copyout_copies_iff_word : ∃ d m₁ m₂, setupkvm layout freeMemory = .ok (some d, m₁) ∧
    allocuvm layout d 0 0x3000 m₁ = .ok (0x3000, m₂) ∧
    CopiesOut m₂ d 0x2FFC (fun _ => 1) 4 (copyout (throw .null) d 0x2FFC (fun _ => 1) 4 m₂) := by
  obtain ⟨d, m₁, m₂, hrun₁, hrun₂, himage, hbuilt⟩ := setupkvm_freeMemory
  obtain ⟨l, hinv⟩ := himage.inv
  have hcopy : (CopiesOut m₂ d 0x2FFC (fun _ => 1) 4 (copyout (throw .null) d 0x2FFC (fun _ => 1) 4 m₂) ↔ _) ∧ _ :=
    copyout_copies_iff hinv.toSpace himage.kernel
  exact ⟨d, m₁, m₂, hrun₁, hrun₂, hcopy.1.mpr ((hcopy.2 _ hbuilt).mpr (.inr (.inl (by decide))))⟩

theorem copyout_not_copies : ∃ d m₁ m₂, setupkvm layout freeMemory = .ok (some d, m₁) ∧
    allocuvm layout d 0 0x3000 m₁ = .ok (0x3000, m₂) ∧ ((0x3000 : Word) - 0x2004000) &&& ~~~3 = 0xFDFFF000 ∧
    copyout (throw .null) d 0xFDFFF000 (fun _ => 1) 0x2004000 m₂ = .error .null ∧
    ¬CopiesOut m₂ d 0xFDFFF000 (fun _ => 1) 0x2004000 (copyout (throw .null) d 0xFDFFF000 (fun _ => 1) 0x2004000 m₂) := by
  obtain ⟨d, m₁, m₂, hrun₁, hrun₂, himage, -⟩ := setupkvm_freeMemory
  obtain ⟨l, hinv⟩ := himage.inv
  have hnull : copyout (throw .null) d 0xFDFFF000 (fun _ => 1) 0x2004000 m₂ = .error .null := by
    refine copyout_null hinv himage.kernel fun ht => ?_
    have hfirst := ht 0 (by decide) fun i hi => absurd hi (Nat.not_lt_zero i)
    rw [after_zero] at hfirst
    exact absurd ((himage.kernel.table _ (by decide)).mp hfirst) (by decide)
  refine ⟨d, m₁, m₂, hrun₁, hrun₂, by decide, hnull, ?_⟩
  rintro ⟨ok, m', hrun, -⟩
  rw [hnull] at hrun
  cases hrun

end Xv6.Paging
