import Xv6.Vm.Balance

namespace Xv6.Vm

open Lib Prog Pgdir

variable {n : Nat} {α : Type} {sz : Word}

structure MappedRange (d : Pgdir) (a n : Nat) (e : Pte) (r : Pgdir × Bool) : Prop where
  tables : ∀ b, d.HasTable b → r.1.HasTable b
  entry : r.2 = true → ∀ b, a ≤ b → b ≤ a + n → ∃ x, r.1.lookup b = some x ∧ x.user = e.user
  lookup : ∀ b < maxPage, b < a ∨ a + n < b → r.1.lookup b = d.lookup b
  other : ∀ i, (∀ b, a ≤ b → b ≤ a + n → pdx b ≠ i) → r.1.pde i = d.pde i

theorem mappages_returns (h : a + n < maxPage) : Returns (mappages n d a e) (MappedRange d a n e) := by
  induction n generalizing d a e with
  | zero =>
    refine (mappage_returns h).mono fun r hr =>
      ⟨hr.tables, fun hok b hb hb' => ?_, fun b hb hb' => ?_, fun i hi => ?_⟩
    · obtain rfl : b = a := by omega
      exact ⟨e, hr.entry hok, rfl⟩
    · exact hr.lookup b hb (by omega)
    · exact hr.other i (hi a le_rfl le_rfl).symm
  | succ n ih =>
    refine (mappage_returns (by omega)).bind fun r hr => ?_
    obtain ⟨d', ok⟩ := r
    refine .ite (fun hok => ?_) fun _ => ?_
    · refine (ih (by omega)).mono fun r hrest => ⟨fun b hb => hrest.tables b (hr.tables b hb), ?_, ?_, ?_⟩
      · intro hok' b hb hb'
        by_cases hba : b = a
        · subst hba
          exact ⟨e, by rw [hrest.lookup b (by omega) (by omega), hr.entry hok], rfl⟩
        · exact hrest.entry hok' b (by omega) (by omega)
      · intro b hb hb'
        rw [hrest.lookup b hb (by omega), hr.lookup b hb (by omega)]
      · intro i hi
        rw [hrest.other i fun b hb hb' => hi b (by omega) (by omega), hr.other i (hi a le_rfl (by omega)).symm]
    · exact .pure ⟨hr.tables, (nomatch ·), fun b hb hb' => hr.lookup b hb (by omega),
        fun i hi => hr.other i (hi a le_rfl (by omega)).symm⟩

def Kmap.Covers (k : Kmap) (b : Nat) : Prop := k.virt ≤ b ∧ b ≤ k.virt + (k.size - 1)

def KernelEntry (d : Pgdir) (b : Nat) : Prop := ∃ x, d.lookup b = some x ∧ x.user = false

theorem kmap_bound {k : Kmap} (hk : k ∈ kmap L) : k.virt + (k.size - 1) < maxPage := by
  have hdata := L.lt_data
  have hdata' := L.data_le
  have hend := L.end_le
  simp only [kmap, kernbase, phystop, List.mem_cons, List.not_mem_nil, or_false] at hk
  simp only [maxPage]
  rcases hk with rfl | rfl | rfl | rfl <;> dsimp only <;> omega

structure KernelMapped (d : Pgdir) (ks : List Kmap) (d' : Pgdir) : Prop where
  tables : ∀ b, d.HasTable b → d'.HasTable b
  entry : ∀ b < maxPage, KernelEntry d b ∨ (∃ k ∈ ks, k.Covers b) → KernelEntry d' b
  lookup : ∀ b < maxPage, (∀ k ∈ ks, ¬ k.Covers b) → d'.lookup b = d.lookup b
  other : ∀ i, (∀ k ∈ ks, ∀ b, k.Covers b → pdx b ≠ i) → d'.pde i = d.pde i

theorem mapKernel_returns {ks : List Kmap} (hks : ks ⊆ kmap L) :
    Returns (mapKernel L ks d) fun r => ∀ d' ∈ r, KernelMapped d ks d' := by
  induction ks generalizing d with
  | nil =>
    refine .pure fun d' hd' => ?_
    cases hd'
    exact ⟨fun _ h => h, by simp, fun _ _ _ => rfl, fun _ _ => rfl⟩
  | cons k ks ih =>
    obtain ⟨hk, hks⟩ := List.cons_subset.mp hks
    refine (mappages_returns (kmap_bound hk)).bind fun r hr => ?_
    obtain ⟨d₁, ok⟩ := r
    refine .ite (fun hok => ?_) fun _ => Returns.any.bind fun _ _ => .pure fun d' hd' => nomatch hd'
    refine (ih hks).mono fun r hrest d' hd' => ?_
    have hmap := hrest d' hd'
    refine ⟨fun b hb => hmap.tables b (hr.tables b hb), fun b hb hcov => ?_, fun b hb hcov => ?_, fun i hi => ?_⟩
    · apply hmap.entry b hb
      by_cases hkb : k.Covers b
      · exact .inl (hr.entry hok b hkb.1 hkb.2)
      · rcases hcov with ⟨x, hx, hu⟩ | ⟨k', hk', hcov⟩
        · refine .inl ⟨x, ?_, hu⟩
          rw [hr.lookup b hb (by unfold Kmap.Covers at hkb; omega), hx]
        · rcases List.mem_cons.mp hk' with rfl | hk'
          · exact absurd hcov hkb
          · exact .inr ⟨k', hk', hcov⟩
    · obtain ⟨hkb, hrestb⟩ := List.forall_mem_cons.mp hcov
      rw [hmap.lookup b hb hrestb, hr.lookup b hb (by unfold Kmap.Covers at hkb; omega)]
    · obtain ⟨hki, hresti⟩ := List.forall_mem_cons.mp hi
      rw [hmap.other i hresti, hr.other i fun b hb hb' => hki b ⟨hb, hb'⟩]

/-- A fresh address space: no user page, the device pages are there for the kernel only, and there
is no table for what lies between them and the physical memory. -/
structure Fresh (d : Pgdir) : Prop where
  user : ∀ b < kernbase, d.lookup b = none
  device : ∀ b, 1040384 ≤ b → b < maxPage → KernelEntry d b
  between : ∀ i : Fin 1024, 568 ≤ i.val → i.val < 1016 → d.pde i = none

theorem pdx_of_kmap {k : Kmap} (hk : k ∈ kmap L) {b : Nat} (hb : k.Covers b) :
    512 ≤ (pdx b).val ∧ (pdx b).val < 568 ∨ 1016 ≤ (pdx b).val := by
  have hdata := L.lt_data
  have hdata' := L.data_le
  have hend := L.end_le
  obtain ⟨hb, hb'⟩ := hb
  simp only [kmap, kernbase, phystop, List.mem_cons, List.not_mem_nil, or_false] at hk
  simp only [pdx, Fin.ofNat]
  rcases hk with rfl | rfl | rfl | rfl <;> dsimp only at hb hb' <;> omega

theorem setupkvm_returns : Returns (setupkvm L) fun r => ∀ d ∈ r, Fresh d := by
  refine Returns.any.bind fun r _ => ?_
  cases r with
  | none => exact .pure fun d' hd' => nomatch hd'
  | some p =>
    refine (mapKernel_returns (List.Subset.refl _)).mono fun r hr d hd => ?_
    have hmap := hr d hd
    refine ⟨fun b hb => ?_, fun b hb hb' => hmap.entry b hb' (.inr ⟨⟨1040384, 1040384, 8192, true⟩, ?_, hb, ?_⟩),
      fun i hi hi' => hmap.other i fun k hk b hb heq => ?_⟩
    · have hmax : b < maxPage := hb.trans (by decide)
      rw [hmap.lookup b hmax fun k hk hcov => ?_]
      · rfl
      · have hkernel := kmap_kernel hk hcov.1 hcov.2
        have huser := (pdx_lt_iff hmax).mpr hb
        omega
    · simp [kmap]
    · simp only [maxPage] at hb'
      dsimp only
      omega
    · have hrange := pdx_of_kmap hk hb
      rw [heq] at hrange
      omega

structure Ready (d : Pgdir) (sz : Word) : Prop where
  device : ∀ b, 1040384 ≤ b → b < maxPage → KernelEntry d b
  tables : ∀ b, b * 4096 < sz.toNat → d.HasTable b
  bound : sz < 0x80000000

theorem Fresh.ready (h : Fresh d) : Ready d 0 := ⟨h.device, fun b hb => by simp at hb, by decide⟩

theorem KernelEntry.congr {d' : Pgdir} {b : Nat} (h : KernelEntry d b) (hd : d'.lookup b = d.lookup b) :
    KernelEntry d' b := by
  obtain ⟨x, hx, hu⟩ := h
  exact ⟨x, by rw [hd, hx], hu⟩

theorem lt_kernbase_of_mem {k : Nat} (h : sz < 0x80000000) (ha : a ∈ pagesBelow k sz) : a < kernbase := by
  have hsz : sz.toNat < 2147483648 := h
  have hmem := List.mem_range'_1.mp ha
  simp only [kernbase]
  omega

structure Grown (d : Pgdir) (as : List Nat) (newsz : Word) (r : Pgdir × Word) : Prop where
  size : r.2 = newsz
  new : ∀ a ∈ as, r.1.HasTable a
  tables : ∀ b, d.HasTable b → r.1.HasTable b
  lookup : ∀ b < maxPage, kernbase ≤ b → r.1.lookup b = d.lookup b

theorem allocLoop_returns {as : List Nat} (has : ∀ a ∈ as, a < kernbase) :
    Returns (allocLoop L oldsz newsz as d) fun r => r.2 ≠ 0 → Grown d as newsz r := by
  induction as generalizing d with
  | nil => exact .pure fun _ => ⟨rfl, by simp, fun _ h => h, fun _ _ _ => rfl⟩
  | cons a as ih =>
    obtain ⟨ha, has⟩ := List.forall_mem_cons.mp has
    refine Returns.any.bind fun r _ => ?_
    cases r with
    | none => exact Returns.any.bind fun _ _ => .pure fun h => absurd rfl h
    | some mem =>
      have hamax : a < maxPage := ha.trans (by decide)
      refine (mappage_returns hamax).bind fun r hr => ?_
      obtain ⟨d', ok⟩ := r
      refine .ite (fun hok => ?_) fun _ =>
        Returns.any.bind fun _ _ => Returns.any.bind fun _ _ => .pure fun h => absurd rfl h
      refine (ih has).mono fun r hrest hne => ?_
      have hgrown := hrest hne
      refine ⟨hgrown.size, ?_, fun b hb => hgrown.tables b (hr.tables b hb), fun b hb hb' => ?_⟩
      · refine List.forall_mem_cons.mpr ⟨?_, hgrown.new⟩
        exact hgrown.tables a (HasTable.of_lookup (hr.entry hok))
      · rw [hgrown.lookup b hb hb', hr.lookup b hb (by omega)]

theorem allocuvm_returns (h : Ready d oldsz) :
    Returns (allocuvm L d oldsz newsz) fun r => r.2 ≠ 0 → Ready r.1 r.2 := by
  refine .ite (fun _ => .pure fun hne => absurd rfl hne) fun hkern => ?_
  refine .ite (fun _ => .pure fun _ => h) fun hle => ?_
  rw [BitVec.not_le] at hkern
  refine (allocLoop_returns fun a => lt_kernbase_of_mem hkern).mono fun r hr hne => ?_
  have hgrown := hr hne
  refine ⟨fun b hb hb' => ?_, fun b hb => ?_, by rw [hgrown.size]; exact hkern⟩
  · exact (h.device b hb hb').congr (hgrown.lookup b hb' (by simp only [kernbase]; omega))
  · rw [hgrown.size] at hb
    by_cases hold : b * 4096 < oldsz.toNat
    · exact hgrown.tables b (h.tables b hold)
    · have hbound : oldsz.toNat < 2147483648 := h.bound
      refine hgrown.new b (List.mem_range'_1.mpr ?_)
      rw [toNat_pgroundup (by omega)]
      omega

theorem allocuvm_bound (h : oldsz < 0x80000000) :
    Returns (allocuvm L d oldsz newsz) fun r => r.2 < 0x80000000 := by
  refine .ite (fun _ => .pure (show (0 : Word) < 0x80000000 by decide)) fun hkern => ?_
  refine .ite (fun _ => .pure h) fun _ => ?_
  rw [BitVec.not_le] at hkern
  refine (allocLoop_returns fun a => lt_kernbase_of_mem hkern).mono fun r hr => ?_
  by_cases hne : r.2 = 0
  · rw [hne]
    decide
  · rw [(hr hne).size]
    exact hkern

theorem loadSegment_returns {ph : Option ProgHdr} (h : Ready d sz) :
    Returns (loadSegment L d sz ph) fun r => ∀ sz' ∈ r.2, Ready r.1 sz' := by
  cases ph with
  | none => exact .pure fun _ hsz => nomatch hsz
  | some ph =>
    refine .ite (fun _ => .pure fun sz' hsz => ?_) fun _ => ?_
    · cases hsz
      exact h
    refine .ite (fun _ => .pure fun _ hsz => nomatch hsz) fun _ => ?_
    refine .ite (fun _ => .pure fun _ hsz => nomatch hsz) fun _ => ?_
    refine (allocuvm_returns h).bind fun r hr => ?_
    obtain ⟨d', sz'⟩ := r
    refine .ite (fun _ => .pure fun _ hsz => nomatch hsz) fun hne => ?_
    refine .ite (fun _ => .pure fun _ hsz => nomatch hsz) fun _ => ?_
    refine Returns.any.bind fun ok _ => ?_
    refine .ite (fun _ => .pure fun _ hsz => ?_) fun _ => .pure fun _ hsz => nomatch hsz
    cases hsz
    exact hr hne

theorem loadSegments_returns {phs : List (Option ProgHdr)} (h : Ready d sz) :
    Returns (loadSegments L phs d sz) fun r => ∀ sz' ∈ r.2, Ready r.1 sz' := by
  induction phs generalizing d sz with
  | nil =>
    refine .pure fun _ hsz => ?_
    cases hsz
    exact h
  | cons ph phs ih =>
    refine (loadSegment_returns h).bind fun r hr => ?_
    obtain ⟨d', sz'⟩ := r
    cases sz' with
    | none => exact .pure fun _ hsz => nomatch hsz
    | some sz' => exact ih (hr sz' rfl)

theorem loadLoop_balances {ph : ProgHdr} {is : List Nat} :
    Balances free (loadLoop d ph is) d.pages fun _ => d.pages := by
  induction is with
  | nil => exact .pure rfl
  | cons i is ih =>
    refine .ite (fun _ => .throw) fun _ => ?_
    exact .ite (fun _ => ih) fun _ => .pure rfl

theorem loadSegment_balances {ph : Option ProgHdr} :
    Balances free (loadSegment L d sz ph) d.pages fun r => r.1.pages := by
  cases ph with
  | none => exact .pure rfl
  | some ph =>
    refine .ite (fun _ => .pure rfl) fun _ => ?_
    refine .ite (fun _ => .pure rfl) fun _ => ?_
    refine .ite (fun _ => .pure rfl) fun _ => ?_
    refine allocuvm_balances.bind fun r => ?_
    obtain ⟨d', sz'⟩ := r
    refine .ite (fun _ => .pure rfl) fun _ => ?_
    refine .ite (fun _ => .pure rfl) fun _ => ?_
    refine loadLoop_balances.bind fun ok => ?_
    exact .ite (fun _ => .pure rfl) fun _ => .pure rfl

theorem loadSegments_balances {phs : List (Option ProgHdr)} :
    Balances free (loadSegments L phs d sz) d.pages fun r => r.1.pages := by
  induction phs generalizing d sz with
  | nil => exact .pure rfl
  | cons ph phs ih =>
    refine loadSegment_balances.bind fun r => ?_
    obtain ⟨d', sz'⟩ := r
    cases sz' with
    | none => exact .pure rfl
    | some sz' => exact ih

theorem clearpteu_balances : Balances free (clearpteu d a) d.pages Pgdir.pages := by
  unfold clearpteu
  split
  case h_1 => exact .throw
  case h_2 x hx =>
    have hpages := pages_setEntry (e := x.map fun x => { x with user := false }) (HasTable.of_entry hx)
    have howned : owned a (x.map fun x => { x with user := false }) = owned a x := by
      cases x with
      | none => rfl
      | some x => rfl
    rw [lookup_of_entry hx, howned] at hpages
    exact .pure (add_right_cancel hpages).symm

theorem clearpteu_returns (h : Ready d sz) (ha : a < maxPage) :
    Returns (clearpteu d a) fun d' => Ready d' sz := by
  unfold clearpteu
  split
  case h_1 => exact .throw
  case h_2 x hx =>
    refine .pure ⟨fun b hb hb' => ?_, fun b hb => hasTable_setEntry.mpr (h.tables b hb), h.bound⟩
    have hdevice := h.device b hb hb'
    by_cases hba : b = a
    · subst hba
      obtain ⟨y, hy, -⟩ := hdevice
      rw [lookup_of_entry hx] at hy
      refine ⟨{ y with user := false }, ?_, rfl⟩
      rw [lookup_setEntry_self (HasTable.of_entry hx), hy]
      rfl
    · exact hdevice.congr (lookup_setEntry_of_ne ha hb' hba)

section copyout

variable {va len : Word}

theorem uva2ka_eq (word0 : Option Word) (h : d.HasTable a) :
    (uva2ka word0 d a = pure none ∨ ∃ f, uva2ka word0 d a = pure (some (.own f))) := by
  unfold uva2ka
  split
  case h_1 hnone => exact absurd h (entry_eq_none.mp hnone)
  case h_2 => exact .inl rfl
  case h_3 x hx =>
    split
    case isTrue => exact .inr ⟨x.frame, rfl⟩
    case isFalse => exact .inl rfl

theorem copyout_rest (hlen : va.toNat + len.toNat ≤ sz.toNat) (hsz : sz.toNat < 2147483648) {n : Word}
    (hn : n = if len < 4096 - (va - (va &&& ~~~4095)) then len else 4096 - (va - (va &&& ~~~4095))) :
    len - n = 0 ∨ ((va &&& ~~~4095) + 4096).toNat + (len - n).toNat ≤ sz.toNat := by
  have h4096 : (4096 : Word).toNat = 4096 := rfl
  have hround := toNat_pgrounddown va
  have hoff : (va - (va &&& ~~~4095)).toNat = va.toNat % 4096 := by
    rw [BitVec.toNat_sub_of_le (by rw [BitVec.le_def]; omega), hround]
    omega
  have hroom : (4096 - (va - (va &&& ~~~4095))).toNat = 4096 - va.toNat % 4096 := by
    rw [BitVec.toNat_sub_of_le (by rw [BitVec.le_def]; omega), hoff, h4096]
  split at hn
  case isTrue =>
    left
    rw [hn, BitVec.sub_self]
    rfl
  case isFalse hle =>
    right
    rw [BitVec.lt_def, hroom] at hle
    have hnext : ((va &&& ~~~4095) + 4096).toNat = va.toNat / 4096 * 4096 + 4096 := by
      rw [BitVec.toNat_add, hround, h4096]
      exact Nat.mod_eq_of_lt (by omega)
    have hrest : (len - n).toNat = len.toNat - (4096 - va.toNat % 4096) := by
      rw [hn, BitVec.toNat_sub_of_le (by rw [BitVec.le_def]; omega), hroom]
    omega

theorem copyoutLoop_eq (h : Ready d sz) (hlen : len = 0 ∨ va.toNat + len.toNat ≤ sz.toNat) :
    ∃ b, copyoutLoop word0 d fuel va len = pure b := by
  induction fuel generalizing va len with
  | zero => exact ⟨true, rfl⟩
  | succ fuel ih =>
    unfold copyoutLoop
    split
    case isTrue => exact ⟨true, rfl⟩
    case isFalse hne =>
      have hlen := hlen.resolve_left hne
      have hpos : 0 < len.toNat := Nat.pos_of_ne_zero fun h0 => hne (BitVec.eq_of_toNat_eq h0)
      have htable : d.HasTable (va.toNat / 4096) := h.tables _ (by omega)
      rcases uva2ka_eq word0 htable with hka | ⟨f, hka⟩
      · rw [hka]
        exact ⟨false, rfl⟩
      · rw [hka]
        exact ih (copyout_rest hlen h.bound rfl)

theorem copyout_device (h : Ready d sz) (hva : 4261412864 ≤ va.toNat) (hlen : 0 < len.toNat) :
    copyout word0 d va len = pure false := by
  obtain ⟨x, hx, huser⟩ := h.device (va.toNat / 4096) (by omega) (by have := va.isLt; simp only [maxPage]; omega)
  have hka : uva2ka word0 d (va.toNat / 4096) = pure none := by
    simp [uva2ka, entry_of_lookup hx, huser]
  have hne : len ≠ 0 := by
    rintro rfl
    cases hlen
  obtain ⟨fuel, hfuel⟩ : ∃ fuel, len.toNat = fuel + 1 := ⟨len.toNat - 1, by omega⟩
  rw [copyout, hfuel, copyoutLoop, if_neg hne, hka]
  rfl

theorem copyout_push (word0 : Option Word) {k : Nat} (h : Ready d sz) (hsp : sp.toNat ≤ sz.toNat) (hk : 0 < k)
    (hk' : k + 3 ≤ 33554432) {sp' : Word} (hpush : sp' = sp - BitVec.ofNat 32 k ∨
      sp' = (sp - BitVec.ofNat 32 k) &&& ~~~3) :
    ∃ b, copyout word0 d sp' (BitVec.ofNat 32 k) = pure b ∧ (b = true → sp'.toNat ≤ sz.toNat) := by
  have hbound : sz.toNat < 2147483648 := h.bound
  have hlen : (BitVec.ofNat 32 k).toNat = k := by
    rw [BitVec.toNat_ofNat]
    exact Nat.mod_eq_of_lt (by omega)
  have hsub : (sp - BitVec.ofNat 32 k).toNat = if k ≤ sp.toNat then sp.toNat - k else 4294967296 + sp.toNat - k := by
    rw [BitVec.toNat_sub, hlen]
    split <;> omega
  have hle : sp'.toNat ≤ (sp - BitVec.ofNat 32 k).toNat ∧ (sp - BitVec.ofNat 32 k).toNat / 4 * 4 ≤ sp'.toNat := by
    rcases hpush with rfl | rfl
    · omega
    · rw [toNat_align]
      omega
  by_cases hwrap : k ≤ sp.toNat
  · rw [if_pos hwrap] at hsub
    have hloop : ∃ b, copyout word0 d sp' (BitVec.ofNat 32 k) = pure b := copyoutLoop_eq h (.inr (by omega))
    obtain ⟨b, hb⟩ := hloop
    exact ⟨b, hb, fun _ => by omega⟩
  · rw [if_neg hwrap] at hsub
    exact ⟨false, copyout_device h (by omega) (by omega), (nomatch ·)⟩

theorem pushArgs_eq (word0 : Option Word) (h : Ready d sz) {argc : Nat} (hsp : sp.toNat ≤ sz.toNat) (hargc : argc ≤ 32)
    (hargs : ∀ n ∈ args, n + 4 ≤ 33554432) :
    ∃ r, pushArgs word0 d argc sp args = pure r ∧
      ∀ sp' ∈ r, sp'.toNat ≤ sz.toNat ∧ argc + args.length ≤ 32 := by
  induction args generalizing argc sp with
  | nil =>
    refine ⟨some sp, rfl, fun sp' hsp' => ?_⟩
    cases hsp'
    exact ⟨hsp, hargc⟩
  | cons n args ih =>
    obtain ⟨hn, hargs⟩ := List.forall_mem_cons.mp hargs
    unfold pushArgs
    split
    case isTrue => exact ⟨none, rfl, fun _ hsp' => nomatch hsp'⟩
    case isFalse hlt =>
      obtain ⟨b, hcopy, hb⟩ := copyout_push word0 (k := n + 1) h hsp (by omega) (by omega) (.inr rfl)
      dsimp only
      rw [hcopy]
      cases b with
      | false => exact ⟨none, rfl, fun _ hsp' => nomatch hsp'⟩
      | true =>
        obtain ⟨r, hr, hsp'⟩ := ih (hb rfl) (show argc + 1 ≤ 32 by omega) hargs
        refine ⟨r, hr, fun sp' hmem => ⟨(hsp' sp' hmem).1, ?_⟩⟩
        have := (hsp' sp' hmem).2
        rw [List.length_cons]
        omega

theorem Ready.pgroundup (h : Ready d sz) (hbound : pgroundup sz < 0x80000000) : Ready d (pgroundup sz) := by
  refine ⟨h.device, fun b hb => h.tables b ?_, hbound⟩
  have hsz : sz.toNat < 2147483648 := h.bound
  rw [toNat_pgroundup (by omega)] at hb
  omega

theorem allocStack_returns (h : Ready d sz) :
    Returns (allocuvm L d (pgroundup sz) (pgroundup sz + 8192)) fun r => r.2 ≠ 0 → Ready r.1 r.2 := by
  have hsz : sz.toNat < 2147483648 := h.bound
  have hround := toNat_pgroundup (show sz.toNat + 4095 < 2 ^ 32 by omega)
  by_cases hbound : pgroundup sz < 0x80000000
  · exact allocuvm_returns (h.pgroundup hbound)
  · refine .ite (fun _ => .pure fun hne => absurd rfl hne) fun hkern => ?_
    rw [BitVec.not_lt, BitVec.le_def] at hbound
    rw [BitVec.le_def, BitVec.toNat_add] at hkern
    have h8192 : (8192 : Word).toNat = 8192 := rfl
    have hkernbase : (0x80000000 : Word).toNat = 2147483648 := rfl
    omega

theorem setupStack_balances (h : Ready d sz) (hargs : ∀ n ∈ args, n + 4 ≤ 33554432) :
    Balances free (setupStack L word0 d sz args) d.pages fun r => r.1.pages := by
  refine allocuvm_balances.bind_returns (allocStack_returns h) fun r hr => ?_
  obtain ⟨d₁, sz₁⟩ := r
  refine .ite (fun _ => .pure rfl) fun hne => ?_
  have hpage : (sz₁ - 8192).toNat / 4096 < maxPage := by
    have := (sz₁ - 8192).isLt
    simp only [maxPage]
    omega
  refine clearpteu_balances.bind_returns (clearpteu_returns (hr hne) hpage) fun d₂ hready => ?_
  obtain ⟨r, hpush, hsp⟩ := pushArgs_eq word0 hready (le_refl sz₁.toNat) (Nat.zero_le 32) hargs
  rw [hpush]
  cases r with
  | none => exact .pure rfl
  | some sp =>
    obtain ⟨hle, hargc⟩ := hsp sp rfl
    obtain ⟨b, hcopy, -⟩ := copyout_push word0 (k := (3 + args.length + 1) * 4) hready hle
      (by omega) (by omega) (.inl rfl)
    simp only [pure_bind]
    rw [hcopy]
    cases b with
    | false => exact .pure rfl
    | true => exact .pure rfl

theorem loadImage_balances {img : Image} (hargs : ∀ n ∈ args, n + 4 ≤ 33554432) :
    Balances free (loadImage L word0 img args) 0 fun r => pagesOf (r.map (·.1)) := by
  refine .ite (fun _ => .pure rfl) fun _ => ?_
  refine setupkvm_balances.bind_returns setupkvm_returns fun r hr => ?_
  rw [add_zero]
  cases r with
  | none => exact .pure rfl
  | some d =>
    refine loadSegments_balances.bind_returns (loadSegments_returns (hr d rfl).ready) fun r hload => ?_
    obtain ⟨d₁, sz₁⟩ := r
    cases sz₁ with
    | none => exact freevm_none_balances rfl
    | some sz₁ =>
      refine (setupStack_balances (hload sz₁ rfl) hargs).bind fun r => ?_
      obtain ⟨d₂, sz₂⟩ := r
      cases sz₂ with
      | none => exact freevm_none_balances rfl
      | some sz₂ => exact .pure rfl

theorem setupStack_returns (h : Ready d sz) :
    Returns (setupStack L word0 d sz args) fun r => ∀ sz' ∈ r.2, sz' < 0x80000000 := by
  refine (allocStack_returns h).bind fun r hr => ?_
  obtain ⟨d₁, sz₁⟩ := r
  refine .ite (fun _ => .pure fun _ hsz => nomatch hsz) fun hne => ?_
  refine Returns.any.bind fun d₂ _ => Returns.any.bind fun r _ => ?_
  cases r with
  | none => exact .pure fun _ hsz => nomatch hsz
  | some sp =>
    refine Returns.any.bind fun ok _ => ?_
    refine .ite (fun _ => .pure fun sz' hsz => ?_) fun _ => .pure fun _ hsz => nomatch hsz
    cases hsz
    exact (hr hne).bound

theorem loadImage_returns {img : Image} :
    Returns (loadImage L word0 img args) fun r => ∀ p ∈ r, p.2 < 0x80000000 := by
  refine .ite (fun _ => .pure fun _ hp => nomatch hp) fun _ => ?_
  refine setupkvm_returns.bind fun r hr => ?_
  cases r with
  | none => exact .pure fun _ hp => nomatch hp
  | some d =>
    refine (loadSegments_returns (hr d rfl).ready).bind fun r hload => ?_
    obtain ⟨d₁, sz₁⟩ := r
    cases sz₁ with
    | none => exact Returns.any.bind fun _ _ => .pure fun _ hp => nomatch hp
    | some sz₁ =>
      refine (setupStack_returns (hload sz₁ rfl)).bind fun r hstack => ?_
      obtain ⟨d₂, sz₂⟩ := r
      cases sz₂ with
      | none => exact Returns.any.bind fun _ _ => .pure fun _ hp => nomatch hp
      | some sz₂ =>
        refine .pure fun p hp => ?_
        cases hp
        exact hstack sz₂ rfl

/-! ### With arguments of any length

A stray copy cuts off a part of the free list, so that pages get lost but none is in two places. -/

theorem memmove_stray (off k : Nat) (f : Page) (s : Kmem) :
    memmove off k (.stray f) s =
      if f ∈ s.freelist then
        .ok ((), if off = 0 ∧ 1 < k then ⟨s.freelist.takeWhile (· ≠ f) ++ [f], true⟩ else s)
      else .error .stray := by
  change (if f ∈ s.freelist then _ else _ : K Unit) s = _
  split
  case isTrue hf =>
    split
    case isTrue => rfl
    case isFalse => rfl
  case isFalse hf => rfl

theorem takeWhile_append_sublist {l : List Page} {f : Page} (hf : f ∈ l) :
    (l.takeWhile (· ≠ f) ++ [f]).Sublist l := by
  induction l with
  | nil => cases hf
  | cons p l ih =>
    by_cases hp : p = f
    · subst hp
      simp
    · have hmem : f ∈ l := (List.mem_cons.mp hf).resolve_left fun h => hp h.symm
      simpa [hp] using ih hmem

theorem memmove_bounded {off k : Nat} {target : Target} :
    Bounded free (memmove off k target) i fun _ => i := by
  cases target with
  | own f => exact .pure rfl
  | stray f =>
    rintro s r t h
    rw [memmove_stray] at h
    split at h
    case isTrue hf =>
      cases h
      apply add_le_add_left
      split
      case isTrue => exact Multiset.coe_le.mpr (takeWhile_append_sublist hf).subperm
      case isFalse => exact le_rfl
    case isFalse => cases h

theorem uva2ka_bounded : Bounded free (uva2ka word0 d a) i fun _ => i := by
  unfold uva2ka
  split
  case h_1 =>
    split
    case h_1 => exact .throw
    case h_2 => exact .pure rfl
  case h_2 => exact .pure rfl
  case h_3 => exact .pure rfl

theorem copyoutLoop_bounded : Bounded free (copyoutLoop word0 d fuel va len) i fun _ => i := by
  induction fuel generalizing va len with
  | zero => exact .pure rfl
  | succ fuel ih =>
    refine .ite (fun _ => .pure rfl) fun _ => uva2ka_bounded.bind fun r => ?_
    cases r with
    | none => exact .pure rfl
    | some target => exact memmove_bounded.bind fun _ => ih

theorem pushArgs_bounded {argc : Nat} : Bounded free (pushArgs word0 d argc sp args) i fun _ => i := by
  induction args generalizing argc sp with
  | nil => exact .pure rfl
  | cons n args ih =>
    refine .ite (fun _ => .pure rfl) fun _ => copyoutLoop_bounded.bind fun b => ?_
    exact .ite (fun _ => ih) fun _ => .pure rfl

theorem setupStack_bounded : Bounded free (setupStack L word0 d sz args) d.pages fun r => r.1.pages := by
  refine allocuvm_balances.bounded.bind fun r => ?_
  obtain ⟨d₁, sz₁⟩ := r
  refine .ite (fun _ => .pure rfl) fun _ => ?_
  refine clearpteu_balances.bounded.bind fun d₂ => ?_
  refine (pushArgs_bounded (i := d₂.pages)).bind fun r => ?_
  cases r with
  | none => exact .pure rfl
  | some sp =>
    refine (copyoutLoop_bounded (i := d₂.pages)).bind fun b => ?_
    exact .ite (fun _ => .pure rfl) fun _ => .pure rfl

theorem loadImage_bounded {img : Image} :
    Bounded free (loadImage L word0 img args) 0 fun r => pagesOf (r.map (·.1)) := by
  refine .ite (fun _ => .pure rfl) fun _ => ?_
  refine (setupkvm_balances (i := 0)).bounded.bind fun r => ?_
  cases r with
  | none => exact .pure rfl
  | some d =>
    rw [add_zero]
    refine loadSegments_balances.bounded.bind fun r => ?_
    obtain ⟨d₁, sz₁⟩ := r
    cases sz₁ with
    | none => exact (freevm_none_balances rfl).bounded
    | some sz₁ =>
      refine setupStack_bounded.bind fun r => ?_
      obtain ⟨d₂, sz₂⟩ := r
      cases sz₂ with
      | none => exact (freevm_none_balances rfl).bounded
      | some sz₂ => exact .pure rfl

end copyout

end Xv6.Vm
